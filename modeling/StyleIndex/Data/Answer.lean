import StyleIndex.Data.Value
import StyleIndex.Editor.Cursor
import StyleIndex.ImportGraph.Query
import StyleIndex.Index.Scan
import StyleIndex.Search.Basic

set_option autoImplicit false

/-! # Answers as data

How answers are laid out as data. Names and order of the fields are part of the format; a field
without content is left out only where this is said.
-/

namespace StyleIndex

/-- An object with the given fields. -/
def Value.record (fields : List (String × Value)) : Value :=
  .object (fields.map fun f => (text f.1, f.2))

/-- A field, or none when its text is empty. -/
def Value.optionalField (name : String) (t : Text) : List (String × Value) :=
  if t.isEmpty then [] else [(name, .str t)]

/-- A position. -/
def Position.toValue (p : Position) : Value :=
  .record [("line", .int p.line), ("character", .int p.character)]

/-- A range. -/
def Range.toValue (r : Range) : Value :=
  .record [("start", r.start.toValue), ("end", r.stop.toValue)]

/-- A location. -/
def Location.toValue (l : Location) : Value :=
  .record [("path", .str l.path), ("range", l.range.toValue)]

/-- A suggestion; detail and documentation are left out when they are empty. -/
def CompletionItem.toValue (i : CompletionItem) : Value :=
  .record ([("label", .str i.label), ("kind", .str i.kind.name)] ++
    Value.optionalField "detail" i.detail ++
    Value.optionalField "documentation" i.documentation ++
    [("document", .str i.document), ("depth", .ofNat i.depth)])

/-- The suggestions at a cursor. -/
def completionValue (items : List CompletionItem) : Value :=
  .record [("items", .list (items.map CompletionItem.toValue))]

/-- A summary of a symbol. -/
def HoverResult.toValue (h : HoverResult) : Value :=
  .record [("contents", .str h.contents), ("range", h.range.toValue),
    ("definition", h.definition.toValue)]

/-- The signature of a call. There is always exactly one. -/
def SignatureHelp.toValue (h : SignatureHelp) : Value :=
  .record
    [("signatures", .list [.record [("label", .str h.label),
      ("parameters", .list (h.parameters.map fun p => .record [("label", .str p)]))]]),
    ("activeSignature", .int 0), ("activeParameter", .ofNat h.activeParameter)]

/-- A symbol found by a search. -/
def SymbolHit.toValue (h : SymbolHit) : Value :=
  .record [("name", .str h.name), ("kind", .str h.kind.name), ("location", h.location.toValue)]

/-- The answer to a query. The time it took is not measured and given as zero. -/
def QueryAnswer.toValue (a : QueryAnswer) : Value :=
  .record [("operation", .str a.operation), ("target", .str a.target),
    ("results", .list (a.results.map fun r =>
      .record [("path", .str r.path), ("depth", .ofNat r.depth)])),
    ("total_found", .ofNat a.totalFound), ("total_returned", .ofNat a.totalReturned),
    ("truncated", .bool a.truncated), ("took_ms", .int 0)]

/-- The counts of a scan. The time it took is not measured and given as zero. -/
def ScanStats.toValue (s : ScanStats) : Value :=
  .record [("scanned", .ofNat s.scanned), ("unchanged", .ofNat s.unchanged),
    ("removed", .ofNat s.removed), ("failed", .ofNat s.failed), ("duration", .int 0)]

/-- Groups of paths. -/
def cyclesValue (groups : List (List Text)) : Value := .list (groups.map Value.ofTexts)

/-- An answer about a cursor; no result is nothing. -/
def CursorAnswer.toValue : CursorAnswer → Value
  | .complete items => completionValue items
  | .hover r => (r.map HoverResult.toValue).getD .null
  | .signature r => (r.map SignatureHelp.toValue).getD .null
  | .definition r => (r.map Location.toValue).getD .null

end StyleIndex
