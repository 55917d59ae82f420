import StyleIndex.Index.Scan
import StyleIndex.Editor.Cursor
import StyleIndex.ImportGraph.Query
import StyleIndex.Search.Basic

set_option autoImplicit false

/-! # Answers in plain text

How answers are printed for a reader. Lines and columns are counted from one, and paths below the
root are shown relative to it.
-/

namespace StyleIndex

/-- A text as a line of its own. -/
def Text.line (t : Text) : Text := t ++ [Ascii.lf]

/-- A path as it is shown. -/
def displayPath (root path : Text) : Text :=
  match Path.relative? root path with
  | none => path
  | some rel => if Path.leadsOut rel then path else rel

/-- A place in a file as it is shown. -/
def displayPlace (root path : Text) (p : Position) : Text :=
  displayPath root path ++ [Ascii.colon] ++ Text.ofInt (p.line + 1) ++ [Ascii.colon] ++
    Text.ofInt (p.character + 1)

/-! ## Signatures -/

/-- The column of the `n`-th of the given labels in a signature, found by searching for them in
order from a column on. -/
def columnFrom (signature : Text) : (column n : Nat) → List Text → Nat
  | column, _, [] => column
  | column, n, label :: labels =>
    match Text.indexOf? label (signature.drop column) with
    | none => column
    | some i =>
      match n with
      | 0 => column + i
      | n + 1 => columnFrom signature (column + i + label.length) n labels

/-- The column of the `n`-th parameter in a signature, in bytes. -/
def parameterColumn (signature : Text) (labels : List Text) (n : Nat) : Nat :=
  let start :=
    match Text.byteIndex? Ascii.lparen signature with
    | some i => i + 1
    | none => 0
  columnFrom signature start n labels

/-- A signature, with a caret under the parameter the cursor is in. -/
def SignatureHelp.print (h : SignatureHelp) : Text :=
  Text.line h.label ++
    match h.parameters[h.activeParameter]? with
    | none => []
    | some label =>
      let column := parameterColumn h.label h.parameters h.activeParameter
      Text.line (List.replicate column Ascii.space ++ text "^ " ++ label)

/-! ## Answers -/

/-- One suggestion. -/
def CompletionItem.print (i : CompletionItem) : Text :=
  Text.line (Text.join [Ascii.tab] [i.label, i.kind.name, i.detail])

/-- An answer about a cursor. -/
def CursorAnswer.print (root : Text) : CursorAnswer → Text
  | .complete items => items.flatMap CompletionItem.print
  | .hover none => text "No symbol found\n"
  | .hover (some h) => Text.line h.contents
  | .signature none => text "No call found\n"
  | .signature (some h) => h.print
  | .definition none => text "No definition found\n"
  | .definition (some l) => Text.line (displayPlace root l.path l.range.start)

/-- A text filled up with spaces to a width. -/
def Text.padTo (width : Nat) (t : Text) : Text :=
  t ++ List.replicate (width - t.length) Ascii.space

/-- A symbol found by a search. -/
def SymbolHit.print (root : Text) (h : SymbolHit) : Text :=
  Text.line (Text.join [Ascii.tab]
    [Text.padTo 8 h.kind.name, h.name, displayPlace root h.location.path h.location.range.start])

/-- The answer to a query about the import graph. -/
def QueryAnswer.print (root : Text) (a : QueryAnswer) : Text :=
  (a.results.flatMap fun r =>
    Text.line (Text.ofNat r.depth ++ [Ascii.tab] ++ displayPath root r.path)) ++
    if a.truncated then
      text "... " ++ Text.ofNat (a.totalFound - a.totalReturned) ++ text " more\n"
    else []

/-- Groups of files that import each other, counted from one. -/
def printCycles (root : Text) (groups : List (List Text)) : Text :=
  if groups.isEmpty then text "No import cycles\n"
  else groups.zipIdx.flatMap fun (group, i) =>
    text "Cycle " ++ Text.ofNat (i + 1) ++ text ":\n" ++
      group.flatMap fun path => text "  " ++ Text.line (displayPath root path)

/-- The counts of a scan. The time it took is not measured and given as zero. -/
def ScanStats.print (s : ScanStats) : Text :=
  text "✓ Scanned " ++ Text.ofNat s.total ++ text " stylesheets in 0.0s\n" ++
    text "  Parsed:    " ++ Text.line (Text.ofNat s.scanned) ++
    text "  Unchanged: " ++ Text.line (Text.ofNat s.unchanged) ++
    (if 0 < s.removed then text "  Removed:   " ++ Text.line (Text.ofNat s.removed) else []) ++
    (if 0 < s.failed then text "  Failed:    " ++ Text.line (Text.ofNat s.failed) else [])

end StyleIndex
