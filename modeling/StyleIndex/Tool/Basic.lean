import StyleIndex.Data.Answer
import StyleIndex.Manager
import StyleIndex.Tool.Arguments

set_option autoImplicit false

/-! # Tools

The questions that a client of the server can ask. A tool takes named arguments, finds the
workspace they concern, and answers with data or with a message.
-/

namespace StyleIndex

/-- A tool. -/
inductive Tool where
  | cursor (question : CursorQuestion)
  | workspaceSymbols
  | graph
  deriving DecidableEq

/-- The name of a tool. -/
def Tool.name : Tool → Text
  | .cursor .complete => text "scss_complete"
  | .cursor .hover => text "scss_hover"
  | .cursor .signature => text "scss_signature_help"
  | .cursor .definition => text "scss_definition"
  | .workspaceSymbols => text "scss_workspace_symbols"
  | .graph => text "scss_graph"

/-- All tools. -/
def Tool.all : List Tool :=
  [.cursor .complete, .cursor .hover, .cursor .signature, .cursor .definition, .workspaceSymbols,
    .graph]

/-- The tool with the given name. -/
def Tool.ofName? (name : Text) : Option Tool := Tool.all.find? (·.name = name)

/-- Why a tool has no answer. -/
inductive ToolError where
  /-- The arguments are not an object. -/
  | notObject
  /-- An argument has the wrong type. -/
  | wrongType (name : Text)
  | missing (name : Text)
  | negative (name : Text)
  | noWorkspace (path : Text)
  | unopenable (error : OpenError)
  | unparsable (error : ParseError)
  | unknownKind (kind : Text)
  | unknownOperation (operation : Text)
  | unanswered (error : QueryError)

/-- The wording of the error. -/
def ToolError.message : ToolError → Text
  | .notObject => text "invalid arguments format"
  | .wrongType name => text "invalid arguments: wrong type of value for " ++ name
  | .missing name => name ++ text " parameter is required"
  | .negative name => name ++ text " cannot be negative"
  | .noWorkspace path => text "no workspace contains " ++ path
  | .unopenable e => e.message
  | .unparsable e => e.message
  | .unknownKind kind =>
    text "invalid kind: " ++ kind ++ text " (must be one of: variable, mixin, function)"
  | .unknownOperation operation =>
    text "invalid operation: " ++ operation ++
      text " (must be one of: dependencies, dependents, cycles)"
  | .unanswered e => text "graph query failed: " ++ e.message

/-! ## Arguments -/

/-- Decodes the argument with the given name, if there is one. -/
def decodeArgument {α : Type} (arguments : List (Text × Value)) (name : String)
    (convert : Value → Option α) : Except ToolError (Option α) :=
  match Argument.find? arguments (text name) with
  | none => .ok none
  | some v =>
    match convert v with
    | some a => .ok (some a)
    | none => .error (.wrongType (text name))

/-- A required number that is not negative. -/
def requireNonNegative (name : String) : Option Int → Except ToolError Int
  | none => .error (.missing (text name))
  | some n => if n < 0 then .error (.negative (text name)) else .ok n

/-- A required text that is not empty. -/
def requireText (name : String) (t : Text) : Except ToolError Unit :=
  if t.isEmpty then .error (.missing (text name)) else .ok ()

/-- The nearest number from `low` to `high`. -/
def clampInt (n low high : Int) : Int := max low (min n high)

/-- The number, or the default when it is zero. -/
def orDefault (n default : Int) : Int := if n = 0 then default else n

/-- The workspace a path belongs to. -/
def Manager.require (m : Manager) (path : Text) : Except ToolError Workspace :=
  match m.workspaceOf? path with
  | some w => .ok w
  | none => .error (.noWorkspace path)

/-! ## The tools -/

/-- Answers a question about a cursor. Without the text of the buffer the file is read. -/
def Manager.askCursor (m : Manager) (fs : FileSystem) (question : CursorQuestion)
    (arguments : List (Text × Value)) : Except ToolError Value := do
  let path := (← decodeArgument arguments "path" Value.toText?).getD []
  let line ← decodeArgument arguments "line" Argument.toInt?
  let character ← decodeArgument arguments "character" Argument.toInt?
  let content ← decodeArgument arguments "text" Value.toText?
  requireText "path" path
  let line ← requireNonNegative "line" line
  let character ← requireNonNegative "character" character
  let w ← m.require path
  let buffer ←
    match content with
    | some t => pure ⟨path, t⟩
    | none => (Buffer.ofFile fs path).mapError .unopenable
  let offset := (LineIndex.ofText buffer.text).offsetAt ⟨line, character⟩
  let answer ← (w.answer buffer offset question).mapError .unparsable
  return answer.toValue

/-- The kinds with the given names. -/
def kindsOf (names : List Text) : Except ToolError (List SymbolKind) :=
  names.mapM fun name =>
    match SymbolKind.ofName? name with
    | some kind => .ok kind
    | none => .error (.unknownKind name)

/-- Searches symbols in one workspace or in all of them. No kinds means all kinds. -/
def Manager.askSymbols (m : Manager) (arguments : List (Text × Value)) :
    Except ToolError Value := do
  let query := (← decodeArgument arguments "query" Value.toText?).getD []
  let root := (← decodeArgument arguments "root" Value.toText?).getD []
  let names := (← decodeArgument arguments "kinds" Argument.toTexts?).getD []
  let limit := (← decodeArgument arguments "limit" Argument.toInt?).getD 0
  let kinds ← kindsOf names
  let workspaces ←
    if root.isEmpty then pure (m.roots.filterMap m.workspaceOf?) else (m.require root).map ([·])
  let hits := (workspaces.flatMap fun w => w.symbols query).filter fun h =>
    kinds.isEmpty || kinds.contains h.kind
  let limit := clampInt (orDefault limit 50) 1 500
  return .record [("results", .list ((hits.take limit.toNat).map SymbolHit.toValue)),
    ("total", .ofNat hits.length)]

/-- Answers a query about the import graph. -/
def Manager.askGraph (m : Manager) (arguments : List (Text × Value)) : Except ToolError Value := do
  let operation := (← decodeArgument arguments "operation" Value.toText?).getD []
  let target := (← decodeArgument arguments "target" Value.toText?).getD []
  let depth := (← decodeArgument arguments "depth" Argument.toInt?).getD 0
  let maxResults := (← decodeArgument arguments "max_results" Argument.toInt?).getD 0
  requireText "operation" operation
  requireText "target" target
  let w ← m.require target
  if operation = text "cycles" then
    return .record [("root", .str w.root), ("cycles", cyclesValue w.cycles)]
  else if (Direction.ofName? operation).isNone then throw (.unknownOperation operation)
  else
    let query : GraphQuery :=
      ⟨operation, target, clampInt (orDefault depth 1) 1 10,
        clampInt (orDefault maxResults 100) 1 500⟩
    let answer ← (w.query false query).mapError .unanswered
    return answer.toValue

/-- Answers a tool call. -/
def Manager.call (m : Manager) (fs : FileSystem) (tool : Tool) (arguments : Value) :
    Except ToolError Value :=
  match arguments with
  | .object fields =>
    match tool with
    | .cursor question => m.askCursor fs question fields
    | .workspaceSymbols => m.askSymbols fields
    | .graph => m.askGraph fields
  | _ => .error .notObject

end StyleIndex
