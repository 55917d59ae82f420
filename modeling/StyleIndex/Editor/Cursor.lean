import StyleIndex.Editor.Call
import StyleIndex.Editor.Completion
import StyleIndex.Editor.Hover

set_option autoImplicit false

/-! # Questions about a cursor

The questions that an editor asks about a cursor in a buffer, and their answers.
-/

namespace StyleIndex

/-- What can be asked about a cursor. -/
inductive CursorQuestion where
  | complete
  | hover
  | signature
  | definition
  deriving DecidableEq

/-- The answer to a question about a cursor. -/
inductive CursorAnswer where
  | complete (items : List CompletionItem)
  | hover (result : Option HoverResult)
  | signature (result : Option SignatureHelp)
  | definition (result : Option Location)

/-- Answers a question about a cursor in a buffer. Only suggestions can fail. -/
def Store.answer (s : Store) (settings : Settings) (b : Buffer) (offset : Int) :
    CursorQuestion → Except ParseError CursorAnswer
  | .complete => (StyleIndex.complete s settings b offset).map .complete
  | .hover => .ok (.hover (hover? s b offset))
  | .signature => .ok (.signature (signatureHelp? s b offset))
  | .definition => .ok (.definition (definition? s b offset))

end StyleIndex
