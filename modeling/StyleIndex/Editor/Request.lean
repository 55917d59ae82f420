import StyleIndex.Stylesheet.Closing
import StyleIndex.Symbol.Extract
import StyleIndex.Visible

set_option autoImplicit false

/-! # Requests

Every question of an editor concerns a buffer and a cursor in it. A request holds what all
answers start from: the buffer, the cursor, and the symbols visible there.

A buffer that is being typed often does not parse. Then the text before the cursor is parsed
with its open constructs closed, and the imports of the stored record are added; if that does
not parse either, the stored record is used.
-/

namespace StyleIndex

/-- An editor buffer. Its text may differ from the file. -/
structure Buffer where
  path : Text
  text : Text

/-- A buffer, a cursor in it, and the symbols visible there. -/
structure Request where
  path : Text
  text : Text
  offset : Nat
  visible : VisibleSet

/-- Adds the imports of `stored` whose paths `own` does not have yet. -/
def mergeImports (own stored : List Import) : List Import :=
  stored.foldl
    (fun imports i => if imports.any (·.filepath == i.filepath) then imports else imports ++ [i])
    own

/-- The record of a buffer that does not parse. -/
def recoverRecord (s : Store) (path t : Text) (offset : Nat) : Document :=
  let stored := (s.get? path).getD (Document.empty path)
  match extractStrict path (closeOpen (t.take offset)) (some offset) with
  | .ok record => { record with imports := mergeImports record.imports stored.imports }
  | .error _ => stored

/-- The record of a buffer at a cursor: that of its text, or a recovered one. -/
def recordAt (s : Store) (path t : Text) (offset : Nat) : Document :=
  match extractStrict path t (some offset) with
  | .ok record => record
  | .error _ => recoverRecord s path t offset

namespace Buffer

/-- The offset nearest to the given one that lies in the buffer. -/
def clamp (b : Buffer) (offset : Int) : Nat := min offset.toNat b.text.length

/-- The request at an offset of a buffer. -/
def request (s : Store) (b : Buffer) (offset : Int) : Request :=
  let path := s.key b.path
  let offset := b.clamp offset
  ⟨path, b.text, offset, s.resolve (recordAt s path b.text offset)⟩

/-- The request at an offset of a buffer that has to parse. -/
def requestStrict (s : Store) (b : Buffer) (offset : Int) : Except ParseError Request :=
  let path := s.key b.path
  let offset := b.clamp offset
  (extractStrict path b.text (some offset)).map fun record =>
    ⟨path, b.text, offset, s.resolve record⟩

end Buffer

end StyleIndex
