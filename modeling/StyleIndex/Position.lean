import StyleIndex.Text.Utf8

set_option autoImplicit false

/-! # Positions

An editor speaks of a line and a character on it, both counted from zero; the index speaks of
byte offsets. A line ends with a line feed, a carriage return, or the two together. Characters
are decoding steps, so a stray byte is one character.

Both conversions are total. An offset outside the text means its nearest end, and a character
past the end of a line means the end of that line, before its line break.
-/

namespace StyleIndex

/-- A line and a character on it. -/
structure Position where
  line : Int
  character : Int
  deriving DecidableEq

/-- The offsets just past each line break of a text that starts at offset `pos`. A carriage
return before a line feed is part of the same break. -/
def lineStartsAfter (pos : Nat) : Text → List Nat
  | [] => []
  | c :: rest =>
    if c = Ascii.lf ∨ (c = Ascii.cr ∧ rest.head? ≠ some Ascii.lf) then
      (pos + 1) :: lineStartsAfter (pos + 1) rest
    else lineStartsAfter (pos + 1) rest

/-- The lines of a text: the text and the offset of each line. -/
structure LineIndex where
  text : Text
  starts : List Nat

namespace LineIndex

/-- The lines of a text. There is always at least one. -/
def ofText (t : Text) : LineIndex := ⟨t, 0 :: lineStartsAfter 0 t⟩

/-- The number of lines. -/
def lineCount (l : LineIndex) : Nat := l.starts.length

/-- The number of the line that holds the offset, and its start. -/
def lineAt (l : LineIndex) (offset : Nat) : Nat × Nat :=
  let before := l.starts.takeWhile (· ≤ offset)
  (before.length - 1, before.getLastD 0)

/-- The position of an offset. -/
def positionAt (l : LineIndex) (offset : Int) : Position :=
  let offset := min offset.toNat l.text.length
  let (line, start) := l.lineAt offset
  ⟨line, Utf8.characterCount (l.text.slice start offset)⟩

/-- The offset of the line break that ends the line with the given start, or the end of the
text. -/
def lineEnd (l : LineIndex) (start : Nat) (nextStart? : Option Nat) : Nat :=
  match nextStart? with
  | none => l.text.length
  | some nextStart =>
    let stop := nextStart - 1
    if start < stop ∧ l.text[stop]? = some Ascii.lf ∧ l.text[stop - 1]? = some Ascii.cr then
      stop - 1
    else stop

/-- The number of bytes of the first `steps` characters of a text, as far as they start within
its first `limit` bytes. -/
def advance : (steps limit : Nat) → Text → Nat
  | 0, _, _ => 0
  | _ + 1, _, [] => 0
  | steps + 1, limit, c :: rest =>
    if limit = 0 then 0
    else
      let width := (Utf8.step c rest).2
      width + advance steps (limit - width) ((c :: rest).drop width)

/-- The offset of a position. -/
def offsetAt (l : LineIndex) (p : Position) : Nat :=
  if p.line < 0 then 0
  else
    match l.starts.drop p.line.toNat with
    | [] => l.text.length
    | start :: later =>
      start + advance p.character.toNat (l.lineEnd start later.head? - start) (l.text.drop start)

end LineIndex

end StyleIndex
