import StyleIndex.Text.Basic

set_option autoImplicit false

/-! # Reading a text as UTF-8

A text is read from the left in *decoding steps*. One step takes a well-formed UTF-8 sequence
and yields its code point, or, where none starts, takes a single stray byte. So every text
falls into characters in exactly one way, and a cut between two steps cuts between characters.

Well-formed means shortest form, no surrogates, nothing above `U+10FFFF`.
-/

namespace StyleIndex

/-- One character of a text: a code point, or a byte that belongs to none. -/
inductive Character where
  | scalar (code : Nat)
  | stray (byte : UInt8)
  deriving DecidableEq

namespace Utf8

/-- Whether `c` can continue a multi-byte sequence. -/
def isContinuation (c : UInt8) : Bool := 0x80 ≤ c && c ≤ 0xbf

/-- The low six bits of a continuation byte. -/
def payload (c : UInt8) : Nat := c.toNat - 0x80

/-- Whether `c` may follow the lead byte `lead` of a three-byte sequence: this rules out
overlong forms and surrogates. -/
def secondOfThree (lead c : UInt8) : Bool :=
  if lead = 0xe0 then 0xa0 ≤ c && c ≤ 0xbf
  else if lead = 0xed then 0x80 ≤ c && c ≤ 0x9f
  else isContinuation c

/-- Whether `c` may follow the lead byte `lead` of a four-byte sequence: this rules out
overlong forms and code points above `U+10FFFF`. -/
def secondOfFour (lead c : UInt8) : Bool :=
  if lead = 0xf0 then 0x90 ≤ c && c ≤ 0xbf
  else if lead = 0xf4 then 0x80 ≤ c && c ≤ 0x8f
  else isContinuation c

/-- The first decoding step of a text that starts with the byte `c`: the character and the
number of bytes it takes. -/
def step (c : UInt8) (rest : Text) : Character × Nat :=
  if c < 0x80 then (.scalar c.toNat, 1)
  else if 0xc2 ≤ c && c ≤ 0xdf then
    match rest with
    | c₁ :: _ =>
      if isContinuation c₁ then (.scalar ((c.toNat - 0xc0) * 64 + payload c₁), 2)
      else (.stray c, 1)
    | [] => (.stray c, 1)
  else if 0xe0 ≤ c && c ≤ 0xef then
    match rest with
    | c₁ :: c₂ :: _ =>
      if secondOfThree c c₁ && isContinuation c₂ then
        (.scalar ((c.toNat - 0xe0) * 4096 + payload c₁ * 64 + payload c₂), 3)
      else (.stray c, 1)
    | _ => (.stray c, 1)
  else if 0xf0 ≤ c && c ≤ 0xf4 then
    match rest with
    | c₁ :: c₂ :: c₃ :: _ =>
      if secondOfFour c c₁ && isContinuation c₂ && isContinuation c₃ then
        (.scalar ((c.toNat - 0xf0) * 262144 + payload c₁ * 4096 + payload c₂ * 64
          + payload c₃), 4)
      else (.stray c, 1)
    | _ => (.stray c, 1)
  else (.stray c, 1)

/-- Every decoding step takes at least one byte. -/
theorem step_width_pos (c : UInt8) (rest : Text) : 0 < (step c rest).2 := by
  unfold step
  repeat' split
  all_goals simp

/-- The characters of a text. -/
def characters : Text → List Character
  | [] => []
  | c :: rest => (step c rest).1 :: characters ((c :: rest).drop (step c rest).2)
termination_by t => t.length
decreasing_by
  have := step_width_pos c rest
  simp only [List.length_drop, List.length_cons]
  omega

/-- The number of characters of a text. -/
def characterCount (t : Text) : Nat := (characters t).length

/-- The bytes of a code point. -/
def encode (code : Nat) : Text :=
  if code < 0x80 then [code.toUInt8]
  else if code < 0x800 then
    [(0xc0 + code / 64).toUInt8, (0x80 + code % 64).toUInt8]
  else if code < 0x10000 then
    [(0xe0 + code / 4096).toUInt8, (0x80 + code / 64 % 64).toUInt8, (0x80 + code % 64).toUInt8]
  else
    [(0xf0 + code / 262144).toUInt8, (0x80 + code / 4096 % 64).toUInt8,
      (0x80 + code / 64 % 64).toUInt8, (0x80 + code % 64).toUInt8]

/-- The code point that stands for a byte that is no character. -/
def replacement : Nat := 0xfffd

/-- The code point of a character, a stray byte counting as the replacement character. -/
def code : Character → Nat
  | .scalar c => c
  | .stray _ => replacement

/-- The bytes a character was read from. -/
def bytes : Character → Text
  | .scalar c => encode c
  | .stray b => [b]

/-- Whether the whole text is well-formed UTF-8. -/
def isValid (t : Text) : Bool :=
  (characters t).all fun
    | .scalar _ => true
    | .stray _ => false

end Utf8

/-- The text as a string of characters, each stray byte shown as the replacement character. -/
def Text.toDisplay (t : Text) : String :=
  String.ofList ((Utf8.characters t).map fun r => Char.ofNat (Utf8.code r))

end StyleIndex
