import StyleIndex.Text.Utf8

set_option autoImplicit false

/-! # White space

Two notions of white space are in use. The scanners of a stylesheet skip the five bytes of
`Ascii.isSpace`. Values and parameters are trimmed of *blanks*, the characters with the
Unicode property `White_Space`. Every byte of `Ascii.isSpace` is a blank.
-/

namespace StyleIndex

/-- The code points with the property `White_Space`. -/
def isBlankCode (c : Nat) : Bool :=
  (0x09 ≤ c && c ≤ 0x0d) || c == 0x20 || c == 0x85 || c == 0xa0 || c == 0x1680 ||
  (0x2000 ≤ c && c ≤ 0x200a) || c == 0x2028 || c == 0x2029 || c == 0x202f || c == 0x205f ||
  c == 0x3000

/-- Whether a character is blank; a stray byte is not. -/
def Character.isBlank : Character → Bool
  | .scalar c => isBlankCode c
  | .stray _ => false

namespace Text

/-- Removes the blanks in front. -/
def trimBlankStart : Text → Text
  | [] => []
  | c :: rest =>
    if (Utf8.step c rest).1.isBlank then trimBlankStart ((c :: rest).drop (Utf8.step c rest).2)
    else c :: rest
termination_by t => t.length
decreasing_by
  have := Utf8.step_width_pos c rest
  simp only [List.length_drop, List.length_cons]
  omega

/-- The number of bytes at the end of a text that belong to trailing blanks, found by walking
the text once from the left. `width` is the number of bytes of blanks seen just before. -/
def trailingBlankWidth (width : Nat) : Text → Nat
  | [] => width
  | c :: rest =>
    trailingBlankWidth
      (if (Utf8.step c rest).1.isBlank then width + (Utf8.step c rest).2 else 0)
      ((c :: rest).drop (Utf8.step c rest).2)
termination_by t => t.length
decreasing_by
  have := Utf8.step_width_pos c rest
  simp only [List.length_drop, List.length_cons]
  omega

/-- Removes the blanks at the end. -/
def trimBlankEnd (t : Text) : Text := t.take (t.length - trailingBlankWidth 0 t)

/-- Removes the blanks at both ends. -/
def trimBlank (t : Text) : Text := trimBlankEnd (trimBlankStart t)

/-- Removing blanks at the end never lengthens a text. -/
theorem length_trimBlankEnd_le (t : Text) : (trimBlankEnd t).length ≤ t.length := by
  unfold trimBlankEnd
  exact List.length_take_le' ..

/-- Removing blanks in front never lengthens a text. -/
theorem length_trimBlankStart_le (t : Text) : (trimBlankStart t).length ≤ t.length := by
  fun_induction trimBlankStart t with
  | case1 => simp
  | case2 c rest h ih =>
    simp only [List.length_drop] at ih ⊢
    omega
  | case3 => simp

/-- Removing blanks never lengthens a text. -/
theorem length_trimBlank_le (t : Text) : (trimBlank t).length ≤ t.length :=
  Nat.le_trans (length_trimBlankEnd_le _) (length_trimBlankStart_le t)

/-- The bytes in front of the first blank. -/
def beforeBlank : Text → Text
  | [] => []
  | c :: rest =>
    if (Utf8.step c rest).1.isBlank then []
    else (c :: rest).take (Utf8.step c rest).2
      ++ beforeBlank ((c :: rest).drop (Utf8.step c rest).2)
termination_by t => t.length
decreasing_by
  have := Utf8.step_width_pos c rest
  simp only [List.length_drop, List.length_cons]
  omega

/-- The first run of characters that are not blank; empty when every character is blank. -/
def firstWord (t : Text) : Text := beforeBlank (trimBlankStart t)

/-- Removes white space of a stylesheet at the end. -/
def trimSpaceEnd (t : Text) : Text := trimEndWhile Ascii.isSpace t

/-- Removes white space of a stylesheet in front. -/
def trimSpaceStart (t : Text) : Text := t.dropWhile Ascii.isSpace

end Text

end StyleIndex
