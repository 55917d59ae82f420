import StyleIndex.Text.Utf8

set_option autoImplicit false

/-! # Matchers

A matcher is a glob prepared for matching. Besides the plain items it has forms for common
combinations, a row of matchers that each take a known number of characters, and a split: a
matcher that is looked for first, with what has to match the parts before and after it.

A matcher answers two questions: whether it matches a whole text, and where it is first found in
a text. A split is never found, and it never matches the empty text, since it looks for its
middle only while something is left to look at.
-/

namespace StyleIndex

/-- A prepared glob. -/
inductive Matcher where
  | nothing
  | text (t : Text)
  /-- One character other than a slash. -/
  | single
  /-- Any characters other than slashes. -/
  | run
  /-- Any characters. -/
  | deepRun
  | oneOf (negated : Bool) (chars : List Nat)
  | range (negated : Bool) (low high : Nat)
  /-- At least so many characters, or exactly so many, without a given text. -/
  | stretch (least : Nat) (exact : Bool) (without : Text)
  /-- Any text that includes a given one. -/
  | including (t : Text)
  | starting (t : Text)
  | ending (t : Text)
  /-- Starts with one text and ends with another; the two may overlap. -/
  | enclosed (first last : Text)
  /-- A text and a run after it. -/
  | startingRun (t : Text)
  /-- A text and a run before it. -/
  | endingRun (t : Text)
  | anyOf (alternatives : List Matcher)
  | row (parts : List Matcher)
  | split (middle left right : Matcher)

/-- Where a matcher is found in a text: the offset, and the lengths it can have there. -/
structure MatchHit where
  start : Nat
  lengths : List Nat

namespace Matcher

/-! ## Lengths -/

/-- The number of characters of alternatives: that of the first one that has a fixed number,
provided that all after it have the same. -/
def commonLength : Option Nat → List (Option Nat) → Option Nat
  | known, [] => known
  | none, n :: rest => commonLength n rest
  | some k, n :: rest => if n = some k then commonLength (some k) rest else none

/-- The number of characters of a row. -/
def totalLength : List (Option Nat) → Option Nat
  | [] => some 0
  | n :: rest => n.bind fun k => (totalLength rest).map (k + ·)

mutual

/-- The number of characters that a matcher takes, if it is fixed. -/
def length : Matcher → Option Nat
  | .nothing => some 0
  | .text t => some (Utf8.characterCount t)
  | .single => some 1
  | .oneOf _ _ => some 1
  | .range _ _ _ => some 1
  | .anyOf alternatives => commonLength none (lengths alternatives)
  | .row parts => totalLength (lengths parts)
  | .split middle left right => totalLength [left.length, middle.length, right.length]
  | _ => none

/-- The numbers of characters that several matchers take. -/
def lengths : List Matcher → List (Option Nat)
  | [] => []
  | m :: ms => m.length :: lengths ms

end

/-! ## Characters of a text -/

/-- The characters of a text with their offsets, the first of which is `offset`. -/
def placed (offset : Nat) : List Character → List (Nat × Character)
  | [] => []
  | r :: rest => (offset, r) :: placed (offset + (Utf8.bytes r).length) rest

/-- The characters of a text with their offsets. -/
def charactersAt (t : Text) : List (Nat × Character) := placed 0 (Utf8.characters t)

/-- The offsets between the characters of a text, its ends included. -/
def boundaries (t : Text) : List Nat := (charactersAt t).map (·.1) ++ [t.length]

/-- Whether a text is one character that satisfies `p`. The empty text counts as a character that
cannot be read. -/
def isCharacter (p : Nat → Bool) (t : Text) : Bool :=
  match Utf8.characters t with
  | [] => p Utf8.replacement
  | [r] => p (Utf8.code r)
  | _ => false

/-- Finds the first character that satisfies `p`. -/
def findCharacter (p : Nat → Bool) (t : Text) : Option MatchHit :=
  ((charactersAt t).find? fun r => p (Utf8.code r.2)).map fun r => ⟨r.1, [(Utf8.bytes r.2).length]⟩

/-- Whether a character is no slash. -/
def noSlash (c : Nat) : Bool := c != 0x2f

/-- The beginning of a text up to the first slash. -/
def upToSlash (t : Text) : Text := t.takeWhile (· != Ascii.slash)

/-- The ends of the last occurrence of a text, of the last one before that, and so on, at most
`limit` of them. -/
def lastEnds (needle : Text) : (limit : Nat) → Text → List Nat
  | 0, _ => []
  | limit + 1, t =>
    match Text.lastIndexOf? needle t with
    | none => []
    | some i => (i + needle.length) :: lastEnds needle limit (t.take i)

/-! ## Matching -/

/-- The earlier of two hits; two at the same place are joined. -/
def earlier : Option MatchHit → Option MatchHit → Option MatchHit
  | none, b => b
  | a, none => a
  | some a, some b =>
    if a.start < b.start then some a
    else if b.start < a.start then some b
    else some ⟨a.start, a.lengths ++ b.lengths⟩

/-- The number of bytes that a row gives to a part with the given number of characters: those up
to the first byte of its last character. -/
def partWidth (length : Option Nat) (t : Text) : Option Nat :=
  match length with
  | none => none
  | some 0 => ((charactersAt t).getLast?).map (·.1 + 1)
  | some (n + 1) => (charactersAt t)[n]?.map (·.1 + 1)

/-- Looks for the middle of a split between `offset` and `limit`, and tries the parts on both
sides of it; at most `count` places are tried. -/
def trySplits (find : Text → Option MatchHit) (left right : Text → Bool) (t : Text)
    (limit : Nat) : (count offset : Nat) → Bool
  | 0, _ => false
  | count + 1, offset =>
    if limit ≤ offset then false
    else match find (t.slice offset limit) with
      | none => false
      | some hit =>
        let start := offset + hit.start
        let width := ((charactersAt (t.drop start)).map fun r => (Utf8.bytes r.2).length).headD 1
        (left (t.take start) && hit.lengths.any fun n => right (t.drop (start + n))) ||
          trySplits find left right t limit count (start + width)

mutual

/-- Where a matcher is first found in a text. -/
def find : Matcher → Text → Option MatchHit
  | .nothing, _ => some ⟨0, [0]⟩
  | .text s, t => (Text.indexOf? s t).map (⟨·, [s.length]⟩)
  | .single, t => findCharacter noSlash t
  | .run, t => some ⟨0, boundaries (upToSlash t)⟩
  | .deepRun, t => some ⟨0, boundaries t⟩
  | .oneOf negated chars, t => findCharacter (fun c => chars.contains c != negated) t
  | .range negated low high, t => findCharacter (fun c => (low ≤ c && c ≤ high) != negated) t
  | .stretch least exact without, t =>
    let ends := (boundaries (t.take ((Text.indexOf? without t).getD t.length))).drop least
    let ends := if exact then ends.take 1 else ends
    if ends.isEmpty then none else some ⟨0, ends⟩
  | .including s, t =>
    (Text.indexOf? s t).map fun i =>
      ⟨0, (boundaries (t.drop (i + s.length))).map (i + s.length + ·)⟩
  | .starting s, t =>
    (Text.indexOf? s t).map fun i => ⟨i, (boundaries (t.drop (i + s.length))).map (s.length + ·)⟩
  | .ending s, t => (Text.indexOf? s t).map fun i => ⟨0, [i + s.length]⟩
  | .enclosed first last, t =>
    match Text.indexOf? first t with
    | none => none
    | some i =>
      let ends := lastEnds last t.length (t.drop i)
      if ends.isEmpty then none else some ⟨i, ends⟩
  | .startingRun s, t =>
    (Text.indexOf? s t).map fun i =>
      ⟨i, (boundaries (upToSlash (t.drop (i + s.length)))).map (s.length + ·)⟩
  | .endingRun s, t =>
    (Text.indexOf? s t).map fun i =>
      let start := ((Text.lastByteIndex? Ascii.slash (t.take i)).map (· + 1)).getD 0
      ⟨start, [i + s.length - start]⟩
  | .anyOf alternatives, t => findAny alternatives t
  | .row parts, t =>
    let n := (totalLength (lengths parts)).getD 0
    let starts := (charactersAt t).map (·.1)
    (starts.find? fun i => n ≤ t.length - i && matchesRow parts (t.drop i)).map (⟨·, [n]⟩)
  | .split _ _ _, _ => none

/-- Where one of several alternatives is first found. -/
def findAny : List Matcher → Text → Option MatchHit
  | [], _ => none
  | m :: ms, t => earlier (find m t) (findAny ms t)

/-- Whether a matcher matches a whole text. -/
def matchesAll : Matcher → Text → Bool
  | .nothing, t => t.isEmpty
  | .text s, t => s == t
  | .single, t => isCharacter noSlash t
  | .run, t => !t.contains Ascii.slash
  | .deepRun, _ => true
  | .oneOf negated chars, t => isCharacter (fun c => chars.contains c != negated) t
  | .range negated low high, t => isCharacter (fun c => (low ≤ c && c ≤ high) != negated) t
  | .stretch least exact without, t =>
    let n := Utf8.characterCount t
    least ≤ n && (!exact || n ≤ least) && !Text.includes t without
  | .including s, t => Text.includes t s
  | .starting s, t => Text.startsWith t s
  | .ending s, t => Text.endsWith t s
  | .enclosed first last, t => Text.startsWith t first && Text.endsWith t last
  | .startingRun s, t => Text.startsWith t s && !(t.drop s.length).contains Ascii.slash
  | .endingRun s, t =>
    Text.endsWith t s && !(t.take (t.length - s.length)).contains Ascii.slash
  | .anyOf alternatives, t => matchesOne alternatives t
  | .row parts, t =>
    totalLength (lengths parts) == some (Utf8.characterCount t) && matchesRow parts t
  | .split middle left right, t =>
    trySplits (fun s => find middle s) (fun s => matchesAll left s) (fun s => matchesAll right s) t
      (t.length - right.length.getD 0) (t.length + 1) (left.length.getD 0)

/-- Whether one of several alternatives matches a whole text. -/
def matchesOne : List Matcher → Text → Bool
  | [], _ => false
  | m :: ms, t => matchesAll m t || matchesOne ms t

/-- Whether the parts of a row match the beginning of a text, one after the other. -/
def matchesRow : List Matcher → Text → Bool
  | [], _ => true
  | m :: ms, t =>
    match partWidth m.length t with
    | none => false
    | some n => matchesAll m (t.take n) && matchesRow ms (t.drop n)

end

end Matcher

end StyleIndex
