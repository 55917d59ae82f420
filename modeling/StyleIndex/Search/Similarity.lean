set_option autoImplicit false

/-! # Similarity of words

The Jaro-Winkler similarity of two words, in single precision. Two characters match when they
are equal and not too far apart, each character being matched once. The similarity grows with
the number of matches, falls with matches that are out of order, and is raised for words with a
common beginning of up to four characters.
-/

namespace StyleIndex

namespace Similarity

/-- The first position from `low` up to, and not including, `high` at which `word` has the
character `c` and which is not taken. -/
def freeIndex? (c : Nat) (low high : Int) (taken : List Nat) (pos : Nat) : List Nat → Option Nat
  | [] => none
  | d :: rest =>
    if d = c ∧ low ≤ (pos : Int) ∧ (pos : Int) < high ∧ ¬ taken.contains pos then some pos
    else freeIndex? c low high taken (pos + 1) rest

/-- Matches the characters of one word from left to right with those of `word`: the matched
characters of the first, and the positions taken in `word`, in the order of the matches. -/
def matchings (window : Int) (word : List Nat) (pos : Nat) (taken : List Nat) :
    List Nat → List (Nat × Nat)
  | [] => []
  | c :: rest =>
    match freeIndex? c ((pos : Int) - window) ((pos : Int) + window + 1) taken 0 word with
    | some j => (c, j) :: matchings window word (pos + 1) (j :: taken) rest
    | none => matchings window word (pos + 1) taken rest

/-- The number of places at which two words differ. -/
def differences : List Nat → List Nat → Nat
  | a :: as, b :: bs => (if a = b then 0 else 1) + differences as bs
  | _, _ => 0

/-- The number of characters at the beginning that two words have in common. -/
def commonStart : List Nat → List Nat → Nat
  | a :: as, b :: bs => if a = b then commonStart as bs + 1 else 0
  | _, _ => 0

/-- The Jaro similarity. -/
def jaro (a b : List Nat) : Float32 :=
  if a.isEmpty || b.isEmpty then 0
  else if a = b then 1
  else
    let window : Int := (max a.length b.length / 2 : Nat) - 1
    let pairs := matchings window b 0 [] a
    if pairs.isEmpty then 0
    else
      let positions := pairs.map (·.2)
      let matchedInB := (b.zipIdx.filter fun x => positions.contains x.2).map (·.1)
      let m := Float32.ofNat pairs.length
      let t := Float32.ofNat (differences (pairs.map (·.1)) matchedInB) / 2
      (m / Float32.ofNat a.length + m / Float32.ofNat b.length + (m - t) / m) / 3

/-- The Jaro-Winkler similarity. -/
def jaroWinkler (a b : List Nat) : Float32 :=
  let j := jaro a b
  if j != 0 && j != 1 then
    j + 0.1 * Float32.ofNat (min (commonStart a b) 4) * (1 - j)
  else j

end Similarity

end StyleIndex
