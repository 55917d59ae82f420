import StyleIndex.Glob.Matcher
import StyleIndex.Glob.Pattern

set_option autoImplicit false

/-! # Globs

A glob is prepared in three steps. Neighbours that can be one matcher are joined. Of the rest, the
item with the longest fixed length is looked for first, and what stands before and after it is
prepared the same way. Last, splits at a text are replaced by the simpler matchers for common
combinations.
-/

namespace StyleIndex

/-- A glob. -/
structure Glob where
  matcher : Matcher

namespace Matcher

/-! ## Simplifying -/

/-- The split at `middle`, or a simpler matcher. -/
def simplified : (middle left right : Matcher) → Matcher
  | .text t, .nothing, .nothing => .text t
  | .text t, .deepRun, .deepRun => .including t
  | .text t, .deepRun, .nothing => .ending t
  | .text t, .nothing, .deepRun => .starting t
  | .text t, .nothing, .ending s => .enclosed t s
  | .text t, .starting s, .nothing => .enclosed s t
  | .text t, .run, .nothing => .endingRun t
  | .text t, .nothing, .run => .startingRun t
  | middle, left, right => .split middle left right

/-- The simplest form of a matcher. -/
def simplify : Matcher → Matcher
  | .anyOf [m] => m
  | .oneOf false [c] => .text (Utf8.encode c)
  | .split middle left right => simplified middle (simplify left) (simplify right)
  | m => m

/-! ## Joining neighbours -/

/-- The characters that a matcher stops at, for matchers that take all others. -/
def stops? : Matcher → Option (List Nat)
  | .deepRun => some []
  | .run => some [0x2f]
  | .single => some [0x2f]
  | .oneOf true chars => some chars
  | _ => none

/-- Joins matchers that stop at the same characters: runs to one run, and runs and single
characters to a stretch. -/
def joinAlike? : List Matcher → Option Matcher
  | first :: second :: rest =>
    let ms := first :: second :: rest
    match first.stops? with
    | none => none
    | some stops =>
      if !ms.all fun m => m.stops? == some stops then none
      else
        let singles := ms.countP fun m => m.length == some 1
        if singles = 0 then some first
        else some (.stretch singles (singles = ms.length) (stops.flatMap Utf8.encode))
  | _ => none

/-- Joins matchers of fixed length to a row. -/
def joinRow? (ms : List Matcher) : Option Matcher :=
  if 2 ≤ ms.length ∧ ms.all fun m => m.length.isSome then some (.row ms) else none

/-- One matcher in place of several, if there is one. -/
def join? (ms : List Matcher) : Option Matcher := (joinAlike? ms).or (joinRow? ms)

/-- A way to join neighbours: `count` of them, beginning at `start`. -/
structure Joint where
  start : Nat
  count : Nat
  matcher : Matcher

/-- Whether a joint is better than the best one so far: it joins more, or it is longer. -/
def Joint.beats (j best : Joint) : Bool :=
  best.count < j.count ||
    match best.matcher.length, j.matcher.length with
    | some a, some b => a < b
    | _, _ => false

/-- All ways to join neighbours: from each item on, the longest first. -/
def joints (ms : List Matcher) : List Joint :=
  (List.range ms.length).flatMap fun start =>
    (List.range (ms.length - start + 1)).reverse.filterMap fun count =>
      (join? ((ms.drop start).take count)).map fun m => ⟨start, count, m⟩

/-- The best way to join neighbours. -/
def bestJoint? (ms : List Matcher) : Option Joint :=
  (joints ms).foldl (fun best j =>
    match best with
    | none => some j
    | some b => if j.beats b then some j else some b) none

/-- Joins neighbours as long as possible, at most `limit` times. -/
def joinAll : (limit : Nat) → List Matcher → List Matcher
  | 0, ms => ms
  | limit + 1, ms =>
    match bestJoint? ms with
    | none => ms
    | some j => joinAll limit (ms.take j.start ++ [j.matcher] ++ ms.drop (j.start + j.count))

/-! ## Splitting -/

/-- The place of the matcher with the longest fixed length, the last one of several. -/
def anchor? (ms : List Matcher) : Option Nat :=
  (ms.zipIdx.foldl (fun best (m, i) =>
    match m.length, best with
    | none, _ => best
    | some n, none => some (n, i)
    | some n, some (k, j) => if k ≤ n then some (n, i) else some (k, j)) none).map (·.2)

/-- One matcher for a sequence, whose parts are at most `limit` deep. -/
def arrange : (limit : Nat) → List Matcher → Matcher
  | _, [] => .nothing
  | _, [m] => m
  | 0, _ => .nothing
  | limit + 1, first :: second :: rest =>
    let ms := first :: second :: rest
    match join? ms with
    | some m => m
    | none =>
      match anchor? ms with
      | none => .split first .nothing (arrange limit (second :: rest))
      | some i =>
        .split (ms.getD i .nothing) (arrange limit (ms.take i)) (arrange limit (ms.drop (i + 1)))

/-- One matcher for a sequence. -/
def ofSequence (ms : List Matcher) : Matcher :=
  let joined := joinAll ms.length ms
  simplify (arrange joined.length joined)

end Matcher

mutual

/-- The matcher of an item. -/
def GlobItem.matcher : GlobItem → Matcher
  | .text t => .text t
  | .single => .single
  | .run => .run
  | .deepRun => .deepRun
  | .oneOf negated chars => .oneOf negated chars
  | .range negated low high => .range negated low high
  | .choice alternatives => .anyOf (GlobItem.alternativeMatchers alternatives)

/-- The matchers of a sequence of items. -/
def GlobItem.matchers : List GlobItem → List Matcher
  | [] => []
  | item :: items => Matcher.simplify (GlobItem.matcher item) :: GlobItem.matchers items

/-- The matchers of alternatives. -/
def GlobItem.alternativeMatchers : List (List GlobItem) → List Matcher
  | [] => []
  | items :: others =>
    Matcher.ofSequence (GlobItem.matchers items) :: GlobItem.alternativeMatchers others

end

namespace Glob

/-- The glob of a pattern. -/
def ofPattern (pattern : Text) : Except GlobError Glob :=
  (items pattern).map fun is => ⟨Matcher.ofSequence (GlobItem.matchers is)⟩

/-- Whether a glob matches a path. -/
def matchesPath (g : Glob) (path : Text) : Bool := g.matcher.matchesAll path

end Glob

end StyleIndex
