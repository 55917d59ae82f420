import Mathlib.Tactic
import StyleIndex.Proofs.Grammar.Lexeme
import StyleIndex.Stylesheet.Closing

set_option autoImplicit false

/-! # Where the scan for open constructs keeps track

The scan behind `closeOpen` cuts a text into literals, comments and brackets by rules of its own,
which are not quite those of the parser. `strays` lists the places where the two part ways: a
backslash with nothing behind it in a literal, a comment that starts inside an interpolation, a
line comment behind a brace that opens no block, and a closer that fits no opener although the
parser counts it. A text is `Nested` if the scan meets no such place.

To tell an interpolation from a block, the checked scan `nest?` puts a hash on the stack for it,
where the plain scan puts a brace; both have the same closer (`scan_of_nest?`).

The second half follows the checked scan through a unit that the grammar has at the front of a
text, when the text may be cut off inside the unit: either the unit is passed as a whole, or the
scan ends inside and its closers complete the unit.
-/

namespace StyleIndex

namespace OpenConstructs

/-! ## The checked scan -/

/-- Whether an interpolation is open. -/
def interpolated (s : OpenConstructs) : Bool := s.openers.contains Ascii.hash

/-- Whether the innermost opener is a brace, of a block, an interpolation or neither. -/
def inBraces (s : OpenConstructs) : Bool :=
  s.openers.head? == some Ascii.lbrace || s.openers.head? == some Ascii.hash

/-- Whether a closer fits the innermost opener. -/
def fits (s : OpenConstructs) (c : UInt8) : Bool := s.openers.head?.map closerOf == some c

/-- Whether the scan and the parser part ways at a byte, given the byte after it. -/
def strays (s : OpenConstructs) (c : UInt8) (after : Option UInt8) : Bool :=
  match s.mode with
  | .code =>
    if c = Ascii.slash ∧ after = some Ascii.star then s.interpolated
    else if c = Ascii.slash ∧ after = some Ascii.slash then
      s.inBraces && !s.openers.all (· == Ascii.lbrace)
    else isCloser c && !s.fits c && (c == Ascii.rbrace) == s.interpolated
  | .literal _ => c == Ascii.backslash && after.isNone
  | _ => false

/-- What one byte does, where an interpolation is marked on the stack by a hash. -/
def markedStep (s : OpenConstructs) (c : UInt8) (after : Option UInt8) : OpenConstructs × Bool :=
  if s.mode = .code ∧ c = Ascii.hash ∧ after = some Ascii.lbrace ∧ s.interpolated = false then
    ({ s with openers := Ascii.hash :: s.openers }, true)
  else s.step c after

/-- Scans a text as long as the scan keeps track. -/
def nest? (s : OpenConstructs) : Text → Option OpenConstructs
  | [] => some s
  | [c] => if s.strays c Option.none then Option.none else some (s.markedStep c Option.none).1
  | c :: d :: rest =>
    if s.strays c (some d) then Option.none
    else match s.markedStep c (some d) with
      | (s', true) => nest? s' rest
      | (s', false) => nest? s' (d :: rest)

theorem nest?_cons (s : OpenConstructs) (c : UInt8) (rest : Text) :
    s.nest? (c :: rest) = if s.strays c rest.head? then Option.none
      else (s.markedStep c rest.head?).1.nest?
        (if (s.markedStep c rest.head?).2 then rest.tail else rest) := by
  cases rest with
  | nil =>
      rw [nest?, List.head?_nil, List.tail_nil, ite_self]
      rfl
  | cons d rest =>
      rw [nest?, List.head?_cons, List.tail_cons]
      congr 1
      split
      · next hstep => rw [hstep, if_pos rfl]
      · next hstep => rw [hstep, if_neg Bool.false_ne_true]

/-- A byte that is taken alone. -/
theorem of_nest?_cons {s s₁ s' : OpenConstructs} {c : UInt8} {rest : Text}
    (hstep : s.markedStep c rest.head? = (s₁, false)) (h : s.nest? (c :: rest) = some s') :
    s.strays c rest.head? = false ∧ s₁.nest? rest = some s' := by
  rw [nest?_cons, hstep] at h
  cases hstrays : s.strays c rest.head? with
  | true => simp [hstrays] at h
  | false => exact ⟨rfl, by simpa [hstrays] using h⟩

end OpenConstructs

/-- A text in which the scan for open constructs keeps track. -/
def Nested (t : Text) : Prop := (OpenConstructs.none.nest? t).isSome = true

instance (t : Text) : Decidable (Nested t) := inferInstanceAs (Decidable (_ = true))

/-! ## The checked scan is the scan -/

namespace OpenConstructs

/-- A stack with its marks turned into braces. -/
def unmark (s : OpenConstructs) : OpenConstructs :=
  { s with openers := s.openers.map fun o => if o = Ascii.hash then Ascii.lbrace else o }

/-- A mark has the closer of a brace. -/
theorem closerOf_unmark (o : UInt8) :
    closerOf (if o = Ascii.hash then Ascii.lbrace else o) = closerOf o := by
  split_ifs with h
  · rw [h]
    rfl
  · rfl

theorem closers_unmark (s : OpenConstructs) : s.unmark.closers = s.closers := by
  have hopeners : s.unmark.openers.map closerOf = s.openers.map closerOf := by
    rw [unmark, List.map_map]
    exact List.map_congr_left fun o _ => closerOf_unmark o
  rw [closers, closers, hopeners]
  rfl

theorem close_unmark (s : OpenConstructs) (c : UInt8) : s.unmark.close c = (s.close c).unmark := by
  obtain ⟨mode, _ | ⟨o, openers⟩⟩ := s
  · rfl
  · simp only [unmark, close, List.map_cons, closerOf_unmark]
    by_cases h : closerOf o = c
    · rw [if_pos h, if_pos h]
    · rw [if_neg h, if_neg h, List.map_cons]

/-- Where a line comment may start, the marks make no difference unless the scan strays. -/
theorem lineCommentsAllowed_unmark {s : OpenConstructs}
    (h : (s.inBraces && !s.openers.all (· == Ascii.lbrace)) = false) :
    s.unmark.lineCommentsAllowed = s.lineCommentsAllowed := by
  obtain ⟨mode, _ | ⟨o, openers⟩⟩ := s
  · rfl
  · by_cases ho : o = Ascii.hash
    · subst ho
      simp +decide [inBraces] at h
    · simp [unmark, lineCommentsAllowed, ho]

/-- As long as it keeps track, the checked step is the step. -/
theorem step_unmark {s : OpenConstructs} {c : UInt8} {after : Option UInt8}
    (h : s.strays c after = false) :
    s.unmark.step c after = ((s.markedStep c after).1.unmark, (s.markedStep c after).2) := by
  obtain ⟨mode, openers⟩ := s
  cases mode with
  | lineComment =>
      simp only [markedStep, step, unmark]
      split_ifs <;> simp_all
  | blockComment =>
      simp only [markedStep, step, unmark]
      split_ifs <;> simp_all
  | literal q =>
      simp only [markedStep, step, unmark]
      split_ifs <;> simp_all
  | code =>
      by_cases hhash : c = Ascii.hash ∧ after = some Ascii.lbrace
      · -- an interpolation: a mark or a brace, which look the same without marks
        obtain ⟨rfl, rfl⟩ := hhash
        simp only [markedStep, step, unmark]
        split_ifs <;> simp_all +decide
      · have hmarked : markedStep ⟨.code, openers⟩ c after = step ⟨.code, openers⟩ c after := by
          rw [markedStep, if_neg fun hm => hhash ⟨hm.2.1, hm.2.2.1⟩]
        have hallowed : (c = Ascii.slash ∧ after = some Ascii.slash ∧
              (unmark ⟨.code, openers⟩).lineCommentsAllowed = true)
            ↔ (c = Ascii.slash ∧ after = some Ascii.slash ∧
              lineCommentsAllowed ⟨.code, openers⟩ = true) := by
          refine and_congr_right fun hc => and_congr_right fun hafter => ?_
          subst hc hafter
          rw [lineCommentsAllowed_unmark (by simpa +decide [strays] using h)]
        have hmode : (unmark ⟨.code, openers⟩).mode = .code := rfl
        rw [hmarked]
        simp only [step, hmode, hallowed, if_neg hhash]
        split_ifs with hquote hblock hline hopener hcloser
        · rfl
        · rfl
        · rfl
        · have hc : c ≠ Ascii.hash := by
            rintro rfl
            exact absurd hopener (by decide)
          simp [unmark, hc]
        · rw [close_unmark]
        · rfl

/-- **As long as it keeps track, the checked scan is the scan.** -/
theorem scan_of_nest? {t : Text} {s s' : OpenConstructs} (h : s.nest? t = some s') :
    s.unmark.scan t = s'.unmark := by
  fun_induction nest? s t with
  | case1 s =>
      cases h
      rfl
  | case2 s c hstray => cases h
  | case3 s c hkeep =>
      cases h
      rw [scan, step_unmark (by simpa using hkeep)]
  | case4 s c d rest hstray => cases h
  | case5 s c d rest hkeep s₁ hstep ih =>
      rw [scan, step_unmark (by simpa using hkeep), hstep]
      exact ih h
  | case6 s c d rest hkeep s₁ hstep ih =>
      rw [scan, step_unmark (by simpa using hkeep), hstep]
      exact ih h

end OpenConstructs

/-- What `closeOpen` appends to a nested text. -/
theorem closeOpen_of_nest? {t : Text} {s : OpenConstructs}
    (h : OpenConstructs.none.nest? t = some s) : closeOpen t = t ++ s.closers := by
  have hscan : openConstructs t = s.unmark := OpenConstructs.scan_of_nest? h
  rw [closeOpen, hscan, OpenConstructs.closers_unmark]

/-- The text of a comment without its first byte. -/
theorem IsCommentText.cons {c : UInt8} {u : Text} (h : IsCommentText (c :: u)) :
    ¬(c = Ascii.star ∧ (u ++ [Ascii.star]).head? = some Ascii.slash) ∧ IsCommentText u := by
  constructor
  · rintro ⟨rfl, hhead⟩
    obtain ⟨rest, hrest⟩ := List.head?_eq_some_iff.mp hhead
    exact h ⟨[], rest, by simp [hrest]⟩
  · rintro ⟨v, w, hvw⟩
    exact h ⟨c :: v, w, by simpa using hvw⟩

/-! ## Single bytes -/

namespace OpenConstructs

variable {σ : List UInt8} {c q : UInt8} {x : Text} {s : OpenConstructs}

theorem nest?_quote (hq : Ascii.isQuote q = true) :
    nest? ⟨.code, σ⟩ (q :: x) = nest? ⟨.literal q, σ⟩ x := by
  rw [nest?_cons]
  rcases isQuote_iff.mp hq with rfl | rfl
  · simp +decide [strays, markedStep, step]
  · simp +decide [strays, markedStep, step]

theorem nest?_escape (d : UInt8) :
    nest? ⟨.literal q, σ⟩ (Ascii.backslash :: d :: x) = nest? ⟨.literal q, σ⟩ x := by
  rw [nest?_cons]
  simp [strays, markedStep, step]

theorem nest?_cutEscape : nest? ⟨.literal q, σ⟩ [Ascii.backslash] = Option.none := by
  simp [nest?, strays]

theorem nest?_literalByte (h : (LiteralPart.byte c).WellFormed q) :
    nest? ⟨.literal q, σ⟩ (c :: x) = nest? ⟨.literal q, σ⟩ x := by
  obtain ⟨hq, hback, hlf⟩ := h
  rw [nest?_cons]
  simp [strays, markedStep, step, hq, hback, hlf]

theorem nest?_literalEnd (hq : Ascii.isQuote q = true) :
    nest? ⟨.literal q, σ⟩ (q :: x) = nest? ⟨.code, σ⟩ x := by
  obtain ⟨hback, -⟩ := ne_of_isQuote hq
  rw [nest?_cons]
  simp [strays, markedStep, step, hback]

theorem nest?_blockCommentStart (hσ : Ascii.hash ∉ σ) :
    nest? ⟨.code, σ⟩ (Ascii.slash :: Ascii.star :: x) = nest? ⟨.blockComment, σ⟩ x := by
  rw [nest?_cons]
  simp +decide [strays, markedStep, step, interpolated, hσ]

theorem nest?_lineCommentStart (hσ : ∀ o ∈ σ, o = Ascii.lbrace) :
    nest? ⟨.code, σ⟩ (Ascii.slash :: Ascii.slash :: x) = nest? ⟨.lineComment, σ⟩ x := by
  have hallowed : lineCommentsAllowed ⟨.code, σ⟩ = true := by
    cases σ with
    | nil => rfl
    | cons o σ => simpa [lineCommentsAllowed] using hσ o List.mem_cons_self
  have hall : σ.all (· == Ascii.lbrace) = true := by simpa using hσ
  rw [nest?_cons]
  simp +decide [strays, markedStep, step, hallowed, hall]

theorem nest?_interpolationStart (hσ : Ascii.hash ∉ σ) :
    nest? ⟨.code, σ⟩ (Ascii.hash :: Ascii.lbrace :: x) = nest? ⟨.code, Ascii.hash :: σ⟩ x := by
  rw [nest?_cons]
  simp +decide [strays, markedStep, interpolated, hσ]

theorem nest?_opener (hc : isOpener c = true) :
    nest? ⟨.code, σ⟩ (c :: x) = nest? ⟨.code, c :: σ⟩ x := by
  have hcases : c = Ascii.lparen ∨ c = Ascii.lbracket ∨ c = Ascii.lbrace := by
    simpa [isOpener, or_assoc] using hc
  rw [nest?_cons]
  rcases hcases with rfl | rfl | rfl
  all_goals simp +decide [strays, markedStep, step]

/-- A closer is no quote, opener, slash or hash, so the step is to close. -/
theorem markedStep_closer (hc : isCloser c = true) (after : Option UInt8) :
    markedStep ⟨.code, σ⟩ c after = (close ⟨.code, σ⟩ c, false) ∧
      strays ⟨.code, σ⟩ c after
        = (!fits ⟨.code, σ⟩ c && (c == Ascii.rbrace) == interpolated ⟨.code, σ⟩) := by
  have hcases : c = Ascii.rparen ∨ c = Ascii.rbracket ∨ c = Ascii.rbrace := by
    simpa [isCloser, or_assoc] using hc
  rcases hcases with rfl | rfl | rfl
  all_goals exact ⟨by simp +decide [markedStep, step], by simp +decide [strays, hc]⟩

/-- A closer that fits takes its opener from the stack. -/
theorem nest?_fittingCloser {o : UInt8} (hc : isCloser c = true) (hfit : closerOf o = c) :
    nest? ⟨.code, o :: σ⟩ (c :: x) = nest? ⟨.code, σ⟩ x := by
  have hclose : close ⟨.code, o :: σ⟩ c = ⟨.code, σ⟩ := if_pos hfit
  obtain ⟨hstep, hstrays⟩ := @markedStep_closer (o :: σ) c hc x.head?
  rw [nest?_cons, hstep, hstrays, hclose]
  simp [fits, hfit]

/-- Any other closer is passed over, as it counts for nothing. -/
theorem nest?_passedCloser (hc : isCloser c = true) (hfits : fits ⟨.code, σ⟩ c = false)
    (h : nest? ⟨.code, σ⟩ (c :: x) = some s) :
    (c = Ascii.rbrace ↔ Ascii.hash ∉ σ) ∧ nest? ⟨.code, σ⟩ x = some s := by
  have hclose : close ⟨.code, σ⟩ c = ⟨.code, σ⟩ := by
    cases σ with
    | nil => rfl
    | cons o τ => exact if_neg (by simpa [fits] using hfits)
  obtain ⟨hstep, hstrays⟩ := @markedStep_closer σ c hc x.head?
  rw [hclose] at hstep
  obtain ⟨hkeep, hrest⟩ := of_nest?_cons hstep h
  rw [hstrays, hfits, Bool.not_false, Bool.true_and, beq_eq_false_iff_ne] at hkeep
  refine ⟨?_, hrest⟩
  by_cases hhash : Ascii.hash ∈ σ
  · have hinterpolated : interpolated ⟨.code, σ⟩ = true := by simpa [interpolated] using hhash
    rw [hinterpolated] at hkeep
    simpa [hhash] using hkeep
  · have hinterpolated : interpolated ⟨.code, σ⟩ = false := by simpa [interpolated] using hhash
    rw [hinterpolated] at hkeep
    simpa [hhash] using hkeep

/-- What a closer can do. -/
theorem nest?_closer (hc : isCloser c = true) (h : nest? ⟨.code, σ⟩ (c :: x) = some s) :
    (∃ o τ, σ = o :: τ ∧ closerOf o = c ∧ nest? ⟨.code, τ⟩ x = some s) ∨
      ((c = Ascii.rbrace ↔ Ascii.hash ∉ σ) ∧ nest? ⟨.code, σ⟩ x = some s) := by
  cases σ with
  | nil => exact Or.inr (nest?_passedCloser hc rfl h)
  | cons o τ =>
      by_cases hfit : closerOf o = c
      · rw [nest?_fittingCloser hc hfit] at h
        exact Or.inl ⟨o, τ, rfl, hfit, h⟩
      · exact Or.inr (nest?_passedCloser hc (by simpa [fits] using hfit) h)

/-- Any other byte counts for nothing. -/
theorem nest?_plain (hquote : Ascii.isQuote c = false) (hopener : isOpener c = false)
    (hcloser : isCloser c = false) (hblock : ¬(c = Ascii.slash ∧ x.head? = some Ascii.star))
    (hline : c = Ascii.slash → x.head? = some Ascii.slash → ∃ o ∈ σ, o ≠ Ascii.lbrace)
    (hhash : ¬(c = Ascii.hash ∧ x.head? = some Ascii.lbrace))
    (h : nest? ⟨.code, σ⟩ (c :: x) = some s) : nest? ⟨.code, σ⟩ x = some s := by
  have hmarked : markedStep ⟨.code, σ⟩ c x.head? = step ⟨.code, σ⟩ c x.head? := by
    rw [markedStep, if_neg fun hm => hhash ⟨hm.2.1, hm.2.2.1⟩]
  by_cases hallowed : c = Ascii.slash ∧ x.head? = some Ascii.slash ∧
      lineCommentsAllowed ⟨.code, σ⟩ = true
  · -- a brace on top that opens no block: the scan strays
    obtain ⟨rfl, hx, hallowed⟩ := hallowed
    obtain ⟨o, ho, hne⟩ := hline rfl hx
    cases σ with
    | nil => cases ho
    | cons top τ =>
        have htop : top = Ascii.lbrace := by simpa [lineCommentsAllowed] using hallowed
        have hall : (top :: τ).all (· == Ascii.lbrace) = false := by
          rw [List.all_eq_false]
          exact ⟨o, ho, by simpa using hne⟩
        have hstrays : strays ⟨.code, top :: τ⟩ Ascii.slash (some Ascii.slash) = true := by
          rw [strays]
          simp only [hall]
          simp +decide [inBraces, htop]
        rw [nest?_cons, hx, if_pos hstrays] at h
        cases h
  · have hstep : markedStep ⟨.code, σ⟩ c x.head? = (⟨.code, σ⟩, false) := by
      rw [hmarked]
      simp only [step, hquote, hopener, hcloser, if_neg hblock, if_neg hallowed, if_neg hhash]
      rfl
    exact (of_nest?_cons hstep h).2

/-! ## Comments -/

theorem nest?_lineCommentByte (hc : c ≠ Ascii.lf) :
    nest? ⟨.lineComment, σ⟩ (c :: x) = nest? ⟨.lineComment, σ⟩ x := by
  rw [nest?_cons]
  simp [strays, markedStep, step, hc]

/-- A line comment is left at its line feed. -/
theorem nest?_lineComment {u : Text} (hu : Ascii.lf ∉ u) :
    nest? ⟨.lineComment, σ⟩ (u ++ Ascii.lf :: x) = nest? ⟨.code, σ⟩ x := by
  induction u with
  | nil =>
      rw [List.nil_append, nest?_cons]
      simp [strays, markedStep, step]
  | cons c u ih =>
      rw [List.mem_cons, not_or] at hu
      rw [List.cons_append, nest?_lineCommentByte (Ne.symm hu.1), ih hu.2]

theorem nest?_openLineComment {u : Text} (hu : Ascii.lf ∉ u) :
    nest? ⟨.lineComment, σ⟩ u = some ⟨.lineComment, σ⟩ := by
  induction u with
  | nil => rfl
  | cons c u ih =>
      rw [List.mem_cons, not_or] at hu
      rw [nest?_lineCommentByte (Ne.symm hu.1), ih hu.2]

theorem nest?_blockCommentByte (hc : ¬(c = Ascii.star ∧ x.head? = some Ascii.slash)) :
    nest? ⟨.blockComment, σ⟩ (c :: x) = nest? ⟨.blockComment, σ⟩ x := by
  rw [nest?_cons]
  simp [strays, markedStep, step, hc]

/-- A block comment is left at its end. -/
theorem nest?_blockComment {u : Text} (hu : IsCommentText u) :
    nest? ⟨.blockComment, σ⟩ (u ++ Ascii.star :: Ascii.slash :: x) = nest? ⟨.code, σ⟩ x := by
  induction u with
  | nil =>
      rw [List.nil_append, nest?_cons]
      simp [strays, markedStep, step]
  | cons c u ih =>
      obtain ⟨hc, hu⟩ := hu.cons
      rw [List.cons_append, nest?_blockCommentByte, ih hu]
      rintro ⟨rfl, hhead⟩
      exact hc ⟨rfl, by cases u <;> simpa using hhead⟩

theorem nest?_openBlockComment {u : Text} (hu : IsCommentText u) :
    nest? ⟨.blockComment, σ⟩ u = some ⟨.blockComment, σ⟩ := by
  induction u with
  | nil => rfl
  | cons c u ih =>
      obtain ⟨hc, hu⟩ := hu.cons
      rw [nest?_blockCommentByte, ih hu]
      rintro ⟨rfl, hhead⟩
      refine hc ⟨rfl, ?_⟩
      cases u with
      | nil => cases hhead
      | cons d u => exact hhead

/-! ## Literals -/

/-- The scan passes the parts of a literal and its closing quote. -/
def LiteralPassed (q : UInt8) (parts : List LiteralPart) (σ : List UInt8) (x y after : Text)
    (s : OpenConstructs) : Prop :=
  ∃ v, x = parts.flatMap LiteralPart.text ++ q :: v ∧ after = v ++ y ∧
    nest? ⟨.code, σ⟩ v = some s

/-- The scan ends inside a literal, behind some parts of it. -/
def LiteralCut (q : UInt8) (σ : List UInt8) (x : Text) (s : OpenConstructs) : Prop :=
  ∃ parts : List LiteralPart, (∀ p ∈ parts, p.WellFormed q) ∧
    x = parts.flatMap LiteralPart.text ∧ s = ⟨.literal q, σ⟩

theorem LiteralPassed.cons {parts : List LiteralPart} {y after : Text} (p : LiteralPart)
    (h : LiteralPassed q parts σ x y after s) :
    LiteralPassed q (p :: parts) σ (p.text ++ x) y after s := by
  obtain ⟨v, rfl, hafter, h⟩ := h
  exact ⟨v, by rw [List.flatMap_cons, List.append_assoc], hafter, h⟩

theorem LiteralCut.nil (h : nest? ⟨.literal q, σ⟩ [] = some s) : LiteralCut q σ [] s :=
  ⟨[], by simp, rfl, (Option.some.inj h).symm⟩

theorem LiteralCut.cons {p : LiteralPart} (hp : p.WellFormed q) (h : LiteralCut q σ x s) :
    LiteralCut q σ (p.text ++ x) s := by
  obtain ⟨parts, hparts, rfl, hs⟩ := h
  exact ⟨p :: parts, List.forall_mem_cons.mpr ⟨hp, hparts⟩, by rw [List.flatMap_cons], hs⟩

/-- **A literal that the text may be cut off in.** Either it is passed as a whole, or the scan ends
inside. -/
theorem nest?_literalParts {parts : List LiteralPart} {after y : Text}
    (hq : Ascii.isQuote q = true) (hparts : ∀ p ∈ parts, p.WellFormed q) :
    ∀ {x : Text}, parts.flatMap LiteralPart.text ++ q :: after = x ++ y →
      nest? ⟨.literal q, σ⟩ x = some s →
      LiteralPassed q parts σ x y after s ∨ LiteralCut q σ x s := by
  induction parts with
  | nil =>
      intro x htext h
      cases x with
      | nil => exact Or.inr (.nil h)
      | cons c v =>
          obtain ⟨rfl, hafter⟩ := List.cons.inj htext
          rw [nest?_literalEnd hq] at h
          exact Or.inl ⟨v, rfl, hafter, h⟩
  | cons p parts ih =>
      intro x htext h
      obtain ⟨hp, hrest⟩ := List.forall_mem_cons.mp hparts
      cases x with
      | nil => exact Or.inr (.nil h)
      | cons c x =>
          cases p with
          | byte b =>
              obtain ⟨rfl, htext'⟩ := List.cons.inj htext
              rw [nest?_literalByte hp] at h
              exact (ih hrest htext' h).imp (.cons (.byte b)) (.cons hp)
          | escaped b =>
              obtain ⟨rfl, htext'⟩ := List.cons.inj htext
              cases x with
              | nil =>
                  -- nothing behind the backslash: the scan strays
                  rw [nest?_cutEscape] at h
                  cases h
              | cons d x =>
                  obtain ⟨rfl, htext''⟩ := List.cons.inj htext'
                  rw [nest?_escape] at h
                  exact (ih hrest htext'' h).imp (.cons (.escaped b)) (.cons hp)

/-! ## Interpolations -/

/-- No comment may start inside an interpolation. -/
theorem nest?_strayComment (hσ : Ascii.hash ∈ σ) :
    nest? ⟨.code, σ⟩ (Ascii.slash :: Ascii.star :: x) = Option.none := by
  rw [nest?_cons]
  simp [strays, interpolated, hσ]

/-- Inside an interpolation the hash of another counts for nothing. -/
theorem nest?_innerHash (hσ : Ascii.hash ∈ σ) :
    nest? ⟨.code, σ⟩ (Ascii.hash :: Ascii.lbrace :: x)
      = nest? ⟨.code, σ⟩ (Ascii.lbrace :: x) := by
  have hlbrace : isOpener Ascii.lbrace = true := rfl
  rw [nest?_opener hlbrace, nest?_cons]
  simp +decide [strays, markedStep, step, interpolated, hσ]

/-- Brackets that stand above a brace on the stack. -/
def Brackets (β : List UInt8) : Prop := ∀ o ∈ β, o = Ascii.lparen ∨ o = Ascii.lbracket

theorem closerOf_bracket {o : UInt8} (h : o = Ascii.lparen ∨ o = Ascii.lbracket) :
    closerOf o = Ascii.rparen ∨ closerOf o = Ascii.rbracket := by
  rcases h with rfl | rfl
  · exact Or.inl rfl
  · exact Or.inr rfl

/-- A byte inside an interpolation touches no more than the brackets above its innermost brace. -/
theorem nest?_interpolationByte {β ρ : List UInt8} {b : UInt8} (hβ : Brackets β)
    (hb : closerOf b = Ascii.rbrace) (hhash : Ascii.hash ∈ b :: ρ)
    (hc : Ascii.isQuote c = false ∧ c ≠ Ascii.lbrace ∧ c ≠ Ascii.rbrace)
    (h : nest? ⟨.code, β ++ b :: ρ⟩ (c :: x) = some s) :
    ∃ β', Brackets β' ∧ nest? ⟨.code, β' ++ b :: ρ⟩ x = some s := by
  obtain ⟨hquote, hlbrace, hrbrace⟩ := hc
  have hσ : Ascii.hash ∈ β ++ b :: ρ := List.mem_append_right _ hhash
  by_cases hopener : isOpener c = true
  · rw [nest?_opener hopener] at h
    refine ⟨c :: β, ?_, h⟩
    intro o ho
    rcases List.mem_cons.mp ho with rfl | ho
    · simpa [isOpener, hlbrace] using hopener
    · exact hβ o ho
  by_cases hcloser : isCloser c = true
  · rcases nest?_closer hcloser h with ⟨o, τ, hτ, hfit, h⟩ | ⟨-, h⟩
    · cases β with
      | nil =>
          obtain ⟨rfl, -⟩ := List.cons.inj hτ
          exact absurd (hfit.symm.trans hb) hrbrace
      | cons p β =>
          obtain ⟨-, rfl⟩ := List.cons.inj hτ
          exact ⟨β, fun o ho => hβ o (List.mem_cons_of_mem _ ho), h⟩
    · exact ⟨β, hβ, h⟩
  by_cases hinner : c = Ascii.hash ∧ x.head? = some Ascii.lbrace
  · obtain ⟨rfl, hx⟩ := hinner
    obtain ⟨x, rfl⟩ := List.head?_eq_some_iff.mp hx
    rw [nest?_innerHash hσ] at h
    exact ⟨β, hβ, h⟩
  have hblock : ¬(c = Ascii.slash ∧ x.head? = some Ascii.star) := by
    rintro ⟨rfl, hx⟩
    obtain ⟨x, rfl⟩ := List.head?_eq_some_iff.mp hx
    rw [nest?_strayComment hσ] at h
    cases h
  exact ⟨β, hβ, nest?_plain hquote (by simpa using hopener) (by simpa using hcloser) hblock
    (fun _ _ => ⟨Ascii.hash, hσ, by decide⟩) hinner h⟩

end OpenConstructs

/-- Bytes that mean nothing inside an interpolation. -/
def Interpolation.bytes : Text → Interpolation
  | [] => .done
  | c :: t => .byte c (bytes t)

@[simp] theorem Interpolation.text_bytes (t : Text) : (bytes t).text = t := by
  induction t with
  | nil => rfl
  | cons c t ih => rw [bytes, text, ih]

/-- The closers of brackets mean nothing inside an interpolation. -/
theorem Interpolation.wellFormed_bytes {β : List UInt8} (hβ : OpenConstructs.Brackets β) :
    (bytes (β.map closerOf)).WellFormed := by
  induction β with
  | nil => trivial
  | cons o β ih =>
      refine ⟨?_, ih fun p hp => hβ p (List.mem_cons_of_mem _ hp)⟩
      rcases OpenConstructs.closerOf_bracket (hβ o List.mem_cons_self) with h | h
      · rw [h]
        decide
      · rw [h]
        decide

namespace OpenConstructs

variable {σ : List UInt8} {c q : UInt8} {x : Text} {s : OpenConstructs}

/-- The scan passes the rest `i` of an interpolation and its closing brace; the stack is then
`ρ`. -/
def InterpolationPassed (i : Interpolation) (ρ : List UInt8) (x y after : Text)
    (s : OpenConstructs) : Prop :=
  ∃ v, x = i.text ++ Ascii.rbrace :: v ∧ after = v ++ y ∧ nest? ⟨.code, ρ⟩ v = some s

/-- The scan ends inside an interpolation, behind its part `x`, and the first closers complete the
interpolation. -/
def InterpolationCompleted (ρ : List UInt8) (x : Text) (s : OpenConstructs) : Prop :=
  ∃ (i : Interpolation) (w : Text), i.WellFormed ∧ x ++ w = i.text ++ [Ascii.rbrace] ∧
    s.closers = w ++ ρ.map closerOf

namespace InterpolationCompleted

variable {β ρ : List UInt8} {b : UInt8}

/-- At a cut the closers of the brackets and of the brace come first. -/
theorem of_cut (hβ : Brackets β) (hb : closerOf b = Ascii.rbrace) :
    InterpolationCompleted ρ [] ⟨.code, β ++ b :: ρ⟩ := by
  refine ⟨.bytes (β.map closerOf), β.map closerOf ++ [Ascii.rbrace],
    Interpolation.wellFormed_bytes hβ, by simp, ?_⟩
  simp [closers, hb]

/-- At a cut inside a literal its quote comes before them. -/
theorem of_cutLiteral {parts : List LiteralPart} (hq : Ascii.isQuote q = true)
    (hparts : ∀ p ∈ parts, p.WellFormed q) (hβ : Brackets β) (hb : closerOf b = Ascii.rbrace) :
    InterpolationCompleted ρ (q :: parts.flatMap LiteralPart.text)
      ⟨.literal q, β ++ b :: ρ⟩ := by
  refine ⟨.literal ⟨q, parts⟩ (.bytes (β.map closerOf)), q :: (β.map closerOf ++ [Ascii.rbrace]),
    ⟨⟨hq, hparts⟩, Interpolation.wellFormed_bytes hβ⟩, ?_, ?_⟩
  · simp [Interpolation.text, Literal.text]
  · simp [closers, hb]

theorem byte (h : InterpolationCompleted ρ x s)
    (hc : Ascii.isQuote c = false ∧ c ≠ Ascii.lbrace ∧ c ≠ Ascii.rbrace) :
    InterpolationCompleted ρ (c :: x) s := by
  obtain ⟨i, w, hi, hw, hclosers⟩ := h
  exact ⟨.byte c i, w, ⟨hc, hi⟩, by simp [Interpolation.text, hw], hclosers⟩

theorem literal {l : Literal} (h : InterpolationCompleted ρ x s) (hl : l.WellFormed) :
    InterpolationCompleted ρ (l.text ++ x) s := by
  obtain ⟨i, w, hi, hw, hclosers⟩ := h
  exact ⟨.literal l i, w, ⟨hl, hi⟩, by simp [Interpolation.text, hw], hclosers⟩

theorem braces {inner : Interpolation} (h : InterpolationCompleted ρ x s)
    (hinner : inner.WellFormed) :
    InterpolationCompleted ρ (Ascii.lbrace :: (inner.text ++ Ascii.rbrace :: x)) s := by
  obtain ⟨i, w, hi, hw, hclosers⟩ := h
  exact ⟨.braces inner i, w, ⟨hinner, hi⟩, by simp [Interpolation.text, hw], hclosers⟩

/-- What is open inside inner braces is closed first. -/
theorem inner (h : InterpolationCompleted (β ++ b :: ρ) x s) (hβ : Brackets β)
    (hb : closerOf b = Ascii.rbrace) : InterpolationCompleted ρ (Ascii.lbrace :: x) s := by
  obtain ⟨i, w, hi, hw, hclosers⟩ := h
  refine ⟨.braces i (.bytes (β.map closerOf)), w ++ (β.map closerOf ++ [Ascii.rbrace]),
    ⟨hi, Interpolation.wellFormed_bytes hβ⟩, ?_, ?_⟩
  · rw [List.cons_append, ← List.append_assoc, hw]
    simp [Interpolation.text]
  · rw [hclosers]
    simp [hb]

end InterpolationCompleted

/-- A closing brace takes the innermost brace from the stack, which no bracket may hide. -/
theorem nest?_interpolationEnd {β ρ : List UInt8} {b : UInt8} (hβ : Brackets β)
    (hhash : Ascii.hash ∈ b :: ρ) (h : nest? ⟨.code, β ++ b :: ρ⟩ (Ascii.rbrace :: x) = some s) :
    nest? ⟨.code, ρ⟩ x = some s := by
  rcases nest?_closer rfl h with ⟨o, τ, hτ, hfit, h⟩ | ⟨hpass, -⟩
  · cases β with
    | nil =>
        obtain ⟨-, rfl⟩ := List.cons.inj hτ
        exact h
    | cons p β =>
        obtain ⟨rfl, -⟩ := List.cons.inj hτ
        rcases closerOf_bracket (hβ p List.mem_cons_self) with hp | hp
        · exact absurd (hfit.symm.trans hp) (by decide)
        · exact absurd (hfit.symm.trans hp) (by decide)
  · exact absurd (List.mem_append_right _ hhash) (hpass.mp rfl)

/-- **An interpolation that the text may be cut off in**, behind its innermost open brace `b` and
some brackets `β`. Either its rest is passed as a whole, or the scan ends inside and its closers
complete the interpolation before those of the constructs around it. -/
theorem nest?_interpolation {i : Interpolation} (hi : i.WellFormed) :
    ∀ {β ρ : List UInt8} {b : UInt8} {x after y : Text}, Brackets β →
      closerOf b = Ascii.rbrace → Ascii.hash ∈ b :: ρ →
      i.text ++ Ascii.rbrace :: after = x ++ y → nest? ⟨.code, β ++ b :: ρ⟩ x = some s →
      InterpolationPassed i ρ x y after s ∨ InterpolationCompleted ρ x s := by
  induction i with
  | done =>
      intro β ρ b x after y hβ hb hhash htext h
      cases x with
      | nil => exact Or.inr (Option.some.inj h ▸ .of_cut hβ hb)
      | cons c v =>
          obtain ⟨rfl, hafter⟩ := List.cons.inj htext
          exact Or.inl ⟨v, rfl, hafter, nest?_interpolationEnd hβ hhash h⟩
  | byte c rest ih =>
      intro β ρ b x after y hβ hb hhash htext h
      cases x with
      | nil => exact Or.inr (Option.some.inj h ▸ .of_cut hβ hb)
      | cons d x =>
          obtain ⟨rfl, hrest⟩ := List.cons.inj htext
          obtain ⟨β', hβ', h⟩ := nest?_interpolationByte hβ hb hhash hi.1 h
          rcases ih hi.2 hβ' hb hhash hrest h with ⟨v, rfl, hafter, h⟩ | h
          · exact Or.inl ⟨v, rfl, hafter, h⟩
          · exact Or.inr (h.byte hi.1)
  | literal l rest ih =>
      intro β ρ b x after y hβ hb hhash htext h
      obtain ⟨q, parts⟩ := l
      cases x with
      | nil => exact Or.inr (Option.some.inj h ▸ .of_cut hβ hb)
      | cons d x =>
          simp only [Interpolation.text, Literal.text, List.append_assoc, List.cons_append,
            List.nil_append] at htext
          obtain ⟨rfl, hrest⟩ := List.cons.inj htext
          rw [nest?_quote hi.1.1] at h
          rcases nest?_literalParts hi.1.1 hi.1.2 hrest h with
            ⟨v, rfl, hafter, h⟩ | ⟨parts', hparts', rfl, rfl⟩
          · rcases ih hi.2 hβ hb hhash hafter h with ⟨u, rfl, hafter, h⟩ | h
            · exact Or.inl ⟨u, by simp [Interpolation.text, Literal.text], hafter, h⟩
            · exact Or.inr (by simpa [Literal.text] using h.literal hi.1)
          · exact Or.inr (.of_cutLiteral hi.1.1 hparts' hβ hb)
  | braces inner rest ihi ihr =>
      intro β ρ b x after y hβ hb hhash htext h
      cases x with
      | nil => exact Or.inr (Option.some.inj h ▸ .of_cut hβ hb)
      | cons d x =>
          simp only [Interpolation.text, List.append_assoc, List.cons_append] at htext
          obtain ⟨rfl, hrest⟩ := List.cons.inj htext
          rw [nest?_opener rfl] at h
          -- the stack around the inner braces is the whole stack so far
          have hinside := @ihi hi.1 [] (β ++ b :: ρ) Ascii.lbrace x _ y (by simp [Brackets]) rfl
            (List.mem_cons_of_mem _ (List.mem_append_right _ hhash)) hrest h
          rcases hinside with ⟨v, rfl, hafter, h⟩ | h
          · rcases ihr hi.2 hβ hb hhash hafter h with ⟨u, rfl, hafter, h⟩ | h
            · exact Or.inl ⟨u, by simp [Interpolation.text], hafter, h⟩
            · exact Or.inr (h.braces hi.1)
          · exact Or.inr (h.inner hβ hb)

end OpenConstructs

end StyleIndex
