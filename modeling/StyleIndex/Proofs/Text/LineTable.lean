import Mathlib.Tactic
import StyleIndex.Proofs.Text.Position

set_option autoImplicit false

/-! # Offsets and positions correspond

The offsets that lie between two characters of a line and the positions on the lines of a text are
two names for the same places, in the same order (`offsets_positions`).

What a place is, is said without the line index. A line starts at the start of the text or behind a
line break (`StartsLine`), its number is the number of lines that start before it, and it is decoded
step by step from its start in the *whole* text (`Utf8.Steps`). The index does two other things: it
counts the characters of a slice that ends at the offset, and it walks no further than the line
break. Both come to the same because a step needs no more bytes than it takes
(`step_append_of_width_le`), and because a line break is no part of a longer character.

`AtCharacter t s n k` collects what both directions need: the line that starts at `s` has a boundary
of its `n`-th character after `k` bytes. An offset is proper and a position valid exactly if there
are such numbers for them, and the index takes one to the other (`AtCharacter.index`).
-/

namespace StyleIndex

/-! ## Decoding steps -/

namespace Utf8

/-- A step needs no more bytes than it takes. -/
theorem step_append_of_width_le {c : UInt8} {u : Text} (v : Text)
    (h : (step c (u ++ v)).2 ≤ u.length + 1) : step c (u ++ v) = step c u := by
  -- a step looks at three further bytes at most
  rcases u with _ | ⟨u₁, _ | ⟨u₂, _ | ⟨u₃, u⟩⟩⟩
  · rw [List.nil_append] at h ⊢
    revert h
    unfold step
    repeat' split
    all_goals simp_all
  · revert h
    unfold step
    rcases v with _ | ⟨v₁, _ | ⟨v₂, v⟩⟩
    all_goals simp only [List.cons_append, List.nil_append, List.length_cons, List.length_nil]
    all_goals split_ifs <;> simp
  · revert h
    unfold step
    rcases v with _ | ⟨v₁, v⟩
    all_goals simp only [List.cons_append, List.nil_append, List.length_cons, List.length_nil]
    all_goals split_ifs <;> simp
  · rfl

/-- The first `n` decoding steps of a text take `k` bytes. -/
inductive Steps : (t : Text) → (n k : Nat) → Prop
  | zero (t : Text) : Steps t 0 0
  | succ {c : UInt8} {rest : Text} {n k : Nat} :
      Steps ((c :: rest).drop (step c rest).2) n k → Steps (c :: rest) (n + 1) ((step c rest).2 + k)

namespace Steps

variable {t u v : Text} {n m k j : Nat}

theorem le_length (h : Steps t n k) : k ≤ t.length := by
  induction h with
  | zero t => exact Nat.zero_le _
  | @succ c rest n k _ ih =>
      have hle := step_width_le c rest
      rw [List.length_drop, List.length_cons] at ih
      rw [List.length_cons]
      omega

/-- Steps that stay in the first part of a text do not depend on the second. -/
theorem of_append (h : Steps (u ++ v) n k) (hk : k ≤ u.length) : Steps u n k := by
  generalize ht : u ++ v = t at h
  induction h generalizing u with
  | zero t => exact .zero u
  | @succ c rest n k _ ih =>
      have hpos := step_width_pos c rest
      cases u with
      | nil =>
          rw [List.length_nil] at hk
          omega
      | cons d u =>
          rw [List.cons_append] at ht
          obtain ⟨rfl, rfl⟩ := List.cons.inj ht
          rw [List.length_cons] at hk
          have hstep := @step_append_of_width_le d u v (by omega)
          rw [hstep] at hk ih ⊢
          refine .succ (ih ?_ (drop_width_append d u v).symm)
          rw [List.length_drop, List.length_cons]
          omega

/-- In front of a cut the steps are those of the whole text. -/
theorem append (h : Steps u n k) (hcut : IsCut u v) : Steps (u ++ v) n k := by
  induction h with
  | zero u => exact .zero _
  | @succ c rest n k _ ih =>
      have hrest := ih (hcut.drop _)
      rw [← drop_width_append] at hrest
      have hstep := step_append hcut
      rw [← hstep] at hrest ⊢
      exact .succ hrest

theorem lt_iff (h : Steps t n k) : ∀ {m j : Nat}, Steps t m j → (n < m ↔ k < j) := by
  induction h with
  | zero t =>
      intro m j h'
      cases h' with
      | zero => simp
      | @succ c rest m j _ =>
          have := step_width_pos c rest
          omega
  | @succ c rest n k _ ih =>
      intro m j h'
      cases h' with
      | zero => simp
      | succ h' =>
          have := ih h'
          omega

/-- Steps that reach the end of a text are all its characters. -/
theorem characterCount_eq (h : Steps t n k) (hk : k = t.length) : characterCount t = n := by
  induction h with
  | zero t =>
      rw [List.eq_nil_of_length_eq_zero hk.symm]
      simp [characterCount, characters]
  | @succ c rest n k _ ih =>
      have hle := step_width_le c rest
      rw [List.length_cons] at hk
      rw [characterCount_cons, ih (by rw [List.length_drop, List.length_cons]; omega)]

/-- The first bytes of a text, up to the end of a step, hold as many characters as steps lead
there. -/
theorem characterCount_take (h : Steps t n k) : characterCount (t.take k) = n := by
  have hk := h.le_length
  rw [← List.take_append_drop k t] at h
  have htake : (t.take k).length = k := by
    rw [List.length_take]
    omega
  exact (h.of_append (by omega)).characterCount_eq htake.symm

/-- The walk over characters takes these steps, if its limit does not stop it. -/
theorem advance_eq (h : Steps t n k) {limit : Nat} (hk : k ≤ limit) :
    LineIndex.advance n limit t = k := by
  induction h generalizing limit with
  | zero t => rw [LineIndex.advance]
  | @succ c rest n k _ ih =>
      have hpos := step_width_pos c rest
      rw [LineIndex.advance, if_neg (by omega)]
      simp only
      rw [ih (by omega)]

end Steps

/-- A text can be decoded up to any of its characters. -/
theorem exists_steps {t : Text} {n : Nat} (h : n ≤ characterCount t) : ∃ k, Steps t n k := by
  induction n generalizing t with
  | zero => exact ⟨0, .zero t⟩
  | succ n ih =>
      cases t with
      | nil =>
          rw [characterCount, characters] at h
          cases h
      | cons c rest =>
          rw [characterCount_cons] at h
          obtain ⟨k, hk⟩ := ih (Nat.le_of_succ_le_succ h)
          exact ⟨_, .succ hk⟩

theorem Steps.le_characterCount {t : Text} {n k : Nat} (h : Steps t n k) :
    n ≤ characterCount t := by
  induction h with
  | zero t => exact Nat.zero_le _
  | @succ c rest n k _ ih =>
      rw [characterCount_cons]
      omega

/-- A walk that is long enough stops at its limit, if the limit is a cut. -/
theorem advance_of_characterCount_le {u v : Text} (hcut : IsCut u v) {n : Nat}
    (hn : characterCount u ≤ n) : LineIndex.advance n u.length (u ++ v) = u.length := by
  obtain ⟨m, rfl⟩ := Nat.exists_eq_add_of_le hn
  rw [advance_append hcut m u.length le_rfl, Nat.sub_self]
  cases m with
  | zero => rw [LineIndex.advance]; rfl
  | succ m =>
      cases v with
      | nil => rw [LineIndex.advance]; rfl
      | cons c v => rw [LineIndex.advance, if_pos rfl]; rfl

end Utf8

/-! ## Lines of a text -/

/-- Whether a line starts at an offset: at the start of the text or just behind a line break. A
carriage return in front of a line feed does not end the line yet. -/
def StartsLine (t : Text) : Nat → Prop
  | 0 => True
  | n + 1 => t[n]? = some Ascii.lf ∨ (t[n]? = some Ascii.cr ∧ t[n + 1]? ≠ some Ascii.lf)

instance (t : Text) (n : Nat) : Decidable (StartsLine t n) :=
  match n with
  | 0 => inferInstanceAs (Decidable True)
  | n + 1 => inferInstanceAs
      (Decidable (t[n]? = some Ascii.lf ∨ (t[n]? = some Ascii.cr ∧ t[n + 1]? ≠ some Ascii.lf)))

/-- The line that starts at an offset, without its line break. -/
def lineFrom (t : Text) (start : Nat) : Text :=
  (t.drop start).takeWhile fun c => c != Ascii.lf && c != Ascii.cr

/-- The number of lines that start before an offset. -/
def linesBefore (t : Text) (start : Nat) : Nat :=
  ((List.range start).filter (StartsLine t ·)).length

/-- A line starts at `start`, and no line starts behind it up to offset `o`. -/
structure StartsLineOf (t : Text) (start o : Nat) : Prop where
  startsLine : StartsLine t start
  le : start ≤ o
  last : ∀ s, start < s → s ≤ o → ¬ StartsLine t s

/-- An offset of the text that is reached from the start of its line by whole decoding steps of the
text, and does not stand inside a line break. -/
structure ProperOffset (t : Text) (o : Nat) : Prop where
  le_length : o ≤ t.length
  reached : ∃ start n, StartsLineOf t start o ∧ Utf8.Steps (t.drop start) n (o - start)
  outside_break : ¬ (0 < o ∧ t[o - 1]? = some Ascii.cr ∧ t[o]? = some Ascii.lf)

/-- A line of the text, and a number of characters that the line has. -/
def ValidPosition (t : Text) (p : Position) : Prop :=
  ∃ start, StartsLine t start ∧ p.line = linesBefore t start ∧
    0 ≤ p.character ∧ p.character ≤ Utf8.characterCount (lineFrom t start)

/-- The nearest position on the line that starts at `start`. -/
def Position.clampTo (t : Text) (start : Nat) (p : Position) : Position :=
  ⟨p.line, max 0 (min p.character (Utf8.characterCount (lineFrom t start)))⟩

/-- Positions are ordered by line, then by character. -/
def Position.Before (p q : Position) : Prop :=
  p.line < q.line ∨ (p.line = q.line ∧ p.character < q.character)

section Line

variable {t : Text} {start : Nat}

theorem StartsLine.le_length (h : StartsLine t start) : start ≤ t.length := by
  cases start with
  | zero => exact Nat.zero_le _
  | succ n =>
      rcases h with h | ⟨h, -⟩
      · exact (List.getElem?_eq_some_iff.mp h).1
      · exact (List.getElem?_eq_some_iff.mp h).1

/-- A line starts behind a byte that can end one. -/
theorem StartsLine.isLineBreak {n : Nat} (h : StartsLine t (n + 1)) :
    ∃ c, t[n]? = some c ∧ IsLineBreak c := by
  rcases h with h | ⟨h, -⟩
  · exact ⟨_, h, Or.inl rfl⟩
  · exact ⟨_, h, Or.inr rfl⟩

/-- A text from the start of a line on: the line, and its line break or nothing. -/
theorem exists_after (t : Text) (start : Nat) :
    ∃ after, t.drop start = lineFrom t start ++ after ∧ ∀ c ∈ after.head?, IsLineBreak c := by
  refine ⟨_, List.takeWhile_append_dropWhile.symm, fun c hc => ?_⟩
  have hnot := List.head?_dropWhile_not (fun c => c != Ascii.lf && c != Ascii.cr) (t.drop start)
  rw [Option.mem_def.mp hc] at hnot
  simp only [Bool.and_eq_false_iff, bne_eq_false_iff_eq] at hnot
  exact hnot

theorem isCut_lineFrom {after : Text} (h : ∀ c ∈ after.head?, IsLineBreak c) (line : Text) :
    Utf8.IsCut line after := by
  refine Or.inr (Or.inr fun c hc => ?_)
  rcases h c hc with rfl | rfl
  · decide
  · decide

/-- No byte of a line ends it. -/
theorem not_isLineBreak_of_lt {i : Nat} (hlow : start ≤ i)
    (hhigh : i < start + (lineFrom t start).length) {c : UInt8} (hc : t[i]? = some c) :
    ¬ IsLineBreak c := by
  obtain ⟨after, hafter, -⟩ := exists_after t start
  have hmem : c ∈ lineFrom t start := by
    have hindex : (t.drop start)[i - start]? = some c := by
      rw [List.getElem?_drop, Nat.add_sub_cancel' hlow, hc]
    rw [hafter, List.getElem?_append_left (by omega)] at hindex
    exact List.mem_of_getElem? hindex
  have hplain := List.mem_takeWhile_imp hmem
  simp only [Bool.and_eq_true, bne_iff_ne] at hplain
  rintro (rfl | rfl)
  · exact hplain.1 rfl
  · exact hplain.2 rfl

/-- Behind a line there is a byte that can end it, or the end of the text. -/
theorem isLineBreak_at_end {c : UInt8}
    (hc : t[start + (lineFrom t start).length]? = some c) : IsLineBreak c := by
  obtain ⟨after, hafter, hbreak⟩ := exists_after t start
  refine hbreak c ?_
  rw [← List.getElem?_drop, hafter, List.getElem?_append_right le_rfl, Nat.sub_self] at hc
  rwa [Option.mem_def, List.head?_eq_getElem?]

theorem add_length_lineFrom_le (h : start ≤ t.length) :
    start + (lineFrom t start).length ≤ t.length := by
  have hle := (List.takeWhile_prefix (l := t.drop start)
    fun c => c != Ascii.lf && c != Ascii.cr).length_le
  rw [List.length_drop] at hle
  rw [lineFrom]
  omega

/-- No other line starts on a line. -/
theorem not_startsLine_of_le {n : Nat} (hlow : start < n)
    (hhigh : n ≤ start + (lineFrom t start).length) : ¬ StartsLine t n := by
  intro h
  obtain ⟨m, rfl⟩ : ∃ m, n = m + 1 := ⟨n - 1, by omega⟩
  obtain ⟨c, hc, hbreak⟩ := h.isLineBreak
  exact not_isLineBreak_of_lt (Nat.le_of_lt_succ hlow) hhigh hc hbreak

end Line

/-! ## The table of line starts -/

theorem mem_lineStartsAfter {t : Text} {n : Nat} : ∀ {pos : Nat},
    n ∈ lineStartsAfter pos t ↔ ∃ m, n = pos + (m + 1) ∧ StartsLine t (m + 1) := by
  induction t with
  | nil =>
      intro pos
      simp [lineStartsAfter, StartsLine]
  | cons c rest ih =>
      intro pos
      have hfirst : StartsLine (c :: rest) 1
          ↔ c = Ascii.lf ∨ (c = Ascii.cr ∧ rest.head? ≠ some Ascii.lf) := by
        simp [StartsLine, List.head?_eq_getElem?]
      have hlater : ∀ m, StartsLine (c :: rest) (m + 2) ↔ StartsLine rest (m + 1) := by
        intro m
        simp [StartsLine]
      have hrest : (∃ m, n = pos + (m + 2) ∧ StartsLine (c :: rest) (m + 2))
          ↔ n ∈ lineStartsAfter (pos + 1) rest := by
        simp only [hlater, ih]
        exact exists_congr fun m => and_congr_left fun _ => by omega
      have hsplit : (∃ m, n = pos + (m + 1) ∧ StartsLine (c :: rest) (m + 1))
          ↔ (n = pos + 1 ∧ StartsLine (c :: rest) 1) ∨ n ∈ lineStartsAfter (pos + 1) rest := by
        rw [← hrest]
        constructor
        · rintro ⟨_ | m, hn, h⟩
          · exact Or.inl ⟨hn, h⟩
          · exact Or.inr ⟨m, hn, h⟩
        · rintro (⟨hn, h⟩ | ⟨m, hn, h⟩)
          · exact ⟨0, hn, h⟩
          · exact ⟨m + 1, hn, h⟩
      rw [hsplit, hfirst, lineStartsAfter]
      split_ifs with hbreak
      · simp [hbreak]
      · simp [hbreak]

/-- The numbers below `n` around one of them. -/
theorem range_eq_append {m n : Nat} (h : m < n) :
    List.range n = List.range m ++ m :: List.range' (m + 1) (n - (m + 1)) := by
  have hsplit := @List.range'_append_1 0 m (n - (m + 1) + 1)
  rw [Nat.zero_add] at hsplit
  rw [List.range_eq_range', List.range_eq_range', ← List.range'_succ, hsplit]
  congr 1
  omega

theorem pairwise_lineStartsAfter (t : Text) : ∀ pos : Nat,
    (lineStartsAfter pos t).Pairwise (· < ·) := by
  induction t with
  | nil =>
      intro pos
      exact .nil
  | cons c rest ih =>
      intro pos
      rw [lineStartsAfter]
      split_ifs
      · exact .cons (fun n hn => (isLineBreak_of_mem_lineStartsAfter hn).1) (ih _)
      · exact ih _

namespace LineIndex

/-- The index holds the offsets at which lines start, in order. -/
theorem starts_ofText (t : Text) :
    (ofText t).starts = (List.range (t.length + 1)).filter (StartsLine t ·) := by
  have hleft : (ofText t).starts.Pairwise (· < ·) :=
    .cons (fun n hn => (isLineBreak_of_mem_lineStartsAfter hn).1) (pairwise_lineStartsAfter t 0)
  have hright : ((List.range (t.length + 1)).filter (StartsLine t ·)).Pairwise (· < ·) :=
    List.pairwise_lt_range.filter _
  refine hleft.eq_of_mem_iff hright fun n => ?_
  simp only [ofText, List.mem_cons, mem_lineStartsAfter, List.mem_filter, List.mem_range,
    decide_eq_true_eq, Nat.zero_add]
  constructor
  · rintro (rfl | ⟨m, rfl, h⟩)
    · exact ⟨Nat.succ_pos _, trivial⟩
    · exact ⟨Nat.lt_succ_of_le h.le_length, h⟩
  · rintro ⟨-, h⟩
    cases n with
    | zero => exact Or.inl rfl
    | succ m => exact Or.inr ⟨m, rfl, h⟩

/-- The starts of the lines behind the one that starts at `start`. -/
def laterStarts (t : Text) (start : Nat) : List Nat :=
  (List.range' (start + 1) (t.length - start)).filter (StartsLine t ·)

section Start

variable {t : Text} {start : Nat}

/-- The table around the start of a line. -/
theorem starts_eq_append (h : StartsLine t start) :
    (ofText t).starts
      = (List.range start).filter (StartsLine t ·) ++ start :: laterStarts t start := by
  rw [starts_ofText, range_eq_append (Nat.lt_add_one_of_le h.le_length), List.filter_append,
    List.filter_cons_of_pos (by simpa using h), Nat.add_sub_add_right]
  rfl

theorem mem_laterStarts {n : Nat} :
    n ∈ laterStarts t start ↔ (start < n ∧ n ≤ t.length) ∧ StartsLine t n := by
  simp only [laterStarts, List.mem_filter, List.mem_range'_1, decide_eq_true_eq]
  refine and_congr_left fun h => ?_
  have := h.le_length
  omega

/-- The line of an offset has the number of lines that start before it. -/
theorem lineAt_eq {o : Nat} (h : StartsLineOf t start o) :
    (ofText t).lineAt o = (linesBefore t start, start) := by
  have hearlier : ∀ n ∈ (List.range start).filter (StartsLine t ·), decide (n ≤ o) = true := by
    intro n hn
    have := List.mem_range.mp (List.mem_of_mem_filter hn)
    have := h.le
    simp only [decide_eq_true_eq]
    omega
  have hlater : (laterStarts t start).takeWhile (· ≤ o) = [] := by
    cases hl : laterStarts t start with
    | nil => rfl
    | cons n rest =>
        obtain ⟨⟨hlt, -⟩, hn⟩ := mem_laterStarts.mp (hl ▸ List.mem_cons_self)
        have hgt : ¬ n ≤ o := fun hle => h.last n hlt hle hn
        rw [List.takeWhile_cons, if_neg (by simpa using hgt)]
  simp only [lineAt, starts_eq_append h.startsLine]
  rw [List.takeWhile_append_of_pos hearlier, List.takeWhile_cons_of_pos (by simpa using h.le),
    hlater]
  simp [linesBefore]

/-- The next line is the first that starts behind a line. -/
theorem head?_laterStarts {n : Nat} (hlt : start < n) (hn : StartsLine t n)
    (hbetween : ∀ m, start < m → m < n → ¬ StartsLine t m) :
    (laterStarts t start).head? = some n := by
  have hle := hn.le_length
  rw [laterStarts, List.head?_filter, List.find?_range'_eq_some]
  refine ⟨by simpa using hn, List.mem_range'_1.mpr (by omega), fun m hm hmn => ?_⟩
  simpa using hbetween m hm hmn

/-- The table tells where a line ends. -/
theorem lineEnd_laterStarts (h : start ≤ t.length) :
    (ofText t).lineEnd start (laterStarts t start).head? = start + (lineFrom t start).length := by
  have hle := add_length_lineFrom_le h
  have hinside : ∀ n, start < n → n < start + (lineFrom t start).length + 1 → ¬ StartsLine t n :=
    fun n hlow hhigh => not_startsLine_of_le hlow (Nat.le_of_lt_succ hhigh)
  have hbefore : start < start + (lineFrom t start).length →
      t[start + (lineFrom t start).length - 1]? ≠ some Ascii.cr :=
    fun hlt hc => @not_isLineBreak_of_lt t start _ (by omega) (by omega) _ hc (Or.inr rfl)
  have hend : ∀ c, t[start + (lineFrom t start).length]? = some c → IsLineBreak c :=
    fun c => isLineBreak_at_end
  have hstart : start ≤ start + (lineFrom t start).length := Nat.le_add_right _ _
  generalize start + (lineFrom t start).length = stop at hle hinside hbefore hend hstart ⊢
  have htext : (ofText t).text = t := rfl
  cases hc : t[stop]? with
  | none =>
      -- the last line has no line break
      have hlength := List.getElem?_eq_none_iff.mp hc
      have hnone : (laterStarts t start).head? = none := by
        rw [laterStarts, List.head?_filter, List.find?_range'_eq_none]
        intro n hlow hhigh
        simpa using hinside n hlow (by omega)
      rw [hnone]
      exact Nat.le_antisymm hlength hle
  | some c =>
      rcases hend c hc with rfl | rfl
      · rw [head?_laterStarts (n := stop + 1) (by omega) (Or.inl hc) hinside]
        simp only [lineEnd, Nat.add_sub_cancel, htext]
        exact if_neg fun hcrlf => hbefore hcrlf.1 hcrlf.2.2
      by_cases hlf : t[stop + 1]? = some Ascii.lf
      · -- a carriage return and a line feed
        have hcr : ¬ StartsLine t (stop + 1) := by
          simp [StartsLine, hc, hlf]
          decide
        have hbetween : ∀ n, start < n → n < stop + 2 → ¬ StartsLine t n := by
          intro n hlow hhigh
          rcases Nat.lt_succ_iff_lt_or_eq.mp hhigh with hlt | rfl
          · exact hinside n hlow hlt
          · exact hcr
        rw [head?_laterStarts (n := stop + 2) (by omega) (Or.inl hlf) hbetween]
        simp only [lineEnd, htext]
        exact if_pos ⟨Nat.lt_succ_of_le hstart, hlf, hc⟩
      · rw [head?_laterStarts (n := stop + 1) (by omega) (Or.inr ⟨hc, hlf⟩) hinside]
        simp only [lineEnd, Nat.add_sub_cancel, htext]
        refine if_neg fun hcrlf => ?_
        rw [hc] at hcrlf
        exact absurd hcrlf.2.1 (by decide)

/-- The offset of a position on the line. -/
theorem offsetAt_linesBefore (h : StartsLine t start) (character : Int) :
    (ofText t).offsetAt ⟨linesBefore t start, character⟩
      = start + advance character.toNat (lineFrom t start).length (t.drop start) := by
  have hdrop : (ofText t).starts.drop (linesBefore t start) = start :: laterStarts t start := by
    rw [starts_eq_append h, linesBefore, List.drop_left]
  have hlength : start + (lineFrom t start).length - start = (lineFrom t start).length :=
    Nat.add_sub_cancel_left _ _
  simp only [offsetAt, Int.toNat_natCast, hdrop, lineEnd_laterStarts h.le_length, hlength]
  rw [if_neg (by omega)]
  rfl

end Start

end LineIndex

/-! ## Boundaries between characters -/

/-- The line that starts at `start` has the end of its `n`-th character after `k` bytes. -/
structure AtCharacter (t : Text) (start n k : Nat) : Prop where
  startsLine : StartsLine t start
  steps : Utf8.Steps (lineFrom t start) n k

section Boundary

variable {t : Text} {start n k : Nat}

namespace AtCharacter

theorem add_le (h : AtCharacter t start n k) :
    start + k ≤ start + (lineFrom t start).length :=
  Nat.add_le_add_left h.steps.le_length start

/-- The line break does not change the steps in front of it. -/
theorem steps_drop (h : AtCharacter t start n k) : Utf8.Steps (t.drop start) n k := by
  obtain ⟨after, hafter, hbreak⟩ := exists_after t start
  rw [hafter]
  exact h.steps.append (isCut_lineFrom hbreak _)

/-- A boundary on a line is an offset of that line. -/
theorem startsLineOf (h : AtCharacter t start n k) : StartsLineOf t start (start + k) where
  startsLine := h.startsLine
  le := Nat.le_add_right _ _
  last _ hlow hhigh := not_startsLine_of_le hlow (hhigh.trans h.add_le)

/-- The index takes the offset of a boundary to its line and the number of characters in front of
it, and these to the offset. -/
theorem index (h : AtCharacter t start n k) :
    (LineIndex.ofText t).positionAt (start + k : Nat) = ⟨linesBefore t start, n⟩ ∧
      (LineIndex.ofText t).offsetAt ⟨linesBefore t start, n⟩ = start + k := by
  obtain ⟨after, hafter, -⟩ := exists_after t start
  have hk := h.steps.le_length
  have hle := h.add_le.trans (add_length_lineFrom_le h.startsLine.le_length)
  constructor
  · have hmin : min (start + k) (LineIndex.ofText t).text.length = start + k := Nat.min_eq_left hle
    have hslice : (LineIndex.ofText t).text.slice start (start + k)
        = (lineFrom t start).take k := by
      show (t.drop start).take (start + k - start) = _
      rw [Nat.add_sub_cancel_left, hafter, List.take_append_of_le_length hk]
    simp only [LineIndex.positionAt, Int.toNat_natCast, hmin, LineIndex.lineAt_eq h.startsLineOf,
      hslice, h.steps.characterCount_take]
  · rw [LineIndex.offsetAt_linesBefore h.startsLine, Int.toNat_natCast, h.steps_drop.advance_eq hk]

theorem properOffset (h : AtCharacter t start n k) : ProperOffset t (start + k) where
  le_length := h.add_le.trans (add_length_lineFrom_le h.startsLine.le_length)
  reached := by
    refine ⟨start, n, h.startsLineOf, ?_⟩
    rw [Nat.add_sub_cancel_left]
    exact h.steps_drop
  outside_break := by
    rintro ⟨hpos, hcr, hlf⟩
    have hle := h.add_le
    cases k with
    | zero =>
        -- a line does not start between a carriage return and a line feed
        obtain ⟨m, rfl⟩ : ∃ m, start = m + 1 := ⟨start - 1, by omega⟩
        rw [Nat.add_zero, Nat.add_sub_cancel] at hcr
        rcases h.startsLine with hlf' | ⟨-, hne⟩
        · rw [hcr] at hlf'
          exact absurd hlf' (by decide)
        · exact hne hlf
    | succ k => exact @not_isLineBreak_of_lt t start _ (by omega) (by omega) _ hcr (Or.inr rfl)

theorem validPosition (h : AtCharacter t start n k) :
    ValidPosition t ⟨linesBefore t start, n⟩ :=
  ⟨start, h.startsLine, rfl, Int.natCast_nonneg n, Int.ofNat_le.mpr h.steps.le_characterCount⟩

end AtCharacter

/-- A proper offset is no further behind the start of its line than the line is long. -/
theorem ProperOffset.le_lineFrom {o : Nat} (h : ProperOffset t o)
    (hstart : StartsLineOf t start o) : o ≤ start + (lineFrom t start).length := by
  by_contra hnot
  have hlength := h.le_length
  obtain ⟨c, hc⟩ : ∃ c, t[start + (lineFrom t start).length]? = some c :=
    ⟨_, List.getElem?_eq_getElem (by omega)⟩
  have hnext := fun hstarts => hstart.last (start + (lineFrom t start).length + 1) (by omega)
    (by omega) hstarts
  rcases isLineBreak_at_end hc with rfl | rfl
  · exact hnext (Or.inl hc)
  by_cases hlf : t[start + (lineFrom t start).length + 1]? = some Ascii.lf
  · -- the next line starts behind the line feed, so the offset stands in front of it
    have hinside : o = start + (lineFrom t start).length + 1 := by
      by_contra hne
      exact hstart.last (start + (lineFrom t start).length + 2) (by omega) (by omega) (Or.inl hlf)
    refine h.outside_break ⟨by omega, ?_, ?_⟩
    · rw [hinside, Nat.add_sub_cancel, hc]
    · rw [hinside, hlf]
  · exact hnext (Or.inr ⟨hc, hlf⟩)

/-- Proper offsets are the boundaries between the characters of a line. -/
theorem properOffset_iff {o : Nat} :
    ProperOffset t o ↔ ∃ start n k, AtCharacter t start n k ∧ o = start + k := by
  constructor
  · intro h
    obtain ⟨start, n, hstart, hsteps⟩ := h.reached
    have hle := h.le_lineFrom hstart
    have hlow := hstart.le
    obtain ⟨after, hafter, -⟩ := exists_after t start
    rw [hafter] at hsteps
    exact ⟨start, n, o - start, ⟨hstart.startsLine, hsteps.of_append (by omega)⟩, by omega⟩
  · rintro ⟨start, n, k, h, rfl⟩
    exact h.properOffset

/-- Valid positions are the boundaries between the characters of a line. -/
theorem validPosition_iff {p : Position} :
    ValidPosition t p ↔ ∃ start n k, AtCharacter t start n k ∧ p = ⟨linesBefore t start, n⟩ := by
  constructor
  · rintro ⟨start, hstart, hline, hlow, hhigh⟩
    obtain ⟨n, hn⟩ := Int.eq_ofNat_of_zero_le hlow
    rw [hn] at hhigh
    obtain ⟨k, hk⟩ := Utf8.exists_steps (by exact_mod_cast hhigh)
    refine ⟨start, n, k, ⟨hstart, hk⟩, ?_⟩
    rw [← hn, ← hline]
  · rintro ⟨start, n, k, h, rfl⟩
    exact h.validPosition

theorem linesBefore_lt_linesBefore {start' : Nat} (h : StartsLine t start) (hlt : start < start') :
    linesBefore t start < linesBefore t start' := by
  rw [linesBefore, linesBefore, range_eq_append hlt, List.filter_append,
    List.filter_cons_of_pos (by simpa using h), List.length_append, List.length_cons]
  omega

/-- Boundaries come in the order of their positions. -/
theorem AtCharacter.lt_iff {start' n' k' : Nat} (h : AtCharacter t start n k)
    (h' : AtCharacter t start' n' k') :
    start + k < start' + k' ↔
      Position.Before ⟨linesBefore t start, n⟩ ⟨linesBefore t start', n'⟩ := by
  -- a boundary on one line stands in front of the next line
  have hfront : ∀ {s n k s'}, AtCharacter t s n k → StartsLine t s' → s < s' → s + k < s' := by
    intro s n k s' hs hs' hlt
    by_contra hnot
    have := hs.add_le
    exact not_startsLine_of_le hlt (by omega) hs'
  rcases Nat.lt_trichotomy start start' with hlt | rfl | hgt
  · have hlines := linesBefore_lt_linesBefore h.startsLine hlt
    have := hfront h h'.startsLine hlt
    exact iff_of_true (by omega) (Or.inl (Int.ofNat_lt.mpr hlines))
  · have hsteps := h.steps.lt_iff h'.steps
    simp only [Position.Before, lt_irrefl, false_or, true_and, Int.ofNat_lt, hsteps]
    omega
  · have hlines := linesBefore_lt_linesBefore h'.startsLine hgt
    have := hfront h' h.startsLine hgt
    refine iff_of_false (by omega) ?_
    simp only [Position.Before, Int.ofNat_lt, Nat.cast_inj]
    omega

end Boundary

/-! ## The correspondence -/

section Table

variable {t : Text}

/-- The lines are numbered from zero on, without gaps, as many as the index counts. -/
theorem exists_startsLine_iff {line : Int} :
    (∃ start, StartsLine t start ∧ line = linesBefore t start) ↔
      0 ≤ line ∧ line < (LineIndex.ofText t).lineCount := by
  constructor
  · rintro ⟨start, hstart, rfl⟩
    have hlength := congrArg List.length (LineIndex.starts_eq_append hstart)
    rw [List.length_append, List.length_cons] at hlength
    rw [LineIndex.lineCount, hlength, linesBefore]
    omega
  · rintro ⟨hlow, hhigh⟩
    obtain ⟨k, rfl⟩ := Int.eq_ofNat_of_zero_le hlow
    have hk : k < (LineIndex.ofText t).starts.length := Int.ofNat_lt.mp hhigh
    have hmem : (LineIndex.ofText t).starts[k] ∈ (LineIndex.ofText t).starts :=
      List.getElem_mem hk
    generalize hget : (LineIndex.ofText t).starts[k] = start at hmem
    rw [LineIndex.starts_ofText, List.mem_filter, decide_eq_true_eq] at hmem
    refine ⟨start, hmem.2, ?_⟩
    -- the table holds `start` once, at the place of its number
    have hsplit := LineIndex.starts_eq_append hmem.2
    have hplace : (LineIndex.ofText t).starts[linesBefore t start]? = some start := by
      rw [hsplit, linesBefore, List.getElem?_append_right le_rfl, Nat.sub_self]
      rfl
    have hnodup : (LineIndex.ofText t).starts.Nodup := by
      rw [LineIndex.starts_ofText]
      exact List.nodup_range.filter _
    have hget? : (LineIndex.ofText t).starts[k]? = some start := by
      rw [List.getElem?_eq_getElem hk, hget]
    exact congrArg Int.ofNat ((List.getElem?_inj hk hnodup).mp (hget?.trans hplace.symm))

/-- The offset of any position on a line is that of the nearest valid one. -/
theorem offsetAt_clampTo {start : Nat} (h : StartsLine t start) {p : Position}
    (hline : p.line = linesBefore t start) :
    ValidPosition t (p.clampTo t start) ∧
      (LineIndex.ofText t).offsetAt p = (LineIndex.ofText t).offsetAt (p.clampTo t start) := by
  obtain ⟨line, character⟩ := p
  simp only at hline
  subst hline
  refine ⟨⟨start, h, rfl, le_max_left _ _, ?_⟩, ?_⟩
  · exact max_le (Int.natCast_nonneg _) (min_le_right _ _)
  rw [Position.clampTo, LineIndex.offsetAt_linesBefore h, LineIndex.offsetAt_linesBefore h]
  obtain ⟨after, hafter, hbreak⟩ := exists_after t start
  have hcut := isCut_lineFrom hbreak (lineFrom t start)
  rcases le_total character (Utf8.characterCount (lineFrom t start)) with hle | hge
  · -- nothing to clamp but what is negative
    rw [min_eq_left hle]
    congr 2
    omega
  · rw [min_eq_right hge, max_eq_right (Int.natCast_nonneg _), Int.toNat_natCast, hafter,
      Utf8.advance_of_characterCount_le hcut le_rfl,
      Utf8.advance_of_characterCount_le hcut (by omega)]

end Table

/-- **Offsets and positions are in an order-preserving correspondence.** The index takes the proper
offsets to the valid positions and back, and keeps their order. A position on a line with too high
or too low a character means the nearest valid position on that line, one above the text the start
of the text, and one below it the end. -/
theorem offsets_positions (t : Text) :
    (∀ line : Int, (∃ start, StartsLine t start ∧ line = linesBefore t start) ↔
      0 ≤ line ∧ line < (LineIndex.ofText t).lineCount) ∧
    (∀ o : Nat, ProperOffset t o →
      ValidPosition t ((LineIndex.ofText t).positionAt o) ∧
        (LineIndex.ofText t).offsetAt ((LineIndex.ofText t).positionAt o) = o) ∧
    (∀ p : Position, ValidPosition t p →
      ProperOffset t ((LineIndex.ofText t).offsetAt p) ∧
        (LineIndex.ofText t).positionAt ((LineIndex.ofText t).offsetAt p) = p) ∧
    (∀ o o' : Nat, ProperOffset t o → ProperOffset t o' →
      (o < o' ↔ ((LineIndex.ofText t).positionAt o).Before ((LineIndex.ofText t).positionAt o'))) ∧
    ∀ p : Position,
      (∀ start, StartsLine t start → p.line = linesBefore t start →
        ValidPosition t (p.clampTo t start) ∧
          (LineIndex.ofText t).offsetAt p = (LineIndex.ofText t).offsetAt (p.clampTo t start)) ∧
      (p.line < 0 → (LineIndex.ofText t).offsetAt p = 0) ∧
      ((LineIndex.ofText t).lineCount ≤ p.line → (LineIndex.ofText t).offsetAt p = t.length) := by
  refine ⟨fun _ => exists_startsLine_iff, ?_, ?_, ?_, fun p => ⟨fun start hstart hline =>
    offsetAt_clampTo hstart hline, fun hlow => ?_, fun hhigh => ?_⟩⟩
  · intro o ho
    obtain ⟨start, n, k, h, rfl⟩ := properOffset_iff.mp ho
    rw [h.index.1]
    exact ⟨h.validPosition, h.index.2⟩
  · intro p hp
    obtain ⟨start, n, k, h, rfl⟩ := validPosition_iff.mp hp
    rw [h.index.2]
    exact ⟨h.properOffset, h.index.1⟩
  · intro o o' ho ho'
    obtain ⟨start, n, k, h, rfl⟩ := properOffset_iff.mp ho
    obtain ⟨start', n', k', h', rfl⟩ := properOffset_iff.mp ho'
    rw [h.index.1, h'.index.1]
    exact h.lt_iff h'
  · exact if_pos hlow
  · have hdrop : (LineIndex.ofText t).starts.drop p.line.toNat = [] := by
      rw [List.drop_eq_nil_iff]
      rw [LineIndex.lineCount] at hhigh
      omega
    rw [LineIndex.offsetAt, if_neg (by omega), hdrop]
    rfl

end StyleIndex
