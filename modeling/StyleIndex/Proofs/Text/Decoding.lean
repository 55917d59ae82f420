import Mathlib.Tactic
import StyleIndex.Position
import StyleIndex.Text.Blank

set_option autoImplicit false

/-! # Cuts between characters

A text is decoded from the left, and what a decoding step takes depends on the bytes that follow.
So a part of a text may fall into other characters than it does in the whole. `IsCut u v` gives
two conditions, each of which can be seen from one byte at the cut, under which `u ++ v` falls into
the characters of `u` followed by those of `v`: the last byte of `u` is ASCII, or the first byte of
`v` does not continue a sequence.

Counting characters and walking over them agree up to such a cut (`advance_append`), and blanks are
always trimmed off at one (`exists_trimBlankEnd`).
-/

namespace StyleIndex

namespace Utf8

/-- No sequence that began before `t` goes on in `t`. -/
def StartsFresh (t : Text) : Prop := ∀ c ∈ t.head?, isContinuation c = false

/-- A cut between `u` and `v` that cuts no character, for a reason that one byte shows. -/
def IsCut (u v : Text) : Prop := u = [] ∨ (∃ c ∈ u.getLast?, c < 0x80) ∨ StartsFresh v

theorem startsFresh_nil : StartsFresh [] := by
  intro c hc
  cases hc

theorem startsFresh_cons {c : UInt8} (h : isContinuation c = false) (t : Text) :
    StartsFresh (c :: t) := by
  intro d hd
  cases hd
  exact h

theorem StartsFresh.append {u v : Text} (hu : StartsFresh u) (hv : StartsFresh v) :
    StartsFresh (u ++ v) := by
  cases u with
  | nil => exact hv
  | cons c u => exact startsFresh_cons (hu c rfl) _

theorem isContinuation_of_lt {c : UInt8} (h : c < 0x80) : isContinuation c = false := by
  have hle : ¬ (0x80 ≤ c) := UInt8.not_le.mpr h
  simp [isContinuation, hle]

/-! ## One step -/

theorem secondOfThree_eq_false {c : UInt8} (h : isContinuation c = false) (lead : UInt8) :
    secondOfThree lead c = false := by
  simp only [isContinuation, secondOfThree, Bool.and_eq_false_iff, decide_eq_false_iff_not,
    UInt8.le_iff_toNat_le, UInt8.reduceToNat] at h ⊢
  split_ifs
  all_goals simp only [Bool.and_eq_false_iff, decide_eq_false_iff_not]
  all_goals omega

theorem secondOfFour_eq_false {c : UInt8} (h : isContinuation c = false) (lead : UInt8) :
    secondOfFour lead c = false := by
  simp only [isContinuation, secondOfFour, Bool.and_eq_false_iff, decide_eq_false_iff_not,
    UInt8.le_iff_toNat_le, UInt8.reduceToNat] at h ⊢
  split_ifs
  all_goals simp only [Bool.and_eq_false_iff, decide_eq_false_iff_not]
  all_goals omega

/-- Only bytes that continue a sequence matter to a step: behind another byte nothing does. -/
theorem step_append_cons {c d : UInt8} (h : isContinuation d = false) (r v : Text) :
    step c (r ++ d :: v) = step c (r ++ [d]) := by
  have h3 := secondOfThree_eq_false h
  have h4 := secondOfFour_eq_false h
  rcases r with _ | ⟨r₁, _ | ⟨r₂, _ | ⟨r₃, r⟩⟩⟩
  · rcases v with _ | ⟨v₁, _ | ⟨v₂, v⟩⟩ <;> simp [step, h, h3, h4]
  · rcases v with _ | ⟨v₁, v⟩ <;> simp [step, h]
  · rfl
  · rfl

theorem step_append_singleton {c d : UInt8} (h : isContinuation d = false) (r : Text) :
    step c (r ++ [d]) = step c r := by
  have h3 := secondOfThree_eq_false h
  rcases r with _ | ⟨r₁, _ | ⟨r₂, _ | ⟨r₃, r⟩⟩⟩
  · simp [step, h]
  · simp [step, h]
  · simp [step, h]
  · rfl

/-- A step does not look past a cut. -/
theorem step_append {c : UInt8} {r v : Text} (h : IsCut (c :: r) v) :
    step c (r ++ v) = step c r := by
  rcases h with hnil | ⟨d, hd, hlt⟩ | hfresh
  · cases hnil
  · rcases List.eq_nil_or_concat r with rfl | ⟨r', d', rfl⟩
    · obtain rfl : c = d := by simpa using hd
      simp [step, hlt]
    · obtain rfl : d' = d := by simpa [List.getLast?_cons] using hd
      have hcont := isContinuation_of_lt hlt
      rw [List.concat_eq_append, List.append_assoc, List.singleton_append]
      exact step_append_cons hcont r' v
  · cases v with
    | nil => rw [List.append_nil]
    | cons d v =>
        have hcont := hfresh d rfl
        rw [step_append_cons hcont, step_append_singleton hcont]

/-- A step takes no more bytes than there are. -/
theorem step_width_le (c : UInt8) (rest : Text) : (step c rest).2 ≤ rest.length + 1 := by
  unfold step
  repeat' split
  all_goals simp

theorem IsCut.drop {u v : Text} (h : IsCut u v) (n : Nat) : IsCut (u.drop n) v := by
  rcases h with rfl | ⟨c, hc, hlt⟩ | hfresh
  · exact Or.inl (List.drop_nil)
  · by_cases hn : u.length ≤ n
    · exact Or.inl (List.drop_eq_nil_of_le hn)
    · refine Or.inr (Or.inl ⟨c, ?_, hlt⟩)
      rwa [List.getLast?_drop, if_neg hn]
  · exact Or.inr (Or.inr hfresh)

/-! ## Counting and walking -/

theorem characterCount_cons (c : UInt8) (rest : Text) :
    characterCount (c :: rest) = characterCount ((c :: rest).drop (step c rest).2) + 1 := by
  rw [characterCount, characters]
  rfl

theorem drop_width_append (c : UInt8) (r v : Text) :
    (c :: (r ++ v)).drop (step c r).2 = (c :: r).drop (step c r).2 ++ v := by
  rw [← List.cons_append, List.drop_append_of_le_length]
  rw [List.length_cons]
  exact step_width_le c r

/-- In front of a cut there are the characters of the first part, behind it those of the second. -/
theorem characters_append {u v : Text} (h : IsCut u v) :
    characters (u ++ v) = characters u ++ characters v := by
  fun_induction characters u with
  | case1 => rfl
  | case2 c rest ih =>
      rw [List.cons_append, characters, step_append h, drop_width_append,
        ih (h.drop _), List.cons_append]

/-- Walking over the characters in front of a cut takes the bytes in front of it, and the walk
goes on behind it. -/
theorem advance_append {u v : Text} (h : IsCut u v) (k limit : Nat) (hlimit : u.length ≤ limit) :
    LineIndex.advance (characterCount u + k) limit (u ++ v)
      = u.length + LineIndex.advance k (limit - u.length) v := by
  induction hn : u.length using Nat.strong_induction_on generalizing u limit with
  | _ n ih =>
      cases u with
      | nil =>
          simp only [List.length_nil] at hn
          subst hn
          simp [characterCount, characters]
      | cons c r =>
          -- one step in front of the cut, which leaves the cut where it is
          have hpos := step_width_pos c r
          have hle := step_width_le c r
          have hdrop : ((c :: r).drop (step c r).2).length = n - (step c r).2 := by
            rw [List.length_drop, hn]
          rw [List.length_cons] at hn hlimit
          have ih' := ih (n - (step c r).2) (by omega) (h.drop _) (limit - (step c r).2)
            (by omega) hdrop
          rw [characterCount_cons, Nat.add_right_comm, List.cons_append, LineIndex.advance,
            if_neg (by omega), step_append h]
          show (step c r).2 + LineIndex.advance _ _ ((c :: (r ++ v)).drop (step c r).2) = _
          rw [drop_width_append, ih']
          have hlimit' : limit - (step c r).2 - (n - (step c r).2) = limit - n := by omega
          rw [hlimit']
          omega

end Utf8

/-! ## Trimming blanks -/

namespace Utf8

/-- A byte that continues a sequence starts none. -/
theorem step_of_isContinuation {c : UInt8} (h : isContinuation c = true) (rest : Text) :
    step c rest = (.stray c, 1) := by
  simp only [isContinuation, Bool.and_eq_true, decide_eq_true_eq, UInt8.le_iff_toNat_le,
    UInt8.reduceToNat] at h
  simp only [step, Bool.and_eq_true, decide_eq_true_eq, UInt8.le_iff_toNat_le,
    UInt8.lt_iff_toNat_lt, UInt8.reduceToNat]
  rw [if_neg (by omega), if_neg (by omega), if_neg (by omega), if_neg (by omega)]

/-- A stray byte is not blank, so a blank does not start with a byte that continues a
sequence. -/
theorem isContinuation_of_isBlank {c : UInt8} {rest : Text}
    (h : (step c rest).1.isBlank = true) : isContinuation c = false := by
  by_contra hcont
  rw [Bool.not_eq_false] at hcont
  rw [step_of_isContinuation hcont] at h
  cases h

/-- All bytes of a step but the first continue its sequence. -/
theorem isContinuation_of_mem_step {c d : UInt8} {rest : Text}
    (h : d ∈ rest.take ((step c rest).2 - 1)) : isContinuation d = true := by
  by_contra hcont
  simp only [Bool.not_eq_true] at hcont
  obtain ⟨i, hi, hd⟩ := List.mem_iff_getElem.mp h
  rw [List.length_take] at hi
  rw [List.getElem_take] at hd
  -- the step would not look past `d`, so it could not take it
  have hsplit : rest = rest.take i ++ d :: rest.drop (i + 1) := by
    rw [← hd, List.getElem_cons_drop, List.take_append_drop]
  have hstep : step c rest = step c (rest.take i) := by
    conv_lhs => rw [hsplit]
    rw [step_append_cons hcont, step_append_singleton hcont]
  have hle := step_width_le c (rest.take i)
  rw [← hstep, List.length_take] at hle
  omega

/-- No byte of a blank is a printable ASCII character. -/
theorem byte_of_isBlank {c d : UInt8} {rest : Text} (h : (step c rest).1.isBlank = true)
    (hd : d ∈ (c :: rest).take (step c rest).2) : d ≤ 0x20 ∨ 0x80 ≤ d := by
  obtain ⟨n, hn⟩ := Nat.exists_eq_succ_of_ne_zero (Nat.ne_of_gt (step_width_pos c rest))
  rw [hn, List.take_succ_cons, List.mem_cons] at hd
  rcases hd with rfl | hd
  · by_cases hascii : d < 0x80
    · have hstep : step d rest = (.scalar d.toNat, 1) := if_pos hascii
      simp only [UInt8.le_iff_toNat_le, UInt8.lt_iff_toNat_lt, UInt8.reduceToNat] at hascii ⊢
      simp only [hstep, Character.isBlank, isBlankCode, Bool.or_eq_true, Bool.and_eq_true,
        decide_eq_true_eq, beq_iff_eq] at h
      omega
    · exact Or.inr (UInt8.not_lt.mp hascii)
  · have hcont := @isContinuation_of_mem_step c d rest (by rwa [hn])
    simp only [isContinuation, Bool.and_eq_true, decide_eq_true_eq] at hcont
    exact Or.inr hcont.1

end Utf8

namespace Text

/-- What is trimmed off in front holds no printable ASCII character, and what remains does not start
with a blank. -/
theorem exists_trimBlankStart (t : Text) :
    ∃ lead, t = lead ++ trimBlankStart t ∧ (∀ c ∈ lead, c ≤ 0x20 ∨ 0x80 ≤ c) ∧
      ∀ c rest, trimBlankStart t = c :: rest → (Utf8.step c rest).1.isBlank = false := by
  fun_induction trimBlankStart t with
  | case1 => exact ⟨[], rfl, by simp, by simp⟩
  | case2 c rest h ih =>
      obtain ⟨lead, hlead, hbytes, hrest⟩ := ih
      refine ⟨(c :: rest).take (Utf8.step c rest).2 ++ lead, ?_, ?_, hrest⟩
      · rw [List.append_assoc, ← hlead, List.take_append_drop]
      · intro d hd
        exact (List.mem_append.mp hd).elim (Utf8.byte_of_isBlank h) (hbytes d)
  | case3 c rest h =>
      refine ⟨[], rfl, by simp, ?_⟩
      rintro c' rest' heq
      obtain ⟨rfl, rfl⟩ := List.cons.inj heq
      simpa using h

theorem trimBlankStart_of_not_isBlank {c : UInt8} {rest : Text}
    (h : (Utf8.step c rest).1.isBlank = false) : trimBlankStart (c :: rest) = c :: rest := by
  rw [trimBlankStart, if_neg (by simp [h])]

@[simp] theorem trimBlankStart_nil : trimBlankStart [] = [] := by rw [trimBlankStart]

/-- Blanks in front of a cut are trimmed off, and the rest stays in front of the cut. -/
theorem trimBlankStart_append {u v : Text} (h : Utf8.IsCut u v) (hu : trimBlankStart u ≠ []) :
    trimBlankStart (u ++ v) = trimBlankStart u ++ v := by
  fun_induction trimBlankStart u with
  | case1 => exact absurd rfl hu
  | case2 c rest hblank ih =>
      rw [List.cons_append, trimBlankStart, Utf8.step_append h, if_pos hblank,
        Utf8.drop_width_append, ih (h.drop _) hu]
  | case3 c rest hblank =>
      rw [List.cons_append, trimBlankStart, Utf8.step_append h, if_neg hblank]

/-- A text of blanks in front of a cut is trimmed off with the blanks behind it. -/
theorem trimBlankStart_append_of_nil {u v : Text} (h : Utf8.IsCut u v)
    (hu : trimBlankStart u = []) : trimBlankStart (u ++ v) = trimBlankStart v := by
  fun_induction trimBlankStart u with
  | case1 => rfl
  | case2 c rest hblank ih =>
      rw [List.cons_append, trimBlankStart, Utf8.step_append h, if_pos hblank,
        Utf8.drop_width_append, ih (h.drop _) hu]
  | case3 c rest hblank => cases hu

theorem trimBlankStart_idem (t : Text) : trimBlankStart (trimBlankStart t) = trimBlankStart t := by
  obtain ⟨lead, -, -, hfirst⟩ := exists_trimBlankStart t
  cases htrim : trimBlankStart t with
  | nil => rw [trimBlankStart]
  | cons c rest => exact trimBlankStart_of_not_isBlank (hfirst c rest htrim)

/-- Trailing blanks start at a character: those found in `t`, or all of `t` together with the
blanks just before it. -/
theorem trailingBlankWidth_cases (width : Nat) (t : Text) :
    (trailingBlankWidth width t ≤ t.length ∧
        Utf8.StartsFresh (t.drop (t.length - trailingBlankWidth width t)) ∧
        trimBlankStart (t.drop (t.length - trailingBlankWidth width t)) = []) ∨
      (trailingBlankWidth width t = width + t.length ∧ Utf8.StartsFresh t ∧
        trimBlankStart t = []) := by
  fun_induction trailingBlankWidth width t with
  | case1 width => exact Or.inr ⟨rfl, Utf8.startsFresh_nil, trimBlankStart_nil⟩
  | case2 width c rest ih =>
      have hle := Utf8.step_width_le c rest
      have hdrop : ∀ n, n ≤ rest.length + 1 - (Utf8.step c rest).2 →
          (c :: rest).drop (rest.length + 1 - n) = (c :: rest).drop ((Utf8.step c rest).2
            + (rest.length + 1 - (Utf8.step c rest).2 - n)) := by
        intro n hn
        congr 1
        omega
      rw [dite_eq_ite, List.length_drop, List.drop_drop, List.length_cons] at ih
      rw [List.length_cons]
      rcases ih with ⟨hwidth, htrail⟩ | ⟨hwidth, hfresh, hblanks⟩
      · refine Or.inl ⟨by omega, ?_⟩
        rw [hdrop _ hwidth]
        exact htrail
      · -- everything behind this character is blank
        split_ifs at hwidth hfresh hblanks ⊢ with hblank
        · refine Or.inr ⟨by omega, ?_, ?_⟩
          · exact Utf8.startsFresh_cons (Utf8.isContinuation_of_isBlank hblank) rest
          · rw [trimBlankStart, if_pos hblank, hblanks]
        · refine Or.inl ⟨by omega, ?_⟩
          rw [Nat.zero_add] at hwidth
          rw [hdrop _ hwidth.le, hwidth, Nat.sub_self, Nat.add_zero]
          exact ⟨hfresh, hblanks⟩

/-- Blanks at the end are trimmed off at a cut between characters. -/
theorem exists_trimBlankEnd (t : Text) :
    ∃ trail, t = trimBlankEnd t ++ trail ∧ Utf8.StartsFresh trail ∧ trimBlankStart trail = [] := by
  refine ⟨t.drop (t.length - trailingBlankWidth 0 t), ?_, ?_⟩
  · rw [trimBlankEnd, List.take_append_drop]
  · rcases trailingBlankWidth_cases 0 t with ⟨-, htrail⟩ | ⟨hwidth, htrail⟩
    · exact htrail
    · rwa [hwidth, Nat.zero_add, Nat.sub_self]

/-- What trimming takes off at either end. In front it holds no printable ASCII character, and what
is left does not start with a blank. -/
theorem exists_trimBlank (t : Text) :
    ∃ lead trail, t = lead ++ (trimBlank t ++ trail) ∧ (∀ c ∈ lead, c ≤ 0x20 ∨ 0x80 ≤ c) ∧
      Utf8.StartsFresh trail ∧ trimBlankStart trail = [] ∧
      ∀ c rest, trimBlank t = c :: rest → (Utf8.step c rest).1.isBlank = false := by
  obtain ⟨lead, hlead, hbytes, hfirst⟩ := exists_trimBlankStart t
  obtain ⟨trail, htrail, hfresh, hblanks⟩ := exists_trimBlankEnd (trimBlankStart t)
  have htrim : trimBlankEnd (trimBlankStart t) = trimBlank t := rfl
  rw [htrim] at htrail
  refine ⟨lead, trail, by rw [← htrail]; exact hlead, hbytes, hfresh, hblanks, ?_⟩
  intro c rest heq
  have hstep := hfirst c (rest ++ trail) (by rw [htrail, heq]; rfl)
  rwa [Utf8.step_append (Or.inr (Or.inr hfresh))] at hstep

/-- Blanks behind a cut count with those in front of it. -/
theorem trailingBlankWidth_append {u v : Text} (h : Utf8.IsCut u v) (hv : trimBlankStart v = [])
    (width : Nat) : trailingBlankWidth width (u ++ v) = trailingBlankWidth width u + v.length := by
  fun_induction trailingBlankWidth width u with
  | case1 width =>
      -- all characters of `v` are blank
      rw [List.nil_append]
      fun_induction trimBlankStart v generalizing width with
      | case1 => rw [trailingBlankWidth]; rfl
      | case2 c rest hblank ih =>
          have hle := Utf8.step_width_le c rest
          rw [trailingBlankWidth, if_pos hblank, ih hv _ (Or.inl rfl), List.length_drop,
            List.length_cons]
          omega
      | case3 c rest hblank => cases hv
  | case2 width c rest ih =>
      rw [List.cons_append, trailingBlankWidth, Utf8.step_append h, Utf8.drop_width_append]
      exact ih (h.drop _)

theorem trailingBlankWidth_le (t : Text) : trailingBlankWidth 0 t ≤ t.length := by
  rcases trailingBlankWidth_cases 0 t with ⟨hle, -⟩ | ⟨heq, -⟩
  · exact hle
  · omega

theorem trimBlankEnd_append {u v : Text} (h : Utf8.IsCut u v) (hv : trimBlankStart v = []) :
    trimBlankEnd (u ++ v) = trimBlankEnd u := by
  have hle := trailingBlankWidth_le u
  rw [trimBlankEnd, trimBlankEnd, trailingBlankWidth_append h hv, List.length_append,
    Nat.add_sub_add_right, List.take_append_of_le_length (by omega)]

/-- **Blanks that are cut off at the end do not matter to the trimmed text.** -/
theorem trimBlank_append {u v : Text} (h : Utf8.StartsFresh v) (hv : trimBlankStart v = []) :
    trimBlank (u ++ v) = trimBlank u := by
  have hcut : Utf8.IsCut u v := Or.inr (Or.inr h)
  by_cases hu : trimBlankStart u = []
  · rw [trimBlank, trimBlank, trimBlankStart_append_of_nil hcut hu, hu, hv]
  · rw [trimBlank, trimBlank, trimBlankStart_append hcut hu,
      trimBlankEnd_append (Or.inr (Or.inr h)) hv]

section Separator

variable {c : UInt8}

/-- An ASCII character above the space is not blank. -/
theorem step_separator (hlow : 0x20 < c) (hhigh : c < 0x80) (rest : Text) :
    Utf8.step c rest = (.scalar c.toNat, 1) ∧ (Utf8.step c rest).1.isBlank = false := by
  have hstep : Utf8.step c rest = (.scalar c.toNat, 1) := if_pos hhigh
  refine ⟨hstep, ?_⟩
  simp only [UInt8.lt_iff_toNat_lt, UInt8.reduceToNat] at hlow hhigh
  simp only [hstep, Character.isBlank, isBlankCode, Bool.or_eq_false_iff, Bool.and_eq_false_iff,
    decide_eq_false_iff_not, beq_eq_false_iff_ne]
  omega

theorem isCut_separator (hhigh : c < 0x80) (u v : Text) : Utf8.IsCut u (c :: v) :=
  Or.inr (Or.inr (Utf8.startsFresh_cons (Utf8.isContinuation_of_lt hhigh) v))

/-- Trimming in front stops at an ASCII character that is not blank. -/
theorem trimBlankStart_separator (hlow : 0x20 < c) (hhigh : c < 0x80) (u v : Text) :
    trimBlankStart (u ++ c :: v) = trimBlankStart u ++ c :: v := by
  by_cases hu : trimBlankStart u = []
  · rw [trimBlankStart_append_of_nil (isCut_separator hhigh u v) hu, hu,
      trimBlankStart_of_not_isBlank (step_separator hlow hhigh v).2]
    rfl
  · exact trimBlankStart_append (isCut_separator hhigh u v) hu

/-- Trimming at the end stops at an ASCII character that is not blank. -/
theorem trimBlankEnd_separator (hlow : 0x20 < c) (hhigh : c < 0x80) (u v : Text) :
    trimBlankEnd (u ++ c :: v) = u ++ c :: trimBlankEnd v := by
  obtain ⟨hstep, hblank⟩ := step_separator hlow hhigh v
  have hwidth : ∀ width, trailingBlankWidth width (u ++ c :: v) = trailingBlankWidth 0 v := by
    intro width
    fun_induction trailingBlankWidth width u with
    | case1 width =>
        rw [List.nil_append, trailingBlankWidth, if_neg (by simp [hblank]), hstep]
        rfl
    | case2 width d rest ih =>
        rw [List.cons_append, trailingBlankWidth,
          Utf8.step_append (isCut_separator hhigh (d :: rest) v), Utf8.drop_width_append]
        exact ih
  have hle := trailingBlankWidth_le v
  have hlength : (u ++ c :: v).length - trailingBlankWidth 0 v
      = u.length + (v.length - trailingBlankWidth 0 v + 1) := by
    rw [List.length_append, List.length_cons]
    omega
  rw [trimBlankEnd, hwidth, hlength, List.take_append, trimBlankEnd]
  simp

end Separator

end Text

end StyleIndex
