import Mathlib.Tactic
import StyleIndex.Editor.Completion
import StyleIndex.Proofs.Grammar.Region

set_option autoImplicit false

/-! # Comments around a cursor

Completion does not lex the text in front of the cursor. It asks whether the last `/*` comes behind
the last `*/`, and whether the line has a `//` outside quotations. `inComment_iff` compares the
answer with the comments of the text: it is right where the markers and quotes in front of the
cursor mean what they seem to mean (`ToldByMarkers`).

The first question is settled by the places of the markers (`inBlockComment_iff`). The second one
follows the scan of the line (`hasLineComment_drop_iff`). What carries the induction is that the
scan never stands inside a literal or a line comment: it jumps over a literal as a whole, and the
first line comment ends it.

A marker inside a literal breaks the comparison (`inComment_of_literal`).
-/

namespace StyleIndex

/-! ## Pairs of bytes -/

/-- The bytes `c` and `d` stand at offset `i`. -/
def PairAt (t : Text) (i : Nat) (c d : UInt8) : Prop := t[i]? = some c ∧ t[i + 1]? = some d

instance (t : Text) (i : Nat) (c d : UInt8) : Decidable (PairAt t i c d) :=
  inferInstanceAs (Decidable (_ ∧ _))

theorem pairAt_iff_drop {t : Text} {i : Nat} {c d : UInt8} :
    PairAt t i c d ↔ [c, d] <+: t.drop i := by
  have hbytes : ∀ j, t[i + j]? = (t.drop i)[j]? := fun j => List.getElem?_drop.symm
  have h0 := hbytes 0
  rw [Nat.add_zero] at h0
  rw [PairAt, h0, hbytes 1]
  generalize t.drop i = u
  match u with
  | [] => simp
  | [a] => simp
  | a :: b :: u => simp [eq_comm]

theorem pairAt_append (u v : Text) (c d : UInt8) : PairAt (u ++ c :: d :: v) u.length c d := by
  rw [pairAt_iff_drop, List.drop_left]
  exact List.prefix_append [c, d] v

theorem pairAt_take {t : Text} {i o : Nat} {c d : UInt8} :
    PairAt (t.take o) i c d ↔ i + 2 ≤ o ∧ PairAt t i c d := by
  simp only [PairAt, List.getElem?_take]
  constructor
  · rintro ⟨hc, hd⟩
    split_ifs at hc hd
    exact ⟨by omega, hc, hd⟩
  · rintro ⟨hi, hc, hd⟩
    rw [if_pos (by omega), if_pos (by omega)]
    exact ⟨hc, hd⟩

theorem PairAt.lt_length {t : Text} {i : Nat} {c d : UInt8} (h : PairAt t i c d) :
    i + 1 < t.length := (List.getElem?_eq_some_iff.mp h.2).1

/-- **What completion takes for a comment**: some `/*` comes behind every `*/`, or the line has a
`//`. -/
theorem inComment_eq_true_iff (t : Text) (lineStart o : Nat) :
    inComment t lineStart o = true ↔
      (∃ i, PairAt (t.take o) i Ascii.slash Ascii.star ∧
        ∀ j, PairAt (t.take o) j Ascii.star Ascii.slash → j < i) ∨
      hasLineComment (t.slice lineStart o) = true := by
  rw [inComment, Bool.or_eq_true]
  refine or_congr ?_ Iff.rfl
  generalize t.take o = u
  cases hopen : Text.lastIndexOf? [Ascii.slash, Ascii.star] u with
  | none =>
      simp only [Bool.false_eq_true, false_iff, not_exists, not_and]
      intro i hi
      have := hi.lt_length
      exact absurd (pairAt_iff_drop.mp hi) (Text.lastIndexOf?_eq_none hopen i (by omega))
  | some i =>
      obtain ⟨hi, hlast⟩ := Text.lastIndexOf?_eq_some (by simp) hopen
      have hopened := pairAt_iff_drop.mpr hi
      cases hclose : Text.lastIndexOf? [Ascii.star, Ascii.slash] u with
      | none =>
          simp only [true_iff]
          refine ⟨i, hopened, fun j hj => ?_⟩
          have := hj.lt_length
          exact absurd (pairAt_iff_drop.mp hj) (Text.lastIndexOf?_eq_none hclose j (by omega))
      | some j =>
          obtain ⟨hj, hlast'⟩ := Text.lastIndexOf?_eq_some (by simp) hclose
          simp only [decide_eq_true_eq]
          constructor
          · intro hlt
            refine ⟨i, hopened, fun k hk => ?_⟩
            have := hlast' k (by have := hk.lt_length; omega) (pairAt_iff_drop.mp hk)
            omega
          · rintro ⟨k, hk, hbehind⟩
            have := hlast k (by have := hk.lt_length; omega) (pairAt_iff_drop.mp hk)
            have := hbehind j (pairAt_iff_drop.mpr hj)
            omega

/-! ## What a region shows -/

namespace Region.ReadFrom

variable {t : Text} {r : Region}

theorem start_lt_stop (h : r.ReadFrom t) : r.start < r.stop := by
  cases h with
  | literal => simp [Literal.text]
  | lineComment => simp
  | blockComment => simp

/-- A literal begins with its quote. -/
theorem isQuote_start (h : r.ReadFrom t) (hkind : r.kind = .literal) :
    ∃ q, t[r.start]? = some q ∧ Ascii.isQuote q = true := by
  cases h with
  | @literal front back l hl htext => exact ⟨l.quote, by simp [htext, Literal.text], hl.1⟩
  | lineComment => cases hkind
  | blockComment => cases hkind

/-- A line comment begins with two slashes. -/
theorem slashes_start (h : r.ReadFrom t) (hkind : r.kind = .lineComment) :
    PairAt t r.start Ascii.slash Ascii.slash := by
  cases h with
  | literal => cases hkind
  | lineComment _ _ htext =>
      rw [htext]
      exact pairAt_append _ _ _ _
  | blockComment => cases hkind

/-- A line comment goes on to a line feed or to the end of the text. -/
theorem eq_lf_of_stop (h : r.ReadFrom t) (hkind : r.kind = .lineComment)
    (hstop : r.stop < t.length) : t[r.stop]? = some Ascii.lf := by
  cases h with
  | literal => cases hkind
  | @lineComment front u back _ hback htext =>
      have hindex : t[front.length + (u.length + 2)]? = back.head? := by
        have hsplit : t = (front ++ Ascii.slash :: Ascii.slash :: u) ++ back := by simp [htext]
        have hlength : (front ++ Ascii.slash :: Ascii.slash :: u).length
            = front.length + (u.length + 2) := by simp
        rw [hsplit, ← hlength, List.getElem?_append_right le_rfl, Nat.sub_self,
          List.head?_eq_getElem?]
      cases back with
      | nil =>
          simp [htext] at hstop
      | cons c back =>
          rw [hindex, ← hback c rfl]
          rfl
  | blockComment => cases hkind

/-- A block comment begins with `/*` and ends with `*/`. -/
theorem marks_block (h : r.ReadFrom t) (hkind : r.kind = .blockComment) :
    r.start + 4 ≤ r.stop ∧ PairAt t r.start Ascii.slash Ascii.star ∧
      PairAt t (r.stop - 2) Ascii.star Ascii.slash := by
  cases h with
  | literal => cases hkind
  | lineComment => cases hkind
  | @blockComment front u back _ htext =>
      refine ⟨by simp, ?_, ?_⟩
      · rw [htext]
        exact pairAt_append _ _ _ _
      · have hsplit : t = (front ++ Ascii.slash :: Ascii.star :: u)
            ++ Ascii.star :: Ascii.slash :: back := by simp [htext]
        have hlength : front.length + (u.length + 4) - 2
            = (front ++ Ascii.slash :: Ascii.star :: u).length := by simp; omega
        simp only [hlength]
        rw [hsplit]
        exact pairAt_append _ _ _ _

/-- There is no `*/` inside a block comment, but its star may be that of the opening. -/
theorem not_close_inside (h : r.ReadFrom t) (hkind : r.kind = .blockComment) {j : Nat}
    (hlow : r.start + 2 ≤ j) (hhigh : j + 2 < r.stop) : ¬ PairAt t j Ascii.star Ascii.slash := by
  cases h with
  | literal => cases hkind
  | lineComment => cases hkind
  | @blockComment front u back hu htext =>
      simp only at hlow hhigh
      intro hj
      have hdrop : t.drop j = (u ++ [Ascii.star]).drop (j - (front.length + 2))
          ++ Ascii.slash :: back := by
        have hsplit : t = (front ++ [Ascii.slash, Ascii.star])
            ++ ((u ++ [Ascii.star]) ++ Ascii.slash :: back) := by simp [htext]
        have hlength : (front ++ [Ascii.slash, Ascii.star]).length = front.length + 2 := by simp
        rw [hsplit, List.drop_append, List.drop_eq_nil_of_le (by omega), List.nil_append, hlength,
          List.drop_append_of_le_length (by simp; omega)]
      have hpre := pairAt_iff_drop.mp hj
      rw [hdrop] at hpre
      have hshort : [Ascii.star, Ascii.slash]
          <+: (u ++ [Ascii.star]).drop (j - (front.length + 2)) := by
        refine List.prefix_of_prefix_length_le hpre (List.prefix_append _ _) ?_
        simp only [List.length_cons, List.length_nil, List.length_drop, List.length_append]
        omega
      exact hu (hshort.isInfix.trans (List.drop_suffix _ _).isInfix)

end Region.ReadFrom

/-! ## The scan of a line -/

theorem hasLineComment_of_short {u : Text} (h : u.length < 2) : hasLineComment u = false := by
  match u with
  | [] => rw [hasLineComment]
  | [_] => rw [hasLineComment]
  | _ :: _ :: _ => simp at h

theorem hasLineComment_slashes (u : Text) :
    hasLineComment (Ascii.slash :: Ascii.slash :: u) = true := by
  rw [hasLineComment, if_neg (by decide), if_pos ⟨rfl, rfl⟩]

theorem hasLineComment_byte {c : UInt8} {u : Text} (hq : Ascii.isQuote c = false)
    (hslash : ¬ (c = Ascii.slash ∧ u.head? = some Ascii.slash)) :
    hasLineComment (c :: u) = hasLineComment u := by
  cases u with
  | nil => rw [hasLineComment, hasLineComment]
  | cons d u =>
      rw [hasLineComment, if_neg (by simp [hq]), if_neg (by simpa using hslash)]

/-- A quotation is jumped over. -/
theorem hasLineComment_quotation {q : UInt8} {u : Text} (hq : Ascii.isQuote q = true)
    (hu : q ∉ u) (rest : Text) : hasLineComment (q :: (u ++ q :: rest)) = hasLineComment rest := by
  have hindex := Text.byteIndex?_append hu rest
  obtain ⟨d, v, hv⟩ := List.exists_cons_of_ne_nil
    (List.append_ne_nil_of_right_ne_nil u (List.cons_ne_nil q rest))
  have hdrop : (u ++ q :: rest).drop (u.length + 1) = rest := by
    rw [List.append_cons]
    exact List.drop_left' (by simp)
  rw [hv] at hindex hdrop ⊢
  rw [hasLineComment, if_pos hq, hindex]
  simp only [hdrop]

/-- A quote without a partner ends the scan. -/
theorem hasLineComment_openQuote {q : UInt8} {u : Text} (hq : Ascii.isQuote q = true)
    (hu : q ∉ u) : hasLineComment (q :: u) = false := by
  cases u with
  | nil => rw [hasLineComment]
  | cons d u =>
      rw [hasLineComment, if_pos hq, Text.byteIndex?_eq_none_iff.mpr hu]

/-- There is no line feed between the start of the line and the cursor. -/
theorem lineStartBefore_spec {t : Text} {o : Nat} (ho : o ≤ t.length) :
    lineStartBefore t o ≤ o ∧
      ∀ i, lineStartBefore t o ≤ i → i < o → t[i]? ≠ some Ascii.lf := by
  have hsplit := List.takeWhile_append_dropWhile
    (p := fun c => c != Ascii.cr && c != Ascii.lf) (l := (t.take o).reverse)
  have hline : ∀ c ∈ (t.take o).reverse.takeWhile (fun c => c != Ascii.cr && c != Ascii.lf),
      c ≠ Ascii.lf := by
    intro c hc
    have := List.mem_takeWhile_imp hc
    simp only [Bool.and_eq_true, bne_iff_ne] at this
    exact this.2
  rw [lineStartBefore]
  generalize (t.take o).reverse.takeWhile (fun c => c != Ascii.cr && c != Ascii.lf) = line at *
  generalize (t.take o).reverse.dropWhile (fun c => c != Ascii.cr && c != Ascii.lf) = front at *
  have htake : t.take o = front.reverse ++ line.reverse := by
    rw [← List.reverse_append, hsplit, List.reverse_reverse]
  have hlength := congrArg List.length htake
  simp only [List.length_take, List.length_append, List.length_reverse] at hlength
  refine ⟨by omega, fun i hlow hhigh hi => ?_⟩
  have hi' : (t.take o)[i]? = some Ascii.lf := by rw [List.getElem?_take, if_pos hhigh, hi]
  rw [htake, List.getElem?_append_right (by simpa using hlow)] at hi'
  exact hline _ (List.mem_reverse.mp (List.mem_of_getElem? hi')) rfl

/-! ## Comments around a cursor -/

/-- The offset lies behind the opening of the comment and in front of its end. A line comment
includes the place behind its last byte. -/
def Region.IsCommentAround (r : Region) (o : Nat) : Prop :=
  (r.kind = .blockComment ∧ r.start + 2 ≤ o ∧ o < r.stop) ∨
    (r.kind = .lineComment ∧ r.start + 2 ≤ o ∧ o ≤ r.stop)

instance (r : Region) (o : Nat) : Decidable (r.IsCommentAround o) :=
  inferInstanceAs (Decidable (_ ∨ _))

/-- A literal holds its own quote once more, in front of the offset. -/
def Region.HoldsOwnQuote (t : Text) (o : Nat) (r : Region) : Prop :=
  ∃ j < o, r.start < j ∧ j + 1 < r.stop ∧ t[j]? = t[r.start]?

instance (t : Text) (o : Nat) (r : Region) : Decidable (r.HoldsOwnQuote t o) :=
  inferInstanceAs (Decidable (∃ j < o, _))

/-- The byte at offset `i` stands in the region, which is a line comment, a block comment around the
cursor at offset `o`, or a literal without its own quote inside. -/
def Region.Hides (t : Text) (o i : Nat) (r : Region) : Prop :=
  r.start ≤ i ∧ i < r.stop ∧ (r.kind = .blockComment → o < r.stop) ∧
    (r.kind = .literal → ¬ r.HoldsOwnQuote t o)

instance (t : Text) (o i : Nat) (r : Region) : Decidable (r.Hides t o i) :=
  inferInstanceAs (Decidable (_ ∧ _ ∧ (_ → _) ∧ (_ → _)))

/-- The markers and quotes in front of the offset mean what they seem to mean:
* each `/*` belongs to a comment, and a comment around the offset does not go on with a slash;
* the line of the offset begins neither in a literal nor in a line comment;
* each `//` and each quote on the line is hidden in a literal or comment. -/
structure ToldByMarkers (t : Text) (o : Nat) : Prop where
  opened : ∀ i < o - 1, PairAt t i Ascii.slash Ascii.star →
    ∃ r ∈ regions t, r.kind = .blockComment ∧ r.start ≤ i ∧ i + 2 ≤ r.stop
  unslashed : ∀ r ∈ regions t, r.kind = .blockComment → r.start + 3 ≤ o → o < r.stop →
    t[r.start + 2]? ≠ some Ascii.slash
  lineStart : ∀ r ∈ regions t, r.kind ≠ .blockComment → r.start < lineStartBefore t o →
    r.stop < lineStartBefore t o
  slashes : ∀ i < o - 1, lineStartBefore t o ≤ i → PairAt t i Ascii.slash Ascii.slash →
    ∃ r ∈ regions t, r.Hides t o i
  quotes : ∀ i < o, lineStartBefore t o ≤ i → t[i]?.any Ascii.isQuote = true →
    ∃ r ∈ regions t, r.Hides t o i

section Cursor

variable {t : Text} {o : Nat}

/-- **The last marker tells whether a block comment is open.** -/
theorem opened_take_iff (h : ToldByMarkers t o) :
    (∃ i, PairAt (t.take o) i Ascii.slash Ascii.star ∧
        ∀ j, PairAt (t.take o) j Ascii.star Ascii.slash → j < i) ↔
      ∃ r ∈ regions t, r.kind = .blockComment ∧ r.start + 2 ≤ o ∧ o < r.stop := by
  have hregions := regionsIn_regions t
  simp only [pairAt_take]
  constructor
  · rintro ⟨i, ⟨hi, hopen⟩, hlast⟩
    obtain ⟨r, hr, hkind, hstart, hstop⟩ := h.opened i (by omega) hopen
    obtain ⟨hlength, -, hclose⟩ := (hregions.read r hr).marks_block hkind
    refine ⟨r, hr, hkind, by omega, ?_⟩
    -- a comment that ended in front of the cursor would be closed by the last marker
    by_contra hle
    have := hlast (r.stop - 2) ⟨by omega, hclose⟩
    omega
  · rintro ⟨r, hr, hkind, hstart, hstop⟩
    have hread := hregions.read r hr
    obtain ⟨-, hopen, -⟩ := hread.marks_block hkind
    refine ⟨r.start, ⟨hstart, hopen⟩, fun j ⟨hj, hclose⟩ => ?_⟩
    by_contra hle
    by_cases hinside : r.start + 2 ≤ j
    · exact hread.not_close_inside hkind hinside (by omega) hclose
    · obtain rfl | rfl : j = r.start ∨ j = r.start + 1 := by omega
      · exact absurd (hopen.1.symm.trans hclose.1) (by decide)
      · exact h.unslashed r hr hkind (by omega) hstop hclose.2

/-- The scan stands neither in a literal nor in a line comment. -/
def OutsideAt (t : Text) (p : Nat) : Prop :=
  ∀ r ∈ regions t, r.kind ≠ .blockComment → r.start < p → r.stop ≤ p

/-- Behind a region the scan stands outside. -/
theorem outsideAt_stop {r : Region} (hr : r ∈ regions t) : OutsideAt t r.stop := by
  have hregions := regionsIn_regions t
  intro r' hr' _ hlt
  by_contra hle
  have hoverlap : r.start < r'.stop := by
    have := (hregions.read r hr).start_lt_stop
    omega
  have heq := hregions.eq_of_overlap hr hr' hoverlap hlt
  rw [heq] at hle
  exact hle le_rfl

/-- A line comment begins at offset `p` or behind it, in front of the cursor. -/
def LineCommentFrom (t : Text) (o p : Nat) : Prop :=
  ∃ r ∈ regions t, r.kind = .lineComment ∧ p ≤ r.start ∧ r.start + 2 ≤ o

/-- No line comment begins in a literal. -/
theorem lineCommentFrom_literal {r : Region} (hr : r ∈ regions t) (hkind : r.kind = .literal) :
    LineCommentFrom t o r.start ↔ LineCommentFrom t o r.stop := by
  have hregions := regionsIn_regions t
  have hpos := (hregions.read r hr).start_lt_stop
  constructor
  · rintro ⟨r', hr', hkind', hstart, hstop⟩
    refine ⟨r', hr', hkind', ?_, hstop⟩
    by_contra hlt
    have hpos' := (hregions.read r' hr').start_lt_stop
    have heq := hregions.eq_of_overlap hr hr' (by omega) (by omega)
    rw [heq, hkind'] at hkind
    cases hkind
  · rintro ⟨r', hr', hkind', hstart, hstop⟩
    exact ⟨r', hr', hkind', by omega, hstop⟩

variable {p : Nat}

/-- Two slashes outside literals begin a line comment. -/
theorem lineCommentFrom_of_slashes (h : ToldByMarkers t o)
    (hblock : ∀ r ∈ regions t, r.kind = .blockComment → r.start + 2 ≤ o → r.stop ≤ o)
    (hout : OutsideAt t p) (hline : lineStartBefore t o ≤ p) (hp : p + 2 ≤ o)
    (hslashes : PairAt t p Ascii.slash Ascii.slash) : LineCommentFrom t o p := by
  obtain ⟨r, hr, hstart, hstop, hopen, -⟩ := h.slashes p (by omega) hline hslashes
  have hread := (regionsIn_regions t).read r hr
  by_cases hkind : r.kind = .blockComment
  · have := hblock r hr hkind (by omega)
    have := hopen hkind
    omega
  · have heq : r.start = p := by
      by_contra hne
      have := hout r hr hkind (by omega)
      omega
    refine ⟨r, hr, ?_, heq.ge, by omega⟩
    cases hr' : r.kind with
    | lineComment => rfl
    | blockComment => exact absurd hr' hkind
    | literal =>
        obtain ⟨q, hq, hquote⟩ := hread.isQuote_start hr'
        rw [heq, hslashes.1] at hq
        cases hq
        exact absurd hquote (by decide)

/-- A quote outside literals begins a literal. -/
theorem exists_literal_of_quote (h : ToldByMarkers t o)
    (hblock : ∀ r ∈ regions t, r.kind = .blockComment → r.start + 2 ≤ o → r.stop ≤ o)
    (hout : OutsideAt t p) (hline : lineStartBefore t o ≤ p) (hp : p < o) {q : UInt8}
    (hq : t[p]? = some q) (hquote : Ascii.isQuote q = true) :
    ∃ r ∈ regions t, r.kind = .literal ∧ r.start = p ∧ ¬ r.HoldsOwnQuote t o := by
  obtain ⟨r, hr, hstart, hstop, hopen, hown⟩ := h.quotes p hp hline (by simp [hq, hquote])
  have hread := (regionsIn_regions t).read r hr
  -- the two bytes that begin a comment are no quotes
  have hmarker : ∀ i c, t[i]? = some c → (c = Ascii.slash ∨ c = Ascii.star) → p ≠ i := by
    rintro i c hc hbyte rfl
    rw [hq] at hc
    cases hc
    rcases hbyte with rfl | rfl
    · exact absurd hquote (by decide)
    · exact absurd hquote (by decide)
  by_cases hkind : r.kind = .blockComment
  · obtain ⟨-, hfirst, -⟩ := hread.marks_block hkind
    have := hmarker _ _ hfirst.1 (Or.inl rfl)
    have := hmarker _ _ hfirst.2 (Or.inr rfl)
    have := hblock r hr hkind (by omega)
    have := hopen hkind
    omega
  · have heq : r.start = p := by
      by_contra hne
      have := hout r hr hkind (by omega)
      omega
    cases hr' : r.kind with
    | blockComment => exact absurd hr' hkind
    | lineComment =>
        exact absurd heq.symm (hmarker _ _ (hread.slashes_start hr').1 (Or.inl rfl))
    | literal =>
        exact ⟨r, hr, hr', heq, hown hr'⟩

/-- What the scan sees of a literal that does not hold its own quote: a quotation, or the beginning
of one if the literal goes on behind the cursor. -/
theorem exists_quotation_of_literal {r : Region} (hread : r.ReadFrom t) (hkind : r.kind = .literal)
    (hstart : r.start < o) {q : UInt8} (hq : t[r.start]? = some q)
    (hown : ¬ r.HoldsOwnQuote t o) :
    ∃ u, q ∉ u ∧
      ((r.stop ≤ o ∧ (t.take o).drop r.start = q :: (u ++ q :: (t.take o).drop r.stop)) ∨
        (o < r.stop ∧ (t.take o).drop r.start = q :: u)) := by
  cases hread with
  | lineComment => cases hkind
  | blockComment => cases hkind
  | @literal front back l hl htext =>
      generalize hinner : l.parts.flatMap LiteralPart.text = inner
      have hliteral : l.text = l.quote :: (inner ++ [l.quote]) := by rw [Literal.text, hinner]
      have hlength : l.text.length = inner.length + 2 := by simp [hliteral]
      obtain rfl : l.quote = q := by
        have hfirst : t[front.length]? = some l.quote := by simp [htext, hliteral]
        exact Option.some.inj (hfirst.symm.trans hq)
      simp only at hstart ⊢
      -- the text from the opening quote on, cut off at the cursor
      have hdrop : (t.take o).drop front.length
          = l.quote :: (inner ++ l.quote :: back).take (o - front.length - 1) := by
        obtain ⟨k, hk⟩ : ∃ k, o - front.length = k + 1 := ⟨o - front.length - 1, by omega⟩
        rw [List.drop_take, htext, List.drop_left, hliteral, hk, Nat.add_sub_cancel]
        simp
      have hnot : ∀ k, k ≤ inner.length → k ≤ o - front.length - 1 → l.quote ∉ inner.take k := by
        intro k hk hk' hmem
        obtain ⟨i, hi, heq⟩ := List.getElem_of_mem hmem
        rw [List.length_take] at hi
        have hi' : inner[i]? = some l.quote := by
          rw [List.getElem_take] at heq
          rw [List.getElem?_eq_getElem (by omega), heq]
        refine hown ⟨front.length + (i + 1), by omega, by simp, by simp only; omega, ?_⟩
        rw [hq, htext, hliteral, List.getElem?_append_right (by omega), Nat.add_sub_cancel_left]
        simp only [List.cons_append, List.getElem?_cons_succ, List.append_assoc]
        rw [List.getElem?_append_left (by omega), hi']
      by_cases hstop : front.length + l.text.length ≤ o
      · refine ⟨inner, ?_, Or.inl ⟨hstop, ?_⟩⟩
        · have := hnot inner.length le_rfl (by omega)
          rwa [List.take_length] at this
        · have hrest : (t.take o).drop (front.length + l.text.length)
              = back.take (o - (front.length + l.text.length)) := by
            rw [List.drop_take, htext, ← List.append_assoc, ← List.length_append, List.drop_left]
          rw [hdrop, hrest]
          obtain ⟨k, hk⟩ : ∃ k, o - front.length - 1 = inner.length + (k + 1) :=
            ⟨o - front.length - 1 - inner.length - 1, by omega⟩
          rw [hk, List.take_length_add_append, List.take_succ_cons,
            show o - (front.length + l.text.length) = k by omega]
      · refine ⟨inner.take (o - front.length - 1), hnot _ (by omega) le_rfl,
          Or.inr ⟨by omega, ?_⟩⟩
        rw [hdrop, List.take_append_of_le_length (by omega)]

/-- Neither a literal nor a line comment begins at a byte that is no quote and not the first one of
two slashes. -/
theorem start_ne_of_byte {c d : UInt8} (hc : t[p]? = some c) (hd : t[p + 1]? = some d)
    (hquote : ¬ Ascii.isQuote c = true) (hslashes : ¬ (c = Ascii.slash ∧ d = Ascii.slash)) :
    ∀ r ∈ regions t, r.kind ≠ .blockComment → r.start ≠ p := by
  rintro r hr hkind rfl
  have hread := (regionsIn_regions t).read r hr
  cases hr' : r.kind with
  | blockComment => exact hkind hr'
  | literal =>
      obtain ⟨q, hq, hisQuote⟩ := hread.isQuote_start hr'
      rw [hc] at hq
      cases hq
      exact hquote hisQuote
  | lineComment =>
      obtain ⟨hfirst, hsecond⟩ := hread.slashes_start hr'
      rw [hc] at hfirst
      rw [hd] at hsecond
      exact hslashes ⟨Option.some.inj hfirst, Option.some.inj hsecond⟩

theorem OutsideAt.succ (hout : OutsideAt t p)
    (hnone : ∀ r ∈ regions t, r.kind ≠ .blockComment → r.start ≠ p) : OutsideAt t (p + 1) := by
  intro r hr hkind hlt
  have := hnone r hr hkind
  have := hout r hr hkind (by omega)
  omega

theorem lineCommentFrom_succ
    (hnone : ∀ r ∈ regions t, r.kind ≠ .blockComment → r.start ≠ p) :
    LineCommentFrom t o (p + 1) ↔ LineCommentFrom t o p := by
  constructor
  · rintro ⟨r, hr, hkind, hstart, hstop⟩
    exact ⟨r, hr, hkind, by omega, hstop⟩
  · rintro ⟨r, hr, hkind, hstart, hstop⟩
    have := hnone r hr (by rw [hkind]; decide)
    exact ⟨r, hr, hkind, by omega, hstop⟩

theorem drop_take_eq_cons {c : UInt8} (hp : p < o) (hc : t[p]? = some c) :
    (t.take o).drop p = c :: (t.take o).drop (p + 1) := by
  have hget : (t.take o)[p]? = some c := by
    rw [List.getElem?_take, if_pos hp, hc]
  obtain ⟨hlt, heq⟩ := List.getElem?_eq_some_iff.mp hget
  rw [List.drop_eq_getElem_cons hlt, heq]

/-- **The scan of the line finds the line comment.** From a place on the line outside literals and
line comments, it finds one exactly if a line comment begins there or further on. -/
theorem hasLineComment_drop_iff (h : ToldByMarkers t o) (ho : o ≤ t.length)
    (hblock : ∀ r ∈ regions t, r.kind = .blockComment → r.start + 2 ≤ o → r.stop ≤ o)
    (hline : lineStartBefore t o ≤ p) (hout : OutsideAt t p) :
    hasLineComment ((t.take o).drop p) = true ↔ LineCommentFrom t o p := by
  have hregions := regionsIn_regions t
  -- the induction is on what is left of the line
  induction hn : o - p using Nat.strong_induction_on generalizing p with
  | _ n ih =>
      by_cases hp : o < p + 2
      · have hshort : ((t.take o).drop p).length < 2 := by
          rw [List.length_drop, List.length_take]
          omega
        rw [hasLineComment_of_short hshort]
        simp only [Bool.false_eq_true, false_iff]
        rintro ⟨r, -, -, hstart, hstop⟩
        omega
      obtain ⟨c, d, hc, hd⟩ : ∃ c d, t[p]? = some c ∧ t[p + 1]? = some d :=
        ⟨_, _, List.getElem?_eq_getElem (by omega), List.getElem?_eq_getElem (by omega)⟩
      have hcons := @drop_take_eq_cons t o p c (by omega) hc
      have hhead : ((t.take o).drop (p + 1)).head? = some d := by
        rw [List.head?_drop, List.getElem?_take, if_pos (by omega), hd]
      by_cases hquote : Ascii.isQuote c = true
      · -- a literal, which is passed as a whole
        obtain ⟨r, hr, hkind, rfl, hown⟩ :=
          exists_literal_of_quote h hblock hout hline (by omega) hc hquote
        have hread := hregions.read r hr
        have hpos := hread.start_lt_stop
        obtain ⟨u, hu, ⟨hstop, hdrop⟩ | ⟨hstop, hdrop⟩⟩ :=
          exists_quotation_of_literal hread hkind (by omega) hc hown
        · have hrest := @ih (o - r.stop) (by omega) r.stop (by omega) (outsideAt_stop hr) rfl
          rw [hdrop, hasLineComment_quotation hquote hu]
          exact hrest.trans (lineCommentFrom_literal hr hkind).symm
        · rw [hdrop, hasLineComment_openQuote hquote hu, lineCommentFrom_literal hr hkind]
          simp only [Bool.false_eq_true, false_iff]
          rintro ⟨r', -, -, hstart, hstop'⟩
          omega
      · by_cases hslashes : c = Ascii.slash ∧ d = Ascii.slash
        · obtain ⟨rfl, rfl⟩ := hslashes
          obtain ⟨rest, hrest⟩ := eq_cons_of_head? hhead
          rw [hcons, hrest, hasLineComment_slashes]
          simp only [true_iff]
          exact lineCommentFrom_of_slashes h hblock hout hline (by omega) ⟨hc, hd⟩
        · -- any other byte: neither a literal nor a line comment begins here
          have hnone := start_ne_of_byte hc hd hquote hslashes
          have hrest := @ih (o - (p + 1)) (by omega) (p + 1) (by omega) (hout.succ hnone) rfl
          have hbyte : ¬ (c = Ascii.slash ∧
              ((t.take o).drop (p + 1)).head? = some Ascii.slash) := by
            rw [hhead, Option.some.injEq]
            exact hslashes
          rw [hcons, hasLineComment_byte (by simpa using hquote) hbyte]
          exact hrest.trans (lineCommentFrom_succ hnone)

end Cursor

/-- **Completion recognises comments by their markers.** Where the markers and quotes in front of a
cursor mean what they seem to mean, the cursor is taken to stand in a comment exactly if it stands
in a comment of the text: behind `/*` and in front of the end of `*/`, or behind `//` on its
line. -/
theorem inComment_iff {t : Text} {o : Nat} (ho : o ≤ t.length) (h : ToldByMarkers t o) :
    inComment t (lineStartBefore t o) o = true ↔ ∃ r ∈ regions t, r.IsCommentAround o := by
  have hregions := regionsIn_regions t
  obtain ⟨hle, hfeed⟩ := lineStartBefore_spec ho
  have hslice : t.slice (lineStartBefore t o) o = (t.take o).drop (lineStartBefore t o) := by
    rw [Text.slice, List.drop_take]
  rw [inComment_eq_true_iff, hslice, opened_take_iff h]
  by_cases hblock : ∃ r ∈ regions t, r.kind = .blockComment ∧ r.start + 2 ≤ o ∧ o < r.stop
  · obtain ⟨r, hr, haround⟩ := id hblock
    exact iff_of_true (Or.inl hblock) ⟨r, hr, Or.inl haround⟩
  · have hended : ∀ r ∈ regions t, r.kind = .blockComment → r.start + 2 ≤ o → r.stop ≤ o := by
      intro r hr hkind hstart
      by_contra hlt
      exact hblock ⟨r, hr, hkind, hstart, by omega⟩
    have hout : OutsideAt t (lineStartBefore t o) :=
      fun r hr hkind hlt => (h.lineStart r hr hkind hlt).le
    rw [hasLineComment_drop_iff h ho hended le_rfl hout]
    constructor
    · rintro (hopen | ⟨r, hr, hkind, hstart, hstop⟩)
      · exact absurd hopen hblock
      · -- the comment goes on to the end of the line
        refine ⟨r, hr, Or.inr ⟨hkind, hstop, ?_⟩⟩
        by_contra hlt
        have hpos := (hregions.read r hr).start_lt_stop
        exact hfeed r.stop (by omega) (by omega)
          ((hregions.read r hr).eq_lf_of_stop hkind (by omega))
    · rintro ⟨r, hr, ⟨hkind, hstart, hstop⟩ | ⟨hkind, hstart, hstop⟩⟩
      · exact absurd ⟨r, hr, hkind, hstart, hstop⟩ hblock
      · refine Or.inr ⟨r, hr, hkind, ?_, hstart⟩
        by_contra hlt
        have := h.lineStart r hr (by rw [hkind]; decide) (by omega)
        omega

/-- A text with a comment of either kind, and with two slashes in a literal. -/
def commentText : Text := text "/* it's */\na \x7b b: url(\"//c\"); // d\n\x7d"

theorem inComment_iff_commentText :
    regions commentText = [⟨.blockComment, 0, 10⟩, ⟨.literal, 22, 27⟩, ⟨.lineComment, 30, 34⟩] ∧
      ToldByMarkers commentText 33 ∧
      (inComment commentText (lineStartBefore commentText 33) 33 = true ↔
        ∃ r ∈ regions commentText, r.IsCommentAround 33) := by
  have hmarkers : ToldByMarkers commentText 33 :=
    ⟨by decide +kernel, by decide +kernel, by decide +kernel, by decide +kernel,
      by decide +kernel⟩
  exact ⟨by decide +kernel, hmarkers, inComment_iff (by decide +kernel) hmarkers⟩

/-- A text with a marker in a literal. -/
def globText : Text := text "@import 'a/*'; b: $c;"

/-- **A marker in a literal is taken for a comment**: the cursor behind `$c` stands in no comment of
the text. -/
theorem inComment_of_literal :
    (parse globText).isOk = true ∧ (∀ r ∈ regions globText, ¬ r.IsCommentAround 20) ∧
      inComment globText (lineStartBefore globText 20) 20 = true := by
  decide +kernel

end StyleIndex
