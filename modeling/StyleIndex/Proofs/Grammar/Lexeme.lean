import Mathlib.Tactic
import StyleIndex.Proofs.Grammar.Derivation
import StyleIndex.Proofs.Text.Search

set_option autoImplicit false

/-! # Units of the grammar and tokens

The scanners of `Stylesheet/Token.lean` against the units of the grammar, one scanner at a time:
what a unit spells, the scanner finds, and what the scanner finds is spelt by a unit. The two
directions meet in `next_eq_ok_of_wellFormed` and `exists_part_of_next_eq_ok`, which are all that
the rest of the development uses of the scanners. Each unit is also the only one with its
spelling.
-/

namespace StyleIndex

/-! ## Literals -/

theorem isQuote_iff {c : UInt8} :
    Ascii.isQuote c = true ↔ c = Ascii.quote ∨ c = Ascii.apostrophe := by
  simp [Ascii.isQuote]

/-- A quote is neither a backslash nor a line feed. -/
theorem ne_of_isQuote {q : UInt8} (hq : Ascii.isQuote q = true) :
    q ≠ Ascii.backslash ∧ q ≠ Ascii.lf := by
  rcases isQuote_iff.mp hq with rfl | rfl
  · decide
  · decide

namespace Token

theorem literalLength?_escape (q d : UInt8) (t : Text) :
    literalLength? q (Ascii.backslash :: d :: t) = (literalLength? q t).map (· + 2) := by
  rw [literalLength?.eq_def]
  rfl

theorem literalLength?_byte {q c : UInt8} (hc : c ≠ Ascii.backslash) (t : Text) :
    literalLength? q (c :: t)
      = if c = Ascii.lf then none else if c = q then some 1
        else (literalLength? q t).map (· + 1) := by
  rw [literalLength?.eq_def]
  simp only [if_neg hc]

/-- The scanner of literals finds the closing quote of a literal. -/
theorem literalLength?_append {q : UInt8} (hq : Ascii.isQuote q = true)
    {parts : List LiteralPart} (h : ∀ p ∈ parts, p.WellFormed q) (after : Text) :
    literalLength? q (parts.flatMap LiteralPart.text ++ q :: after)
      = some ((parts.flatMap LiteralPart.text).length + 1) := by
  obtain ⟨hback, hlf⟩ := ne_of_isQuote hq
  induction parts with
  | nil =>
      rw [List.flatMap_nil, List.nil_append, literalLength?_byte hback, if_neg hlf, if_pos rfl]
      rfl
  | cons p parts ih =>
      have ih' := ih (fun p' hp' => h p' (List.mem_cons_of_mem _ hp'))
      have hp := h p List.mem_cons_self
      cases p with
      | byte c =>
          obtain ⟨hcq, hcb, hcl⟩ := hp
          simp only [List.flatMap_cons, LiteralPart.text, List.cons_append, List.nil_append]
          rw [literalLength?_byte hcb, if_neg hcl, if_neg hcq, ih']
          rfl
      | escaped c =>
          simp only [List.flatMap_cons, LiteralPart.text, List.cons_append, List.nil_append]
          rw [literalLength?_escape, ih']
          rfl

/-- Up to the closing quote that the scanner finds there are parts of a literal. -/
theorem exists_parts_of_literalLength? {q : UInt8} {t : Text} {n : Nat}
    (h : literalLength? q t = some n) :
    ∃ (parts : List LiteralPart) (after : Text),
      t = parts.flatMap LiteralPart.text ++ q :: after ∧
      n = (parts.flatMap LiteralPart.text).length + 1 ∧
      ∀ p ∈ parts, LiteralPart.WellFormed q p := by
  induction hn : t.length using Nat.strong_induction_on generalizing t n with
  | _ m ih =>
      cases t with
      | nil => cases h
      | cons c t =>
          by_cases hc : c = Ascii.backslash
          · -- a backslash takes two bytes, so induction on the tail would not do
            subst hc
            cases t with
            | nil => cases h
            | cons d t =>
                rw [literalLength?_escape] at h
                obtain ⟨k, hk, rfl⟩ := Option.map_eq_some_iff.mp h
                obtain ⟨parts, after, rfl, rfl, hparts⟩ :=
                  ih t.length (by simp only [← hn, List.length_cons]; omega) hk rfl
                refine ⟨.escaped d :: parts, after, rfl, rfl, ?_⟩
                intro p hp
                rcases List.mem_cons.mp hp with rfl | hp
                · trivial
                · exact hparts p hp
          · rw [literalLength?_byte hc] at h
            by_cases hlf : c = Ascii.lf
            · rw [if_pos hlf] at h
              cases h
            · rw [if_neg hlf] at h
              by_cases hq : c = q
              · rw [if_pos hq] at h
                cases h
                exact ⟨[], t, by simp [hq], rfl, by simp⟩
              · rw [if_neg hq] at h
                obtain ⟨k, hk, rfl⟩ := Option.map_eq_some_iff.mp h
                obtain ⟨parts, after, rfl, rfl, hparts⟩ :=
                  ih t.length (by simp only [← hn, List.length_cons]; omega) hk rfl
                refine ⟨.byte c :: parts, after, rfl, rfl, ?_⟩
                intro p hp
                rcases List.mem_cons.mp hp with rfl | hp
                · exact ⟨hq, hc, hlf⟩
                · exact hparts p hp

end Token

/-- The parts up to a closing quote are determined by the text. -/
theorem literalParts_unique {q : UInt8} (hq : Ascii.isQuote q = true) {ps : List LiteralPart} :
    ∀ {ps' : List LiteralPart} {t t' : Text}, (∀ p ∈ ps, p.WellFormed q) →
      (∀ p ∈ ps', p.WellFormed q) →
      ps.flatMap LiteralPart.text ++ q :: t = ps'.flatMap LiteralPart.text ++ q :: t' →
      ps = ps' ∧ t = t' := by
  obtain ⟨hback, hlf⟩ := ne_of_isQuote hq
  induction ps with
  | nil =>
      intro ps' t t' _ h' heq
      cases ps' with
      | nil => exact ⟨rfl, (List.cons.inj heq).2⟩
      | cons p' ps' =>
          have hp' := h' p' List.mem_cons_self
          cases p' with
          | byte c => exact absurd (List.cons.inj heq).1.symm hp'.1
          | escaped c => exact absurd (List.cons.inj heq).1 hback
  | cons p ps ih =>
      intro ps' t t' h h' heq
      have hp := h p List.mem_cons_self
      cases ps' with
      | nil =>
          cases p with
          | byte c => exact absurd (List.cons.inj heq).1 hp.1
          | escaped c => exact absurd (List.cons.inj heq).1.symm hback
      | cons p' ps' =>
          have hp' := h' p' List.mem_cons_self
          have htail := @ih ps' t t' (fun x hx => h x (List.mem_cons_of_mem _ hx))
            (fun x hx => h' x (List.mem_cons_of_mem _ hx))
          cases p with
          | byte c =>
              cases p' with
              | byte c' =>
                  obtain ⟨rfl, hrest⟩ := List.cons.inj heq
                  obtain ⟨rfl, rfl⟩ := htail hrest
                  exact ⟨rfl, rfl⟩
              | escaped c' => exact absurd (List.cons.inj heq).1 hp.2.1
          | escaped c =>
              cases p' with
              | byte c' => exact absurd (List.cons.inj heq).1.symm hp'.2.1
              | escaped c' =>
                  obtain ⟨rfl, hrest⟩ := List.cons.inj (List.cons.inj heq).2
                  obtain ⟨rfl, rfl⟩ := htail hrest
                  exact ⟨rfl, rfl⟩

theorem Literal.unique {l l' : Literal} {t t' : Text} (h : l.WellFormed) (h' : l'.WellFormed)
    (heq : l.text ++ t = l'.text ++ t') : l = l' ∧ t = t' := by
  obtain ⟨q, ps⟩ := l
  obtain ⟨q', ps'⟩ := l'
  simp only [Literal.text, List.cons_append, List.append_assoc, List.nil_append] at heq
  obtain ⟨rfl, hrest⟩ := List.cons.inj heq
  obtain ⟨rfl, rfl⟩ := literalParts_unique h.1 h.2 h'.2 hrest
  exact ⟨rfl, rfl⟩

/-! ## Interpolations -/

namespace Token

theorem InterpolationEnd.shift_shift (m n : Nat) (e : InterpolationEnd) :
    (e.shift n).shift m = e.shift (m + n) := by
  cases e with
  | closed length => simp [InterpolationEnd.shift, Nat.add_assoc]
  | openLiteral offset => simp [InterpolationEnd.shift, Nat.add_assoc]
  | missing => rfl

@[simp] theorem InterpolationEnd.shift_zero (e : InterpolationEnd) : e.shift 0 = e := by
  cases e with
  | closed length => simp [InterpolationEnd.shift]
  | openLiteral offset => simp [InterpolationEnd.shift]
  | missing => rfl

/-- Whether an interpolation is closed does not depend on the place it is seen from. -/
theorem InterpolationEnd.shift_eq_closed {m n : Nat} {e : InterpolationEnd} :
    e.shift m = .closed n ↔ ∃ k, e = .closed k ∧ n = m + k := by
  cases e with
  | closed length =>
      simp only [InterpolationEnd.shift, InterpolationEnd.closed.injEq, exists_eq_left']
      exact eq_comm
  | openLiteral offset => simp [InterpolationEnd.shift]
  | missing => simp [InterpolationEnd.shift]

theorem interpolationEnd_literal {l : Literal} (h : l.WellFormed) (depth : Nat) (t : Text) :
    interpolationEnd depth (l.text ++ t) = (interpolationEnd depth t).shift l.text.length := by
  have hlen := literalLength?_append h.1 h.2 t
  rw [Literal.text, List.cons_append, interpolationEnd, if_pos h.1, List.append_assoc,
    List.singleton_append, hlen]
  simp only [List.length_cons, List.length_append, List.length_nil]
  rw [show l.parts.flatMap LiteralPart.text ++ l.quote :: t
      = (l.parts.flatMap LiteralPart.text ++ [l.quote]) ++ t by simp,
    List.drop_left' (by simp)]

theorem interpolationEnd_byte {c : UInt8} (hq : Ascii.isQuote c = false) (hl : c ≠ Ascii.lbrace)
    (hr : c ≠ Ascii.rbrace) (depth : Nat) (t : Text) :
    interpolationEnd depth (c :: t) = (interpolationEnd depth t).shift 1 := by
  rw [interpolationEnd, if_neg (by simp [hq]), if_neg hl, if_neg hr]

theorem interpolationEnd_lbrace (depth : Nat) (t : Text) :
    interpolationEnd depth (Ascii.lbrace :: t) = (interpolationEnd (depth + 1) t).shift 1 := by
  rw [interpolationEnd, if_neg (by decide), if_pos rfl]

theorem interpolationEnd_rbrace (depth : Nat) (t : Text) :
    interpolationEnd (depth + 2) (Ascii.rbrace :: t)
      = (interpolationEnd (depth + 1) t).shift 1 := by
  rw [interpolationEnd, if_neg (by decide), if_neg (by decide), if_pos rfl, if_neg (by omega)]
  rfl

theorem interpolationEnd_last (t : Text) :
    interpolationEnd 1 (Ascii.rbrace :: t) = .closed 1 := by
  rw [interpolationEnd, if_neg (by decide), if_neg (by decide), if_pos rfl, if_pos rfl]

/-- The scanner of interpolations passes over balanced text. -/
theorem interpolationEnd_append {i : Interpolation} (h : i.WellFormed) :
    ∀ (depth : Nat) (t : Text), interpolationEnd (depth + 1) (i.text ++ t)
      = (interpolationEnd (depth + 1) t).shift i.text.length := by
  induction i with
  | done =>
      intro depth t
      simp [Interpolation.text]
  | byte c rest ih =>
      intro depth t
      obtain ⟨⟨hq, hl, hr⟩, hrest⟩ := h
      rw [Interpolation.text, List.cons_append, interpolationEnd_byte hq hl hr, ih hrest,
        InterpolationEnd.shift_shift, List.length_cons, Nat.add_comm]
  | literal l rest ih =>
      intro depth t
      rw [Interpolation.text, List.append_assoc, interpolationEnd_literal h.1, ih h.2,
        InterpolationEnd.shift_shift, List.length_append]
  | braces inner rest ihi ihr =>
      intro depth t
      rw [Interpolation.text, List.cons_append, List.append_assoc, List.cons_append,
        interpolationEnd_lbrace, ihi h.1, interpolationEnd_rbrace, ihr h.2]
      simp only [InterpolationEnd.shift_shift, List.length_cons, List.length_append]
      congr 1
      omega

/-- Where the scanner closes an interpolation there is balanced text up to a closing brace; if
more braces were open, the scanner closes the others behind it. -/
theorem exists_interpolation_of_closed {depth n : Nat} {t : Text}
    (h : interpolationEnd (depth + 1) t = .closed n) :
    ∃ (i : Interpolation) (after : Text), i.WellFormed ∧ t = i.text ++ Ascii.rbrace :: after ∧
      (0 < depth → ∃ k, interpolationEnd depth after = .closed k) := by
  induction hm : t.length using Nat.strong_induction_on generalizing t n depth with
  | _ m ih =>
      cases t with
      | nil =>
          rw [interpolationEnd] at h
          cases h
      | cons c t =>
          rw [List.length_cons] at hm
          -- one case for each form of balanced text, in the order of the scanner
          by_cases hq : Ascii.isQuote c = true
          · cases hl : literalLength? c t with
            | none =>
                rw [interpolationEnd, if_pos hq, hl] at h
                cases h
            | some k =>
                obtain ⟨parts, after₁, rfl, -, hparts⟩ := exists_parts_of_literalLength? hl
                have hwf : Literal.WellFormed ⟨c, parts⟩ := ⟨hq, hparts⟩
                have htext : c :: (parts.flatMap LiteralPart.text ++ c :: after₁)
                    = Literal.text ⟨c, parts⟩ ++ after₁ := by simp [Literal.text]
                rw [htext, interpolationEnd_literal hwf,
                  InterpolationEnd.shift_eq_closed] at h
                obtain ⟨j, hj, -⟩ := h
                obtain ⟨i, after, hi, rfl, hopen⟩ := ih after₁.length
                  (by simp only [List.length_append, List.length_cons] at hm; omega) hj rfl
                exact ⟨.literal ⟨c, parts⟩ i, after, ⟨hwf, hi⟩,
                  by rw [htext, Interpolation.text, List.append_assoc], hopen⟩
          · by_cases hlb : c = Ascii.lbrace
            · -- the inner text ends at the brace that closes it, and the rest starts behind
              subst hlb
              rw [interpolationEnd_lbrace, InterpolationEnd.shift_eq_closed] at h
              obtain ⟨j, hj, -⟩ := h
              obtain ⟨inner, after₁, hinner, rfl, hopen₁⟩ := ih t.length (by omega) hj rfl
              obtain ⟨k, hk⟩ := hopen₁ (Nat.succ_pos depth)
              obtain ⟨i, after, hi, rfl, hopen⟩ := ih after₁.length
                (by simp only [List.length_append, List.length_cons] at hm; omega) hk rfl
              exact ⟨.braces inner i, after, ⟨hinner, hi⟩,
                by simp [Interpolation.text], hopen⟩
            · by_cases hrb : c = Ascii.rbrace
              · subst hrb
                refine ⟨.done, t, trivial, rfl, ?_⟩
                intro hpos
                obtain ⟨d, rfl⟩ : ∃ d, depth = d + 1 := ⟨depth - 1, by omega⟩
                rw [interpolationEnd_rbrace, InterpolationEnd.shift_eq_closed] at h
                obtain ⟨k, hk, -⟩ := h
                exact ⟨k, hk⟩
              · have hq' : Ascii.isQuote c = false := by simpa using hq
                rw [interpolationEnd_byte hq' hlb hrb, InterpolationEnd.shift_eq_closed] at h
                obtain ⟨j, hj, -⟩ := h
                obtain ⟨i, after, hi, rfl, hopen⟩ := ih t.length (by omega) hj rfl
                exact ⟨.byte c i, after, ⟨⟨hq', hlb, hrb⟩, hi⟩, rfl, hopen⟩

/-- The scanner finds the end of an interpolation, seen from just behind its `#`. -/
theorem interpolationEnd_zero {i : Interpolation} (h : i.WellFormed) (after : Text) :
    interpolationEnd 0 (Ascii.lbrace :: (i.text ++ Ascii.rbrace :: after))
      = .closed (i.text.length + 2) := by
  rw [interpolationEnd_lbrace, interpolationEnd_append h 0, interpolationEnd_last]
  simp only [InterpolationEnd.shift]
  congr 1
  omega

end Token

/-- The forms of balanced text. -/
inductive InterpolationForm where
  | done
  | byte
  | literal
  | braces

/-- The form of balanced text. -/
def Interpolation.form : Interpolation → InterpolationForm
  | .done => .done
  | .byte .. => .byte
  | .literal .. => .literal
  | .braces .. => .braces

/-- The form that a first byte belongs to. -/
def InterpolationForm.ofByte (c : UInt8) : InterpolationForm :=
  if Ascii.isQuote c then .literal
  else if c = Ascii.lbrace then .braces
  else if c = Ascii.rbrace then .done
  else .byte

/-- The first byte of balanced text, or the brace behind it, tells its form. -/
theorem Interpolation.ofByte_head {i : Interpolation} (h : i.WellFormed) (t : Text) :
    (i.text ++ Ascii.rbrace :: t).head?.map InterpolationForm.ofByte = some i.form := by
  cases i with
  | done => rfl
  | byte c rest =>
      obtain ⟨hq, hl, hr⟩ := h.1
      simp [Interpolation.text, Interpolation.form, InterpolationForm.ofByte, hq, hl, hr]
  | literal l rest =>
      simp [Interpolation.text, Literal.text, Interpolation.form, InterpolationForm.ofByte, h.1.1]
  | braces inner rest => rfl

/-- Balanced text up to a closing brace is determined by the text. -/
theorem Interpolation.unique {i : Interpolation} :
    ∀ {i' : Interpolation} {t t' : Text}, i.WellFormed → i'.WellFormed →
      i.text ++ Ascii.rbrace :: t = i'.text ++ Ascii.rbrace :: t' → i = i' ∧ t = t' := by
  have hforms : ∀ {i i' : Interpolation} {t t' : Text}, i.WellFormed → i'.WellFormed →
      i.text ++ Ascii.rbrace :: t = i'.text ++ Ascii.rbrace :: t' → i.form = i'.form := by
    intro i i' t t' h h' heq
    have hi := Interpolation.ofByte_head h t
    rw [heq, Interpolation.ofByte_head h' t'] at hi
    exact (Option.some.inj hi).symm
  induction i with
  | done =>
      intro i' t t' h h' heq
      have hform := hforms h h' heq
      cases i' <;> cases hform
      exact ⟨rfl, (List.cons.inj heq).2⟩
  | byte c rest ih =>
      intro i' t t' h h' heq
      have hform := hforms h h' heq
      cases i' <;> cases hform
      next c' rest' =>
        obtain ⟨rfl, hrest⟩ := List.cons.inj heq
        obtain ⟨rfl, rfl⟩ := ih h.2 h'.2 hrest
        exact ⟨rfl, rfl⟩
  | literal l rest ih =>
      intro i' t t' h h' heq
      have hform := hforms h h' heq
      cases i' <;> cases hform
      next l' rest' =>
        simp only [Interpolation.text, List.append_assoc] at heq
        obtain ⟨rfl, hrest⟩ := Literal.unique h.1 h'.1 heq
        obtain ⟨rfl, rfl⟩ := ih h.2 h'.2 hrest
        exact ⟨rfl, rfl⟩
  | braces inner rest ihi ihr =>
      intro i' t t' h h' heq
      have hform := hforms h h' heq
      cases i' <;> cases hform
      next inner' rest' =>
        simp only [Interpolation.text, List.cons_append, List.append_assoc] at heq
        obtain ⟨rfl, hinner⟩ := ihi h.1 h'.1 (List.cons.inj heq).2
        obtain ⟨rfl, rfl⟩ := ihr h.2 h'.2 hinner
        exact ⟨rfl, rfl⟩

/-! ## Comments -/

/-- The search for `*/` ends right behind the text of a comment. -/
theorem indexOf?_of_isCommentText {t : Text} (h : IsCommentText t) (after : Text) :
    Text.indexOf? [Ascii.star, Ascii.slash] (t ++ ([Ascii.star, Ascii.slash] ++ after))
      = some t.length := by
  apply Text.indexOf?_append (by simp)
  intro j hj hpre
  -- an earlier end of the comment would lie in the text and the star behind it
  have hstar : (t ++ [Ascii.star]).drop j
      <+: (t ++ ([Ascii.star, Ascii.slash] ++ after)).drop j := by
    rw [List.drop_append_of_le_length (by omega), List.drop_append_of_le_length (by omega)]
    exact ⟨Ascii.slash :: after, by simp⟩
  have hshort : [Ascii.star, Ascii.slash] <+: (t ++ [Ascii.star]).drop j := by
    refine List.prefix_of_prefix_length_le hpre hstar ?_
    simp only [List.length_cons, List.length_nil, List.length_drop, List.length_append]
    omega
  exact h (hshort.isInfix.trans (List.drop_suffix j _).isInfix)

theorem exists_isCommentText_of_indexOf? {t : Text} {n : Nat}
    (h : Text.indexOf? [Ascii.star, Ascii.slash] t = some n) :
    ∃ u after, t = u ++ ([Ascii.star, Ascii.slash] ++ after) ∧ u.length = n ∧
      IsCommentText u := by
  obtain ⟨u, after, rfl, rfl, hfirst⟩ := Text.indexOf?_eq_some h
  refine ⟨u, after, rfl, rfl, ?_⟩
  rintro ⟨v, w, hvw⟩
  have hlen := congrArg List.length hvw
  simp only [List.length_append, List.length_cons, List.length_nil] at hlen
  refine hfirst v.length (by omega) ⟨w ++ Ascii.slash :: after, ?_⟩
  have hall : u ++ ([Ascii.star, Ascii.slash] ++ after)
      = v ++ ([Ascii.star, Ascii.slash] ++ (w ++ Ascii.slash :: after)) := by
    calc u ++ ([Ascii.star, Ascii.slash] ++ after)
        = (u ++ [Ascii.star]) ++ Ascii.slash :: after := by simp
      _ = v ++ ([Ascii.star, Ascii.slash] ++ (w ++ Ascii.slash :: after)) := by
          rw [← hvw]; simp
  rw [hall, List.drop_left]

/-- A line comment takes what follows `//` on its line. -/
theorem lineLength_of_isRestOfLine {t after : Text} (h : IsRestOfLine t after) :
    Token.lineLength (Ascii.slash :: (t ++ after)) = t.length + 1 := by
  rcases h with ⟨u, rfl, hu⟩ | ⟨ht, rfl⟩
  · have hindex : Text.byteIndex? Ascii.lf (Ascii.slash :: (u ++ [Ascii.lf] ++ after))
        = some (u.length + 1) := by
      have hu' : Ascii.lf ∉ Ascii.slash :: u := by
        rw [List.mem_cons, not_or]
        exact ⟨by decide, hu⟩
      have := Text.byteIndex?_append hu' after
      simpa using this
    rw [Token.lineLength, hindex]
    simp
  · have hindex : Text.byteIndex? Ascii.lf (Ascii.slash :: (t ++ [])) = none := by
      rw [Text.byteIndex?_eq_none_iff, List.append_nil, List.mem_cons, not_or]
      exact ⟨by decide, ht⟩
    rw [Token.lineLength, hindex]
    simp

/-- What a line comment takes is the rest of its line. -/
theorem exists_isRestOfLine (t : Text) :
    ∃ u after, t = u ++ after ∧ IsRestOfLine u after := by
  cases h : Text.byteIndex? Ascii.lf t with
  | none => exact ⟨t, [], by simp, Or.inr ⟨Text.byteIndex?_eq_none_iff.mp h, rfl⟩⟩
  | some i =>
      obtain ⟨u, after, rfl, hu, -⟩ := Text.byteIndex?_eq_some h
      exact ⟨u ++ [Ascii.lf], after, by simp, Or.inl ⟨u, rfl, hu⟩⟩

/-! ## One unit -/

namespace PreludePart

/-- The kind of token that a unit is. -/
def kind : PreludePart → TokenKind
  | .literal _ => .literal
  | .interpolation _ => .interpolation
  | .blockComment _ => .blockComment
  | .lineComment _ => .lineComment
  | .opening _ => .opening
  | .closing _ => .closing
  | .byte c => if Ascii.isSpace c then .space else .plain

theorem depthAfter_kind (p : PreludePart) (depth : Nat) :
    Token.depthAfter depth p.kind = p.depthAfter depth := by
  cases p with
  | byte c =>
      by_cases hc : Ascii.isSpace c = true
      · simp [kind, hc, Token.depthAfter, depthAfter]
      · simp [kind, hc, Token.depthAfter, depthAfter]
  | _ => rfl

theorem text_ne_nil (p : PreludePart) : p.text ≠ [] := by
  cases p <;> simp [text, Literal.text]

end PreludePart

namespace Token

theorem next_quote {q : UInt8} (hq : Ascii.isQuote q = true) (depth : Nat) (rest : Text) :
    next depth q rest = match literalLength? q rest with
      | some n => .ok ⟨.literal, n⟩
      | none => .error ⟨0, .unterminatedString⟩ := by
  refine (if_pos hq).trans ?_
  rfl

theorem next_interpolation (depth : Nat) (rest : Text) :
    next depth Ascii.hash (Ascii.lbrace :: rest)
      = match interpolationEnd 0 (Ascii.lbrace :: rest) with
        | .closed n => .ok ⟨.interpolation, n⟩
        | .openLiteral i => .error ⟨i + 1, .unterminatedString⟩
        | .missing => .error ⟨0, .unterminatedInterpolation⟩ := by
  have hquote : ¬ Ascii.isQuote Ascii.hash = true := by decide
  refine (if_neg hquote).trans ((if_pos ⟨rfl, rfl⟩).trans ?_)
  rfl

theorem next_blockComment (depth : Nat) (rest : Text) :
    next depth Ascii.slash (Ascii.star :: rest)
      = match Text.indexOf? [Ascii.star, Ascii.slash] rest with
        | some i => .ok ⟨.blockComment, i + 3⟩
        | none => .error ⟨0, .unterminatedComment⟩ := by
  rw [next, if_neg (by decide), if_neg (by simp +decide), if_pos ⟨rfl, rfl⟩]
  rfl

theorem next_lineComment (rest : Text) :
    next 0 Ascii.slash (Ascii.slash :: rest)
      = .ok ⟨.lineComment, lineLength (Ascii.slash :: rest)⟩ := by
  rw [next, if_neg (by decide), if_neg (by simp +decide), if_neg (by simp +decide),
    if_pos ⟨rfl, rfl, rfl⟩]

theorem next_opening {c : UInt8} (hc : c = Ascii.lparen ∨ c = Ascii.lbracket) (depth : Nat)
    (rest : Text) : next depth c rest = .ok ⟨.opening, 0⟩ := by
  rcases hc with rfl | rfl
  · simp +decide [next]
  · simp +decide [next]

theorem next_closing {c : UInt8} (hc : c = Ascii.rparen ∨ c = Ascii.rbracket) (depth : Nat)
    (rest : Text) :
    next depth c rest = if depth = 0 then .error ⟨0, .unexpected c⟩ else .ok ⟨.closing, 0⟩ := by
  rcases hc with rfl | rfl
  · simp +decide [next]
  · simp +decide [next]

theorem next_semicolon (rest : Text) :
    next 0 Ascii.semicolon rest = .ok ⟨.semicolon, 0⟩ := by
  simp +decide [next]

theorem next_lbrace (rest : Text) : next 0 Ascii.lbrace rest = .ok ⟨.blockOpen, 0⟩ := by
  simp +decide [next]

theorem next_rbrace (rest : Text) : next 0 Ascii.rbrace rest = .ok ⟨.blockClose, 0⟩ := by
  simp +decide [next]

theorem next_plain {depth : Nat} {c : UInt8} {rest : Text}
    (h : PreludePart.IsPlain depth rest c) :
    next depth c rest = .ok ⟨(PreludePart.byte c).kind, 0⟩ := by
  obtain ⟨h1, h2, h3, h4⟩ := h.not_bracket
  have hmark : ∀ d : UInt8, d = Ascii.semicolon ∨ d = Ascii.lbrace ∨ d = Ascii.rbrace →
      ¬ (c = d ∧ depth = 0) := by
    rintro d hd ⟨rfl, hdepth⟩
    obtain ⟨hs, hl, hr⟩ := h.not_mark hdepth
    rcases hd with hd | hd | hd
    · exact hs hd
    · exact hl hd
    · exact hr hd
  rw [next, if_neg (by simp [h.not_quote]), if_neg h.not_interpolation,
    if_neg h.not_blockComment, if_neg h.not_lineComment, if_neg (by simp [h1, h2]),
    if_neg (by simp [h3, h4]), if_neg (hmark _ (Or.inl rfl)),
    if_neg (hmark _ (Or.inr (Or.inl rfl))), if_neg (hmark _ (Or.inr (Or.inr rfl)))]
  by_cases hc : Ascii.isSpace c = true
  · simp [PreludePart.kind, hc]
  · simp [PreludePart.kind, hc]

end Token

/-- **What a unit spells is cut off as one token.** -/
theorem next_eq_ok_of_wellFormed {p : PreludePart} {depth : Nat} {after : Text} {c : UInt8}
    {rest : Text} (h : p.WellFormed depth after) (hp : p.text ++ after = c :: rest) :
    Token.next depth c rest = .ok ⟨p.kind, p.text.length - 1⟩ := by
  cases p with
  | literal l =>
      simp only [PreludePart.text, Literal.text, List.cons_append, List.append_assoc,
        List.nil_append] at hp
      obtain ⟨rfl, rfl⟩ := List.cons.inj hp
      rw [Token.next_quote h.1, Token.literalLength?_append h.1 h.2 after]
      simp [PreludePart.kind, PreludePart.text, Literal.text]
  | interpolation i =>
      simp only [PreludePart.text, List.cons_append, List.append_assoc, List.nil_append] at hp
      obtain ⟨rfl, rfl⟩ := List.cons.inj hp
      rw [Token.next_interpolation, Token.interpolationEnd_zero h after]
      simp [PreludePart.kind, PreludePart.text]
  | blockComment t =>
      simp only [PreludePart.text, List.cons_append, List.append_assoc] at hp
      obtain ⟨rfl, rfl⟩ := List.cons.inj hp
      rw [Token.next_blockComment]
      have hend := indexOf?_of_isCommentText h after
      simp only [List.cons_append] at hend
      rw [hend]
      simp [PreludePart.kind, PreludePart.text]
  | lineComment t =>
      simp only [PreludePart.text, List.cons_append] at hp
      obtain ⟨rfl, rfl⟩ := List.cons.inj hp
      obtain ⟨rfl, hline⟩ := h
      rw [Token.next_lineComment, lineLength_of_isRestOfLine hline]
      simp [PreludePart.kind, PreludePart.text]
  | opening b =>
      obtain ⟨rfl, rfl⟩ := List.cons.inj hp
      exact Token.next_opening h depth _
  | closing b =>
      obtain ⟨rfl, rfl⟩ := List.cons.inj hp
      rw [Token.next_closing h.1, if_neg (Nat.ne_of_gt h.2)]
      rfl
  | byte b =>
      obtain ⟨rfl, rfl⟩ := List.cons.inj hp
      exact Token.next_plain h

/-- The marks that bound statements. -/
def IsMark (c : UInt8) : Prop := c = Ascii.semicolon ∨ c = Ascii.lbrace ∨ c = Ascii.rbrace

/-- **Where a token can be cut off, a unit is spelt**, unless a mark outside brackets stands
there. -/
theorem exists_part_of_next_eq_ok {depth : Nat} {c : UInt8} {rest : Text} {l : Token.Lexeme}
    (h : Token.next depth c rest = .ok l) :
    (depth = 0 ∧ IsMark c) ∨
      ∃ (p : PreludePart) (after : Text), p.WellFormed depth after ∧
        p.text ++ after = c :: rest := by
  by_cases hq : Ascii.isQuote c = true
  · rw [Token.next_quote hq] at h
    cases hl : Token.literalLength? c rest with
    | none =>
        rw [hl] at h
        cases h
    | some n =>
        obtain ⟨parts, after, rfl, -, hparts⟩ := Token.exists_parts_of_literalLength? hl
        exact Or.inr ⟨.literal ⟨c, parts⟩, after, ⟨hq, hparts⟩,
          by simp [PreludePart.text, Literal.text]⟩
  by_cases hi : c = Ascii.hash ∧ rest.head? = some Ascii.lbrace
  · obtain ⟨rfl, hhead⟩ := hi
    obtain ⟨u, rfl⟩ := eq_cons_of_head? hhead
    rw [Token.next_interpolation] at h
    cases he : Token.interpolationEnd 0 (Ascii.lbrace :: u) with
    | closed n =>
        rw [Token.interpolationEnd_lbrace, Token.InterpolationEnd.shift_eq_closed] at he
        obtain ⟨k, hk, -⟩ := he
        obtain ⟨i, after, hwf, rfl, -⟩ := Token.exists_interpolation_of_closed hk
        exact Or.inr ⟨.interpolation i, after, hwf, by simp [PreludePart.text]⟩
    | openLiteral i =>
        rw [he] at h
        cases h
    | missing =>
        rw [he] at h
        cases h
  by_cases hb : c = Ascii.slash ∧ rest.head? = some Ascii.star
  · obtain ⟨rfl, hhead⟩ := hb
    obtain ⟨u, rfl⟩ := eq_cons_of_head? hhead
    rw [Token.next_blockComment] at h
    cases hx : Text.indexOf? [Ascii.star, Ascii.slash] u with
    | none =>
        rw [hx] at h
        cases h
    | some n =>
        obtain ⟨t, after, rfl, -, ht⟩ := exists_isCommentText_of_indexOf? hx
        exact Or.inr ⟨.blockComment t, after, ht, by simp [PreludePart.text]⟩
  by_cases hline : c = Ascii.slash ∧ rest.head? = some Ascii.slash ∧ depth = 0
  · obtain ⟨rfl, hhead, rfl⟩ := hline
    obtain ⟨u, rfl⟩ := eq_cons_of_head? hhead
    obtain ⟨t, after, rfl, ht⟩ := exists_isRestOfLine u
    exact Or.inr ⟨.lineComment t, after, ⟨rfl, ht⟩, by simp [PreludePart.text]⟩
  by_cases hopen : c = Ascii.lparen ∨ c = Ascii.lbracket
  · exact Or.inr ⟨.opening c, rest, hopen, rfl⟩
  by_cases hclose : c = Ascii.rparen ∨ c = Ascii.rbracket
  · rw [Token.next_closing hclose] at h
    by_cases hd : depth = 0
    · rw [if_pos hd] at h
      cases h
    · exact Or.inr ⟨.closing c, rest, ⟨hclose, Nat.pos_of_ne_zero hd⟩, rfl⟩
  by_cases hmark : depth = 0 ∧ IsMark c
  · exact Or.inl hmark
  · refine Or.inr ⟨.byte c, rest, ⟨by simpa using hq, ?_, hi, hb, hline, ?_⟩, rfl⟩
    · rw [not_or] at hopen hclose
      exact ⟨hopen.1, hopen.2, hclose.1, hclose.2⟩
    · intro hd
      have hnot : ¬ IsMark c := fun hm => hmark ⟨hd, hm⟩
      simpa only [IsMark, not_or] using hnot

/-! ## Tokens -/

/-- A unit in front of a text is its first token. -/
theorem tokenize_part {p : PreludePart} {depth : Nat} {after : Text}
    (h : p.WellFormed depth after) :
    tokenize depth (p.text ++ after)
      = ⟨⟨p.kind, p.text⟩ :: (tokenize (p.depthAfter depth) after).tokens,
          (tokenize (p.depthAfter depth) after).ending⟩ := by
  obtain ⟨c, u, hu⟩ := List.exists_cons_of_ne_nil p.text_ne_nil
  have hcons : p.text ++ after = c :: (u ++ after) := by
    rw [hu]
    rfl
  have hlen : p.text.length - 1 = u.length := by
    rw [hu]
    rfl
  have hnext := next_eq_ok_of_wellFormed h hcons
  rw [hlen] at hnext
  rw [hcons, tokenize, hnext]
  simp only [List.drop_left, List.take_left, ← hu, p.depthAfter_kind]

namespace PreludePart

/-- The kind of a unit, with white space counted as a plain byte. It tells the constructors
apart, which `kind` does not. -/
def sort : PreludePart → TokenKind
  | .byte _ => .plain
  | p => p.kind

theorem sort_eq_of_kind_eq {p p' : PreludePart} (h : p.kind = p'.kind) : p.sort = p'.sort := by
  have hsort : ∀ q : PreludePart, q.sort = if q.kind = .space then .plain else q.kind := by
    intro q
    cases q with
    | byte c =>
        by_cases hc : Ascii.isSpace c = true
        · simp [sort, kind, hc]
        · simp [sort, kind, hc]
    | _ => rfl
  rw [hsort, hsort, h]

/-- Kind and spelling determine a unit. -/
theorem eq_of_kind_text {p p' : PreludePart} {depth : Nat} {after after' : Text}
    (h : p.WellFormed depth after) (h' : p'.WellFormed depth after')
    (hkind : p.kind = p'.kind) (htext : p.text = p'.text) : p = p' := by
  have hsort := sort_eq_of_kind_eq hkind
  cases p with
  | literal l =>
      cases p' with
      | literal l' =>
          have hl : l.text ++ [] = l'.text ++ [] := by
            rw [List.append_nil, List.append_nil]
            exact htext
          rw [(Literal.unique h h' hl).1]
      | _ => cases hsort
  | interpolation i =>
      cases p' with
      | interpolation i' =>
          rw [(Interpolation.unique h h' (List.cons.inj (List.cons.inj htext).2).2).1]
      | _ => cases hsort
  | blockComment t =>
      cases p' with
      | blockComment t' =>
          rw [List.append_cancel_right (List.cons.inj (List.cons.inj htext).2).2]
      | _ => cases hsort
  | lineComment t =>
      cases p' with
      | lineComment t' => rw [(List.cons.inj (List.cons.inj htext).2).2]
      | _ => cases hsort
  | opening c =>
      cases p' with
      | opening c' => rw [(List.cons.inj htext).1]
      | _ => cases hsort
  | closing c =>
      cases p' with
      | closing c' => rw [(List.cons.inj htext).1]
      | _ => cases hsort
  | byte c =>
      cases p' with
      | byte c' => rw [(List.cons.inj htext).1]
      | _ => cases hsort

end PreludePart

/-- The unit at the front of a text is determined by the text. -/
theorem PreludePart.unique {p p' : PreludePart} {depth : Nat} {after after' : Text}
    (h : p.WellFormed depth after) (h' : p'.WellFormed depth after')
    (heq : p.text ++ after = p'.text ++ after') : p = p' ∧ after = after' := by
  -- both units are the first token of the same text
  have htokens := tokenize_part h
  rw [heq, tokenize_part h'] at htokens
  obtain ⟨htoken, -⟩ := List.cons.inj (Lexing.mk.inj htokens).1
  obtain ⟨hkind, htext⟩ := Token.mk.inj htoken
  rw [htext] at heq
  exact ⟨PreludePart.eq_of_kind_text h h' hkind.symm htext.symm, List.append_cancel_left heq⟩

end StyleIndex
