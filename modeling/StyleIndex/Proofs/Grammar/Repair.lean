import Mathlib
import StyleIndex.Proofs.Grammar.Acceptance
import StyleIndex.Proofs.Grammar.Nesting

set_option autoImplicit false

/-! # Closing what a text leaves open

The text before the cursor is a beginning of a stylesheet. `parse_closeOpen` says that closing what
it leaves open makes it a stylesheet again, provided the scan for open constructs keeps track in it
(`Nested`). Without that proviso the parser can refuse the closed text, in three ways that
`parse_closeOpen_strayed` shows: behind a lone backslash in a literal, after brackets of two kinds
that close each other, and behind `/*` in an interpolation.

The stack of the scan is related to the brackets and blocks that the parser has open (`Stacked`).
The closers of a stack take the parser to the end (`run_closers`), and the relation is kept by
every unit that lies in front of the cursor; the unit that the cursor is in is completed by the
first closers.
-/

namespace StyleIndex

open OpenConstructs (closerOf_bracket)

/-! ## The stack of the scan -/

/-- A stack of openers that stands for `depth` open brackets in a statement inside `blocks` open
blocks. A brace inside brackets opens no block. -/
inductive Stacked : (openers : List UInt8) → (depth blocks : Nat) → Prop
  | nil : Stacked [] 0 0
  | block {σ : List UInt8} {n : Nat} : Stacked σ 0 n → Stacked (Ascii.lbrace :: σ) 0 (n + 1)
  | bracket {o : UInt8} {σ : List UInt8} {d n : Nat} : o = Ascii.lparen ∨ o = Ascii.lbracket →
      Stacked σ d n → Stacked (o :: σ) (d + 1) n
  | brace {σ : List UInt8} {d n : Nat} : Stacked σ (d + 1) n →
      Stacked (Ascii.lbrace :: σ) (d + 1) n

namespace Stacked

variable {σ : List UInt8} {d n : Nat}

/-- No interpolation is open. -/
theorem hash_notMem (h : Stacked σ d n) : Ascii.hash ∉ σ := by
  induction h with
  | nil => simp
  | block _ ih => simpa +decide using ih
  | bracket ho _ ih => rcases ho with rfl | rfl <;> simpa +decide using ih
  | brace _ ih => simpa +decide using ih

/-- Outside brackets only blocks are open. -/
theorem eq_lbrace (h : Stacked σ 0 n) : ∀ o ∈ σ, o = Ascii.lbrace := by
  generalize hd : 0 = d at h
  induction h with
  | nil => simp
  | block _ ih => simpa using ih hd
  | bracket _ _ _ => cases hd
  | brace _ _ => cases hd

/-- Inside brackets a bracket is open. -/
theorem exists_ne_lbrace (h : Stacked σ (d + 1) n) : ∃ o ∈ σ, o ≠ Ascii.lbrace := by
  generalize hd : d + 1 = d' at h
  induction h with
  | nil => cases hd
  | block _ _ => cases hd
  | bracket ho _ _ =>
      refine ⟨_, List.mem_cons_self, ?_⟩
      rcases ho with rfl | rfl
      · decide
      · decide
  | brace _ ih =>
      obtain ⟨o, ho, hne⟩ := ih hd
      exact ⟨o, List.mem_cons_of_mem _ ho, hne⟩

/-- A closing bracket that fits takes a bracket from the stack. -/
theorem tail_of_bracket {o c : UInt8} (h : Stacked (o :: σ) d n) (ho : closerOf o = c)
    (hc : c = Ascii.rparen ∨ c = Ascii.rbracket) : Stacked σ (d - 1) n := by
  have hbrace : closerOf Ascii.lbrace ≠ c := by rcases hc with rfl | rfl <;> decide
  cases h with
  | block _ => exact absurd ho hbrace
  | bracket _ h => exact h
  | brace _ => exact absurd ho hbrace

/-- A closing brace that fits inside brackets takes a brace from the stack. -/
theorem tail_of_brace {o : UInt8} (h : Stacked (o :: σ) d n) (hd : 0 < d)
    (ho : closerOf o = Ascii.rbrace) : Stacked σ d n := by
  cases h with
  | block _ => cases hd
  | bracket hb _ =>
      rcases closerOf_bracket hb with h | h
      · exact absurd (h.symm.trans ho) (by decide)
      · exact absurd (h.symm.trans ho) (by decide)
  | brace h => exact h

/-- The first closer begins neither a comment nor an interpolation. -/
theorem head?_closers (h : Stacked σ d n) {c : UInt8} (hc : (σ.map closerOf).head? = some c) :
    c ≠ Ascii.lbrace ∧ c ≠ Ascii.star ∧ c ≠ Ascii.slash := by
  cases h with
  | nil => cases hc
  | block _ =>
      obtain rfl := Option.some.inj hc
      decide
  | bracket ho _ =>
      obtain rfl := Option.some.inj hc
      rcases ho with rfl | rfl
      · decide
      · decide
  | brace _ =>
      obtain rfl := Option.some.inj hc
      decide

/-- In front of closers a byte is plain if it is no quote, bracket or mark. -/
theorem isPlain_closers (h : Stacked σ d n) {after : Text} {c : UInt8}
    (hc : PreludePart.IsPlain d after c) : PreludePart.IsPlain d (σ.map closerOf) c where
  not_quote := hc.not_quote
  not_bracket := hc.not_bracket
  not_interpolation := fun ⟨_, hhead⟩ => (h.head?_closers hhead).1 rfl
  not_blockComment := fun ⟨_, hhead⟩ => (h.head?_closers hhead).2.1 rfl
  not_lineComment := fun ⟨_, hhead, _⟩ => (h.head?_closers hhead).2.2 rfl
  not_mark := hc.not_mark

end Stacked

/-! ## Running over closers -/

namespace ParseState

/-- A unit leaves the open blocks as they are. -/
theorem exists_step_part (s : ParseState) (p : PreludePart) :
    ∃ s', s.step ⟨p.kind, p.text⟩ = .ok s' ∧ s'.blocks = s.blocks := by
  obtain ⟨o, _ | st, done, blocks⟩ := s
  · cases htrivia : isTrivia p.kind with
    | true => exact ⟨_, step_trivia htrivia p.text o done blocks, rfl⟩
    | false => exact ⟨_, step_part_none htrivia o done blocks, rfl⟩
  · exact ⟨_, step_part_some p o st done blocks, rfl⟩

/-- A closing brace outside brackets closes the innermost block. -/
theorem exists_step_blockClose {s : ParseState} {b : OpenBlock} {blocks : List OpenBlock}
    (h : s.blocks = b :: blocks) :
    ∃ s', s.step ⟨.blockClose, [Ascii.rbrace]⟩ = .ok s' ∧ s'.blocks = blocks := by
  obtain ⟨o, _ | st, done, bs⟩ := s
  · obtain rfl : bs = b :: blocks := h
    exact ⟨_, rfl, rfl⟩
  · obtain rfl : bs = b :: blocks := h
    exact ⟨_, rfl, rfl⟩

/-- **The closers of a stack take the parser to the end of the text.** -/
theorem run_closers {σ : List UInt8} {d n : Nat} (h : Stacked σ d n) :
    ∀ s : ParseState, s.blocks.length = n → ∃ nodes, s.run d (σ.map closerOf) = .ok nodes := by
  induction h with
  | nil =>
      intro s hs
      obtain ⟨o, st, done, blocks⟩ := s
      obtain rfl := List.length_eq_zero_iff.mp hs
      rw [List.map_nil, run_nil]
      cases st with
      | none => exact ⟨_, rfl⟩
      | some st => exact ⟨_, rfl⟩
  | @block σ n _ ih =>
      intro s hs
      obtain ⟨b, blocks, hblocks⟩ := List.exists_cons_of_length_eq_add_one hs
      obtain ⟨s', hstep, hs'⟩ := exists_step_blockClose hblocks
      obtain ⟨nodes, hrun⟩ := ih s' (by rw [hs']; simpa [hblocks] using hs)
      refine ⟨nodes, ?_⟩
      rw [List.map_cons, show closerOf Ascii.lbrace = Ascii.rbrace from rfl,
        run_cons (Token.next_rbrace _), List.take_zero, hstep]
      exact hrun
  | @bracket o σ d n ho _ ih =>
      intro s hs
      obtain ⟨s', hstep, hs'⟩ := s.exists_step_part (.closing (closerOf o))
      obtain ⟨nodes, hrun⟩ := ih s' (by rw [hs', hs])
      have hp : (PreludePart.closing (closerOf o)).WellFormed (d + 1) (σ.map closerOf) :=
        ⟨closerOf_bracket ho, Nat.succ_pos d⟩
      refine ⟨nodes, ?_⟩
      show s.run (d + 1) ((PreludePart.closing (closerOf o)).text ++ σ.map closerOf) = .ok nodes
      rw [run_part hp, hstep]
      exact hrun
  | @brace σ d n hσ ih =>
      intro s hs
      obtain ⟨s', hstep, hs'⟩ := s.exists_step_part (.byte Ascii.rbrace)
      obtain ⟨nodes, hrun⟩ := ih s' (by rw [hs', hs])
      have hp : (PreludePart.byte Ascii.rbrace).WellFormed (d + 1) (σ.map closerOf) :=
        ⟨by decide, by decide, by simp +decide, by simp +decide, by simp +decide, by simp⟩
      refine ⟨nodes, ?_⟩
      show s.run (d + 1) ((PreludePart.byte Ascii.rbrace).text ++ σ.map closerOf) = .ok nodes
      rw [run_part hp, hstep]
      exact hrun

end ParseState

/-! ## Units in front of the cursor -/

/-- A beginning `u` of the text `p.text ++ after`, which goes on with `y` behind the cursor, holds
the whole unit `p`; the scan goes on behind it with a stack that fits, and the unit is still one
when the rest is closed. -/
def UnitPassed (p : PreludePart) (d n : Nat) (u y after : Text) (s : OpenConstructs) : Prop :=
  ∃ (v : Text) (τ : List UInt8), u = p.text ++ v ∧ after = v ++ y ∧
    OpenConstructs.nest? ⟨.code, τ⟩ v = some s ∧ Stacked τ (p.depthAfter d) n ∧
    p.WellFormed d (v ++ s.closers)

/-- The cursor is inside a unit, and the first closers make a unit of what stands before it. -/
def UnitCompleted (d : Nat) (σ : List UInt8) (u : Text) (s : OpenConstructs) : Prop :=
  ∃ (p : PreludePart) (w : Text), p.WellFormed d (σ.map closerOf) ∧ p.depthAfter d = d ∧
    u ++ w = p.text ∧ s.closers = w ++ σ.map closerOf

namespace OpenConstructs

variable {σ : List UInt8} {d n : Nat} {u x y after : Text} {s : OpenConstructs} {c : UInt8}

/-- A slash or a hash at the very end is a unit of its own. -/
theorem unitCompleted_single (hσ : Stacked σ d n) (hc : c = Ascii.slash ∨ c = Ascii.hash)
    (h : nest? ⟨.code, σ⟩ [c] = some s) : UnitCompleted d σ [c] s := by
  have hplain : PreludePart.IsPlain d [] c := by
    rcases hc with rfl | rfl
    all_goals exact ⟨by decide, by decide, by simp, by simp, by simp, fun _ => by decide⟩
  have hs : s = ⟨.code, σ⟩ := by
    rcases hc with rfl | rfl
    all_goals
      exact (Option.some.inj (by simpa +decide [nest?, strays, markedStep, step] using h)).symm
  exact ⟨.byte c, [], hσ.isPlain_closers hplain, rfl, rfl, by rw [hs]; rfl⟩

theorem unit_literal {l : Literal} (hl : l.WellFormed) (hσ : Stacked σ d n)
    (htext : l.text ++ after = c :: x ++ y) (h : nest? ⟨.code, σ⟩ (c :: x) = some s) :
    UnitPassed (.literal l) d n (c :: x) y after s ∨ UnitCompleted d σ (c :: x) s := by
  obtain ⟨q, parts⟩ := l
  simp only [Literal.text, List.cons_append, List.append_assoc, List.nil_append] at htext
  obtain ⟨rfl, hrest⟩ := List.cons.inj htext
  rw [nest?_quote hl.1] at h
  rcases nest?_literalParts hl.1 hl.2 hrest h with ⟨v, rfl, hafter, h⟩ | ⟨parts', hparts', rfl, rfl⟩
  · exact Or.inl ⟨v, σ, by simp [PreludePart.text, Literal.text], hafter, h, hσ, hl⟩
  · exact Or.inr ⟨.literal ⟨q, parts'⟩, [q], ⟨hl.1, hparts'⟩, rfl, rfl, rfl⟩

theorem unit_interpolation {i : Interpolation} (hi : i.WellFormed) (hσ : Stacked σ d n)
    (htext : (PreludePart.interpolation i).text ++ after = c :: x ++ y)
    (h : nest? ⟨.code, σ⟩ (c :: x) = some s) :
    UnitPassed (.interpolation i) d n (c :: x) y after s ∨ UnitCompleted d σ (c :: x) s := by
  simp only [PreludePart.text, List.cons_append, List.append_assoc, List.nil_append] at htext
  obtain ⟨rfl, hrest⟩ := List.cons.inj htext
  cases x with
  | nil => exact Or.inr (unitCompleted_single hσ (Or.inr rfl) h)
  | cons c x =>
      obtain ⟨rfl, hinner⟩ := List.cons.inj hrest
      rw [nest?_interpolationStart hσ.hash_notMem] at h
      have hinside := @nest?_interpolation s i hi [] σ Ascii.hash x after y (by simp [Brackets]) rfl
        List.mem_cons_self hinner h
      rcases hinside with ⟨v, rfl, hafter, h⟩ | ⟨i', w, hi', hw, hclosers⟩
      · exact Or.inl ⟨v, σ, by simp [PreludePart.text], hafter, h, hσ, hi⟩
      · exact Or.inr ⟨.interpolation i', w, hi', rfl, by simp [PreludePart.text, hw], hclosers⟩

/-- A beginning of the text of a comment, up to the star of its end, is text of a comment. -/
theorem isCommentText_of_isPrefix {t : Text} (ht : IsCommentText t)
    (hx : x <+: t ++ [Ascii.star]) : IsCommentText x := by
  rintro ⟨v, w, hvw⟩
  rcases List.eq_nil_or_concat w with rfl | ⟨w, e, rfl⟩
  · -- the end of a comment does not end with a star
    have hlast := congrArg List.getLast? hvw
    simp +decide at hlast
  · have hsub : [Ascii.star, Ascii.slash] <:+: x := by
      refine ⟨v, w, ?_⟩
      rw [List.concat_eq_append, ← List.append_assoc] at hvw
      exact (List.append_inj' hvw rfl).1
    exact ht (hsub.trans hx.isInfix)

/-- A beginning of a comment and of what follows it holds the whole comment, or only text of the
comment. -/
theorem cut_blockComment {t : Text} (ht : IsCommentText t)
    (htext : t ++ Ascii.star :: Ascii.slash :: after = x ++ y) :
    (∃ v, x = t ++ Ascii.star :: Ascii.slash :: v ∧ after = v ++ y) ∨ IsCommentText x := by
  rcases List.append_eq_append_iff.mp htext with ⟨a, rfl, ha⟩ | ⟨b, rfl, -⟩
  · match a with
    | [] => exact Or.inr (isCommentText_of_isPrefix ht (by simp))
    | [e] =>
        obtain ⟨rfl, -⟩ := List.cons.inj ha
        exact Or.inr (isCommentText_of_isPrefix ht (List.prefix_refl _))
    | e :: f :: v =>
        obtain ⟨rfl, hslash⟩ := List.cons.inj ha
        obtain ⟨rfl, hafter⟩ := List.cons.inj hslash
        exact Or.inl ⟨v, rfl, hafter⟩
  · exact Or.inr (isCommentText_of_isPrefix ht ⟨b ++ [Ascii.star], by simp⟩)

theorem unit_blockComment {t : Text} (ht : IsCommentText t) (hσ : Stacked σ d n)
    (htext : (PreludePart.blockComment t).text ++ after = c :: x ++ y)
    (h : nest? ⟨.code, σ⟩ (c :: x) = some s) :
    UnitPassed (.blockComment t) d n (c :: x) y after s ∨ UnitCompleted d σ (c :: x) s := by
  simp only [PreludePart.text, List.cons_append, List.append_assoc, List.nil_append] at htext
  obtain ⟨rfl, hrest⟩ := List.cons.inj htext
  cases x with
  | nil => exact Or.inr (unitCompleted_single hσ (Or.inl rfl) h)
  | cons c x =>
      obtain ⟨rfl, hinner⟩ := List.cons.inj hrest
      rw [nest?_blockCommentStart hσ.hash_notMem] at h
      rcases cut_blockComment ht hinner with ⟨v, rfl, hafter⟩ | hx
      · rw [nest?_blockComment ht] at h
        exact Or.inl ⟨v, σ, by simp [PreludePart.text], hafter, h, hσ, ht⟩
      · rw [nest?_openBlockComment hx] at h
        obtain rfl := Option.some.inj h
        exact Or.inr ⟨.blockComment x, [Ascii.star, Ascii.slash], hx, rfl, rfl, rfl⟩

/-- A beginning of a line comment and of what follows it holds the line feed of the comment, or
none. -/
theorem cut_lineComment {t : Text} (ht : IsRestOfLine t after) (htext : t ++ after = x ++ y) :
    (∃ u v, t = u ++ [Ascii.lf] ∧ Ascii.lf ∉ u ∧ x = t ++ v ∧ after = v ++ y) ∨
      Ascii.lf ∉ x := by
  by_cases hx : Ascii.lf ∈ x
  · left
    rcases ht with ⟨u, rfl, hu⟩ | ⟨ht, rfl⟩
    · rcases List.append_eq_append_iff.mp htext with ⟨v, hv, hafter⟩ | ⟨b, hb, hy⟩
      · exact ⟨u, v, rfl, hu, hv, hafter⟩
      · -- the beginning cannot stop short of the only line feed
        rcases List.eq_nil_or_concat b with rfl | ⟨b, e, rfl⟩
        · exact ⟨u, [], rfl, hu, by simpa using hb.symm, hy.symm⟩
        · rw [List.concat_eq_append, ← List.append_assoc] at hb
          have hux := (List.append_inj' hb rfl).1
          exact absurd (hux ▸ List.mem_append_left b hx) hu
    · rw [List.append_nil] at htext
      exact absurd (htext ▸ List.mem_append_left y hx) ht
  · exact Or.inr hx

theorem unit_lineComment {t : Text} (ht : IsRestOfLine t after) (hσ : Stacked σ 0 n)
    (htext : (PreludePart.lineComment t).text ++ after = c :: x ++ y)
    (h : nest? ⟨.code, σ⟩ (c :: x) = some s) :
    UnitPassed (.lineComment t) 0 n (c :: x) y after s ∨ UnitCompleted 0 σ (c :: x) s := by
  simp only [PreludePart.text, List.cons_append] at htext
  obtain ⟨rfl, hrest⟩ := List.cons.inj htext
  cases x with
  | nil => exact Or.inr (unitCompleted_single hσ (Or.inl rfl) h)
  | cons c x =>
      obtain ⟨rfl, hinner⟩ := List.cons.inj hrest
      rw [nest?_lineCommentStart hσ.eq_lbrace] at h
      rcases cut_lineComment ht hinner with ⟨u, v, rfl, hu, rfl, hafter⟩ | hx
      · rw [List.append_assoc, List.singleton_append, nest?_lineComment hu] at h
        exact Or.inl ⟨v, σ, by simp [PreludePart.text], hafter, h, hσ, rfl, Or.inl ⟨u, rfl, hu⟩⟩
      · rw [nest?_openLineComment hx] at h
        obtain rfl := Option.some.inj h
        exact Or.inr ⟨.lineComment (x ++ [Ascii.lf]), [Ascii.lf],
          ⟨rfl, Or.inl ⟨x, rfl, hx⟩⟩, rfl, rfl, rfl⟩

theorem unit_opening (hc : c = Ascii.lparen ∨ c = Ascii.lbracket) (hσ : Stacked σ d n)
    (htext : after = x ++ y) (h : nest? ⟨.code, σ⟩ (c :: x) = some s) :
    UnitPassed (.opening c) d n (c :: x) y after s := by
  have hopener : isOpener c = true := by rcases hc with rfl | rfl <;> rfl
  rw [nest?_opener hopener] at h
  exact ⟨x, c :: σ, rfl, htext, h, .bracket hc hσ, hc⟩

theorem unit_closing (hc : c = Ascii.rparen ∨ c = Ascii.rbracket) (hd : 0 < d)
    (hσ : Stacked σ d n) (htext : after = x ++ y) (h : nest? ⟨.code, σ⟩ (c :: x) = some s) :
    UnitPassed (.closing c) d n (c :: x) y after s := by
  have hcloser : isCloser c = true := by rcases hc with rfl | rfl <;> rfl
  rcases nest?_closer hcloser h with ⟨o, τ, rfl, hfit, h⟩ | ⟨hpass, -⟩
  · exact ⟨x, τ, rfl, htext, h, hσ.tail_of_bracket hfit hc, hc, hd⟩
  · -- a bracket that counts cannot be passed over outside interpolations
    have hbrace := hpass.mpr hσ.hash_notMem
    rcases hc with rfl | rfl
    · exact absurd hbrace (by decide)
    · exact absurd hbrace (by decide)

/-- A plain byte leaves a stack that stands for the same brackets and blocks. -/
theorem nest?_byte (hc : PreludePart.IsPlain d (x ++ y) c) (hσ : Stacked σ d n)
    (h : nest? ⟨.code, σ⟩ (c :: x) = some s) :
    ∃ τ, Stacked τ d n ∧ nest? ⟨.code, τ⟩ x = some s := by
  obtain ⟨hlparen, hlbracket, hrparen, hrbracket⟩ := hc.not_bracket
  have hhead : ∀ {e : UInt8}, x.head? = some e → (x ++ y).head? = some e := by
    intro e he
    rw [List.head?_append, he]
    rfl
  by_cases hopener : isOpener c = true
  · -- a brace inside brackets
    obtain rfl : c = Ascii.lbrace := by simpa [isOpener, hlparen, hlbracket] using hopener
    obtain ⟨d, rfl⟩ := Nat.exists_eq_succ_of_ne_zero fun hd => (hc.not_mark hd).2.1 rfl
    rw [nest?_opener hopener] at h
    exact ⟨_, hσ.brace, h⟩
  by_cases hcloser : isCloser c = true
  · obtain rfl : c = Ascii.rbrace := by simpa [isCloser, hrparen, hrbracket] using hcloser
    have hd : 0 < d := Nat.pos_of_ne_zero fun hd => (hc.not_mark hd).2.2 rfl
    rcases nest?_closer hcloser h with ⟨o, τ, rfl, hfit, h⟩ | ⟨-, h⟩
    · exact ⟨τ, hσ.tail_of_brace hd hfit, h⟩
    · exact ⟨σ, hσ, h⟩
  refine ⟨σ, hσ, nest?_plain hc.not_quote (by simpa using hopener) (by simpa using hcloser)
    (fun hb => hc.not_blockComment ⟨hb.1, hhead hb.2⟩) ?_
    (fun hi => hc.not_interpolation ⟨hi.1, hhead hi.2⟩) h⟩
  intro hslash hx
  obtain ⟨d, rfl⟩ := Nat.exists_eq_succ_of_ne_zero fun hd =>
    hc.not_lineComment ⟨hslash, hhead hx, hd⟩
  exact hσ.exists_ne_lbrace

theorem unit_byte (hc : PreludePart.IsPlain d after c) (hσ : Stacked σ d n)
    (htext : after = x ++ y) (h : nest? ⟨.code, σ⟩ (c :: x) = some s) :
    UnitPassed (.byte c) d n (c :: x) y after s := by
  subst htext
  obtain ⟨τ, hτ, h⟩ := nest?_byte hc hσ h
  refine ⟨x, τ, rfl, rfl, h, hτ, ?_⟩
  cases x with
  | nil =>
      obtain rfl := Option.some.inj h
      exact hτ.isPlain_closers hc
  | cons e x =>
      exact ⟨hc.not_quote, hc.not_bracket, hc.not_interpolation, hc.not_blockComment,
        hc.not_lineComment, hc.not_mark⟩

/-- **A unit in front of the cursor** is passed as a whole, or completed by the first closers. -/
theorem unitPassed_or_unitCompleted {p : PreludePart} (hp : p.WellFormed d after)
    (hσ : Stacked σ d n) (htext : p.text ++ after = c :: x ++ y)
    (h : nest? ⟨.code, σ⟩ (c :: x) = some s) :
    UnitPassed p d n (c :: x) y after s ∨ UnitCompleted d σ (c :: x) s := by
  cases p with
  | literal l => exact unit_literal hp hσ htext h
  | interpolation i => exact unit_interpolation hp hσ htext h
  | blockComment t => exact unit_blockComment hp hσ htext h
  | lineComment t =>
      obtain ⟨rfl, ht⟩ := hp
      exact unit_lineComment ht hσ htext h
  | opening b =>
      obtain ⟨rfl, hrest⟩ := List.cons.inj htext
      exact Or.inl (unit_opening hp hσ hrest h)
  | closing b =>
      obtain ⟨rfl, hrest⟩ := List.cons.inj htext
      exact Or.inl (unit_closing hp.1 hp.2 hσ hrest h)
  | byte b =>
      obtain ⟨rfl, hrest⟩ := List.cons.inj htext
      exact Or.inl (unit_byte hp hσ hrest h)

end OpenConstructs

/-! ## Beginnings of a stylesheet -/

namespace ParseState

theorem exists_parse_of_run {src : Text} {nodes : List Node} (h : initial.run 0 src = .ok nodes) :
    ∃ sheet, parse src = .ok sheet := by
  rw [parse_eq_run, h]
  exact ⟨_, rfl⟩

/-- **A mark in front of the cursor** is passed, and the stack follows the blocks. -/
theorem exists_run_mark {c : UInt8} {x y : Text} {s : ParseState} {σ : List UInt8}
    {t : OpenConstructs} {nodes : List Node} (hc : IsMark c) (hσ : Stacked σ 0 s.blocks.length)
    (hnest : OpenConstructs.nest? ⟨.code, σ⟩ (c :: x) = some t)
    (h : s.run 0 (c :: (x ++ y)) = .ok nodes) :
    ∃ (s' : ParseState) (τ : List UInt8), Stacked τ 0 s'.blocks.length ∧
      OpenConstructs.nest? ⟨.code, τ⟩ x = some t ∧ ∀ z, s.run 0 (c :: z) = s'.run 0 z := by
  rcases hc with rfl | rfl | rfl
  · have hnest' : OpenConstructs.nest? ⟨.code, σ⟩ x = some t :=
      OpenConstructs.nest?_plain (by decide) (by decide) (by decide) (by simp +decide)
        (by simp +decide) (by simp +decide) hnest
    obtain ⟨o, _ | st, done, blocks⟩ := s
    · exact ⟨⟨o + 1, none, done, blocks⟩, σ, hσ, hnest', run_semicolon_none o done blocks⟩
    · refine ⟨⟨o + 1, none, .leaf (readHead st.start st.raw false) (o + 1) :: done, blocks⟩, σ, hσ,
        hnest', fun z => ?_⟩
      rw [run_cons (Token.next_semicolon z)]
      rfl
  · rw [OpenConstructs.nest?_opener (by decide)] at hnest
    refine ⟨{ s.openBlock with offset := s.offset + 1 }, Ascii.lbrace :: σ, hσ.block, hnest,
      fun z => ?_⟩
    rw [run_cons (Token.next_lbrace z)]
    rfl
  · -- the run succeeds, so a block is open, and its brace is on top
    cases hblocks : s.blocks with
    | nil =>
        rw [run_cons (Token.next_rbrace _)] at h
        obtain ⟨o, _ | st, done, blocks⟩ := s
        · obtain rfl : blocks = [] := hblocks
          cases h
        · obtain rfl : blocks = [] := hblocks
          cases h
    | cons b blocks =>
        obtain ⟨s', hstep, hs'⟩ := exists_step_blockClose hblocks
        rw [hblocks, List.length_cons] at hσ
        cases hσ with
        | @block τ _ hτ =>
            refine ⟨s', τ, by rw [hs']; exact hτ, ?_, fun z => ?_⟩
            · have hfit : closerOf Ascii.lbrace = Ascii.rbrace := rfl
              rw [OpenConstructs.nest?_fittingCloser (by decide) hfit] at hnest
              exact hnest
            · rw [run_cons (Token.next_rbrace z), List.take_zero, hstep]
              rfl

/-- **Closing what a beginning leaves open.** Where a run over `u ++ y` succeeds and the scan keeps
track in `u`, the run over `u` and its closers succeeds. -/
theorem exists_run_closers {u y : Text} {s : ParseState} {d : Nat} {σ : List UInt8}
    {t : OpenConstructs} {nodes : List Node} (hσ : Stacked σ d s.blocks.length)
    (hnest : OpenConstructs.nest? ⟨.code, σ⟩ u = some t) (h : s.run d (u ++ y) = .ok nodes) :
    ∃ nodes', s.run d (u ++ t.closers) = .ok nodes' := by
  -- on the length of the beginning, which every unit or mark shortens
  induction hm : u.length using Nat.strong_induction_on generalizing u s d σ nodes with
  | _ m ih =>
      cases u with
      | nil =>
          obtain rfl := Option.some.inj hnest
          exact run_closers hσ s rfl
      | cons c x =>
          rw [List.cons_append] at h
          cases hnext : Token.next d c (x ++ y) with
          | error e =>
              rw [run_eq_error hnext] at h
              cases h
          | ok l =>
              rcases exists_part_of_next_eq_ok hnext with ⟨rfl, hmark⟩ | ⟨p, after, hp, htext⟩
              · obtain ⟨s', τ, hτ, hnest', hrun⟩ := exists_run_mark hmark hσ hnest h
                rw [hrun] at h
                rw [List.cons_append, hrun]
                exact ih x.length (by simp [← hm]) hτ hnest' h rfl
              · rcases OpenConstructs.unitPassed_or_unitCompleted hp hσ htext hnest with
                  ⟨v, τ, hv, rfl, hnest, hτ, hp'⟩ | ⟨p', w, hp', hdepth, hw, hclosers⟩
                · -- the run goes on behind the unit, before and after the closing
                  obtain ⟨s', hstep, hblocks⟩ := s.exists_step_part p
                  rw [← htext, run_part hp, hstep] at h
                  have hlt : v.length < m := hm ▸ length_lt_of_append p.text_ne_nil hv.symm
                  obtain ⟨nodes', hrun⟩ := ih v.length hlt (by rw [hblocks]; exact hτ) hnest h rfl
                  refine ⟨nodes', ?_⟩
                  rw [hv, List.append_assoc, run_part hp', hstep]
                  exact hrun
                · -- the closers first complete the unit, and then close the stack
                  obtain ⟨s', hstep, hblocks⟩ := s.exists_step_part p'
                  obtain ⟨nodes', hrun⟩ := run_closers hσ s' (by rw [hblocks])
                  refine ⟨nodes', ?_⟩
                  rw [hclosers, ← List.append_assoc, hw, run_part hp', hstep, hdepth]
                  exact hrun

end ParseState

/-- **Closing repairs every nested beginning of a stylesheet.** For every text that parses and
every beginning of it in which the scan keeps track, the beginning parses once the constructs that
it leaves open are closed. -/
theorem parse_closeOpen {src u : Text} {sheet : Stylesheet} (hsrc : parse src = .ok sheet)
    (hu : u <+: src) (hnested : Nested u) : ∃ sheet', parse (closeOpen u) = .ok sheet' := by
  obtain ⟨t, hnest⟩ := Option.isSome_iff_exists.mp hnested
  obtain ⟨y, rfl⟩ := hu
  have hrun := ParseState.run_of_parse hsrc
  obtain ⟨nodes', hrun'⟩ := ParseState.exists_run_closers Stacked.nil hnest hrun
  rw [closeOpen_of_nest? hnest]
  exact ParseState.exists_parse_of_run hrun'

example : closeOpen (text "a \x7b b: c(\"x") = text "a \x7b b: c(\"x\")\x7d" := by decide +kernel

/-- A call with a literal, cut off inside the literal. -/
theorem parse_closeOpen_call :
    (parse (text "a \x7b b: c(\"x\"); \x7d")).isOk = true ∧
      text "a \x7b b: c(\"x" <+: text "a \x7b b: c(\"x\"); \x7d" ∧
      Nested (text "a \x7b b: c(\"x") ∧
      ∃ sheet, parse (closeOpen (text "a \x7b b: c(\"x")) = .ok sheet := by
  have hok : (parse (text "a \x7b b: c(\"x\"); \x7d")).isOk = true := by cbv
  cases hsrc : parse (text "a \x7b b: c(\"x\"); \x7d") with
  | error e =>
      rw [hsrc] at hok
      cases hok
  | ok sheet => exact ⟨rfl, by decide, by decide, parse_closeOpen hsrc (by decide) (by decide)⟩

/-- **Where the scan strays, the closed text may be no stylesheet**: a literal cut off behind a
backslash, brackets of two kinds, and the beginning of a comment in an interpolation. All three
beginnings are such of texts that parse; the last two are the texts themselves. -/
theorem parse_closeOpen_strayed :
    (text "a \x7b content: \"\\" <+: text "a \x7b content: \"\\201C\"; \x7d" ∧
      (parse (text "a \x7b content: \"\\201C\"; \x7d")).isOk = true ∧
      parse (closeOpen (text "a \x7b content: \"\\")) = .error ⟨13, .unterminatedString⟩) ∧
    ((parse (text "$a: (]")).isOk = true ∧
      parse (closeOpen (text "$a: (]")) = .error ⟨6, .unexpected Ascii.rparen⟩) ∧
    ((parse (text "$a: #\x7b/*\x7d;")).isOk = true ∧
      parse (closeOpen (text "$a: #\x7b/*\x7d;")) = .error ⟨12, .unexpected Ascii.rbrace⟩) := by
  refine ⟨⟨by decide, by cbv, by cbv⟩, ⟨by cbv, by cbv⟩, ⟨by cbv, by cbv⟩⟩

end StyleIndex
