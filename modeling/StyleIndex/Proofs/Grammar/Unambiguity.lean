import Mathlib.Tactic
import StyleIndex.Proofs.Grammar.Lexeme

set_option autoImplicit false

/-! # The grammar is unambiguous

A prelude goes on up to a mark outside brackets or the end of the text, and a body up to a closing
brace or the end of the text (`EndsPrelude`, `EndsBody`). Read from the left, neither leaves a
choice: each unit is determined by the text that begins with it, and the first bytes of a body
show which kind of item comes next (`Front`). So a text has at most one derivation.
-/

namespace StyleIndex

/-! ## Preludes -/

/-- Where a prelude ends: at the end of the text, or at a mark. -/
def EndsPrelude (after : Text) : Prop := after = [] ∨ ∃ c rest, after = c :: rest ∧ IsMark c

/-- Outside brackets no unit begins with a mark. -/
theorem PreludePart.not_endsPrelude {p : PreludePart} {after : Text} (h : p.WellFormed 0 after) :
    ¬ EndsPrelude (p.text ++ after) := by
  -- a mark is a token of a kind that no unit has
  have hkind : p.kind ≠ .semicolon ∧ p.kind ≠ .blockOpen ∧ p.kind ≠ .blockClose := by
    cases p with
    | byte c =>
        by_cases hc : Ascii.isSpace c = true
        · simp [kind, hc]
        · simp [kind, hc]
    | _ => simp [kind]
  rintro (hnil | ⟨c, rest, hcons, hmark⟩)
  · exact p.text_ne_nil (List.append_eq_nil_iff.mp hnil).1
  · have hnext := next_eq_ok_of_wellFormed h hcons
    rcases hmark with rfl | rfl | rfl
    · rw [Token.next_semicolon] at hnext
      exact hkind.1 (Token.Lexeme.mk.inj (Except.ok.inj hnext)).1.symm
    · rw [Token.next_lbrace] at hnext
      exact hkind.2.1 (Token.Lexeme.mk.inj (Except.ok.inj hnext)).1.symm
    · rw [Token.next_rbrace] at hnext
      exact hkind.2.2 (Token.Lexeme.mk.inj (Except.ok.inj hnext)).1.symm

namespace Prelude

theorem text_cons (p : PreludePart) (ps : Prelude) : text (p :: ps) = p.text ++ text ps := by
  rw [text, text, List.flatMap_cons]

/-- A prelude that ends where it begins has no units. -/
theorem eq_nil_of_endsPrelude {ps : Prelude} {after : Text} (h : ps.WellFormed 0 after)
    (hend : EndsPrelude (ps.text ++ after)) : ps = [] := by
  cases ps with
  | nil => rfl
  | cons p ps =>
      rw [text_cons, List.append_assoc] at hend
      exact absurd hend (PreludePart.not_endsPrelude h.1)

/-- The prelude at the front of a text is determined by the text. -/
theorem unique {ps ps' : Prelude} {depth : Nat} {after after' : Text}
    (h : ps.WellFormed depth after) (h' : ps'.WellFormed depth after')
    (hend : EndsPrelude after) (hend' : EndsPrelude after')
    (heq : ps.text ++ after = ps'.text ++ after') : ps = ps' ∧ after = after' := by
  induction ps generalizing ps' depth with
  | nil =>
      have hdepth : depth = 0 := h
      subst hdepth
      have heq : after = ps'.text ++ after' := heq
      obtain rfl := eq_nil_of_endsPrelude h' (heq ▸ hend)
      exact ⟨rfl, heq⟩
  | cons p ps ih =>
      cases ps' with
      | nil =>
          have hdepth : depth = 0 := h'
          subst hdepth
          have heq : text (p :: ps) ++ after = after' := heq
          cases eq_nil_of_endsPrelude h (heq ▸ hend')
      | cons p' ps' =>
          rw [text_cons, text_cons, List.append_assoc, List.append_assoc] at heq
          obtain ⟨rfl, hrest⟩ := PreludePart.unique h.1 h'.1 heq
          obtain ⟨rfl, rfl⟩ := ih h.2 h'.2 hrest
          exact ⟨rfl, rfl⟩

end Prelude

/-! ## Bodies -/

/-- Where a body ends: at the end of the text, or at a closing brace. -/
def EndsBody (after : Text) : Prop := after = [] ∨ ∃ t, after = Ascii.rbrace :: t

theorem EndsBody.endsPrelude {after : Text} (h : EndsBody after) : EndsPrelude after := by
  rcases h with rfl | ⟨t, rfl⟩
  · exact Or.inl rfl
  · exact Or.inr ⟨_, t, rfl, Or.inr (Or.inr rfl)⟩

theorem endsPrelude_semicolon (t : Text) : EndsPrelude (Ascii.semicolon :: t) :=
  Or.inr ⟨_, t, rfl, Or.inl rfl⟩

theorem endsPrelude_lbrace (t : Text) : EndsPrelude (Ascii.lbrace :: t) :=
  Or.inr ⟨_, t, rfl, Or.inr (Or.inl rfl)⟩

/-- No body ends at a semicolon or at an opening brace. -/
theorem EndsBody.ne {after : Text} (h : EndsBody after) (t : Text) :
    after ≠ Ascii.semicolon :: t ∧ after ≠ Ascii.lbrace :: t := by
  rcases h with rfl | ⟨u, rfl⟩
  · exact ⟨List.cons_ne_nil _ _ |>.symm, List.cons_ne_nil _ _ |>.symm⟩
  · exact ⟨fun h => absurd (List.cons.inj h).1 (by decide),
      fun h => absurd (List.cons.inj h).1 (by decide)⟩

/-- What the first bytes of a body announce. -/
inductive Front where
  | ending
  | space
  | lineComment
  | blockComment
  | semicolon
  | statement

namespace Front

def ofText : Text → Front
  | [] => .ending
  | c :: rest =>
      if Ascii.isSpace c = true then .space
      else if c = Ascii.semicolon then .semicolon
      else if c = Ascii.rbrace then .ending
      else if c = Ascii.slash ∧ rest.head? = some Ascii.slash then .lineComment
      else if c = Ascii.slash ∧ rest.head? = some Ascii.star then .blockComment
      else .statement

def ofBody : Body → Front
  | .done => .ending
  | .last _ => .statement
  | .space _ _ => .space
  | .lineComment _ _ => .lineComment
  | .blockComment _ _ => .blockComment
  | .semicolon _ => .semicolon
  | .leaf _ _ => .statement
  | .block _ _ _ => .statement

theorem ofText_of_startsStatement {t : Text} (h : StartsStatement t) : ofText t = .statement := by
  obtain ⟨c, rest, rfl, hspace, hsemi, hbrace, hcomment⟩ := h
  have hline : ¬ (c = Ascii.slash ∧ rest.head? = some Ascii.slash) :=
    fun hc => hcomment ⟨hc.1, Or.inl hc.2⟩
  have hblock : ¬ (c = Ascii.slash ∧ rest.head? = some Ascii.star) :=
    fun hc => hcomment ⟨hc.1, Or.inr hc.2⟩
  rw [ofText, if_neg (by simp [hspace]), if_neg hsemi, if_neg hbrace, if_neg hline, if_neg hblock]

/-- The first bytes of a body tell its first item. -/
theorem ofText_text {b : Body} {after : Text} (h : b.WellFormed after) (hend : EndsBody after) :
    ofText (b.text ++ after) = ofBody b := by
  cases b with
  | done =>
      rcases hend with rfl | ⟨t, rfl⟩
      · rfl
      · simp +decide [Body.text, ofText, ofBody]
  | last ps => exact ofText_of_startsStatement h.1
  | space c rest =>
      show ofText (c :: (rest.text ++ after)) = .space
      rw [ofText, if_pos h.1]
  | lineComment t rest => simp +decide [Body.text, ofText, ofBody]
  | blockComment t rest => simp +decide [Body.text, ofText, ofBody]
  | semicolon rest => simp +decide [Body.text, ofText, ofBody]
  | leaf ps rest =>
      rw [Body.text, List.append_assoc]
      exact ofText_of_startsStatement h.1
  | block ps inner rest =>
      rw [Body.text]
      simp only [List.append_assoc, List.cons_append]
      exact ofText_of_startsStatement h.1

/-- Bodies that spell the same text begin alike. -/
theorem ofBody_eq {b b' : Body} {after after' : Text} (h : b.WellFormed after)
    (h' : b'.WellFormed after') (hend : EndsBody after) (hend' : EndsBody after')
    (heq : b.text ++ after = b'.text ++ after') : ofBody b = ofBody b' := by
  rw [← ofText_text h hend, heq, ofText_text h' hend']

end Front

/-- The text after `//` on a line is determined by the text. -/
theorem IsRestOfLine.unique {t t' after after' : Text} (h : IsRestOfLine t after)
    (h' : IsRestOfLine t' after') (heq : t ++ after = t' ++ after') : t = t' ∧ after = after' := by
  have hp : (PreludePart.lineComment t).WellFormed 0 after := ⟨rfl, h⟩
  have hp' : (PreludePart.lineComment t').WellFormed 0 after' := ⟨rfl, h'⟩
  obtain ⟨ht, hafter⟩ := PreludePart.unique hp hp' (by simp [PreludePart.text, heq])
  exact ⟨PreludePart.lineComment.inj ht, hafter⟩

/-- The text of a block comment is determined by the text. -/
theorem IsCommentText.unique {t t' after after' : Text} (h : IsCommentText t)
    (h' : IsCommentText t')
    (heq : t ++ Ascii.star :: Ascii.slash :: after = t' ++ Ascii.star :: Ascii.slash :: after') :
    t = t' ∧ after = after' := by
  have hp : (PreludePart.blockComment t).WellFormed 0 after := h
  have hp' : (PreludePart.blockComment t').WellFormed 0 after' := h'
  obtain ⟨ht, hafter⟩ := PreludePart.unique hp hp' (by simp [PreludePart.text, heq])
  exact ⟨PreludePart.blockComment.inj ht, hafter⟩

/-- The prelude of the statement that a body begins with, and the text behind that prelude. -/
def Body.firstPrelude? (after : Text) : Body → Option (Prelude × Text)
  | .last ps => some (ps, after)
  | .leaf ps rest => some (ps, Ascii.semicolon :: (rest.text ++ after))
  | .block ps inner rest =>
      some (ps, Ascii.lbrace :: (inner.text ++ Ascii.rbrace :: (rest.text ++ after)))
  | _ => none

theorem Body.firstPrelude?_spec {b : Body} {after u : Text} {ps : Prelude}
    (h : b.WellFormed after) (hend : EndsBody after)
    (hfirst : b.firstPrelude? after = some (ps, u)) :
    b.text ++ after = ps.text ++ u ∧ ps.WellFormed 0 u ∧ EndsPrelude u := by
  cases b with
  | last ps' =>
      cases hfirst
      exact ⟨rfl, h.2, hend.endsPrelude⟩
  | leaf ps' rest =>
      cases hfirst
      exact ⟨by simp [text], h.2.1, endsPrelude_semicolon _⟩
  | block ps' inner rest =>
      cases hfirst
      exact ⟨by simp [text], h.2.1, endsPrelude_lbrace _⟩
  | _ => cases hfirst

/-- The first statements of bodies that spell the same text have the same prelude. -/
theorem Body.firstPrelude?_unique {b b' : Body} {after after' u u' : Text} {ps ps' : Prelude}
    (h : b.WellFormed after) (h' : b'.WellFormed after') (hend : EndsBody after)
    (hend' : EndsBody after') (heq : b.text ++ after = b'.text ++ after')
    (hfirst : b.firstPrelude? after = some (ps, u))
    (hfirst' : b'.firstPrelude? after' = some (ps', u')) : ps = ps' ∧ u = u' := by
  obtain ⟨htext, hps, hu⟩ := firstPrelude?_spec h hend hfirst
  obtain ⟨htext', hps', hu'⟩ := firstPrelude?_spec h' hend' hfirst'
  exact Prelude.unique hps hps' hu hu' (htext.symm.trans (heq.trans htext'))

/-- **The body at the front of a text is determined by the text.** -/
theorem Body.unique {b b' : Body} {after after' : Text} (h : b.WellFormed after)
    (h' : b'.WellFormed after') (hend : EndsBody after) (hend' : EndsBody after')
    (heq : b.text ++ after = b'.text ++ after') : b = b' ∧ after = after' := by
  -- the first bytes decide between the items; between the three kinds of statement, only the mark
  -- behind the prelude does
  induction b generalizing b' after after' with
  | done =>
      have hfront := Front.ofBody_eq h h' hend hend' heq
      cases b' with
      | done => exact ⟨rfl, heq⟩
      | _ => cases hfront
  | space c rest ih =>
      have hfront := Front.ofBody_eq h h' hend hend' heq
      cases b' with
      | space c' rest' =>
          obtain ⟨rfl, hrest⟩ := List.cons.inj heq
          obtain ⟨rfl, rfl⟩ := ih h.2 h'.2 hend hend' hrest
          exact ⟨rfl, rfl⟩
      | _ => cases hfront
  | lineComment t rest ih =>
      have hfront := Front.ofBody_eq h h' hend hend' heq
      cases b' with
      | lineComment t' rest' =>
          simp only [text, List.cons_append, List.append_assoc, List.cons.injEq, true_and] at heq
          obtain ⟨rfl, hrest⟩ := h.1.unique h'.1 heq
          obtain ⟨rfl, rfl⟩ := ih h.2 h'.2 hend hend' hrest
          exact ⟨rfl, rfl⟩
      | _ => cases hfront
  | blockComment t rest ih =>
      have hfront := Front.ofBody_eq h h' hend hend' heq
      cases b' with
      | blockComment t' rest' =>
          simp only [text, List.cons_append, List.append_assoc, List.cons.injEq, true_and] at heq
          obtain ⟨rfl, hrest⟩ := h.1.unique h'.1 heq
          obtain ⟨rfl, rfl⟩ := ih h.2 h'.2 hend hend' hrest
          exact ⟨rfl, rfl⟩
      | _ => cases hfront
  | semicolon rest ih =>
      have hfront := Front.ofBody_eq h h' hend hend' heq
      cases b' with
      | semicolon rest' =>
          have hrest : rest.text ++ after = rest'.text ++ after' := (List.cons.inj heq).2
          obtain ⟨rfl, rfl⟩ := ih h (show rest'.WellFormed after' from h') hend hend' hrest
          exact ⟨rfl, rfl⟩
      | _ => cases hfront
  | last ps =>
      have hfront := Front.ofBody_eq h h' hend hend' heq
      cases b' with
      | last ps' =>
          obtain ⟨rfl, rfl⟩ := firstPrelude?_unique h h' hend hend' heq rfl rfl
          exact ⟨rfl, rfl⟩
      | leaf ps' rest' =>
          obtain ⟨-, hafter⟩ := firstPrelude?_unique h h' hend hend' heq rfl rfl
          exact absurd hafter (hend.ne _).1
      | block ps' inner' rest' =>
          obtain ⟨-, hafter⟩ := firstPrelude?_unique h h' hend hend' heq rfl rfl
          exact absurd hafter (hend.ne _).2
      | _ => cases hfront
  | leaf ps rest ih =>
      have hfront := Front.ofBody_eq h h' hend hend' heq
      cases b' with
      | last ps' =>
          obtain ⟨-, hafter⟩ := firstPrelude?_unique h h' hend hend' heq rfl rfl
          exact absurd hafter.symm (hend'.ne _).1
      | leaf ps' rest' =>
          obtain ⟨rfl, htail⟩ := firstPrelude?_unique h h' hend hend' heq rfl rfl
          obtain ⟨rfl, rfl⟩ := ih h.2.2 h'.2.2 hend hend' (List.cons.inj htail).2
          exact ⟨rfl, rfl⟩
      | block ps' inner' rest' =>
          obtain ⟨-, htail⟩ := firstPrelude?_unique h h' hend hend' heq rfl rfl
          exact absurd (List.cons.inj htail).1 (by decide)
      | _ => cases hfront
  | block ps inner rest ihi ihr =>
      have hfront := Front.ofBody_eq h h' hend hend' heq
      cases b' with
      | last ps' =>
          obtain ⟨-, hafter⟩ := firstPrelude?_unique h h' hend hend' heq rfl rfl
          exact absurd hafter.symm (hend'.ne _).2
      | leaf ps' rest' =>
          obtain ⟨-, htail⟩ := firstPrelude?_unique h h' hend hend' heq rfl rfl
          exact absurd (List.cons.inj htail).1 (by decide)
      | block ps' inner' rest' =>
          obtain ⟨rfl, htail⟩ := firstPrelude?_unique h h' hend hend' heq rfl rfl
          -- the inner body ends at its closing brace, and the rest starts behind it
          obtain ⟨rfl, hrest⟩ := ihi h.2.2.1 h'.2.2.1 (Or.inr ⟨_, rfl⟩) (Or.inr ⟨_, rfl⟩)
            (List.cons.inj htail).2
          obtain ⟨rfl, rfl⟩ := ihr h.2.2.2 h'.2.2.2 hend hend' (List.cons.inj hrest).2
          exact ⟨rfl, rfl⟩
      | _ => cases hfront

end StyleIndex
