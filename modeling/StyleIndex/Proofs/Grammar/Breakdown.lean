import Mathlib.Tactic
import StyleIndex.Proofs.Grammar.Unambiguity

set_option autoImplicit false

/-! # Where the reading of a text breaks off

Read from the left, every text begins with a body that goes on up to a closing brace or the end of
the text, or its reading breaks off (`startsBody_or_breaksOff`). It breaks off where no token can be
cut, at the end of the text inside a bracket, or at the end of the text inside a block. What has
been read up to there is an *open body*, a body that is cut off between two statements and may be
inside some of its blocks, and perhaps the units of a further statement.

The grammar alone decides which of these it is. `Proofs/Grammar/Acceptance.lean` runs the parser on
either.
-/

namespace StyleIndex

/-! ## Units with brackets left open -/

/-- What follows a beginning of a text is shorter than the text. -/
theorem length_lt_of_append {u v t : Text} (hu : u ≠ []) (h : u ++ v = t) :
    v.length < t.length := by
  have hpos := List.length_pos_of_ne_nil hu
  rw [← h, List.length_append]
  omega

namespace Prelude

/-- Each unit may stand where it stands. Brackets may be left open at the end. -/
def Fits (depth : Nat) (after : Text) : Prelude → Prop
  | [] => True
  | p :: ps => p.WellFormed depth (text ps ++ after) ∧ Fits (p.depthAfter depth) after ps

/-- The number of open brackets behind the units. -/
def bracketsBehind (depth : Nat) : Prelude → Nat
  | [] => depth
  | p :: ps => bracketsBehind (p.depthAfter depth) ps

theorem wellFormed_iff {ps : Prelude} {after : Text} : ∀ {depth : Nat},
    ps.WellFormed depth after ↔ ps.Fits depth after ∧ ps.bracketsBehind depth = 0 := by
  induction ps with
  | nil =>
      intro depth
      simp [WellFormed, Fits, bracketsBehind]
  | cons p ps ih =>
      intro depth
      rw [WellFormed, Fits, ih, and_assoc]
      rfl

/-- Every text begins with units, up to its end, a mark outside brackets, or a place where no token
can be cut. -/
theorem exists_fits (depth : Nat) (t : Text) :
    ∃ (ps : Prelude) (after : Text), t = ps.text ++ after ∧ ps.Fits depth after ∧
      ((ps.bracketsBehind depth = 0 ∧ EndsPrelude after) ∨
        (0 < ps.bracketsBehind depth ∧ after = []) ∨
        ∃ c rest e, after = c :: rest ∧
          Token.next (ps.bracketsBehind depth) c rest = .error e) := by
  -- on the length of the text, which is shorter behind each unit
  induction hm : t.length using Nat.strong_induction_on generalizing t depth with
  | _ m ih =>
      cases t with
      | nil =>
          refine ⟨[], [], rfl, trivial, ?_⟩
          rcases Nat.eq_zero_or_pos depth with hdepth | hdepth
          · exact Or.inl ⟨hdepth, Or.inl rfl⟩
          · exact Or.inr (Or.inl ⟨hdepth, rfl⟩)
      | cons c rest =>
          cases hnext : Token.next depth c rest with
          | error e =>
              exact ⟨[], c :: rest, rfl, trivial, Or.inr (Or.inr ⟨c, rest, e, rfl, hnext⟩)⟩
          | ok l =>
              rcases exists_part_of_next_eq_ok hnext with ⟨hdepth, hmark⟩ | ⟨p, after, hp, htext⟩
              · exact ⟨[], c :: rest, rfl, trivial,
                  Or.inl ⟨hdepth, Or.inr ⟨c, rest, rfl, hmark⟩⟩⟩
              · have hlt : after.length < m := hm ▸ length_lt_of_append p.text_ne_nil htext
                obtain ⟨ps, after', rfl, hps, hend⟩ :=
                  ih after.length hlt (p.depthAfter depth) after rfl
                refine ⟨p :: ps, after', ?_, ⟨hp, hps⟩, hend⟩
                rw [← htext, Prelude.text_cons, List.append_assoc]

end Prelude

/-! ## The front of a body -/

/-- A statement starts at every unit but white space and comments. -/
theorem startsStatement_of_isTrivia {p : PreludePart} {after : Text} (h : p.WellFormed 0 after)
    (htrivia : ParseState.isTrivia p.kind = false) : StartsStatement (p.text ++ after) := by
  cases p with
  | literal l =>
      have hquote := isQuote_iff.mp h.1
      refine ⟨_, _, rfl, ?_⟩
      rcases hquote with hq | hq
      · rw [hq]
        simp +decide
      · rw [hq]
        simp +decide
  | interpolation i => exact ⟨_, _, rfl, by decide, by decide, by decide, by simp +decide⟩
  | blockComment t => cases htrivia
  | lineComment t => cases htrivia
  | opening c =>
      refine ⟨c, after, rfl, ?_⟩
      rcases h with rfl | rfl
      · simp +decide
      · simp +decide
  | closing c => exact absurd h.2 (Nat.lt_irrefl 0)
  | byte c =>
      refine ⟨c, after, rfl, ?_, (h.not_mark rfl).1, (h.not_mark rfl).2.2, ?_⟩
      · by_cases hc : Ascii.isSpace c = true
        · rw [PreludePart.kind, if_pos hc] at htrivia
          cases htrivia
        · simpa using hc
      · rintro ⟨rfl, hline | hblock⟩
        · exact h.not_lineComment ⟨rfl, hline, rfl⟩
        · exact h.not_blockComment ⟨rfl, hblock⟩

/-- White space or a comment in front of a body belongs to the body. -/
theorem exists_body_of_trivia {p : PreludePart} {b : Body} {after : Text}
    (h : p.WellFormed 0 (b.text ++ after)) (htrivia : ParseState.isTrivia p.kind = true)
    (hb : b.WellFormed after) :
    ∃ b' : Body, p.text ++ (b.text ++ after) = b'.text ++ after ∧ b'.WellFormed after := by
  cases p with
  | byte c =>
      by_cases hc : Ascii.isSpace c = true
      · exact ⟨.space c b, rfl, hc, hb⟩
      · rw [PreludePart.kind, if_neg hc] at htrivia
        cases htrivia
  | lineComment t =>
      exact ⟨.lineComment t b, by simp [PreludePart.text, Body.text], h.2, hb⟩
  | blockComment t =>
      exact ⟨.blockComment t b, by simp [PreludePart.text, Body.text], h, hb⟩
  | _ => cases htrivia

/-! ## Open bodies -/

/-- Whether a prelude may stand in front of the text `after`. -/
def Prelude.Heads (ps : Prelude) (after : Text) : Prop :=
  StartsStatement (ps.text ++ after) ∧ ps.WellFormed 0 after

/-- What stands between two places between statements: white space, a comment, a semicolon, a
statement, or the head of a block. -/
inductive BodyItem where
  | trivia (p : PreludePart)
  | semicolon
  | leaf (ps : Prelude)
  | block (ps : Prelude) (inner : Body)
  | head (ps : Prelude)

namespace BodyItem

def text : BodyItem → Text
  | .trivia p => p.text
  | .semicolon => [Ascii.semicolon]
  | .leaf ps => ps.text ++ [Ascii.semicolon]
  | .block ps inner => ps.text ++ Ascii.lbrace :: (inner.text ++ [Ascii.rbrace])
  | .head ps => ps.text ++ [Ascii.lbrace]

/-- Whether an item may stand in front of the text `after`. -/
def WellFormed (after : Text) : BodyItem → Prop
  | .trivia p => p.WellFormed 0 after ∧ ParseState.isTrivia p.kind = true
  | .semicolon => True
  | .leaf ps => ps.Heads (Ascii.semicolon :: after)
  | .block ps inner =>
      ps.Heads (Ascii.lbrace :: (inner.text ++ Ascii.rbrace :: after)) ∧
        inner.WellFormed (Ascii.rbrace :: after)
  | .head ps => ps.Heads (Ascii.lbrace :: after)

theorem text_ne_nil (i : BodyItem) : i.text ≠ [] := by
  cases i with
  | trivia p => exact p.text_ne_nil
  | _ => simp [text]

/-- The blocks that an item at offset `pos` opens, by the offset of their statement. -/
def opened (pos : Nat) : BodyItem → List Nat
  | .head _ => [pos]
  | _ => []

end BodyItem

/-- A body that is cut off between two statements, perhaps inside some of its blocks. -/
abbrev OpenBody := List BodyItem

namespace OpenBody

def text (f : OpenBody) : Text := f.flatMap BodyItem.text

/-- Whether an open body may stand in front of the text `after`. -/
def WellFormed (after : Text) : OpenBody → Prop
  | [] => True
  | i :: f => i.WellFormed (text f ++ after) ∧ WellFormed after f

/-- Where the statements start whose blocks are open, innermost first, if the open body starts at
offset `pos`. -/
def starts (pos : Nat) : OpenBody → List Nat
  | [] => []
  | i :: f => starts (pos + i.text.length) f ++ i.opened pos

theorem text_cons (i : BodyItem) (f : OpenBody) : text (i :: f) = i.text ++ text f := by
  rw [text, text, List.flatMap_cons]

end OpenBody

/-! ## Where reading breaks off -/

/-- What keeps the reading of a body from going on behind the open body `f`, which starts at offset
`o`, with the text `u` left; and the syntax error that tells of it. -/
inductive BreaksAt (o : Nat) (f : OpenBody) : Text → SyntaxError → Prop
  /-- The rest of the innermost open block reaches the end of the text. -/
  | block {inner : Body} {k : Nat} : inner.WellFormed [] → (f.starts o).head? = some k →
      BreaksAt o f inner.text ⟨k, .unclosedBlock⟩
  /-- A statement with a bracket left open reaches the end of the text. -/
  | bracket {ps : Prelude} : StartsStatement ps.text → ps.Fits 0 [] → 0 < ps.bracketsBehind 0 →
      BreaksAt o f ps.text ⟨o + f.text.length, .unclosedParenthesis⟩
  /-- No token can be cut, between two statements or inside one. -/
  | token {ps : Prelude} {c : UInt8} {rest : Text} {e : SyntaxError} :
      (ps = [] ∨ StartsStatement (ps.text ++ c :: rest)) → ps.Fits 0 (c :: rest) →
      Token.next (ps.bracketsBehind 0) c rest = .error e →
      BreaksAt o f (ps.text ++ c :: rest) (e.shift (o + f.text.length + ps.text.length))

/-- The reading of a text at offset `o` breaks off. -/
def BreaksOff (o : Nat) (t : Text) : Prop :=
  ∃ (f : OpenBody) (u : Text) (e : SyntaxError), t = f.text ++ u ∧ f.WellFormed u ∧
    BreaksAt o f u e

/-- An item in front does not change why the reading breaks off. In particular a block stays open
around those that are opened inside it. -/
theorem BreaksAt.cons {o : Nat} {i : BodyItem} {f : OpenBody} {u : Text} {e : SyntaxError}
    (h : BreaksAt (o + i.text.length) f u e) : BreaksAt o (i :: f) u e := by
  have hlength : o + i.text.length + f.text.length = o + (OpenBody.text (i :: f)).length := by
    rw [OpenBody.text_cons, List.length_append, Nat.add_assoc]
  cases h with
  | block hinner hk =>
      refine .block hinner ?_
      rw [OpenBody.starts, List.head?_append, hk]
      rfl
  | bracket hstart hps hopen =>
      rw [hlength]
      exact .bracket hstart hps hopen
  | token hstart hps hnext =>
      rw [hlength]
      exact .token hstart hps hnext

namespace BreaksOff

/-- A place where no token can be cut, with no item passed over. -/
theorem token {o : Nat} {ps : Prelude} {c : UInt8} {rest : Text} {e : SyntaxError}
    (hstart : ps = [] ∨ StartsStatement (ps.text ++ c :: rest)) (hps : ps.Fits 0 (c :: rest))
    (hnext : Token.next (ps.bracketsBehind 0) c rest = .error e) :
    BreaksOff o (ps.text ++ c :: rest) :=
  ⟨[], _, _, rfl, trivial, .token hstart hps hnext⟩

theorem cons {o : Nat} {i : BodyItem} {t : Text} (hi : i.WellFormed t)
    (h : BreaksOff (o + i.text.length) t) : BreaksOff o (i.text ++ t) := by
  obtain ⟨f, u, e, rfl, hf, hbreak⟩ := h
  refine ⟨i :: f, u, e, ?_, ⟨hi, hf⟩, hbreak.cons⟩
  rw [OpenBody.text_cons, List.append_assoc]

end BreaksOff

/-- A body starts at the front of a text and goes on up to a closing brace or the end. -/
def StartsBody (t : Text) : Prop :=
  ∃ (b : Body) (after : Text), t = b.text ++ after ∧ b.WellFormed after ∧ EndsBody after

/-- Every item but the head of a block can be put in front of a body. -/
theorem StartsBody.cons {i : BodyItem} {t : Text} (hi : i.WellFormed t)
    (hhead : ∀ ps, i ≠ .head ps) (h : StartsBody t) : StartsBody (i.text ++ t) := by
  obtain ⟨b, after, rfl, hb, hafter⟩ := h
  cases i with
  | trivia p =>
      obtain ⟨b', htext, hb'⟩ := exists_body_of_trivia hi.1 hi.2 hb
      exact ⟨b', after, htext, hb', hafter⟩
  | semicolon => exact ⟨.semicolon b, after, rfl, hb, hafter⟩
  | leaf ps =>
      exact ⟨.leaf ps b, after, by simp [BodyItem.text, Body.text], ⟨hi.1, hi.2, hb⟩, hafter⟩
  | block ps inner =>
      exact ⟨.block ps inner b, after, by simp [BodyItem.text, Body.text],
        ⟨hi.1.1, hi.1.2, hi.2, hb⟩, hafter⟩
  | head ps => exact absurd rfl (hhead ps)

/-- Where no statement starts, a body ends, or there is an item in between, or no token can be
cut. -/
theorem exists_item_of_not_startsStatement {t : Text} (h : ¬ StartsStatement t) :
    EndsBody t ∨
      (∃ (i : BodyItem) (u : Text), i.text ++ u = t ∧ i.WellFormed u ∧ ∀ ps, i ≠ .head ps) ∨
      ∃ c rest e, t = c :: rest ∧ Token.next 0 c rest = .error e := by
  cases t with
  | nil => exact Or.inl (Or.inl rfl)
  | cons c rest =>
      cases hnext : Token.next 0 c rest with
      | error e => exact Or.inr (Or.inr ⟨c, rest, e, rfl, hnext⟩)
      | ok l =>
          rcases exists_part_of_next_eq_ok hnext with ⟨-, rfl | rfl | rfl⟩ | ⟨p, u, hp, htext⟩
          · exact Or.inr (Or.inl ⟨.semicolon, rest, rfl, trivial, by simp⟩)
          · exact absurd ⟨_, _, rfl, by decide, by decide, by decide, by simp +decide⟩ h
          · exact Or.inl (Or.inr ⟨rest, rfl⟩)
          · have htrivia : ParseState.isTrivia p.kind = true := by
              by_contra hnot
              rw [← htext] at h
              exact h (startsStatement_of_isTrivia hp (by simpa using hnot))
            exact Or.inr (Or.inl ⟨.trivia p, u, htext, ⟨hp, htrivia⟩, by simp⟩)

/-- **At the front of every text a body starts, or the reading breaks off.** -/
theorem startsBody_or_breaksOff (o : Nat) (t : Text) : StartsBody t ∨ BreaksOff o t := by
  -- on the length of the text, which is shorter behind each item
  induction hm : t.length using Nat.strong_induction_on generalizing t o with
  | _ m ih =>
      have hcons : ∀ {i : BodyItem} {u : Text}, i.text ++ u = t → i.WellFormed u →
          (∀ ps, i ≠ .head ps) → StartsBody t ∨ BreaksOff o t := by
        rintro i u rfl hi hhead
        have hlt : u.length < m := hm ▸ length_lt_of_append i.text_ne_nil rfl
        exact (ih u.length hlt (o + i.text.length) u rfl).imp (.cons hi hhead) (.cons hi)
      by_cases hstart : StartsStatement t
      · -- a statement: its units, and then what stands behind them
        obtain ⟨ps, rest, rfl, hps, hend⟩ := Prelude.exists_fits 0 t
        rcases hend with ⟨hclosed, hend⟩ | ⟨hopen, rfl⟩ | ⟨c, rest, e, rfl, hnext⟩
        · have hhead : ps.Heads rest := ⟨hstart, Prelude.wellFormed_iff.mpr ⟨hps, hclosed⟩⟩
          rcases hend with rfl | ⟨c, rest, rfl, rfl | rfl | rfl⟩
          · exact Or.inl ⟨.last ps, [], rfl, hhead, Or.inl rfl⟩
          · exact hcons (i := .leaf ps) (u := rest) (by simp [BodyItem.text]) hhead (by simp)
          · -- a block: its body ends at its closing brace, or the block stays open
            have htext : (BodyItem.head ps).text ++ rest = ps.text ++ Ascii.lbrace :: rest := by
              simp [BodyItem.text]
            have hlt : rest.length < m :=
              hm ▸ length_lt_of_append (BodyItem.head ps).text_ne_nil htext
            rcases ih rest.length hlt (o + (BodyItem.head ps).text.length) rest rfl with
              ⟨inner, rest, rfl, hinner, rfl | ⟨rest, rfl⟩⟩ | hbreak
            · right
              rw [List.append_nil] at hhead ⊢
              exact ⟨[.head ps], inner.text, _, by simp [OpenBody.text, BodyItem.text],
                ⟨hhead, trivial⟩, .block hinner rfl⟩
            · exact hcons (i := .block ps inner) (u := rest) (by simp [BodyItem.text])
                ⟨hhead, hinner⟩ (by simp)
            · exact Or.inr (htext ▸ hbreak.cons (i := .head ps) hhead)
          · exact Or.inl ⟨.last ps, _, rfl, hhead, Or.inr ⟨rest, rfl⟩⟩
        · right
          rw [List.append_nil] at hstart ⊢
          exact ⟨[], ps.text, _, rfl, trivial, .bracket hstart hps hopen⟩
        · exact Or.inr (.token (Or.inr hstart) hps hnext)
      · rcases exists_item_of_not_startsStatement hstart with
          hend | ⟨i, u, htext, hi, hhead⟩ | ⟨c, rest, e, rfl, hnext⟩
        · exact Or.inl ⟨.done, t, rfl, trivial, hend⟩
        · exact hcons htext hi hhead
        · exact Or.inr (@BreaksOff.token o [] c rest e (Or.inl rfl) trivial hnext)

end StyleIndex
