import Mathlib.Tactic
import StyleIndex.Editor.Call
import StyleIndex.Proofs.Grammar.Placement

set_option autoImplicit false

/-! # The call around a cursor

The call around a cursor is searched for by a scan from the start of the text. The scan is not the
lexer: it drops all open parentheses at a `;`, `{` or `}`, wherever it stands, looks for comments
inside interpolations, and tells line comments by the parentheses it has open.

`findCall?_enclosing` compares it with the brackets that the lexer has open at the cursor. What
carries the argument is that the scan stands between two tokens whenever the lexer does, with a
stack that can be read off the tokens alone (`parensBehind`); this is so while it takes slashes and
interpolations for what they are (`keepsUp`). At a statement the stack is empty, whatever came
before. From there on it holds the open parentheses of the prelude, unless one of the three marks
stands inside them (`unbroken`). Such a mark hides the call (`findCall?_semicolon`).
-/

namespace StyleIndex

/-! ## What the scan does at a token -/

/-- The bytes at which the scan drops what is open. -/
def dropsParens (t : Text) : Bool :=
  t == [Ascii.semicolon] || t == [Ascii.lbrace] || t == [Ascii.rbrace]

/-- The offsets of the open parentheses of the scan behind a token at offset `pos`, innermost
first. -/
def Token.parensAfter (pos : Nat) (parens : List Nat) (k : Token) : List Nat :=
  if k.text = [Ascii.lparen] then pos :: parens
  else if k.text = [Ascii.rparen] then parens.tail
  else if dropsParens k.text then []
  else parens

/-- The open parentheses of the scan behind a row of tokens. -/
def Token.parensBehind (pos : Nat) (parens : List Nat) : List Token → List Nat
  | [] => parens
  | k :: ks => parensBehind (pos + k.text.length) (k.parensAfter pos parens) ks

/-- Meets a closing parenthesis; `true` stands for a parenthesis, `false` for an interpolation. -/
def closeParenKind : List Bool → List Bool
  | true :: kinds => kinds
  | kinds => kinds

/-- Whether the scan comes out of an interpolation at its end. It stands behind the opening of the
interpolation; `kinds` are the parentheses and interpolations open in it, itself the last one, and
`outer` tells whether a parenthesis is open around it. There may be no marks, no braces but those of
interpolations, and two slashes in a row only inside parentheses. -/
def passesInside (outer : Bool) (kinds : List Bool) : Text → Bool
  | [] => kinds.isEmpty
  | c :: rest =>
    if kinds.isEmpty then false
    else if Ascii.isQuote c then
      match Token.literalLength? c rest with
      | some n => passesInside outer kinds (rest.drop n)
      | none => false
    else if c = Ascii.slash ∧ rest.head? = some Ascii.star then
      match Text.indexOf? [Ascii.star, Ascii.slash] rest.tail with
      | some i => passesInside outer kinds (rest.drop (i + 3))
      | none => false
    else if c = Ascii.slash ∧ rest.head? = some Ascii.slash ∧ ¬ (outer || kinds.any id) then false
    else if c = Ascii.hash ∧ rest.head? = some Ascii.lbrace then
      passesInside outer (false :: kinds) (rest.drop 1)
    else if c = Ascii.lparen then passesInside outer (true :: kinds) rest
    else if c = Ascii.rparen then passesInside outer (closeParenKind kinds) rest
    else if c = Ascii.rbrace then
      if kinds.head? = some false then passesInside outer kinds.tail rest else false
    else if c = Ascii.semicolon ∨ c = Ascii.lbrace then false
    else passesInside outer kinds rest
termination_by t => t.length
decreasing_by all_goals (simp only [List.length_drop, List.length_cons]; omega)

/-- Whether the scan stands behind a token when it has passed it, with `parens` open in front of the
token and the byte `next` behind it: it takes a line comment for one outside parentheses only, and
two other slashes for none inside parentheses only. -/
def Token.isFollowed (parens : List Nat) (next : Option UInt8) (k : Token) : Bool :=
  match k.kind with
  | .lineComment => parens.isEmpty && k.text.getLast? == some Ascii.lf
  | .interpolation => passesInside (!parens.isEmpty) [false] (k.text.drop 2)
  | .plain => !(parens.isEmpty && k.text == [Ascii.slash] && next == some Ascii.slash)
  | _ => true

/-- Whether the scan stands behind each token of a row. -/
def keepsUp (pos : Nat) (parens : List Nat) : List Token → Bool
  | [] => true
  | k :: ks => k.isFollowed parens (Token.spelling ks).head? &&
      keepsUp (pos + k.text.length) (k.parensAfter pos parens) ks

theorem Token.parensBehind_append (us vs : List Token) : ∀ (pos : Nat) (parens : List Nat),
    parensBehind pos parens (us ++ vs)
      = parensBehind (pos + (spelling us).length) (parensBehind pos parens us) vs := by
  induction us with
  | nil =>
      intro pos parens
      rfl
  | cons k us ih =>
      intro pos parens
      have hlength : (spelling (k :: us)).length = k.text.length + (spelling us).length := by
        simp [spelling]
      rw [List.cons_append, parensBehind, parensBehind, ih, hlength, Nat.add_assoc]

/-! ## Literals, comments and interpolations -/

section Scan

variable {pos : Nat} {frames : List CallFrame}

theorem openFrames?_nil : openFrames? pos frames [] = some frames := by rw [openFrames?]

theorem quotedLength_append {q : UInt8} (hq : Ascii.isQuote q = true) {parts : List LiteralPart}
    (h : ∀ p ∈ parts, p.WellFormed q) (after : Text) :
    quotedLength q (parts.flatMap LiteralPart.text ++ q :: after)
      = (parts.flatMap LiteralPart.text).length + 1 := by
  obtain ⟨hback, -⟩ := ne_of_isQuote hq
  induction parts with
  | nil =>
      rw [List.flatMap_nil, List.nil_append, quotedLength.eq_def]
      simp [hback]
  | cons p parts ih =>
      have ih' := ih fun p' hp' => h p' (List.mem_cons_of_mem _ hp')
      have hp := h p List.mem_cons_self
      cases p with
      | byte c =>
          simp only [List.flatMap_cons, LiteralPart.text, List.cons_append, List.nil_append]
          rw [quotedLength.eq_def]
          simp [hp.1, hp.2.1, ih']
      | escaped c =>
          simp only [List.flatMap_cons, LiteralPart.text, List.cons_append, List.nil_append]
          rw [quotedLength.eq_def]
          simp [ih']

theorem openFrames?_literal {l : Literal} (hl : l.WellFormed) (rest : Text) :
    openFrames? pos frames (l.text ++ rest)
      = openFrames? (pos + l.text.length) frames rest := by
  have hlength := quotedLength_append hl.1 hl.2 rest
  have hsplit : l.parts.flatMap LiteralPart.text ++ l.quote :: rest
      = (l.parts.flatMap LiteralPart.text ++ [l.quote]) ++ rest := by simp
  rw [Literal.text, List.cons_append, List.append_assoc, List.singleton_append, openFrames?,
    if_pos hl.1, hlength]
  show openFrames? _ frames (List.drop _ _) = _
  rw [hsplit, List.drop_left' (by simp)]
  congr 1
  simp only [List.length_cons, List.length_append, List.length_nil]
  omega

theorem openFrames?_blockComment {t : Text} (ht : IsCommentText t) (rest : Text) :
    openFrames? pos frames ((PreludePart.blockComment t).text ++ rest)
      = openFrames? (pos + (PreludePart.blockComment t).text.length) frames rest := by
  have hend := indexOf?_of_isCommentText ht rest
  have htext : (PreludePart.blockComment t).text ++ rest
      = Ascii.slash :: Ascii.star :: (t ++ ([Ascii.star, Ascii.slash] ++ rest)) := by
    simp [PreludePart.text]
  rw [htext, openFrames?, if_neg (by decide), if_pos ⟨rfl, rfl⟩, List.tail_cons, hend]
  simp only
  rw [List.drop_succ_cons, ← List.append_assoc, List.drop_left' (by simp)]
  congr 1
  simp only [PreludePart.text, List.length_cons, List.length_append, List.length_nil]
  omega

theorem openFrames?_lineComment {t : Text} (ht : Ascii.lf ∉ t)
    (hframes : frames.any CallFrame.isParen = false) (rest : Text) :
    openFrames? pos frames (Ascii.slash :: Ascii.slash :: (t ++ Ascii.lf :: rest))
      = openFrames? (pos + (t.length + 3)) frames rest := by
  have hindex : Text.byteIndex? Ascii.lf (Ascii.slash :: (t ++ Ascii.lf :: rest))
      = some (t.length + 1) := by
    have hslash : Ascii.lf ∉ Ascii.slash :: t := by
      rw [List.mem_cons, not_or]
      exact ⟨by decide, ht⟩
    exact Text.byteIndex?_append hslash rest
  rw [openFrames?, if_neg (by decide), if_neg (by simp +decide), if_pos (by simp [hframes]), hindex]
  simp only
  rw [List.drop_succ_cons, List.append_cons, List.drop_left' (by simp)]
  congr 1
  omega

/-- The frames behind a byte that begins no literal, comment or interpolation. -/
def framesAfter (pos : Nat) (frames : List CallFrame) (c : UInt8) : List CallFrame :=
  if c = Ascii.lparen then .paren pos :: frames
  else if c = Ascii.rparen then CallFrame.closeParen frames
  else if c = Ascii.rbrace then CallFrame.closeBrace frames
  else if c = Ascii.semicolon ∨ c = Ascii.lbrace then []
  else frames

theorem openFrames?_byte {c : UInt8} {rest : Text} (hquote : Ascii.isQuote c = false)
    (hblock : ¬ (c = Ascii.slash ∧ rest.head? = some Ascii.star))
    (hline : ¬ (c = Ascii.slash ∧ rest.head? = some Ascii.slash ∧
      ¬ frames.any CallFrame.isParen = true))
    (hinterpolation : ¬ (c = Ascii.hash ∧ rest.head? = some Ascii.lbrace)) :
    openFrames? pos frames (c :: rest) = openFrames? (pos + 1) (framesAfter pos frames c) rest := by
  rw [openFrames?, if_neg (by simp [hquote]), if_neg hblock, if_neg hline, if_neg hinterpolation,
    framesAfter]
  split_ifs <;> rfl

theorem openFrames?_interpolation (rest : Text) :
    openFrames? pos frames (Ascii.hash :: Ascii.lbrace :: rest)
      = openFrames? (pos + 2) (.interpolation :: frames) rest := by
  rw [openFrames?, if_neg (by decide), if_neg (by simp +decide), if_neg (by simp +decide),
    if_pos ⟨rfl, rfl⟩]
  rfl

/-- A closing parenthesis meets what is open in an interpolation, and nothing around it. -/
theorem closeParen_append {inner : List CallFrame} (hne : inner ≠ []) :
    CallFrame.closeParen (inner ++ frames) = CallFrame.closeParen inner ++ frames ∧
      (CallFrame.closeParen inner).map CallFrame.isParen
        = closeParenKind (inner.map CallFrame.isParen) := by
  cases inner with
  | nil => exact absurd rfl hne
  | cons f inner => cases f <;> exact ⟨rfl, rfl⟩

/-- The scan comes out of an interpolation from a byte that begins nothing, if it does so from the
byte behind it. -/
theorem openFrames?_insideByte {c : UInt8} {inner : List CallFrame} {u rest : Text}
    (inner' : List CallFrame) (hquote : Ascii.isQuote c = false)
    (hblock : ¬ (c = Ascii.slash ∧ (u ++ rest).head? = some Ascii.star))
    (hline : ¬ (c = Ascii.slash ∧ (u ++ rest).head? = some Ascii.slash ∧
      ¬ (inner ++ frames).any CallFrame.isParen = true))
    (hhash : ¬ (c = Ascii.hash ∧ (u ++ rest).head? = some Ascii.lbrace))
    (hframes : framesAfter pos (inner ++ frames) c = inner' ++ frames)
    (hrest : openFrames? (pos + 1) (inner' ++ frames) (u ++ rest)
      = openFrames? (pos + 1 + u.length) frames rest) :
    openFrames? pos (inner ++ frames) (c :: u ++ rest)
      = openFrames? (pos + (c :: u).length) frames rest := by
  rw [List.cons_append, openFrames?_byte hquote hblock hline hhash, hframes, hrest,
    List.length_cons, Nat.add_assoc, Nat.add_comm 1]

/-- **The scan comes out of an interpolation with what was open in front of it.** -/
theorem openFrames?_inside {kinds : List Bool} {u : Text}
    (h : passesInside (frames.any CallFrame.isParen) kinds u = true) :
    ∀ (inner : List CallFrame), inner.map CallFrame.isParen = kinds →
      ∀ (pos : Nat) (rest : Text), openFrames? pos (inner ++ frames) (u ++ rest)
        = openFrames? (pos + u.length) frames rest := by
  fun_induction passesInside (frames.any CallFrame.isParen) kinds u with
  | case1 kinds =>
      intro inner hinner pos rest
      obtain rfl : inner = [] := by
        rw [List.isEmpty_iff] at h
        rw [h] at hinner
        exact List.map_eq_nil_iff.mp hinner
      rfl
  | case2 => cases h
  | case3 kinds c rest hne hq n hn ih =>
      intro inner hinner pos after
      obtain ⟨parts, back, rfl, rfl, hparts⟩ := Token.exists_parts_of_literalLength? hn
      have hliteral : Literal.WellFormed ⟨c, parts⟩ := ⟨hq, hparts⟩
      have htext : c :: (parts.flatMap LiteralPart.text ++ c :: back)
          = Literal.text ⟨c, parts⟩ ++ back := by simp [Literal.text]
      have hdrop : (parts.flatMap LiteralPart.text ++ c :: back).drop
          ((parts.flatMap LiteralPart.text).length + 1) = back := by
        rw [List.append_cons]
        exact List.drop_left' (by simp)
      rw [hdrop] at h ih
      rw [htext, List.append_assoc, openFrames?_literal hliteral, ih h inner hinner,
        List.length_append, Nat.add_assoc]
  | case4 => cases h
  | case5 kinds c rest hne hq hblock i hi ih =>
      intro inner hinner pos after
      obtain ⟨rfl, hstar⟩ := hblock
      obtain ⟨v, rfl⟩ := eq_cons_of_head? hstar
      obtain ⟨w, back, hv, rfl, hw⟩ := exists_isCommentText_of_indexOf? hi
      obtain rfl : v = w ++ ([Ascii.star, Ascii.slash] ++ back) := hv
      have htext : Ascii.slash :: Ascii.star :: (w ++ ([Ascii.star, Ascii.slash] ++ back))
          = (PreludePart.blockComment w).text ++ back := by simp [PreludePart.text]
      have hdrop : (Ascii.star :: (w ++ ([Ascii.star, Ascii.slash] ++ back))).drop (w.length + 3)
          = back := by
        rw [List.drop_succ_cons, ← List.append_assoc]
        exact List.drop_left' (by simp)
      rw [hdrop] at h ih
      rw [htext, List.append_assoc, openFrames?_blockComment hw, ih h inner hinner,
        List.length_append, Nat.add_assoc]
  | case6 => cases h
  | case7 => cases h
  | case8 kinds c rest hne hq hblock hline hhash ih =>
      intro inner hinner pos after
      obtain ⟨rfl, hbrace⟩ := hhash
      obtain ⟨v, rfl⟩ := eq_cons_of_head? hbrace
      have hkinds : (CallFrame.interpolation :: inner).map CallFrame.isParen = false :: kinds := by
        rw [List.map_cons, hinner]
        rfl
      have hrest := ih h _ hkinds (pos + 2) after
      rw [List.cons_append, List.cons_append, openFrames?_interpolation]
      refine hrest.trans ?_
      congr 1
      simp only [List.drop_succ_cons, List.drop_zero, List.length_cons]
      omega
  | case9 kinds rest hne hq hblock hline hhash ih =>
      intro inner hinner pos after
      refine openFrames?_insideByte (.paren pos :: inner) (by decide) (by simp +decide)
        (by simp +decide) (by simp +decide) rfl ?_
      exact ih h _ (by rw [List.map_cons, hinner]; rfl) _ _
  | case10 kinds rest hne hq hblock hline hhash hparen ih =>
      intro inner hinner pos after
      have hnot : inner ≠ [] := by
        rintro rfl
        exact hne (by rw [← hinner]; rfl)
      obtain ⟨hclose, hkinds⟩ := @closeParen_append frames inner hnot
      refine openFrames?_insideByte _ (by decide) (by simp +decide) (by simp +decide)
        (by simp +decide) hclose ?_
      exact ih h _ (by rw [hkinds, hinner]) _ _
  | case11 kinds rest hne hfalse hq hblock hline hhash hl hr ih =>
      intro inner hinner pos after
      cases inner with
      | nil => exact absurd (by rw [← hinner]; rfl) hne
      | cons f inner =>
          rw [← hinner] at hfalse h ih
          cases f with
          | paren offset => cases hfalse
          | interpolation =>
              refine openFrames?_insideByte inner (by decide) (by simp +decide)
                (by simp +decide) (by simp +decide) rfl ?_
              exact ih h inner rfl _ _
  | case12 => cases h
  | case13 => cases h
  | case14 kinds c rest hne hq hblock hline hhash hl hr hb hm ih =>
      intro inner hinner pos after
      -- the interpolation goes on behind the byte
      cases rest with
      | nil =>
          rw [passesInside] at h
          exact absurd h hne
      | cons d rest =>
          have hany : (inner ++ frames).any CallFrame.isParen
              = (frames.any CallFrame.isParen || kinds.any id) := by
            rw [← hinner, List.any_append, List.any_map, Function.id_comp, Bool.or_comm]
          refine openFrames?_insideByte inner (by simpa using hq) hblock ?_ hhash ?_
            (ih h inner hinner _ _)
          · rw [hany]
            exact hline
          · rw [framesAfter, if_neg hl, if_neg hr, if_neg hb, if_neg hm]

end Scan

/-! ## Rows of tokens -/

theorem framesAfter_paren (pos : Nat) (parens : List Nat) (kind : TokenKind) (c : UInt8) :
    framesAfter pos (parens.map .paren) c
      = (Token.parensAfter pos parens ⟨kind, [c]⟩).map .paren := by
  have hsingle : ∀ d : UInt8, ([c] = [d]) = (c = d) := fun d => by simp
  simp only [framesAfter, Token.parensAfter, dropsParens, Bool.or_eq_true, beq_iff_eq, hsingle]
  by_cases hl : c = Ascii.lparen
  · simp [hl]
  by_cases hr : c = Ascii.rparen
  · subst hr
    cases parens <;> rfl
  by_cases hb : c = Ascii.rbrace
  · subst hb
    cases parens <;> rfl
  · by_cases hm : c = Ascii.semicolon ∨ c = Ascii.lbrace
    · simp [hl, hr, hb, hm]
    · simp [hl, hr, hb, hm]

theorem any_isParen (parens : List Nat) :
    (parens.map CallFrame.paren).any CallFrame.isParen = !parens.isEmpty := by
  cases parens <;> rfl

/-- A token of more than one byte leaves the parentheses as they are. -/
theorem parensAfter_of_length {k : Token} (h : k.text.length ≠ 1) (pos : Nat)
    (parens : List Nat) : k.parensAfter pos parens = parens := by
  have hne : ∀ c : UInt8, k.text ≠ [c] := by
    intro c hc
    exact h (by rw [hc]; rfl)
  simp [Token.parensAfter, dropsParens, hne]

/-- A line comment that ends with a line feed has no other one. -/
theorem exists_line_of_getLast? {t after : Text} {depth : Nat}
    (h : (PreludePart.lineComment t).WellFormed depth after)
    (hlast : (PreludePart.lineComment t).text.getLast? = some Ascii.lf) :
    ∃ v, t = v ++ [Ascii.lf] ∧ Ascii.lf ∉ v := by
  obtain ⟨-, hline | ⟨hnot, -⟩⟩ := h
  · exact hline
  · exfalso
    cases t with
    | nil => exact absurd hlast (by decide)
    | cons c t =>
        rw [PreludePart.text, List.getLast?_cons_cons, List.getLast?_cons_cons] at hlast
        exact hnot (List.mem_of_getLast? hlast)

/-- **The scan stands behind a unit that it follows.** The bytes `u` behind the unit are those that
follow it in the text, or some of them. -/
theorem openFrames?_part {p : PreludePart} {depth : Nat} {after u : Text}
    (hp : p.WellFormed depth after) (hu : u <+: after) {parens : List Nat}
    (hfollowed : Token.isFollowed parens u.head? ⟨p.kind, p.text⟩ = true) (pos : Nat) :
    openFrames? pos (parens.map .paren) (p.text ++ u)
      = openFrames? (pos + p.text.length)
        ((Token.parensAfter pos parens ⟨p.kind, p.text⟩).map .paren) u := by
  have hhead : ∀ c, u.head? = some c → after.head? = some c := by
    intro c hc
    obtain ⟨v, rfl⟩ := hu
    rw [List.head?_append, hc]
    rfl
  cases p with
  | literal l =>
      rw [parensAfter_of_length (by simp [PreludePart.text, Literal.text])]
      exact openFrames?_literal hp u
  | interpolation i =>
      have htext : (PreludePart.interpolation i).text ++ u
          = Ascii.hash :: Ascii.lbrace :: ((PreludePart.interpolation i).text.drop 2 ++ u) := rfl
      have hinside : passesInside ((parens.map CallFrame.paren).any CallFrame.isParen) [false]
          ((PreludePart.interpolation i).text.drop 2) = true := by
        rw [any_isParen]
        exact hfollowed
      rw [parensAfter_of_length (by simp [PreludePart.text]), htext, openFrames?_interpolation]
      refine (openFrames?_inside hinside [.interpolation] rfl (pos + 2) u).trans ?_
      congr 1
      simp only [PreludePart.text, List.drop_succ_cons, List.drop_zero, List.length_cons]
      omega
  | blockComment t =>
      rw [parensAfter_of_length (by simp [PreludePart.text])]
      exact openFrames?_blockComment hp u
  | lineComment t =>
      simp only [Token.isFollowed, PreludePart.kind, Bool.and_eq_true, List.isEmpty_iff,
        beq_iff_eq] at hfollowed
      obtain ⟨rfl, hlast⟩ := hfollowed
      obtain ⟨v, rfl, hv⟩ := exists_line_of_getLast? hp hlast
      have htext : (PreludePart.lineComment (v ++ [Ascii.lf])).text ++ u
          = Ascii.slash :: Ascii.slash :: (v ++ Ascii.lf :: u) := by simp [PreludePart.text]
      have hlength : (PreludePart.lineComment (v ++ [Ascii.lf])).text.length = v.length + 3 := by
        simp [PreludePart.text]
      rw [parensAfter_of_length (by simp [PreludePart.text]), htext, hlength]
      exact openFrames?_lineComment hv rfl u
  | opening c =>
      rcases hp with rfl | rfl
      all_goals
        refine (openFrames?_byte (by decide) (by simp +decide) (by simp +decide)
          (by simp +decide)).trans ?_
        rw [framesAfter_paren pos parens .opening]
        rfl
  | closing c =>
      rcases hp.1 with rfl | rfl
      all_goals
        refine (openFrames?_byte (by decide) (by simp +decide) (by simp +decide)
          (by simp +decide)).trans ?_
        rw [framesAfter_paren pos parens .closing]
        rfl
  | byte c =>
      refine (openFrames?_byte hp.not_quote (fun h => hp.not_blockComment ⟨h.1, hhead _ h.2⟩) ?_
        (fun h => hp.not_interpolation ⟨h.1, hhead _ h.2⟩)).trans ?_
      · -- two slashes outside brackets are a comment of the lexer, too
        rintro ⟨rfl, hnext, hnone⟩
        rw [any_isParen, Bool.not_eq_true, Bool.not_eq_false'] at hnone
        have hplain : (PreludePart.byte Ascii.slash).kind = .plain := rfl
        simp [Token.isFollowed, hplain, hnone, hnext, PreludePart.text] at hfollowed
      · rw [framesAfter_paren pos parens (PreludePart.byte c).kind]
        rfl

/-- The first tokens of a text spell its beginning. -/
theorem isPrefix_spelling {ks later : List Token} : ∀ {depth : Nat} {t : Text},
    (tokenize depth t).tokens = ks ++ later → Token.spelling ks <+: t := by
  induction ks with
  | nil =>
      intro depth t _
      exact List.nil_prefix
  | cons k ks ih =>
      intro depth t h
      have hspelling : Token.spelling (k :: ks) = k.text ++ Token.spelling ks := rfl
      rw [hspelling]
      rcases tokenize_cases h with ⟨-, -, -, -, rest, rfl, hks⟩ | ⟨p, after, -, rfl, rfl, hks⟩
      · exact List.prefix_append_right_inj _ |>.mpr (ih hks)
      · exact List.prefix_append_right_inj _ |>.mpr (ih hks)

/-- **The stack of the scan behind tokens that it follows.** -/
theorem openFrames?_spelling {ks later : List Token} : ∀ {depth : Nat} {t : Text} {pos : Nat}
    {parens : List Nat}, (tokenize depth t).tokens = ks ++ later → keepsUp pos parens ks = true →
      openFrames? pos (parens.map .paren) (Token.spelling ks)
        = some ((Token.parensBehind pos parens ks).map .paren) := by
  induction ks with
  | nil =>
      intro depth t pos parens _ _
      exact openFrames?_nil
  | cons k ks ih =>
      intro depth t pos parens h hkeeps
      have hspelling : Token.spelling (k :: ks) = k.text ++ Token.spelling ks := rfl
      rw [keepsUp, Bool.and_eq_true] at hkeeps
      rw [hspelling, Token.parensBehind]
      rcases tokenize_cases h with ⟨-, -, ⟨c, hc, htext⟩, -, rest, rfl, hks⟩ |
        ⟨p, after, hp, rfl, rfl, hks⟩
      · obtain ⟨kind, u⟩ := k
        obtain rfl : u = [c] := htext
        rw [← ih hks hkeeps.2, ← framesAfter_paren]
        rcases hc with rfl | rfl | rfl
        all_goals
          exact openFrames?_byte (by decide) (by simp +decide) (by simp +decide) (by simp +decide)
      · rw [openFrames?_part hp (isPrefix_spelling hks) hkeeps.1]
        exact ih hks hkeeps.2

/-! ## Brackets of the lexer -/

/-- The brackets open behind a token at offset `pos`, each with its offset, innermost first; nothing
when the token closes another kind of bracket than the innermost. -/
def Token.bracketsAfter? (pos : Nat) (brackets : List (UInt8 × Nat)) (k : Token) :
    Option (List (UInt8 × Nat)) :=
  match k.kind with
  | .opening => some (k.text.map (·, pos) ++ brackets)
  | .closing =>
    if (brackets.head?.map fun b => [closerOf b.1]) = some k.text then some brackets.tail else none
  | _ => some brackets

/-- The brackets open behind a row of tokens. -/
def openBrackets? (pos : Nat) (brackets : List (UInt8 × Nat)) :
    List Token → Option (List (UInt8 × Nat))
  | [] => some brackets
  | k :: ks => (k.bracketsAfter? pos brackets).bind fun behind =>
      openBrackets? (pos + k.text.length) behind ks

/-- Whether none of the marks `;`, `{` and `}` stands where the scan has a parenthesis open. -/
def unbroken (pos : Nat) (parens : List Nat) : List Token → Bool
  | [] => true
  | k :: ks => (parens.isEmpty || !dropsParens k.text) &&
      unbroken (pos + k.text.length) (k.parensAfter pos parens) ks

/-- The offsets of the parentheses among brackets. -/
def parenthesesOf (brackets : List (UInt8 × Nat)) : List Nat :=
  (brackets.filter fun b => b.1 == Ascii.lparen).map Prod.snd

/-- The offset of the innermost parenthesis among brackets. -/
def innermostParenthesis? (brackets : List (UInt8 × Nat)) : Option Nat :=
  (brackets.find? fun b => b.1 == Ascii.lparen).map Prod.snd

theorem head?_parenthesesOf (brackets : List (UInt8 × Nat)) :
    (parenthesesOf brackets).head? = innermostParenthesis? brackets := by
  rw [parenthesesOf, List.head?_map, List.head?_filter, innermostParenthesis?]

theorem eq_of_closerOf {o : UInt8} :
    (closerOf o = Ascii.rparen → o = Ascii.lparen) ∧
      (closerOf o = Ascii.rbracket → o = Ascii.lbracket) := by
  unfold closerOf
  split_ifs with hparen hbracket
  · exact ⟨fun _ => hparen, fun h => absurd h (by decide)⟩
  · exact ⟨fun h => absurd h (by decide), fun _ => hbracket⟩
  · exact ⟨fun h => absurd h (by decide), fun h => absurd h (by decide)⟩

/-- A unit does to the parentheses of the scan what it does to the brackets of the lexer. -/
theorem parensAfter_part {p : PreludePart} {depth : Nat} {after : Text}
    (hp : p.WellFormed depth after) {pos : Nat} {brackets behind : List (UInt8 × Nat)}
    (hbrackets : Token.bracketsAfter? pos brackets ⟨p.kind, p.text⟩ = some behind)
    (hmark : dropsParens p.text = true → parenthesesOf brackets = []) :
    Token.parensAfter pos (parenthesesOf brackets) ⟨p.kind, p.text⟩ = parenthesesOf behind := by
  cases p with
  | literal l =>
      cases hbrackets
      exact parensAfter_of_length (by simp [PreludePart.text, Literal.text]) _ _
  | interpolation i =>
      cases hbrackets
      exact parensAfter_of_length (by simp [PreludePart.text]) _ _
  | blockComment t =>
      cases hbrackets
      exact parensAfter_of_length (by simp [PreludePart.text]) _ _
  | lineComment t =>
      cases hbrackets
      exact parensAfter_of_length (by simp [PreludePart.text]) _ _
  | opening c =>
      obtain rfl : (c, pos) :: brackets = behind := Option.some.inj hbrackets
      rcases hp with rfl | rfl
      · rfl
      · rfl
  | closing c =>
      simp only [Token.bracketsAfter?, PreludePart.kind] at hbrackets
      split_ifs at hbrackets with hfit
      cases hbrackets
      obtain ⟨⟨o, offset⟩, hhead, hcloser⟩ := Option.map_eq_some_iff.mp hfit
      obtain ⟨outer, rfl⟩ := List.head?_eq_some_iff.mp hhead
      have hcloser : closerOf o = c := List.singleton_inj.mp hcloser
      rcases hp.1 with rfl | rfl
      · obtain rfl := eq_of_closerOf.1 hcloser
        rfl
      · obtain rfl := eq_of_closerOf.2 hcloser
        rfl
  | byte c =>
      obtain ⟨hl, -, hr, -⟩ := hp.not_bracket
      obtain rfl : brackets = behind := by
        by_cases hc : Ascii.isSpace c = true
        · simpa [Token.bracketsAfter?, PreludePart.kind, hc] using hbrackets
        · simpa [Token.bracketsAfter?, PreludePart.kind, hc] using hbrackets
      have hne : ∀ d, c ≠ d → (PreludePart.byte c).text ≠ [d] := by
        intro d hd h
        exact hd (List.singleton_inj.mp h)
      unfold Token.parensAfter
      rw [if_neg (hne _ hl), if_neg (hne _ hr)]
      split_ifs with hdrops
      · rw [hmark hdrops]
      · rfl

/-- **In a prelude the scan has the parentheses of the lexer open.** -/
theorem parensBehind_of_openBrackets? {depth : Nat} {t : Text} {ks : List Token}
    (hks : ∀ k ∈ ks, k ∈ (tokenize depth t).tokens) (hmarks : ∀ k ∈ ks, k.kind.isMark = false) :
    ∀ {pos : Nat} {brackets behind : List (UInt8 × Nat)},
      openBrackets? pos brackets ks = some behind →
      unbroken pos (parenthesesOf brackets) ks = true →
      Token.parensBehind pos (parenthesesOf brackets) ks = parenthesesOf behind := by
  induction ks with
  | nil =>
      intro pos brackets behind hopen _
      cases hopen
      rfl
  | cons k ks ih =>
      intro pos brackets behind hopen hunbroken
      obtain ⟨hk, hothers⟩ := List.forall_mem_cons.mp hks
      obtain ⟨hkmark, hothersMark⟩ := List.forall_mem_cons.mp hmarks
      obtain ⟨middle, hmiddle, hrest⟩ := Option.bind_eq_some_iff.mp hopen
      rw [unbroken, Bool.and_eq_true, Bool.or_eq_true, List.isEmpty_iff] at hunbroken
      rcases exists_part_of_mem_tokens hk with ⟨hmark, -⟩ | ⟨p, d, after, hp, rfl⟩
      · rw [hmark] at hkmark
        cases hkmark
      · have hstep := parensAfter_part hp hmiddle (fun hdrops => by
          rcases hunbroken.1 with hnil | hnot
          · exact hnil
          · simp only [hdrops, Bool.not_true, Bool.false_eq_true] at hnot)
        rw [Token.parensBehind, hstep]
        rw [hstep] at hunbroken
        exact ih hothers hothersMark hrest hunbroken.2

/-- White space and comments leave the parentheses as they are. -/
theorem parensAfter_of_isTrivia {p : PreludePart} (h : ParseState.isTrivia p.kind = true)
    (pos : Nat) (parens : List Nat) :
    Token.parensAfter pos parens ⟨p.kind, p.text⟩ = parens := by
  cases p with
  | literal l => cases h
  | interpolation i => cases h
  | blockComment t => exact parensAfter_of_length (by simp [PreludePart.text]) _ _
  | lineComment t => exact parensAfter_of_length (by simp [PreludePart.text]) _ _
  | opening c => cases h
  | closing c => cases h
  | byte c =>
      have hc : Ascii.isSpace c = true := by
        by_contra hnot
        rw [PreludePart.kind, if_neg hnot] at h
        cases h
      have hne : ∀ d, Ascii.isSpace d = false → (PreludePart.byte c).text ≠ [d] := by
        intro d hd h
        rw [List.singleton_inj.mp h, hd] at hc
        cases hc
      have hdrops : dropsParens (PreludePart.byte c).text = false := by
        simp only [dropsParens, Bool.or_eq_false_iff, beq_eq_false_iff_ne]
        exact ⟨⟨hne _ (by decide), hne _ (by decide)⟩, hne _ (by decide)⟩
      unfold Token.parensAfter
      rw [if_neg (hne _ (by decide)), if_neg (hne _ (by decide)), if_neg (by simp [hdrops])]

/-- A mark leaves nothing open. -/
theorem parensAfter_mark {k : Token} {c : UInt8} (hc : IsMark c) (htext : k.text = [c])
    (pos : Nat) (parens : List Nat) : k.parensAfter pos parens = [] := by
  unfold Token.parensAfter
  rw [htext]
  rcases hc with rfl | rfl | rfl <;> rfl

/-- **Between statements the scan has nothing open.** -/
theorem parensBehind_of_betweenStatements {depth : Nat} {t : Text} {ts : List Token}
    (hts : ∀ k ∈ ts, k ∈ (tokenize depth t).tokens) (h : BetweenStatements ts) (pos : Nat) :
    Token.parensBehind pos [] ts = [] := by
  -- from the end: white space and comments change nothing, and the mark in front drops all
  induction ts using List.reverseRecOn with
  | nil => rfl
  | append_singleton ts k ih =>
      have hk := hts k (by simp)
      rw [Token.parensBehind_append, Token.parensBehind, Token.parensBehind]
      by_cases htrivia : ParseState.isTrivia k.kind = true
      · have hbefore : BetweenStatements ts := by
          intro m hm
          refine h m ?_
          rwa [List.filter_append, List.filter_singleton, htrivia, Bool.not_true, cond_false,
            List.append_nil]
        rw [ih (fun m hm => hts m (by simp [hm])) hbefore]
        rcases exists_part_of_mem_tokens hk with ⟨-, c, hc, htext⟩ | ⟨p, -, -, -, rfl⟩
        · exact parensAfter_mark hc htext _ _
        · exact parensAfter_of_isTrivia htrivia _ _
      · have hmark : k.kind.isMark = true := by
          refine h k ?_
          rw [Bool.not_eq_true] at htrivia
          rw [List.filter_append, List.filter_singleton, htrivia, Bool.not_false, cond_true,
            List.getLast?_concat]
          rfl
        rcases exists_part_of_mem_tokens hk with ⟨-, c, hc, htext⟩ | ⟨p, -, -, -, rfl⟩
        · exact parensAfter_mark hc htext _ _
        · rw [p.isMark_kind] at hmark
          cases hmark

/-! ## The enclosing call -/

theorem innermostParen?_paren (parens : List Nat) :
    innermostParen? (parens.map .paren) = parens.head? := by
  cases parens <;> rfl

/-- **The call around a cursor.** Take a statement of a parsed text, the tokens `before` in front of
it, and tokens `ks` of its prelude with the cursor behind them. The brackets of `ks` are closed by
their own kind. If the scan keeps up with the lexer, and none of the three marks stands in the
parentheses around it, then the call is that of the innermost open parenthesis of the prelude. -/
theorem findCall?_enclosing {t : Text} {sheet : Stylesheet} {n : Node}
    {before ks later : List Token} {brackets : List (UInt8 × Nat)}
    (h : parse t = .ok sheet) (hn : n.Within sheet.children)
    (htokens : (tokenize 0 t).tokens = before ++ (ks ++ later))
    (hstart : (Token.spelling before).length = n.start)
    (hprelude : ∀ k ∈ ks, k.kind.isMark = false)
    (hbrackets : openBrackets? n.start [] ks = some brackets)
    (hkeeps : keepsUp 0 [] (before ++ ks) = true) (hunbroken : unbroken n.start [] ks = true) :
    findCall? t (Token.spelling (before ++ ks)).length
      = (innermostParenthesis? brackets).bind (callee? t) := by
  have hcut : (tokenize 0 t).tokens = (before ++ ks) ++ later := by
    rw [htokens, List.append_assoc]
  -- the tokens in front of the statement end between two statements
  have hbetween : BetweenStatements before := by
    obtain ⟨front, ps, rest, hread⟩ := exists_readBehind h hn
    have hfront := congrArg Lexing.tokens hread.cut.tokens
    have hlength := hread.start_eq
    have hle := isPrefix_of_length_spelling_le htokens hfront (by omega)
    have hge := isPrefix_of_length_spelling_le hfront htokens (by omega)
    obtain rfl : before = front := hle.eq_of_length (le_antisymm hle.length_le hge.length_le)
    exact hread.between
  have hmem : ∀ {us : List Token}, us ⊆ before ++ ks → ∀ k ∈ us, k ∈ (tokenize 0 t).tokens := by
    intro us hus k hk
    rw [hcut]
    exact List.mem_append_left later (hus hk)
  -- so that the scan has open at the cursor what the prelude has open
  have hparens : Token.parensBehind 0 [] (before ++ ks) = parenthesesOf brackets := by
    rw [Token.parensBehind_append, Nat.zero_add, hstart,
      parensBehind_of_betweenStatements (hmem (List.subset_append_left _ _)) hbetween]
    exact parensBehind_of_openBrackets? (hmem (List.subset_append_right _ _)) hprelude hbrackets
      hunbroken
  have htake : t.take (Token.spelling (before ++ ks)).length = Token.spelling (before ++ ks) :=
    (List.prefix_iff_eq_take.mp (isPrefix_spelling hcut)).symm
  have hframes := openFrames?_spelling hcut hkeeps
  rw [List.map_nil, hparens] at hframes
  show (openFrames? 0 [] (t.take _)).bind _ = _
  rw [htake, hframes]
  show (innermostParen? ((parenthesesOf brackets).map .paren)).bind _ = _
  rw [innermostParen?_paren, head?_parenthesesOf]

/-- A text with parentheses in a literal and in an interpolation. -/
def callText : Text := text ".a \x7b b: f(\"(\", [#\x7bg(1)\x7d], c); \x7d"

/-- The tokens of its statement in front of the square bracket that closes. -/
def callTokens : List Token := ((tokenize 0 callText).tokens.drop 5).take 10

def callStatement : Node := .leaf ⟨5, .declaration, text "b: f(\"(\", [#\x7bg(1)\x7d], c)"⟩ 29

def callSheet : Stylesheet := ⟨31, [.block ⟨0, .ruleset, text ".a"⟩ 4 [callStatement] 31]⟩

/-- The call is that around the square bracket, not that of the literal or the interpolation. -/
theorem findCall?_enclosing_callText :
    parse callText = .ok callSheet ∧ callStatement.Within callSheet.children ∧
      (tokenize 0 callText).tokens = (tokenize 0 callText).tokens.take 5
        ++ (callTokens ++ (tokenize 0 callText).tokens.drop 15) ∧
      openBrackets? 5 [] callTokens = some [(Ascii.lbracket, 15), (Ascii.lparen, 9)] ∧
      findCall? callText 23 = some ⟨text "f", .function, 9⟩ := by
  have hparse : parse callText = .ok callSheet := by cbv
  have hwithin : callStatement.Within callSheet.children :=
    .inside List.mem_cons_self (.here List.mem_cons_self)
  have htokens : (tokenize 0 callText).tokens = (tokenize 0 callText).tokens.take 5
      ++ (callTokens ++ (tokenize 0 callText).tokens.drop 15) := by decide +kernel
  have hbrackets : openBrackets? 5 [] callTokens
      = some [(Ascii.lbracket, 15), (Ascii.lparen, 9)] := by decide +kernel
  have hcall := findCall?_enclosing hparse hwithin htokens (by decide +kernel) (by decide +kernel)
    hbrackets (by decide +kernel) (by decide +kernel)
  have hoffset : (Token.spelling ((tokenize 0 callText).tokens.take 5 ++ callTokens)).length
      = 23 := by decide +kernel
  have hcallee : callee? callText 9 = some ⟨text "f", .function, 9⟩ := by decide +kernel
  rw [hoffset] at hcall
  exact ⟨hparse, hwithin, htokens, hbrackets, hcall.trans hcallee⟩

/-- A text with a semicolon between the parentheses of a call. -/
def semicolonText : Text :=
  text "@function f($a, $b) \x7b\x7d\n.b \x7b width: f(a;b, 1); \x7d\n"

/-- The tokens of its last statement in front of the number. -/
def semicolonTokens : List Token := ((tokenize 0 semicolonText).tokens.drop 28).take 14

/-- **A semicolon hides the call around it**: it belongs to the prelude, inside a parenthesis that
is open at the cursor, and the scan drops the parenthesis there. -/
theorem findCall?_semicolon :
    (parse semicolonText).toOption.map (fun sheet => sheet.children.map Node.children)
        = some [[], [.leaf ⟨28, .declaration, text "width: f(a;b, 1)"⟩ 45]] ∧
      (tokenize 0 semicolonText).tokens = (tokenize 0 semicolonText).tokens.take 28
        ++ (semicolonTokens ++ (tokenize 0 semicolonText).tokens.drop 42) ∧
      (Token.spelling ((tokenize 0 semicolonText).tokens.take 28)).length = 28 ∧
      (Token.spelling semicolonTokens).length = 14 ∧
      (∀ k ∈ semicolonTokens, k.kind.isMark = false) ∧
      openBrackets? 28 [] semicolonTokens = some [(Ascii.lparen, 36)] ∧
      callee? semicolonText 36 = some ⟨text "f", .function, 36⟩ ∧
      findCall? semicolonText 42 = none := by
  refine ⟨by cbv, ?_⟩
  decide +kernel

end StyleIndex
