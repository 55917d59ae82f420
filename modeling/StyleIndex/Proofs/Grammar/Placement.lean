import Mathlib.Tactic
import StyleIndex.Proofs.Grammar.Interior

set_option autoImplicit false

/-! # The tokens of a statement

Where a statement of the tree stands among the tokens of the text. In front of its prelude the text
is cut into tokens that end between two statements, and the prelude is cut into its units
(`exists_readBehind`).

`CutOff us t rest` says that the tokens `us` are cut off the front of `t`, outside brackets, and
that `rest` is left. The pieces of a derivation are cut off one after the other, so the relation is
followed by `CutOff.trans` alone.
-/

namespace StyleIndex

/-! ## Tokens cut off the front -/

/-- The tokens `us` are cut off the front of `t`, and `rest` is left to be cut. -/
structure CutOff (us : List Token) (t rest : Text) : Prop where
  text : t = Token.spelling us ++ rest
  tokens : tokenize 0 t = ⟨us ++ (tokenize 0 rest).tokens, (tokenize 0 rest).ending⟩

namespace CutOff

variable {us vs : List Token} {t u v : Text}

theorem refl (t : Text) : CutOff [] t t := ⟨rfl, rfl⟩

theorem trans (h : CutOff us t u) (h' : CutOff vs u v) : CutOff (us ++ vs) t v := by
  constructor
  · rw [h.text, h'.text, Token.spelling_append, List.append_assoc]
  · rw [h.tokens, h'.tokens, List.append_assoc]

theorem length_eq (h : CutOff us t u) : t.length = (Token.spelling us).length + u.length := by
  rw [h.text, List.length_append]

/-- White space and comments are cut off as single tokens. -/
theorem trivia {p : PreludePart} {after : Text} (h : p.WellFormed 0 after)
    (htrivia : ParseState.isTrivia p.kind = true) :
    CutOff [⟨p.kind, p.text⟩] (p.text ++ after) after := by
  constructor
  · simp [Token.spelling]
  · rw [tokenize_part h, ParseState.depthAfter_of_isTrivia htrivia]
    rfl

end CutOff

/-- The tokens of a prelude. -/
def Prelude.tokens (ps : Prelude) : List Token := ps.map fun p => ⟨p.kind, p.text⟩

theorem Prelude.spelling_tokens (ps : Prelude) : Token.spelling ps.tokens = ps.text := by
  rw [Token.spelling, tokens, List.flatMap_map, text]

theorem Prelude.tokenize_append {ps : Prelude} {after : Text} : ∀ {depth : Nat},
    ps.WellFormed depth after → tokenize depth (ps.text ++ after)
      = ⟨ps.tokens ++ (tokenize 0 after).tokens, (tokenize 0 after).ending⟩ := by
  induction ps with
  | nil =>
      rintro depth rfl
      rfl
  | cons p ps ih =>
      intro depth h
      rw [Prelude.text_cons, List.append_assoc, tokenize_part h.1, ih h.2]
      rfl

theorem CutOff.prelude {ps : Prelude} {after : Text} (h : ps.WellFormed 0 after) :
    CutOff ps.tokens (ps.text ++ after) after :=
  ⟨by rw [ps.spelling_tokens], ps.tokenize_append h⟩

/-- A prelude is cut off together with its mark. -/
theorem CutOff.marked {ps : Prelude} {c : UInt8} {w : Text} (hc : IsMark c)
    (h : ps.WellFormed 0 (c :: w)) :
    ∃ m : Token, m.kind.isMark = true ∧ CutOff (ps.tokens ++ [m]) (ps.text ++ c :: w) w := by
  obtain ⟨kind, hkind, htokens⟩ := tokenize_mark hc
  have hmark : CutOff [⟨kind, [c]⟩] (c :: w) w := ⟨rfl, htokens w⟩
  exact ⟨⟨kind, [c]⟩, hkind, (CutOff.prelude h).trans hmark⟩

theorem isMark_semicolon : IsMark Ascii.semicolon := Or.inl rfl

theorem isMark_lbrace : IsMark Ascii.lbrace := Or.inr (Or.inl rfl)

theorem isMark_rbrace : IsMark Ascii.rbrace := Or.inr (Or.inr rfl)

/-! ## Bodies

A body is its first part followed by another body, and a block is its head, a body, its closing
brace and another body. -/

namespace Body

section Texts

variable (ps : Prelude) (inner rest : Body) (t after : Text)

theorem text_lineComment : (lineComment t rest).text ++ after
    = (PreludePart.lineComment t).text ++ (rest.text ++ after) := by
  simp [text, PreludePart.text]

theorem text_blockComment : (blockComment t rest).text ++ after
    = (PreludePart.blockComment t).text ++ (rest.text ++ after) := by
  simp [text, PreludePart.text]

theorem text_leaf : (leaf ps rest).text ++ after
    = ps.text ++ Ascii.semicolon :: (rest.text ++ after) := by
  simp [text]

theorem text_block : (block ps inner rest).text ++ after
    = ps.text ++ Ascii.lbrace :: (inner.text ++ Ascii.rbrace :: (rest.text ++ after)) := by
  simp [text]

end Texts

theorem isTrivia_space {c : UInt8} (hc : Ascii.isSpace c = true) :
    ParseState.isTrivia (PreludePart.byte c).kind = true := by
  rw [PreludePart.kind, if_pos hc]
  rfl

/-- A body is cut off as a whole. -/
theorem exists_cutOff {b : Body} : ∀ {after : Text}, b.WellFormed after →
    ∃ us, CutOff us (b.text ++ after) after := by
  induction b with
  | done =>
      intro after _
      exact ⟨[], .refl after⟩
  | last ps =>
      intro after h
      exact ⟨ps.tokens, .prelude h.2⟩
  | space c rest ih =>
      intro after h
      obtain ⟨us, hus⟩ := ih h.2
      have hspace := @CutOff.trivia (.byte c) (rest.text ++ after) (isPlain_of_isSpace h.1 _)
        (isTrivia_space h.1)
      exact ⟨_, hspace.trans hus⟩
  | lineComment t rest ih =>
      intro after h
      obtain ⟨us, hus⟩ := ih h.2
      have hcomment := @CutOff.trivia (.lineComment t) _ ⟨rfl, h.1⟩ rfl
      rw [text_lineComment]
      exact ⟨_, hcomment.trans hus⟩
  | blockComment t rest ih =>
      intro after h
      obtain ⟨us, hus⟩ := ih h.2
      have hcomment := @CutOff.trivia (.blockComment t) (rest.text ++ after) h.1 rfl
      rw [text_blockComment]
      exact ⟨_, hcomment.trans hus⟩
  | semicolon rest ih =>
      intro after h
      obtain ⟨us, hus⟩ := ih h
      obtain ⟨m, -, hm⟩ := @CutOff.marked [] _ (rest.text ++ after) isMark_semicolon rfl
      exact ⟨_, hm.trans hus⟩
  | leaf ps rest ih =>
      intro after h
      obtain ⟨us, hus⟩ := ih h.2.2
      obtain ⟨m, -, hm⟩ := CutOff.marked isMark_semicolon h.2.1
      rw [text_leaf]
      exact ⟨_, hm.trans hus⟩
  | block ps inner rest ihi ihr =>
      intro after h
      obtain ⟨-, hps, hinner, hrest⟩ := h
      obtain ⟨us, hus⟩ := ihi hinner
      obtain ⟨vs, hvs⟩ := ihr hrest
      obtain ⟨m, -, hopen⟩ := CutOff.marked isMark_lbrace hps
      obtain ⟨m', -, hclose⟩ := @CutOff.marked [] _ (rest.text ++ after) isMark_rbrace rfl
      rw [text_block]
      exact ⟨_, (hopen.trans hus).trans (hclose.trans hvs)⟩

end Body

/-! ## The tokens in front of a statement -/

/-- No statement has begun behind the last mark. -/
def BetweenStatements (ts : List Token) : Prop :=
  ∀ k ∈ (ts.filter fun k => !ParseState.isTrivia k.kind).getLast?, k.kind.isMark = true

namespace BetweenStatements

variable {us vs : List Token}

theorem nil : BetweenStatements [] := by
  intro k hk
  cases hk

theorem append (hu : BetweenStatements us) (hv : BetweenStatements vs) :
    BetweenStatements (us ++ vs) := by
  intro k hk
  rw [List.filter_append, List.getLast?_append, Option.mem_def, Option.or_eq_some_iff] at hk
  rcases hk with hk | ⟨-, hk⟩
  · exact hv k hk
  · exact hu k hk

theorem trivia {k : Token} (hk : ParseState.isTrivia k.kind = true) : BetweenStatements [k] := by
  intro m hm
  simp [hk] at hm

theorem mark (us : List Token) {k : Token} (hk : k.kind.isMark = true) :
    BetweenStatements (us ++ [k]) := by
  have hnot : ParseState.isTrivia k.kind = false := by
    cases hkind : k.kind <;> rw [hkind] at hk <;> first | rfl | cases hk
  intro m hm
  rw [List.filter_append, List.filter_singleton, hnot] at hm
  rwa [← Option.some.inj (List.getLast?_concat.symm.trans hm)]

end BetweenStatements

/-- Where the head of a statement ends: where its block begins, and else with the statement. -/
def Node.headStop (n : Node) : Nat := n.bodyStart?.getD n.stop

/-- The statement `n` of a text `t`, which begins at offset `pos`, is read from the units `ps`. They
stand behind the tokens `before`, which end between two statements, and in front of `rest`. The head
of the statement has room for them. -/
structure Node.ReadBehind (n : Node) (pos : Nat) (t : Text) (before : List Token) (ps : Prelude)
    (rest : Text) : Prop where
  cut : CutOff before t (ps.text ++ rest)
  between : BetweenStatements before
  head : ∃ block, n.head = readHead (pos + (Token.spelling before).length) ps.text block
  wellFormed : ps.WellFormed 0 rest
  ends : EndsPrelude rest
  room : n.start + ps.text.length ≤ n.headStop

namespace Node.ReadBehind

variable {n : Node} {pos pos' : Nat} {t t' : Text} {before us : List Token} {ps : Prelude}
  {rest : Text}

theorem first {block : Bool} (hhead : n.head = readHead pos ps.text block)
    (hps : ps.WellFormed 0 rest) (hrest : EndsPrelude rest)
    (hroom : pos + ps.text.length ≤ n.headStop) :
    n.ReadBehind pos (ps.text ++ rest) [] ps rest := by
  refine ⟨.refl _, .nil, ⟨block, hhead⟩, hps, hrest, ?_⟩
  rwa [Node.start, hhead, start_readHead]

/-- More tokens in front. -/
theorem prepend (h : n.ReadBehind pos' t before ps rest) (hus : CutOff us t' t)
    (hbetween : BetweenStatements us) (hpos : pos' = pos + (Token.spelling us).length) :
    n.ReadBehind pos t' (us ++ before) ps rest := by
  obtain ⟨block, hhead⟩ := h.head
  refine ⟨hus.trans h.cut, hbetween.append h.between, ⟨block, ?_⟩, h.wellFormed, h.ends, h.room⟩
  rw [hhead, hpos, Token.spelling_append, List.length_append, Nat.add_assoc]

theorem start_eq (h : n.ReadBehind 0 t before ps rest) :
    n.start = (Token.spelling before).length := by
  obtain ⟨block, hhead⟩ := h.head
  rw [Node.start, hhead, start_readHead, Nat.zero_add]

end Node.ReadBehind

/-- **Every statement of a body is read from units that stand between two statements.** -/
theorem Body.exists_readBehind {b : Body} {n : Node} : ∀ {pos : Nat} {after : Text},
    b.WellFormed after → EndsBody after → n.Within (b.nodes pos) →
      ∃ before ps rest, n.ReadBehind pos (b.text ++ after) before ps rest := by
  induction b with
  | done =>
      intro pos after _ _ hn
      exact absurd hn n.not_within_nil
  | last ps =>
      intro pos after h hend hn
      rcases Node.within_cons.mp hn with rfl | hn | hn
      · exact ⟨[], ps, after, .first rfl h.2 hend.endsPrelude le_rfl⟩
      · exact absurd hn n.not_within_nil
      · exact absurd hn n.not_within_nil
  | space c rest ih =>
      intro pos after h hend hn
      obtain ⟨before, ps, u, hread⟩ := ih h.2 hend hn
      have hspace := @CutOff.trivia (.byte c) (rest.text ++ after) (isPlain_of_isSpace h.1 _)
        (isTrivia_space h.1)
      exact ⟨_, ps, u, hread.prepend hspace (.trivia (isTrivia_space h.1)) rfl⟩
  | lineComment t rest ih =>
      intro pos after h hend hn
      obtain ⟨before, ps, u, hread⟩ := ih h.2 hend hn
      have hcomment := @CutOff.trivia (.lineComment t) _ ⟨rfl, h.1⟩ rfl
      rw [text_lineComment]
      refine ⟨_, ps, u, hread.prepend hcomment (.trivia rfl) ?_⟩
      simp [Token.spelling, PreludePart.text]
  | blockComment t rest ih =>
      intro pos after h hend hn
      obtain ⟨before, ps, u, hread⟩ := ih h.2 hend hn
      have hcomment := @CutOff.trivia (.blockComment t) (rest.text ++ after) h.1 rfl
      rw [text_blockComment]
      refine ⟨_, ps, u, hread.prepend hcomment (.trivia rfl) ?_⟩
      simp [Token.spelling, PreludePart.text]
  | semicolon rest ih =>
      intro pos after h hend hn
      obtain ⟨before, ps, u, hread⟩ := ih h hend hn
      obtain ⟨m, hm, hcut⟩ := @CutOff.marked [] _ (rest.text ++ after) isMark_semicolon rfl
      refine ⟨_, ps, u, hread.prepend hcut (.mark _ hm) ?_⟩
      have := hcut.length_eq
      simp only [Prelude.text, List.flatMap_nil, List.nil_append, List.length_cons] at this
      omega
  | leaf ps rest ih =>
      intro pos after h hend hn
      obtain ⟨-, hps, hrest⟩ := h
      rw [text_leaf]
      rcases Node.within_cons.mp hn with rfl | hn | hn
      · exact ⟨[], ps, _, .first rfl hps (endsPrelude_semicolon _) (Nat.le_succ _)⟩
      · exact absurd hn n.not_within_nil
      · obtain ⟨before, qs, u, hread⟩ := ih hrest hend hn
        obtain ⟨m, hm, hcut⟩ := CutOff.marked isMark_semicolon hps
        refine ⟨_, qs, u, hread.prepend hcut (.mark _ hm) ?_⟩
        have := hcut.length_eq
        simp only [List.length_append, List.length_cons] at this
        omega
  | block ps inner rest ihi ihr =>
      intro pos after h hend hn
      obtain ⟨-, hps, hinner, hrest⟩ := h
      obtain ⟨m, hm, hopen⟩ := CutOff.marked isMark_lbrace hps
      rw [text_block]
      rcases Node.within_cons.mp hn with rfl | hn | hn
      · exact ⟨[], ps, _, .first rfl hps (endsPrelude_lbrace _) (Nat.le_succ _)⟩
      · -- inside the block
        obtain ⟨before, qs, u, hread⟩ := ihi hinner (Or.inr ⟨_, rfl⟩) hn
        refine ⟨_, qs, u, hread.prepend hopen (.mark _ hm) ?_⟩
        have := hopen.length_eq
        simp only [List.length_append, List.length_cons] at this
        omega
      · -- behind the block, whose tokens end with its closing brace
        obtain ⟨before, qs, u, hread⟩ := ihr hrest hend hn
        obtain ⟨us, hus⟩ := exists_cutOff hinner
        obtain ⟨m', hm', hclose⟩ := @CutOff.marked [] _ (rest.text ++ after) isMark_rbrace rfl
        have hcut := (hopen.trans hus).trans hclose
        refine ⟨_, qs, u, hread.prepend hcut (.mark _ hm') ?_⟩
        have := hcut.length_eq
        simp only [List.length_append, List.length_cons] at this
        omega

/-- **Where a statement stands among the tokens of a parsed text.** -/
theorem exists_readBehind {src : Text} {sheet : Stylesheet} {n : Node}
    (h : parse src = .ok sheet) (hn : n.Within sheet.children) :
    ∃ before ps rest, n.ReadBehind 0 src before ps rest := by
  obtain ⟨b, hb⟩ := exists_derives_of_parse_eq_ok h
  rw [parse_eq_ok_of_derives hb] at h
  cases h
  obtain ⟨rfl, hwf⟩ := hb
  have hread := Body.exists_readBehind hwf (Or.inl rfl) hn
  rwa [List.append_nil] at hread

/-! ## Tokens in general -/

/-- Every token is a mark or spelt by a unit. -/
theorem exists_part_of_mem_tokens {depth : Nat} {t : Text} {k : Token}
    (hk : k ∈ (tokenize depth t).tokens) :
    (k.kind.isMark = true ∧ ∃ c, IsMark c ∧ k.text = [c]) ∨
      ∃ (p : PreludePart) (d : Nat) (after : Text), p.WellFormed d after ∧
        k = ⟨p.kind, p.text⟩ := by
  generalize hts : (tokenize depth t).tokens = ts at hk
  induction ts generalizing depth t with
  | nil => cases hk
  | cons k' ks ih =>
      rcases tokenize_cases hts with ⟨-, hmark, hbyte, -, rest, -, hks⟩ |
        ⟨p, after, hp, -, rfl, hks⟩
      · rcases List.mem_cons.mp hk with rfl | hk
        · exact Or.inl ⟨hmark, hbyte⟩
        · exact ih hks hk
      · rcases List.mem_cons.mp hk with rfl | hk
        · exact Or.inr ⟨p, depth, after, hp, rfl⟩
        · exact ih hks hk

theorem text_ne_nil_of_mem_tokens {depth : Nat} {t : Text} {k : Token}
    (hk : k ∈ (tokenize depth t).tokens) : k.text ≠ [] := by
  rcases exists_part_of_mem_tokens hk with ⟨-, c, -, htext⟩ | ⟨p, -, -, -, rfl⟩
  · rw [htext]
    exact List.cons_ne_nil c []
  · exact p.text_ne_nil

/-- Of two beginnings of a row of tokens, the one with the shorter text begins the other. -/
theorem isPrefix_of_length_spelling_le {depth : Nat} {t : Text} {us vs ks ls : List Token}
    (hus : (tokenize depth t).tokens = us ++ ks) (hvs : (tokenize depth t).tokens = vs ++ ls)
    (hle : (Token.spelling us).length ≤ (Token.spelling vs).length) : us <+: vs := by
  rcases List.append_eq_append_iff.mp (hus.symm.trans hvs) with ⟨m, hm, -⟩ | ⟨m, hm, hls⟩
  · exact ⟨m, hm.symm⟩
  · -- what is left between the two spells nothing
    have hnil : m = [] := by
      rw [hm, Token.spelling_append, List.length_append] at hle
      have hspelling : Token.spelling m = [] := List.length_eq_zero_iff.mp (by omega)
      cases m with
      | nil => rfl
      | cons k m =>
          have hk : k ∈ (tokenize depth t).tokens := by
            rw [hvs, hls]
            simp
          exact absurd (List.append_eq_nil_iff.mp hspelling).1 (text_ne_nil_of_mem_tokens hk)
    rw [hm, hnil, List.append_nil]

/-- Tokens that reach behind the beginning of a statement are those in front of the statement and
some from its prelude on. -/
theorem Node.ReadBehind.exists_middle {n : Node} {t : Text} {front : List Token} {ps : Prelude}
    {rest : Text} (h : n.ReadBehind 0 t front ps rest) {before ks : List Token}
    (htokens : (tokenize 0 t).tokens = before ++ ks)
    (hle : n.start ≤ (Token.spelling before).length) :
    ∃ mid, before = front ++ mid ∧ ps.tokens ++ (tokenize 0 rest).tokens = mid ++ ks := by
  have hcut : (tokenize 0 t).tokens = front ++ (ps.tokens ++ (tokenize 0 rest).tokens) := by
    rw [h.cut.tokens, Prelude.tokenize_append h.wellFormed]
  rw [h.start_eq] at hle
  obtain ⟨mid, rfl⟩ := isPrefix_of_length_spelling_le hcut htokens hle
  rw [hcut, List.append_assoc] at htokens
  exact ⟨mid, rfl, List.append_cancel_left htokens⟩

/-- The number of open brackets behind a row of tokens. -/
def Token.depthBehind (depth : Nat) (ks : List Token) : Nat :=
  ks.foldl (fun d k => depthAfter d k.kind) depth

/-- At the end of a prelude all brackets are closed. -/
theorem Prelude.depthBehind_tokens {ps : Prelude} {after : Text} : ∀ {depth : Nat},
    ps.WellFormed depth after → Token.depthBehind depth ps.tokens = 0 := by
  induction ps with
  | nil =>
      rintro depth rfl
      rfl
  | cons p ps ih =>
      intro depth h
      show Token.depthBehind (Token.depthAfter depth p.kind) (Prelude.tokens ps) = 0
      rw [p.depthAfter_kind]
      exact ih h.2

end StyleIndex
