import Mathlib
import StyleIndex.Proofs.Grammar.Placement
import StyleIndex.Proofs.Symbol.Cutting

set_option autoImplicit false

/-! # Parameter lists are cut where the lexer says

The list of parameters of a mixin or function stands between two parentheses among the tokens of
the text. It is cut at the commas that the lexer finds outside literals, interpolations, brackets
and braces, and each piece at its first such colon (`params_callable`).

The program cuts the list again by scanners of its own, which know neither escapes nor comments.
The theorem is about the lists that both read alike (`PlainList`): a literal does not hold its own
quote, a comment holds neither quotes nor brackets, and brackets and braces are closed by their own
kind. An escaped quote shifts the cuts (`params_escapedQuote`).
-/

namespace StyleIndex

/-! ## Tokens as units of a list -/

/-- The units of a token: a literal or an interpolation is one unit, and any other token is its
bytes. -/
def Token.units (k : Token) : List ListUnit :=
  match k.kind with
  | .literal => [.whole k.text]
  | .interpolation => [.whole k.text]
  | _ => k.text.map .byte

/-- The units of the inside of an interpolation: its literals, and the bytes between them. -/
def quotedUnits : Text → List ListUnit
  | [] => []
  | c :: rest =>
    if Ascii.isQuote c then
      match Token.literalLength? c rest with
      | some n => .whole (c :: rest.take n) :: quotedUnits (rest.drop n)
      | none => []
    else .byte c :: quotedUnits rest
termination_by t => t.length
decreasing_by all_goals (simp only [List.length_drop, List.length_cons]; omega)

/-- Whether a literal does not hold its own quote. -/
def isPlainLiteral (t : Text) : Bool :=
  match t with
  | [] => true
  | q :: rest => !rest.dropLast.contains q

/-- Whether a unit is a byte or a literal that does not hold its own quote. -/
def ListUnit.isPlainLiteral : ListUnit → Bool
  | .whole t => StyleIndex.isPlainLiteral t
  | .byte _ => true

/-- Whether the scanners of a list read a token as the lexer does. -/
def Token.isPlain (k : Token) : Bool :=
  match k.kind with
  | .literal => isPlainLiteral k.text
  | .interpolation =>
    let inside := quotedUnits (k.text.drop 2).dropLast
    ListUnit.isMatched inside && inside.all ListUnit.isPlainLiteral
  | .lineComment => k.text.all fun c => !Ascii.isQuote c && !isOpener c && !isCloser c
  | .blockComment => k.text.all fun c => !Ascii.isQuote c && !isOpener c && !isCloser c
  | _ => true

/-- Whether the scanners of a list read it as the lexer does: each token is read alike, and each
bracket or brace is closed by its own kind. -/
structure PlainList (list : List Token) : Prop where
  tokens : list.all Token.isPlain = true
  matched : ListUnit.isMatched (list.flatMap Token.units) = true

theorem Token.spelling_units (k : Token) : ListUnit.spelling k.units = k.text := by
  have hbytes : ∀ t : Text, ListUnit.spelling (t.map .byte) = t := by
    intro t
    simp [ListUnit.spelling, List.flatMap_map, ListUnit.text]
  unfold units
  split
  · simp [ListUnit.spelling, ListUnit.text]
  · simp [ListUnit.spelling, ListUnit.text]
  · exact hbytes k.text

theorem Token.spelling_flatMap_units (ks : List Token) :
    ListUnit.spelling (ks.flatMap units) = spelling ks := by
  induction ks with
  | nil => rfl
  | cons k ks ih =>
      rw [List.flatMap_cons, ListUnit.spelling, List.flatMap_append]
      show ListUnit.spelling k.units ++ ListUnit.spelling (ks.flatMap units) = k.text ++ spelling ks
      rw [k.spelling_units, ih]

/-! ## Literals and interpolations are passed over -/

theorem Literal.skipped {l : Literal} (hl : l.WellFormed) (hplain : isPlainLiteral l.text = true) :
    Skipped l.text := by
  have hq : l.quote ∉ l.parts.flatMap LiteralPart.text := by
    simpa [Literal.text, isPlainLiteral] using hplain
  exact ⟨fun sep _ depth pos rest => separatorOffsets_literal hl.1 hq sep depth pos rest,
    fun depth rest => closingParen?_literal hl.1 hq (depth + 1) rest⟩

theorem quotedUnits_literal {l : Literal} (hl : l.WellFormed) (t : Text) :
    quotedUnits (l.text ++ t) = .whole l.text :: quotedUnits t := by
  have hlength := Token.literalLength?_append hl.1 hl.2 t
  have hsplit : l.parts.flatMap LiteralPart.text ++ l.quote :: t
      = (l.parts.flatMap LiteralPart.text ++ [l.quote]) ++ t := by simp
  rw [Literal.text, List.cons_append, List.append_assoc, List.singleton_append, quotedUnits,
    if_pos hl.1, hlength]
  simp only
  rw [hsplit, List.take_left' (by simp), List.drop_left' (by simp)]

theorem quotedUnits_byte {c : UInt8} (hc : Ascii.isQuote c = false) (t : Text) :
    quotedUnits (c :: t) = .byte c :: quotedUnits t := by
  rw [quotedUnits, if_neg (by simp [hc])]

/-- The units of the inside of an interpolation spell it. -/
theorem spelling_quotedUnits {i : Interpolation} (hi : i.WellFormed) : ∀ t : Text,
    ListUnit.spelling (quotedUnits (i.text ++ t))
      = i.text ++ ListUnit.spelling (quotedUnits t) := by
  have hcons : ∀ (u : ListUnit) (us : List ListUnit),
      ListUnit.spelling (u :: us) = u.text ++ ListUnit.spelling us := fun _ _ => rfl
  induction i with
  | done =>
      intro t
      rfl
  | byte c rest ih =>
      intro t
      rw [Interpolation.text, List.cons_append, quotedUnits_byte hi.1.1, hcons, ih hi.2]
      rfl
  | literal l rest ih =>
      intro t
      rw [Interpolation.text, List.append_assoc, quotedUnits_literal hi.1, hcons, ih hi.2,
        List.append_assoc]
      rfl
  | braces inner rest ihi ihr =>
      intro t
      rw [Interpolation.text, List.cons_append, List.append_assoc, List.cons_append,
        quotedUnits_byte (by decide), hcons, ihi hi.1, quotedUnits_byte (by decide), hcons,
        ihr hi.2, List.cons_append, List.append_assoc, List.cons_append]
      rfl

/-- The literals inside an interpolation are literals, and the other bytes are no quotes. -/
theorem plain_of_mem_quotedUnits {t : Text} : ∀ u ∈ quotedUnits t,
    u.isPlainLiteral = true → u.Plain := by
  fun_induction quotedUnits t with
  | case1 =>
      intro u hu
      cases hu
  | case2 c rest hq n hn ih =>
      intro u hu hplain
      rcases List.mem_cons.mp hu with rfl | hu
      · obtain ⟨parts, after, rfl, rfl, hparts⟩ := Token.exists_parts_of_literalLength? hn
        have hliteral : Literal.WellFormed ⟨c, parts⟩ := ⟨hq, hparts⟩
        have htext : c :: (parts.flatMap LiteralPart.text ++ c :: after).take
            ((parts.flatMap LiteralPart.text).length + 1) = Literal.text ⟨c, parts⟩ := by
          rw [List.append_cons, List.take_left' (by simp), Literal.text]
        rw [htext] at hplain ⊢
        exact Literal.skipped hliteral hplain
      · exact ih u hu hplain
  | case3 c rest hq hn =>
      intro u hu
      cases hu
  | case4 c rest hq ih =>
      intro u hu hplain
      rcases List.mem_cons.mp hu with rfl | hu
      · simpa [ListUnit.Plain] using hq
      · exact ih u hu hplain

/-- An interpolation is passed over if its inside is. -/
theorem Interpolation.skipped {i : Interpolation} (hi : i.WellFormed)
    (hmatched : ListUnit.isMatched (quotedUnits i.text) = true)
    (hliterals : (quotedUnits i.text).all ListUnit.isPlainLiteral = true) :
    Skipped (PreludePart.interpolation i).text := by
  have hplain : ∀ u ∈ quotedUnits i.text, u.Plain :=
    fun u hu => plain_of_mem_quotedUnits u hu (List.all_eq_true.mp hliterals u hu)
  have hσ := ListUnit.isMatched_iff.mp hmatched
  have hspelling : ListUnit.spelling (quotedUnits i.text) = i.text := by
    have happend := spelling_quotedUnits hi []
    rw [List.append_nil] at happend
    rw [happend, quotedUnits]
    exact List.append_nil _
  have htext : ∀ rest, (PreludePart.interpolation i).text ++ rest
      = Ascii.hash :: Ascii.lbrace :: (i.text ++ Ascii.rbrace :: rest) := by
    intro rest
    simp [PreludePart.text]
  have hlength : (PreludePart.interpolation i).text.length = i.text.length + 3 := by
    simp [PreludePart.text]
  constructor
  · intro sep hsep depth pos rest
    have hhash : Ascii.hash ≠ sep := by
      rcases hsep with rfl | rfl <;> decide
    have hinside := @ListUnit.separatorOffsets_units sep _ [] [] hsep hplain (depth + 1) hσ
      (ListUnit.firstCut?_inside hσ) (pos + 1 + 1) (Ascii.rbrace :: rest)
    rw [hspelling] at hinside
    rw [htext, hlength, separatorOffsets_byte rfl rfl rfl (fun h => hhash h.1),
      separatorOffsets, if_neg (by decide), if_pos (by decide)]
    refine hinside.trans ?_
    rw [separatorOffsets, if_neg (by decide), if_neg (by decide), if_pos (by decide)]
    simp only [List.length_nil, Nat.add_zero]
    rw [Nat.cast_succ, add_sub_cancel_right]
    congr 1
    omega
  · intro depth rest
    have hinside := @ListUnit.closingParen?_units _ [] [] hplain hσ depth (Ascii.rbrace :: rest)
    rw [hspelling] at hinside
    simp only [List.count_nil, Nat.add_zero] at hinside
    rw [htext, hlength, closingParen?_byte (by decide) (by decide) (by decide),
      closingParen?_byte (by decide) (by decide) (by decide), hinside,
      closingParen?_byte (by decide) (by decide) (by decide)]
    simp only [Option.map_map, Function.comp_def]
    congr 1
    funext j
    omega

/-! ## Plain tokens -/

/-- The change of the depth that a byte makes as a token of its own. -/
def depthAfterByte (depth : Nat) (c : UInt8) : Nat :=
  if c = Ascii.lparen ∨ c = Ascii.lbracket then depth + 1
  else if c = Ascii.rparen ∨ c = Ascii.rbracket then depth - 1
  else depth

/-- The units of a plain token: one text that is passed over, bytes without a meaning, or one byte
that may be a bracket. -/
inductive PlainToken (k : Token) : Prop
  | whole {t : Text} : k.units = [.whole t] → Skipped t →
      (∀ d, Token.depthAfter d k.kind = d) → PlainToken k
  | bytes {t : Text} : k.units = t.map .byte →
      (∀ c ∈ t, Ascii.isQuote c = false ∧ isOpener c = false ∧ isCloser c = false) →
      (∀ d, Token.depthAfter d k.kind = d) → PlainToken k
  | byte {c : UInt8} : k.units = [.byte c] → Ascii.isQuote c = false →
      (∀ d, Token.depthAfter d k.kind = depthAfterByte d c) → PlainToken k

theorem plainToken_of_part {p : PreludePart} {depth : Nat} {after : Text}
    (hp : p.WellFormed depth after) (hplain : Token.isPlain ⟨p.kind, p.text⟩ = true) :
    PlainToken ⟨p.kind, p.text⟩ := by
  have hcomment : ∀ t : Text,
      (t.all fun c => !Ascii.isQuote c && !isOpener c && !isCloser c) = true →
      ∀ c ∈ t, Ascii.isQuote c = false ∧ isOpener c = false ∧ isCloser c = false := by
    intro t ht c hc
    have := List.all_eq_true.mp ht c hc
    simpa [and_assoc] using this
  cases p with
  | literal l => exact .whole rfl (Literal.skipped hp hplain) fun _ => rfl
  | interpolation i =>
      have hinside : ((PreludePart.interpolation i).text.drop 2).dropLast = i.text := by
        simp [PreludePart.text]
      simp only [Token.isPlain, PreludePart.kind, hinside, Bool.and_eq_true] at hplain
      exact .whole rfl (Interpolation.skipped hp hplain.1 hplain.2) fun _ => rfl
  | blockComment t => exact .bytes rfl (hcomment _ hplain) fun _ => rfl
  | lineComment t => exact .bytes rfl (hcomment _ hplain) fun _ => rfl
  | opening c =>
      refine .byte rfl ?_ fun d => (if_pos hp).symm
      rcases hp with rfl | rfl <;> rfl
  | closing c =>
      refine .byte rfl ?_ fun d => ?_
      · rcases hp.1 with rfl | rfl <;> rfl
      · rcases hp.1 with rfl | rfl <;> rfl
  | byte c =>
      obtain ⟨h1, h2, h3, h4⟩ := hp.not_bracket
      have hdepth : ∀ d, depthAfterByte d c = d := by
        intro d
        simp [depthAfterByte, h1, h2, h3, h4]
      refine .byte ?_ hp.not_quote fun d => ?_
      · by_cases hc : Ascii.isSpace c = true
        · simp [Token.units, PreludePart.kind, hc, PreludePart.text]
        · simp [Token.units, PreludePart.kind, hc, PreludePart.text]
      · rw [hdepth]
        by_cases hc : Ascii.isSpace c = true
        · simp [PreludePart.kind, hc, Token.depthAfter]
        · simp [PreludePart.kind, hc, Token.depthAfter]

theorem plainToken_of_isPlain {depth : Nat} {t : Text} {k : Token}
    (hk : k ∈ (tokenize depth t).tokens) (hplain : k.isPlain = true) : PlainToken k := by
  rcases exists_part_of_mem_tokens hk with ⟨hmark, c, hc, htext⟩ | ⟨p, d, after, hp, rfl⟩
  · have hbyte : Ascii.isQuote c = false ∧ ∀ d, depthAfterByte d c = d := by
      rcases hc with rfl | rfl | rfl
      all_goals exact ⟨rfl, fun _ => rfl⟩
    obtain ⟨kind, u⟩ := k
    obtain rfl : u = [c] := htext
    refine .byte ?_ hbyte.1 fun d => ?_
    · cases kind <;> first | rfl | cases hmark
    · rw [hbyte.2]
      cases kind <;> first | rfl | cases hmark
  · exact plainToken_of_part hp hplain

namespace PlainToken

variable {k : Token}

/-- The scanners take the units of a plain token as they are meant. -/
theorem plain_units (h : PlainToken k) : ∀ u ∈ k.units, u.Plain := by
  intro u hu
  cases h with
  | whole hunits hskipped _ =>
      rw [hunits, List.mem_singleton] at hu
      rw [hu]
      exact hskipped
  | bytes hunits hbytes _ =>
      rw [hunits] at hu
      obtain ⟨c, hc, rfl⟩ := List.mem_map.mp hu
      exact (hbytes c hc).1
  | byte hunits hquote _ =>
      rw [hunits, List.mem_singleton] at hu
      rw [hu]
      exact hquote

/-- The brackets among the openers; the braces do not count. -/
def brackets (σ : List UInt8) : Nat :=
  σ.countP fun o => o == Ascii.lparen || o == Ascii.lbracket

/-- A byte changes the brackets among the openers as it changes the depth of the lexer. -/
theorem depthAfterByte_brackets {c : UInt8} {σ σ' : List UInt8} (d : Nat)
    (h : ListUnit.openersAfter? σ (.byte c) = some σ') :
    depthAfterByte (d + brackets σ) c = d + brackets σ' := by
  rcases ListUnit.openersAfter?_cases h with ⟨rfl, hother⟩ | ⟨_, ⟨⟩, hopen, rfl⟩ |
    ⟨_, o, ⟨⟩, hopen, hclose, hfit, rfl⟩
  · obtain ⟨hopen, hclose⟩ := hother c rfl
    have hnotOpen : ¬ (c = Ascii.lparen ∨ c = Ascii.lbracket) := by
      rintro (rfl | rfl)
      · cases hopen
      · cases hopen
    have hnotClose : ¬ (c = Ascii.rparen ∨ c = Ascii.rbracket) := by
      rintro (rfl | rfl)
      · cases hclose
      · cases hclose
    rw [depthAfterByte, if_neg hnotOpen, if_neg hnotClose]
  · have hbyte : c = Ascii.lparen ∨ c = Ascii.lbracket ∨ c = Ascii.lbrace := by
      simpa [isOpener, or_assoc] using hopen
    rcases hbyte with rfl | rfl | rfl
    all_goals simp +decide [depthAfterByte, brackets, Nat.add_assoc]
  · -- a closer that fits takes off an opener of its own kind
    unfold closerOf at hfit
    split_ifs at hfit with hparen hbracket
    · subst hparen hfit
      simp +decide [depthAfterByte, brackets, ← Nat.add_assoc]
    · subst hbracket hfit
      simp +decide [depthAfterByte, brackets, ← Nat.add_assoc]
    · subst hfit
      simp +decide [depthAfterByte, brackets, hparen, hbracket]

theorem openers_of_bytes {t : Text} {σ σ' : List UInt8}
    (ht : ∀ c ∈ t, Ascii.isQuote c = false ∧ isOpener c = false ∧ isCloser c = false)
    (h : (t.map ListUnit.byte).foldlM ListUnit.openersAfter? σ = some σ') : σ' = σ := by
  induction t with
  | nil =>
      cases h
      rfl
  | cons c t ih =>
      obtain ⟨hc, hrest⟩ := List.forall_mem_cons.mp ht
      obtain ⟨τ, hτ, hlater⟩ := ListUnit.foldlM_openersAfter?_cons h
      rw [ListUnit.openersAfter?, if_neg (by simp [hc.2.1]), if_neg (by simp [hc.2.2])] at hτ
      cases hτ
      exact ih hrest hlater

/-- The brackets among the openers are those that the lexer counts. -/
theorem depthAfter_brackets (h : PlainToken k) {σ σ' : List UInt8} (d : Nat)
    (hσ : k.units.foldlM ListUnit.openersAfter? σ = some σ') :
    Token.depthAfter (d + brackets σ) k.kind = d + brackets σ' := by
  cases h with
  | whole hunits _ hdepth =>
      rw [hunits] at hσ
      cases hσ
      exact hdepth _
  | bytes hunits hbytes hdepth =>
      rw [hunits] at hσ
      rw [openers_of_bytes hbytes hσ]
      exact hdepth _
  | byte hunits _ hdepth =>
      rw [hunits] at hσ
      obtain ⟨τ, hτ, hrest⟩ := ListUnit.foldlM_openersAfter?_cons hσ
      cases hrest
      rw [hdepth]
      exact depthAfterByte_brackets d hτ

end PlainToken

/-- **The lexer has the brackets open that are among the openers.** -/
theorem depthBehind_units {list : List Token} (hlist : ∀ k ∈ list, PlainToken k)
    {σ σ' : List UInt8} (d : Nat)
    (hσ : (list.flatMap Token.units).foldlM ListUnit.openersAfter? σ = some σ') :
    Token.depthBehind (d + PlainToken.brackets σ) list = d + PlainToken.brackets σ' := by
  induction list generalizing σ with
  | nil =>
      cases hσ
      rfl
  | cons k list ih =>
      obtain ⟨hk, hrest⟩ := List.forall_mem_cons.mp hlist
      rw [List.flatMap_cons, List.foldlM_append] at hσ
      obtain ⟨τ, hτ, hlater⟩ := Option.bind_eq_some_iff.mp hσ
      show Token.depthBehind (Token.depthAfter (d + PlainToken.brackets σ) k.kind) list = _
      rw [hk.depthAfter_brackets d hτ]
      exact ih hrest hlater

/-! ## The head of a declaration -/

/-- A callable is read from its keyword, its name, and what follows; the list in parentheses behind
the name and the white space gives the parameters. -/
theorem exists_parts_of_callable {start : Nat} {raw name : Text} {block : Bool}
    {kind : CallableKind} {nameStart : Nat} {params : List Param}
    (h : (readHead start raw block).form = .callable kind name nameStart params) :
    ∃ word tail trail, raw = word ++ (name ++ (tail ++ trail)) ∧
      nameStart = start + word.length ∧
      (∀ c ∈ word ++ name, c = Ascii.atSign ∨ isNameByte c = true ∨ Ascii.isSpace c = true) ∧
      (∀ c ∈ trail, Ascii.isSpace c = true) ∧
      ∀ rest inner, Text.trimSpaceStart tail = Ascii.lparen :: rest →
        parenthesised? rest = some inner → ∃ base, params = readParams inner base := by
  have hraw : raw = Text.trimSpaceEnd raw ++ (raw.reverse.takeWhile Ascii.isSpace).reverse := by
    rw [Text.trimSpaceEnd, Text.trimEndWhile, ← List.reverse_append,
      List.takeWhile_append_dropWhile, List.reverse_reverse]
  rcases readHead_cases start raw block with ⟨_, _, _, _, -, -, heq⟩ | ⟨rest, hprelude, heq⟩ |
    heq | heq
  · rw [h] at heq
    cases heq
  · rcases readAtRule_cases rest start with ⟨kind', hrule⟩ | ⟨_, _, hrule⟩ | ⟨_, _, hrule⟩ |
      ⟨_, hrule⟩
    · rw [h, hrule, readCallable] at heq
      simp only [Form.callable.injEq] at heq
      obtain ⟨-, rfl, rfl, rfl⟩ := heq
      -- the text of the statement, from its at sign on
      have hgap : (rest.dropWhile isNameByte).takeWhile Ascii.isSpace
          ++ Text.trimSpaceStart (rest.dropWhile isNameByte) = rest.dropWhile isNameByte :=
        List.takeWhile_append_dropWhile
      have hword : rest.takeWhile isNameByte ++ rest.dropWhile isNameByte = rest :=
        List.takeWhile_append_dropWhile
      generalize hafter : Text.trimSpaceStart (rest.dropWhile isNameByte) = after at hgap
      have hname : after.takeWhile isNameByte ++ after.dropWhile isNameByte = after :=
        List.takeWhile_append_dropWhile
      refine ⟨Ascii.atSign :: (rest.takeWhile isNameByte
          ++ (rest.dropWhile isNameByte).takeWhile Ascii.isSpace), after.dropWhile isNameByte,
        (raw.reverse.takeWhile Ascii.isSpace).reverse, ?_, ?_, ?_, ?_, ?_⟩
      · conv_lhs => rw [hraw, hprelude, ← hword, ← hgap, ← hname]
        simp only [List.cons_append, List.append_assoc]
      · have hlength := congrArg List.length hword
        have hlength' := congrArg List.length hgap
        simp only [List.length_append, List.length_cons] at hlength hlength' ⊢
        omega
      · intro c hc
        simp only [List.cons_append, List.append_assoc, List.mem_cons, List.mem_append] at hc
        rcases hc with rfl | hc | hc | hc
        · exact Or.inl rfl
        · exact Or.inr (Or.inl (List.mem_takeWhile_imp hc))
        · exact Or.inr (Or.inr (List.mem_takeWhile_imp hc))
        · exact Or.inr (Or.inl (List.mem_takeWhile_imp hc))
      · intro c hc
        exact List.mem_takeWhile_imp (List.mem_reverse.mp hc)
      · intro list inner hlist hinner
        split
        · next other hother =>
          obtain rfl := List.tail_eq_of_cons_eq (hlist.symm.trans hother)
          rw [hinner]
          exact ⟨_, rfl⟩
        · next hother => exact absurd hlist (hother list)
    all_goals
      rw [h, hrule] at heq
      cases heq
  · rw [h] at heq
    cases heq
  · rw [h] at heq
    cases heq

/-! ## The list of a declaration -/

/-- Inside a matched list a bracket is open. -/
theorem depthBehind_ne_zero {front list y x : List Token} {m : Token}
    (hlist : ∀ k ∈ list, PlainToken k)
    (hmatched : ListUnit.isMatched (list.flatMap Token.units) = true)
    (hcut : list ++ [⟨.closing, [Ascii.rparen]⟩] = y ++ m :: x) :
    Token.depthBehind 0 (front ++ ⟨.opening, [Ascii.lparen]⟩ :: y) ≠ 0 := by
  -- the tokens in front of `m` are the first ones of the list
  have hle : y.length ≤ list.length := by
    have hlength := congrArg List.length hcut
    simp only [List.length_append, List.length_cons, List.length_nil] at hlength
    omega
  have htake := congrArg (List.take y.length) hcut
  rw [List.take_append_of_le_length hle, List.take_left] at htake
  have hy : list = y ++ list.drop y.length := by
    conv_lhs => rw [← List.take_append_drop y.length list, htake]
  have hσ := ListUnit.isMatched_iff.mp hmatched
  rw [hy, List.flatMap_append, List.foldlM_append] at hσ
  obtain ⟨σ, hσ, -⟩ := Option.bind_eq_some_iff.mp hσ
  have hplain : ∀ k ∈ y, PlainToken k := fun k hk => hlist k (by
    rw [hy]
    exact List.mem_append_left _ hk)
  have hdepth := depthBehind_units hplain (Token.depthBehind 0 front + 1) hσ
  rw [Token.depthBehind, List.foldl_append]
  show Token.depthBehind (Token.depthBehind 0 front + 1) y ≠ 0
  rw [show PlainToken.brackets [] = 0 from rfl, Nat.add_zero] at hdepth
  omega

/-- A parenthesis and the tokens up to its partner belong to one prelude: a mark would stand where
no bracket is open. -/
theorem isPrefix_tokens_of_plainList {ps : Prelude} {rest : Text} (hps : ps.WellFormed 0 rest)
    (hrest : EndsPrelude rest) {front list later : List Token}
    (htokens : ps.tokens ++ (tokenize 0 rest).tokens
      = front ++ ⟨.opening, [Ascii.lparen]⟩ :: (list ++ ⟨.closing, [Ascii.rparen]⟩ :: later))
    (hfront : ∀ c ∈ Token.spelling front, ¬ IsMark c) (hlist : ∀ k ∈ list, PlainToken k)
    (hmatched : ListUnit.isMatched (list.flatMap Token.units) = true) :
    front ++ ⟨.opening, [Ascii.lparen]⟩ :: (list ++ [⟨.closing, [Ascii.rparen]⟩])
      <+: ps.tokens := by
  rcases hrest with rfl | ⟨c, w, rfl, hc⟩
  · -- the prelude ends the text
    rw [tokenize, List.append_nil] at htokens
    rw [htokens]
    exact ⟨later, by simp⟩
  · obtain ⟨kind, hkind, hcut⟩ := tokenize_mark hc
    rw [hcut] at htokens
    have hassoc : front ++ ⟨.opening, [Ascii.lparen]⟩ ::
          (list ++ ⟨.closing, [Ascii.rparen]⟩ :: later)
        = (front ++ ⟨.opening, [Ascii.lparen]⟩ :: (list ++ [⟨.closing, [Ascii.rparen]⟩]))
          ++ later := by simp
    rw [hassoc] at htokens
    rcases List.append_eq_append_iff.mp htokens with ⟨x, hx, hlater⟩ | ⟨x, hx, -⟩
    · cases x with
      | nil => rw [hx, List.append_nil]
      | cons m x =>
          -- the mark behind the prelude would stand in front of the list or inside it
          exfalso
          obtain ⟨rfl, -⟩ := List.cons.inj hlater
          have hother : (⟨kind, [c]⟩ : Token) ≠ ⟨.opening, [Ascii.lparen]⟩ := by
            intro hsame
            rw [(Token.mk.inj hsame).1] at hkind
            cases hkind
          rcases List.append_eq_append_iff.mp hx with ⟨y, hy, hinside⟩ | ⟨y, hy, hinside⟩
          · cases y with
            | nil => exact hother (List.cons.inj hinside).1.symm
            | cons k y =>
                obtain ⟨rfl, hrow⟩ := List.cons.inj hinside
                have hdepth := Prelude.depthBehind_tokens hps
                rw [hy] at hdepth
                exact depthBehind_ne_zero hlist hmatched hrow hdepth
          · cases y with
            | nil => exact hother (List.cons.inj hinside).1
            | cons k y =>
                obtain ⟨rfl, -⟩ := List.cons.inj hinside
                refine hfront c ?_ hc
                rw [hy]
                simp [Token.spelling]
    · exact ⟨x, hx.symm⟩

theorem plain_of_mem_units {list : List Token} (hlist : ∀ k ∈ list, PlainToken k) :
    ∀ u ∈ list.flatMap Token.units, u.Plain := by
  intro u hu
  obtain ⟨k, hk, hu⟩ := List.mem_flatMap.mp hu
  exact (hlist k hk).plain_units u hu

/-- The list between the parentheses is found. -/
theorem parenthesised?_plainList {list : List Token} (hlist : ∀ k ∈ list, PlainToken k)
    (hmatched : ListUnit.isMatched (list.flatMap Token.units) = true) (rest : Text) :
    parenthesised? (Token.spelling list ++ Ascii.rparen :: rest) = some (Token.spelling list) := by
  have hpast := ListUnit.closingParen?_units (plain_of_mem_units hlist)
    (ListUnit.isMatched_iff.mp hmatched) 0 (Ascii.rparen :: rest)
  have hclose : closingParen? 1 (Ascii.rparen :: rest) = some 0 := by
    rw [closingParen?, if_neg (by decide), if_neg (by decide), if_pos rfl, if_pos rfl]
  simp only [List.count_nil, Nat.zero_add, Nat.add_zero, hclose, Token.spelling_flatMap_units]
    at hpast
  rw [parenthesised?, hpast]
  simp

/-- The parameters of a list of plain tokens. -/
theorem readParams_plainList {list : List Token} (hlist : ∀ k ∈ list, PlainToken k)
    (hmatched : ListUnit.isMatched (list.flatMap Token.units) = true) (base : Nat) :
    (readParams (Token.spelling list) base).map Param.withoutOffset
      = (ListUnit.cutUnits Ascii.comma (list.flatMap Token.units)).filterMap
        ListUnit.parameter? := by
  rw [← Token.spelling_flatMap_units]
  exact ListUnit.readParams_units (plain_of_mem_units hlist) hmatched base

/-- What is left of a text when the white space at its end is taken off reaches up to its last
parenthesis. -/
theorem exists_of_append_eq_space {u v tail trail : Text}
    (h : (u ++ [Ascii.rparen]) ++ v = tail ++ trail)
    (htrail : ∀ c ∈ trail, Ascii.isSpace c = true) : ∃ w, tail = (u ++ [Ascii.rparen]) ++ w := by
  rcases List.append_eq_append_iff.mp h with ⟨w, hw, -⟩ | ⟨z, hz, htail⟩
  · exact ⟨w, hw⟩
  · by_cases hnil : z = []
    · exact ⟨[], by rw [hz, hnil, List.append_nil, List.append_nil]⟩
    · have hlast : z.getLast? = some Ascii.rparen := by
        rw [← List.getLast?_append_of_ne_nil tail hnil, ← hz, List.getLast?_concat]
      have hmem : Ascii.rparen ∈ trail := by
        rw [htail]
        exact List.mem_append_left _ (List.mem_of_getLast? hlast)
      exact absurd (htrail _ hmem) (by decide)

/-- The text behind a name, without the white space at its end, begins with the list. -/
theorem exists_tail_of_isPrefix {ps : Prelude} {mid list : List Token}
    {front gap tail trail : Text} (hraw : ps.text = front ++ (tail ++ trail))
    (hmid : Token.spelling mid = front ++ gap) (htrail : ∀ c ∈ trail, Ascii.isSpace c = true)
    (hlist : mid ++ ⟨.opening, [Ascii.lparen]⟩ :: (list ++ [⟨.closing, [Ascii.rparen]⟩])
      <+: ps.tokens) :
    ∃ w, tail = gap ++ Ascii.lparen :: (Token.spelling list ++ Ascii.rparen :: w) := by
  obtain ⟨more, hmore⟩ := hlist
  have hspelling := ps.spelling_tokens
  rw [← hmore, hraw, Token.spelling_append, Token.spelling_append, hmid] at hspelling
  have htail : ((gap ++ Ascii.lparen :: Token.spelling list) ++ [Ascii.rparen])
      ++ Token.spelling more = tail ++ trail := by
    simp only [Token.spelling, List.flatMap_cons, List.flatMap_append, List.flatMap_nil,
      List.append_assoc, List.append_cancel_left_eq] at hspelling ⊢
    simpa using hspelling
  obtain ⟨w, rfl⟩ := exists_of_append_eq_space htail htrail
  exact ⟨w, by simp⟩

/-- The marks are no bytes of the head of a declaration. -/
theorem not_isMark_of_head {c : UInt8}
    (h : c = Ascii.atSign ∨ isNameByte c = true ∨ Ascii.isSpace c = true) : ¬ IsMark c := by
  rintro (rfl | rfl | rfl)
  all_goals exact absurd h (by decide)

/-- **Parameter lists are cut where the lexer says.** Take a mixin or function whose name is
followed by white space and a list in parentheses, which the scanners read as the lexer does. Its
parameters are those of the pieces between the commas that stand outside brackets, braces,
interpolations and literals, in their order; the name of a parameter stands in front of the first
such colon of its piece, and the default behind it. -/
theorem params_callable {src : Text} {sheet : Stylesheet} {n : Node}
    (hparse : parse src = .ok sheet) (hn : n.Within sheet.children) {kind : CallableKind}
    {name : Text} {nameStart : Nat} {params : List Param}
    (hform : n.form = .callable kind name nameStart params) {before list later : List Token}
    {gap : Text}
    (htokens : (tokenize 0 src).tokens = before ++ ⟨.opening, [Ascii.lparen]⟩ ::
      (list ++ ⟨.closing, [Ascii.rparen]⟩ :: later))
    (hbefore : Token.spelling before = src.take (nameStart + name.length) ++ gap)
    (hgap : ∀ c ∈ gap, Ascii.isSpace c = true) (hlist : PlainList list) :
    params.map Param.withoutOffset
      = (ListUnit.cutUnits Ascii.comma (list.flatMap Token.units)).filterMap
        ListUnit.parameter? := by
  obtain ⟨front, ps, rest, hread⟩ := exists_readBehind hparse hn
  obtain ⟨block, hhead⟩ := hread.head
  rw [Nat.zero_add] at hhead
  rw [Node.form, hhead] at hform
  obtain ⟨word, tail, trail, hraw, rfl, hword, htrail, hparams⟩ := exists_parts_of_callable hform
  have hplain : ∀ k ∈ list, PlainToken k := by
    intro k hk
    have hmem : k ∈ (tokenize 0 src).tokens := by
      rw [htokens]
      simp [hk]
    exact plainToken_of_isPlain hmem (List.all_eq_true.mp hlist.tokens k hk)
  -- the tokens in front of the list are those in front of the statement and some of its own
  have htake : src.take ((Token.spelling front).length + word.length + name.length)
      = Token.spelling front ++ (word ++ name) := by
    have hsrc : src = (Token.spelling front ++ (word ++ name)) ++ (tail ++ (trail ++ rest)) := by
      rw [hread.cut.text, hraw]
      simp only [List.append_assoc]
    rw [hsrc, List.take_left' (by simp [Nat.add_assoc])]
  rw [htake, List.append_assoc] at hbefore
  obtain ⟨mid, rfl, htail⟩ := hread.exists_middle htokens (by
    rw [hread.start_eq, hbefore, List.length_append]
    omega)
  have hmid : Token.spelling mid = (word ++ name) ++ gap := by
    rw [Token.spelling_append] at hbefore
    exact List.append_cancel_left hbefore
  have hmarks : ∀ c ∈ Token.spelling mid, ¬ IsMark c := by
    intro c hc
    rw [hmid, List.mem_append] at hc
    rcases hc with hc | hc
    · exact not_isMark_of_head (hword c hc)
    · exact not_isMark_of_head (Or.inr (Or.inr (hgap c hc)))
  -- so the list belongs to the prelude, and what follows the name is white space and the list
  rw [← List.append_assoc] at hraw
  obtain ⟨w, rfl⟩ := exists_tail_of_isPrefix hraw hmid htrail
    (isPrefix_tokens_of_plainList hread.wellFormed hread.ends htail hmarks hplain hlist.matched)
  have hparen : Text.trimSpaceStart (gap ++ Ascii.lparen :: (Token.spelling list
      ++ Ascii.rparen :: w)) = Ascii.lparen :: (Token.spelling list ++ Ascii.rparen :: w) := by
    rw [Text.trimSpaceStart, List.dropWhile_append_of_pos hgap]
    simp +decide
  obtain ⟨base, rfl⟩ := hparams _ _ hparen (parenthesised?_plainList hplain hlist.matched w)
  exact readParams_plainList hplain hlist.matched base

/-- A declaration with separators in a literal, in a group and in an interpolation. -/
def listText : Text := text "@mixin m ($a: f('b,', x), $c: #\x7bd, \"e\"\x7d) \x7b\x7d"

def listTokens : List Token := ((tokenize 0 listText).tokens.drop 10).take 18

def listMixin : Node :=
  .block ⟨0, .callable .mixin (text "m") 7
    [⟨text "$a", text "f('b,', x)", 10⟩, ⟨text "$c", text "#\x7bd, \"e\"\x7d", 26⟩],
    text "@mixin m ($a: f('b,', x), $c: #\x7bd, \"e\"\x7d)"⟩ 42 [] 43

theorem params_callable_listText :
    parse listText = .ok ⟨43, [listMixin]⟩ ∧ listMixin.Within [listMixin] ∧
      PlainList listTokens ∧
      (tokenize 0 listText).tokens = (tokenize 0 listText).tokens.take 9
        ++ ⟨.opening, [Ascii.lparen]⟩ :: (listTokens ++ ⟨.closing, [Ascii.rparen]⟩ ::
          (tokenize 0 listText).tokens.drop 29) ∧
      (ListUnit.cutUnits Ascii.comma (listTokens.flatMap Token.units)).filterMap
          ListUnit.parameter?
        = [⟨text "$a", text "f('b,', x)"⟩, ⟨text "$c", text "#\x7bd, \"e\"\x7d"⟩] := by
  have hparse : parse listText = .ok ⟨43, [listMixin]⟩ := by cbv
  have hwithin : listMixin.Within [listMixin] := .here List.mem_cons_self
  have hplain : PlainList listTokens := ⟨by decide +kernel, by decide +kernel⟩
  have htokens : (tokenize 0 listText).tokens = (tokenize 0 listText).tokens.take 9
      ++ ⟨.opening, [Ascii.lparen]⟩ :: (listTokens ++ ⟨.closing, [Ascii.rparen]⟩ ::
        (tokenize 0 listText).tokens.drop 29) := by decide +kernel
  have hbefore : Token.spelling ((tokenize 0 listText).tokens.take 9)
      = listText.take (7 + (text "m").length) ++ [Ascii.space] := by decide +kernel
  have hparams := params_callable hparse hwithin rfl htokens hbefore (by simp [Ascii.isSpace])
    hplain
  exact ⟨hparse, hwithin, hplain, htokens, hparams.symm⟩

/-- A declaration with an escaped quote in a default. -/
def escapedText : Text := text "@mixin m($a: \"\\\"\", $b: \",\") \x7b\x7d"

def escapedTokens : List Token := ((tokenize 0 escapedText).tokens.drop 9).take 12

/-- **An escaped quote shifts the cuts**: the scanners take it for the end of the literal, and the
comma inside the next literal for a separator. -/
theorem params_escapedQuote :
    (parse escapedText).toOption.map (fun sheet => sheet.children.map Node.form)
        = some [.callable .mixin (text "m") 7 [⟨text "$a", text "\"\\\"\", $b: \"", 9⟩,
          ⟨text "\"", [], 25⟩]] ∧
      (tokenize 0 escapedText).tokens = (tokenize 0 escapedText).tokens.take 8
        ++ ⟨.opening, [Ascii.lparen]⟩ :: (escapedTokens ++ ⟨.closing, [Ascii.rparen]⟩ ::
          (tokenize 0 escapedText).tokens.drop 22) ∧
      ListUnit.isMatched (escapedTokens.flatMap Token.units) = true ∧
      (ListUnit.cutUnits Ascii.comma (escapedTokens.flatMap Token.units)).filterMap
          ListUnit.parameter?
        = [⟨text "$a", text "\"\\\"\""⟩, ⟨text "$b", text "\",\""⟩] := by
  decide +kernel

end StyleIndex
