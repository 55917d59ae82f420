import Mathlib
import StyleIndex.Proofs.Grammar.Acceptance
import StyleIndex.Proofs.Text.Search

set_option autoImplicit false

/-! # Syntax errors point at the construct at fault

`Fault.ShowsAt` says for each fault what stands at an offset of the text that has it: a literal, a
comment or an interpolation without an end, the statement of a block or of a bracket that is open at
the end of the text, or a byte that nothing waits for. `parse_error_showsAt` says that an error of
the parser names a fault that shows at its offset.

The errors about single tokens come from the three scanners for literals, interpolations and
comments, whose failures are described first. All the others are read off the place where the
reading of the text breaks off (`BreaksAt`). For a block and a bracket the converse holds as well,
so the offset is the only one at which the fault shows.
-/

namespace StyleIndex

/-! ## Literals -/

/-- A text that starts with a quote which is not closed: no copy of it stands, outside an escape,
in front of the next line feed outside an escape, or of the end. -/
def OpensLiteral (t : Text) : Prop :=
  ∃ (q : UInt8) (parts : List LiteralPart) (rest : Text),
    t = q :: (parts.flatMap LiteralPart.text ++ rest) ∧ Ascii.isQuote q = true ∧
      (∀ p ∈ parts, p.WellFormed q) ∧
      (rest = [] ∨ rest = [Ascii.backslash] ∨ rest.head? = some Ascii.lf)

/-- Where the scanner finds no closing quote, there is none up to the end of the line. -/
theorem Token.exists_parts_of_literalLength?_eq_none {q : UInt8} {t : Text}
    (h : literalLength? q t = none) :
    ∃ (parts : List LiteralPart) (rest : Text), t = parts.flatMap LiteralPart.text ++ rest ∧
      (∀ p ∈ parts, p.WellFormed q) ∧
      (rest = [] ∨ rest = [Ascii.backslash] ∨ rest.head? = some Ascii.lf) := by
  fun_induction literalLength? q t with
  | case1 => exact ⟨[], [], rfl, by simp, Or.inl rfl⟩
  | case2 => exact ⟨[], [Ascii.backslash], rfl, by simp, Or.inr (Or.inl rfl)⟩
  | case3 d t ih =>
      obtain ⟨parts, rest, rfl, hparts, hrest⟩ := ih (Option.map_eq_none_iff.mp h)
      exact ⟨.escaped d :: parts, rest, rfl, List.forall_mem_cons.mpr ⟨trivial, hparts⟩, hrest⟩
  | case4 t => exact ⟨[], Ascii.lf :: t, rfl, by simp, Or.inr (Or.inr rfl)⟩
  | case5 => cases h
  | case6 c t hc hlf hq ih =>
      obtain ⟨parts, rest, rfl, hparts, hrest⟩ := ih (Option.map_eq_none_iff.mp h)
      exact ⟨.byte c :: parts, rest, rfl, List.forall_mem_cons.mpr ⟨⟨hq, hc, hlf⟩, hparts⟩, hrest⟩

theorem opensLiteral_of_literalLength? {q : UInt8} {t : Text} (hq : Ascii.isQuote q = true)
    (h : Token.literalLength? q t = none) : OpensLiteral (q :: t) := by
  obtain ⟨parts, rest, rfl, hparts, hrest⟩ := Token.exists_parts_of_literalLength?_eq_none h
  exact ⟨q, parts, rest, rfl, hq, hparts, hrest⟩

/-! ## Interpolations -/

/-- What the scanner of interpolations tells apart: bytes, and whole literals. -/
inductive InterpolationPart where
  | byte (c : UInt8)
  | literal (l : Literal)

namespace InterpolationPart

def text : InterpolationPart → Text
  | .byte c => [c]
  | .literal l => l.text

def WellFormed : InterpolationPart → Prop
  | .byte c => Ascii.isQuote c = false
  | .literal l => l.WellFormed

/-- What stands outside literals. -/
def outside : InterpolationPart → Text
  | .byte c => [c]
  | .literal _ => []

end InterpolationPart

/-- How often the byte `c` stands outside literals. -/
def countOutside (c : UInt8) (ps : List InterpolationPart) : Nat :=
  (ps.flatMap InterpolationPart.outside).count c

theorem countOutside_cons (c : UInt8) (p : InterpolationPart) (ps : List InterpolationPart) :
    countOutside c (p :: ps) = p.outside.count c + countOutside c ps := by
  rw [countOutside, List.flatMap_cons, List.count_append]
  rfl

/-- Outside literals, the closing braces from the front of `t` to any place number at most the
opening ones and `depth` more. -/
def StaysOpen (depth : Nat) (t : Text) : Prop :=
  ∃ ps : List InterpolationPart, t = ps.flatMap InterpolationPart.text ∧
    (∀ p ∈ ps, p.WellFormed) ∧
    ∀ qs, qs <+: ps → countOutside Ascii.rbrace qs ≤ countOutside Ascii.lbrace qs + depth

/-- A text that starts with `#{` whose brace is never balanced. -/
def OpensInterpolation (t : Text) : Prop :=
  ∃ rest, t = Ascii.hash :: Ascii.lbrace :: rest ∧ StaysOpen 0 rest

theorem StaysOpen.nil (depth : Nat) : StaysOpen depth [] := by
  refine ⟨[], rfl, by simp, ?_⟩
  intro qs hqs
  rw [List.prefix_nil.mp hqs]
  exact Nat.zero_le _

theorem StaysOpen.cons {p : InterpolationPart} {t : Text} {depth depth' : Nat}
    (h : StaysOpen depth' t) (hp : p.WellFormed)
    (hdepth : p.outside.count Ascii.rbrace + depth' ≤ p.outside.count Ascii.lbrace + depth) :
    StaysOpen depth (p.text ++ t) := by
  obtain ⟨ps, rfl, hps, hopen⟩ := h
  refine ⟨p :: ps, by rw [List.flatMap_cons], List.forall_mem_cons.mpr ⟨hp, hps⟩, ?_⟩
  intro qs hqs
  rcases List.prefix_cons_iff.mp hqs with rfl | ⟨rs, rfl, hrs⟩
  · exact Nat.zero_le _
  · have hle := hopen rs hrs
    rw [countOutside_cons, countOutside_cons]
    omega

namespace Token

theorem InterpolationEnd.shift_eq_missing {n : Nat} {e : InterpolationEnd} :
    e.shift n = .missing ↔ e = .missing := by
  cases e <;> simp [InterpolationEnd.shift]

theorem InterpolationEnd.shift_eq_openLiteral {m n : Nat} {e : InterpolationEnd} :
    e.shift m = .openLiteral n ↔ ∃ k, e = .openLiteral k ∧ n = m + k := by
  cases e <;> simp [InterpolationEnd.shift, eq_comm]

/-- A literal whose end is found, in front of what the scanner goes on with. -/
theorem exists_literal_of_literalLength? {q : UInt8} {t : Text} {n : Nat}
    (hq : Ascii.isQuote q = true) (h : literalLength? q t = some n) :
    ∃ l : Literal, l.WellFormed ∧ q :: t = l.text ++ t.drop n := by
  obtain ⟨parts, after, rfl, rfl, hparts⟩ := exists_parts_of_literalLength? h
  exact ⟨⟨q, parts⟩, ⟨hq, hparts⟩, by simp [Literal.text, List.drop_append]⟩

/-- Where the scanner finds no end of an interpolation, a brace stays open. -/
theorem staysOpen_of_missing {depth : Nat} {t : Text}
    (h : interpolationEnd (depth + 1) t = .missing) : StaysOpen depth t := by
  -- along the scanner, which keeps one brace open more than `StaysOpen` counts
  generalize hd : depth + 1 = d at h
  fun_induction interpolationEnd d t generalizing depth with
  | case1 => exact .nil depth
  | case2 d c rest hq n hn ih =>
      obtain ⟨l, hl, htext⟩ := exists_literal_of_literalLength? hq hn
      rw [htext]
      exact (ih hd (InterpolationEnd.shift_eq_missing.mp h)).cons (p := .literal l) hl le_rfl
  | case3 => cases h
  | case4 d rest hq ih =>
      -- behind an opening brace one more is open
      refine (ih (congrArg (· + 1) hd) (InterpolationEnd.shift_eq_missing.mp h)).cons
        (p := .byte Ascii.lbrace) rfl ?_
      simp +decide [InterpolationPart.outside]
  | case5 => cases h
  | case6 d rest hd' hq hl ih =>
      -- a closing brace that is not that of the interpolation
      obtain ⟨k, rfl⟩ : ∃ k, depth = k + 1 := ⟨depth - 1, by omega⟩
      have hk : k + 1 = d - 1 := by omega
      refine (ih hk (InterpolationEnd.shift_eq_missing.mp h)).cons
        (p := .byte Ascii.rbrace) rfl ?_
      simp +decide [InterpolationPart.outside]
      omega
  | case7 d c rest hq hl hr ih =>
      refine (ih hd (InterpolationEnd.shift_eq_missing.mp h)).cons (p := .byte c)
        (by simpa [InterpolationPart.WellFormed] using hq) ?_
      simp [InterpolationPart.outside, hl, hr]

/-- A literal without an end that is found behind `m + 1` bytes, seen from in front of them. -/
theorem opensLiteral_of_shift {m n : Nat} {c : UInt8} {t : Text} {e : InterpolationEnd}
    (h : e.shift (m + 1) = .openLiteral n)
    (hbehind : ∀ {k}, e = .openLiteral k → OpensLiteral ((t.drop m).drop k)) :
    OpensLiteral ((c :: t).drop n) := by
  obtain ⟨k, hk, rfl⟩ := InterpolationEnd.shift_eq_openLiteral.mp h
  have hlit := hbehind hk
  rw [List.drop_drop] at hlit
  rw [Nat.add_right_comm, List.drop_succ_cons]
  exact hlit

/-- Where a literal inside an interpolation has no end, it starts at the offset reported. -/
theorem opensLiteral_of_openLiteral {depth n : Nat} {t : Text}
    (h : interpolationEnd depth t = .openLiteral n) : OpensLiteral (t.drop n) := by
  fun_induction interpolationEnd depth t generalizing n with
  | case1 => cases h
  | case2 d c rest hq m hm ih => exact opensLiteral_of_shift h ih
  | case3 d c rest hq hnone =>
      cases h
      exact opensLiteral_of_literalLength? hq hnone
  | case4 d rest hq ih => exact opensLiteral_of_shift (m := 0) h ih
  | case5 => cases h
  | case6 d rest hd hq hl ih => exact opensLiteral_of_shift (m := 0) h ih
  | case7 d c rest hq hl hr ih => exact opensLiteral_of_shift (m := 0) h ih

end Token

/-! ## Comments -/

/-- A text that starts with `/*`, and no `*/` stands behind that. -/
def OpensComment (t : Text) : Prop :=
  [Ascii.slash, Ascii.star] <+: t ∧ ¬ [Ascii.star, Ascii.slash] <:+: t.drop 2

/-! ## Faults -/

/-- The statement that starts at offset `k` has the innermost block that is open at the end: an open
body leads into this block, and what is left closes all the blocks that it opens. -/
def LeavesBlockOpen (src : Text) (k : Nat) : Prop :=
  ∃ (f : OpenBody) (inner : Body), src = f.text ++ inner.text ∧ f.WellFormed inner.text ∧
    inner.WellFormed [] ∧ (f.starts 0).head? = some k

/-- The statement that starts at offset `k` reaches the end, with more opening brackets among its
units than closing ones. -/
def LeavesBracketOpen (src : Text) (k : Nat) : Prop :=
  ∃ (f : OpenBody) (ps : Prelude), src = f.text ++ ps.text ∧ f.WellFormed ps.text ∧
    f.text.length = k ∧ StartsStatement ps.text ∧ ps.Fits 0 [] ∧
    (ps.map PreludePart.kind).count .closing < (ps.map PreludePart.kind).count .opening

/-- What stands at offset `k` of a text that has the fault there. -/
def Fault.ShowsAt (src : Text) (k : Nat) : Fault → Prop
  | .unexpected c => src[k]? = some c
  | .unterminatedString => OpensLiteral (src.drop k)
  | .unterminatedComment => OpensComment (src.drop k)
  | .unterminatedInterpolation => OpensInterpolation (src.drop k)
  | .unclosedBlock => LeavesBlockOpen src k
  | .unclosedParenthesis => LeavesBracketOpen src k

/-- The message of an error tells its fault. -/
theorem Fault.message_injective {f g : Fault} (h : f.message = g.message) : f = g := by
  -- three bytes tell the messages that quote a byte from the others
  have hquoting : ∀ c, (Fault.unexpected c).message.take 3 = text "une" := by
    intro c
    rw [Fault.message, List.append_assoc, List.take_append_of_le_length (by decide)]
    decide
  have hne : ∀ (c : UInt8) (t : Text), t.take 3 ≠ text "une" →
      (Fault.unexpected c).message ≠ t := by
    rintro c t ht rfl
    exact ht (hquoting c)
  cases f with
  | unexpected c =>
      cases g with
      | unexpected d =>
          have hcd := List.append_cancel_left (List.append_cancel_right h)
          rw [(List.cons.inj hcd).1]
      | _ => exact absurd h (hne c _ (by decide))
  | _ =>
      cases g with
      | unexpected d => exact absurd h.symm (hne d _ (by decide))
      | _ => first | rfl | exact absurd h (by decide)

/-- Behind units that fit, the open brackets are those in front and those opened, without those
closed. -/
theorem Prelude.bracketsBehind_add_count {ps : Prelude} {after : Text} : ∀ {depth : Nat},
    ps.Fits depth after →
      ps.bracketsBehind depth + (ps.map PreludePart.kind).count .closing
        = depth + (ps.map PreludePart.kind).count .opening := by
  induction ps with
  | nil =>
      intro depth _
      rfl
  | cons p ps ih =>
      intro depth h
      have hrest := ih h.2
      rw [bracketsBehind, List.map_cons, List.count_cons, List.count_cons]
      cases p with
      | opening c =>
          simp +decide only [PreludePart.kind, PreludePart.depthAfter, if_true, if_false] at hrest ⊢
          omega
      | closing c =>
          have hpos : 0 < depth := h.1.2
          simp +decide only [PreludePart.kind, PreludePart.depthAfter, if_true, if_false] at hrest ⊢
          omega
      | byte c =>
          by_cases hc : Ascii.isSpace c = true
          · simpa [PreludePart.kind, PreludePart.depthAfter, hc] using hrest
          · simpa [PreludePart.kind, PreludePart.depthAfter, hc] using hrest
      | _ => simpa [PreludePart.kind, PreludePart.depthAfter] using hrest

/-- The error of the tokenizer is a fault that shows at its place. -/
theorem showsAt_of_next {depth : Nat} {c : UInt8} {rest : Text} {e : SyntaxError}
    (h : Token.next depth c rest = .error e) (front : Text) :
    e.fault.ShowsAt (front ++ c :: rest) (front.length + e.offset) := by
  have hdrop : ∀ i, (front ++ c :: rest).drop (front.length + i) = (c :: rest).drop i := by
    intro i
    rw [← List.drop_drop, List.drop_left]
  by_cases hq : Ascii.isQuote c = true
  · rw [Token.next_quote hq] at h
    cases hl : Token.literalLength? c rest with
    | some n =>
        rw [hl] at h
        cases h
    | none =>
        rw [hl] at h
        cases h
        rw [Fault.ShowsAt, hdrop]
        exact opensLiteral_of_literalLength? hq hl
  by_cases hi : c = Ascii.hash ∧ rest.head? = some Ascii.lbrace
  · obtain ⟨rfl, hhead⟩ := hi
    obtain ⟨u, rfl⟩ := eq_cons_of_head? hhead
    rw [Token.next_interpolation] at h
    cases hend : Token.interpolationEnd 0 (Ascii.lbrace :: u) with
    | closed n =>
        rw [hend] at h
        cases h
    | openLiteral n =>
        rw [hend] at h
        cases h
        rw [Fault.ShowsAt, hdrop, List.drop_succ_cons]
        exact Token.opensLiteral_of_openLiteral hend
    | missing =>
        rw [hend] at h
        cases h
        rw [Token.interpolationEnd_lbrace, Token.InterpolationEnd.shift_eq_missing] at hend
        rw [Fault.ShowsAt, hdrop]
        exact ⟨u, rfl, Token.staysOpen_of_missing hend⟩
  by_cases hb : c = Ascii.slash ∧ rest.head? = some Ascii.star
  · obtain ⟨rfl, hhead⟩ := hb
    obtain ⟨u, rfl⟩ := eq_cons_of_head? hhead
    rw [Token.next_blockComment] at h
    cases hx : Text.indexOf? [Ascii.star, Ascii.slash] u with
    | some n =>
        rw [hx] at h
        cases h
    | none =>
        rw [hx] at h
        cases h
        rw [Fault.ShowsAt, hdrop]
        exact ⟨⟨u, rfl⟩, Text.indexOf?_eq_none hx⟩
  -- what is left is a token of one byte or a line comment, unless no bracket is open to be closed
  by_cases hclose : c = Ascii.rparen ∨ c = Ascii.rbracket
  · rw [Token.next_closing hclose] at h
    split_ifs at h
    cases h
    simp [Fault.ShowsAt]
  · rw [Token.next, if_neg hq, if_neg hi, if_neg hb, if_neg hclose] at h
    split_ifs at h

/-! ## Where a fault can show -/

/-- The blocks that an open body leaves open start inside it. -/
theorem OpenBody.lt_of_mem_starts {f : OpenBody} : ∀ {pos k : Nat}, k ∈ f.starts pos →
    k < pos + f.text.length := by
  induction f with
  | nil =>
      intro pos k hk
      cases hk
  | cons i f ih =>
      intro pos k hk
      rw [text_cons, List.length_append]
      rcases List.mem_append.mp hk with hk | hk
      · have hlt := ih hk
        omega
      · cases i with
        | head ps =>
            obtain rfl := List.mem_singleton.mp hk
            simp only [BodyItem.text, List.length_append, List.length_singleton]
            omega
        | _ => cases hk

theorem StartsStatement.length_pos {t : Text} (h : StartsStatement t) : 0 < t.length := by
  obtain ⟨c, rest, rfl, -⟩ := h
  exact Nat.succ_pos _

/-- A fault shows inside the text only. -/
theorem Fault.ShowsAt.lt_length {src : Text} {k : Nat} {fault : Fault}
    (h : fault.ShowsAt src k) : k < src.length := by
  -- a construct without an end has its own first bytes
  have hdrop : src.drop k ≠ [] → k < src.length := by
    intro hne
    by_contra hge
    exact hne (List.drop_eq_nil_of_le (Nat.le_of_not_lt hge))
  cases fault with
  | unexpected c => exact (List.getElem?_eq_some_iff.mp h).1
  | unterminatedString =>
      obtain ⟨q, parts, rest, heq, -⟩ := h
      exact hdrop (by simp [heq])
  | unterminatedComment =>
      obtain ⟨⟨rest, heq⟩, -⟩ := h
      exact hdrop (by simp [← heq])
  | unterminatedInterpolation =>
      obtain ⟨rest, heq, -⟩ := h
      exact hdrop (by simp [heq])
  | unclosedBlock =>
      obtain ⟨f, inner, rfl, -, -, hk⟩ := h
      have hlt := OpenBody.lt_of_mem_starts (List.mem_of_mem_head? hk)
      rw [List.length_append]
      omega
  | unclosedParenthesis =>
      obtain ⟨f, ps, rfl, -, rfl, hstart, -⟩ := h
      have hpos := hstart.length_pos
      rw [List.length_append]
      omega

/-! ## The errors of the parser -/

/-- The error where the reading of a text breaks off is a fault that shows at its offset. -/
theorem BreaksAt.showsAt {f : OpenBody} {u : Text} {e : SyntaxError} (hf : f.WellFormed u)
    (h : BreaksAt 0 f u e) : e.fault.ShowsAt (f.text ++ u) e.offset := by
  cases h with
  | @block inner k hinner hk => exact ⟨f, inner, rfl, hf, hinner, hk⟩
  | @bracket ps hstart hps hopen =>
      have hcount := Prelude.bracketsBehind_add_count hps
      exact ⟨f, ps, rfl, hf, (Nat.zero_add _).symm, hstart, hps, by omega⟩
  | @token ps c rest e hstart hps hnext =>
      have hshows := showsAt_of_next hnext (f.text ++ ps.text)
      rw [List.append_assoc, List.length_append] at hshows
      rw [Nat.zero_add]
      exact hshows

/-- Where the reading of a text breaks off, the parser returns the error that tells why. -/
theorem parse_of_breaksAt {f : OpenBody} {u : Text} {e : SyntaxError} (hf : f.WellFormed u)
    (h : BreaksAt 0 f u e) : parse (f.text ++ u) = .error e := by
  have hrun : ParseState.initial.run 0 (f.text ++ u) = .error e :=
    ParseState.run_breaksAt hf h [] []
  rw [ParseState.parse_eq_run, hrun]
  rfl

/-- A closing brace behind a body closes nothing. -/
theorem parse_strayBrace {b : Body} {rest : Text} (hb : b.WellFormed (Ascii.rbrace :: rest)) :
    parse (b.text ++ Ascii.rbrace :: rest)
      = .error ⟨b.text.length, .unexpected Ascii.rbrace⟩ := by
  have hrun := ParseState.run_body hb (Or.inr ⟨rest, rfl⟩) 0 [] []
  rw [Nat.zero_add, ParseState.run_cons (Token.next_rbrace rest)] at hrun
  rw [ParseState.parse_eq_run, ParseState.initial, hrun]
  rfl

theorem showsAt_of_parse {src : Text} {e : SyntaxError} (h : parse src = .error e) :
    e.fault.ShowsAt src e.offset := by
  rcases startsBody_or_breaksOff 0 src with
    ⟨b, after, rfl, hb, rfl | ⟨rest, rfl⟩⟩ | ⟨f, u, e', rfl, hf, hbreak⟩
  · -- a body that reaches the end of the text is a stylesheet
    rw [parse_eq_ok_of_derives ⟨(List.append_nil b.text).symm, hb⟩] at h
    cases h
  · rw [parse_strayBrace hb] at h
    cases h
    simp [Fault.ShowsAt]
  · rw [parse_of_breaksAt hf hbreak] at h
    cases h
    exact hbreak.showsAt hf

/-- **A syntax error points at the construct at fault.** The offset of every error of the parser
lies in the text, and the fault that the message of the error names shows there. -/
theorem parse_error_showsAt {src : Text} {e : SyntaxError} (h : parse src = .error e) :
    e.offset < src.length ∧
      ∀ fault : Fault, fault.message = e.fault.message → fault.ShowsAt src e.offset := by
  have hshows := showsAt_of_parse h
  refine ⟨hshows.lt_length, ?_⟩
  intro fault hmessage
  rw [Fault.message_injective hmessage]
  exact hshows

/-- A literal without an end, in an interpolation in a bracket of a statement in two blocks: the
error is that of the literal. -/
theorem parse_error_showsAt_nested :
    parse (text "a\x7bb\x7bc:d(#\x7b\"e") = .error ⟨10, .unterminatedString⟩ ∧
      10 < (text "a\x7bb\x7bc:d(#\x7b\"e").length ∧
      OpensLiteral ((text "a\x7bb\x7bc:d(#\x7b\"e").drop 10) := by
  have hparse : parse (text "a\x7bb\x7bc:d(#\x7b\"e") = .error ⟨10, .unterminatedString⟩ := by cbv
  obtain ⟨hlt, hshows⟩ := parse_error_showsAt hparse
  exact ⟨hparse, hlt, hshows .unterminatedString rfl⟩

/-! ### What is open at the end of the text -/

/-- The parser reports an open block exactly where the innermost one starts; so there is only one
such place. -/
theorem parse_unclosedBlock_iff {src : Text} {k : Nat} :
    parse src = .error ⟨k, .unclosedBlock⟩ ↔ LeavesBlockOpen src k := by
  constructor
  · exact showsAt_of_parse
  · rintro ⟨f, inner, rfl, hf, hinner, hk⟩
    exact parse_of_breaksAt hf (.block hinner hk)

/-- The parser reports an open bracket exactly where the statement starts that leaves it open. -/
theorem parse_unclosedParenthesis_iff {src : Text} {k : Nat} :
    parse src = .error ⟨k, .unclosedParenthesis⟩ ↔ LeavesBracketOpen src k := by
  constructor
  · exact showsAt_of_parse
  · rintro ⟨f, ps, rfl, hf, rfl, hstart, hps, hcount⟩
    have hbrackets := Prelude.bracketsBehind_add_count hps
    have hbreak : BreaksAt 0 f ps.text _ := .bracket hstart hps (by omega)
    rw [Nat.zero_add] at hbreak
    exact parse_of_breaksAt hf hbreak

example : parse (text "a \x7b b \x7b\x7d c: d") = .error ⟨0, .unclosedBlock⟩ := by cbv

end StyleIndex
