import Mathlib.Tactic
import StyleIndex.Proofs.Grammar.Breakdown
import StyleIndex.Proofs.Symbol.Span

set_option autoImplicit false

/-! # The parser accepts exactly the grammar

The pass over the tokens is run on texts here: `ParseState.run` cuts a text into tokens and takes
them through the pass. A unit, a prelude or a body in front of a text has a known effect on the
state, and the run goes on behind it (`run_part`, `run_units`, `run_body`); so a derivation makes
the parser succeed with its nodes. In the other direction, where the reading of a text breaks off
the run fails (`run_breaksAt`); so a run that succeeds shows that the text in front of it is spelt
by a derivation (`exists_body_of_run`).

`parse_derivation` puts the two together and adds that a text has at most one derivation.
-/

namespace StyleIndex

/-! ## Runs -/

namespace ParseState

/-- The pass over the tokens of a text, from a given state and number of open brackets. -/
def run (s : ParseState) (depth : Nat) (t : Text) : Except SyntaxError (List Node) := do
  let s' ← (tokenize depth t).tokens.foldlM step s
  s'.finish (tokenize depth t).ending

theorem run_nil (s : ParseState) (depth : Nat) : s.run depth [] = s.finish (.complete depth) := by
  rw [run, tokenize]
  rfl

/-- The parser is a run from the initial state. -/
theorem parse_eq_run (src : Text) :
    parse src = (initial.run 0 src).map fun nodes => ⟨src.length, nodes⟩ := rfl

/-- A text that parses has a run with the statements of the stylesheet. -/
theorem run_of_parse {src : Text} {sheet : Stylesheet} (h : parse src = .ok sheet) :
    initial.run 0 src = .ok sheet.children := by
  rw [parse_eq_run] at h
  cases hrun : initial.run 0 src with
  | error e =>
      rw [hrun] at h
      cases h
  | ok nodes =>
      rw [hrun] at h
      cases h
      rfl

/-- One token in front of a text. -/
theorem run_cons {depth : Nat} {c : UInt8} {rest : Text} {kind : TokenKind} {extra : Nat}
    (h : Token.next depth c rest = .ok ⟨kind, extra⟩) (s : ParseState) :
    s.run depth (c :: rest)
      = s.step ⟨kind, c :: rest.take extra⟩ >>= fun s' =>
          s'.run (Token.depthAfter depth kind) (rest.drop extra) := by
  rw [run, tokenize, h]
  simp only [List.foldlM_cons, bind_assoc]
  rfl

/-- A run gets stuck where no token can be cut off. -/
theorem run_eq_error {depth : Nat} {c : UInt8} {rest : Text} {e : SyntaxError}
    (h : Token.next depth c rest = .error e) (s : ParseState) :
    s.run depth (c :: rest) = .error (e.shift s.offset) := by
  rw [run, tokenize, h]
  rfl

/-- One unit in front of a text. -/
theorem run_part {p : PreludePart} {depth : Nat} {after : Text} (h : p.WellFormed depth after)
    (s : ParseState) :
    s.run depth (p.text ++ after)
      = s.step ⟨p.kind, p.text⟩ >>= fun s' => s'.run (p.depthAfter depth) after := by
  rw [run, tokenize_part h]
  simp only [List.foldlM_cons, bind_assoc]
  rfl

/-! ### Preludes -/

/-- A unit continues the statement being read. -/
theorem step_part_some (p : PreludePart) (o : Nat) (st : OpenStatement) (done : List Node)
    (blocks : List OpenBlock) :
    step ⟨o, some st, done, blocks⟩ ⟨p.kind, p.text⟩
      = .ok ⟨o + p.text.length, some ⟨st.start, p.text :: st.texts⟩, done, blocks⟩ := by
  cases p with
  | byte c =>
      by_cases hc : Ascii.isSpace c = true
      · simp [step, react, PreludePart.kind, hc, addToken, Except.map]
      · simp [step, react, PreludePart.kind, hc, addToken, Except.map]
  | _ => rfl

/-- A unit that is neither white space nor a comment starts a statement. -/
theorem step_part_none {p : PreludePart} (h : isTrivia p.kind = false) (o : Nat)
    (done : List Node) (blocks : List OpenBlock) :
    step ⟨o, none, done, blocks⟩ ⟨p.kind, p.text⟩
      = .ok ⟨o + p.text.length, some ⟨o, [p.text]⟩, done, blocks⟩ := by
  cases p with
  | byte c =>
      by_cases hc : Ascii.isSpace c = true
      · rw [PreludePart.kind, if_pos hc] at h
        cases h
      · simp [step, react, PreludePart.kind, hc, addToken, Except.map, isTrivia]
  | blockComment t => cases h
  | lineComment t => cases h
  | _ => rfl

/-- White space and comments between statements are skipped. -/
theorem step_trivia {kind : TokenKind} (h : isTrivia kind = true) (t : Text) (o : Nat)
    (done : List Node) (blocks : List OpenBlock) :
    step ⟨o, none, done, blocks⟩ ⟨kind, t⟩ = .ok ⟨o + t.length, none, done, blocks⟩ := by
  cases kind with
  | space => rfl
  | lineComment => rfl
  | blockComment => rfl
  | _ => cases h

/-- Units continue the statement being read. -/
theorem run_units {ps : Prelude} {after : Text} :
    ∀ {depth : Nat}, ps.Fits depth after → ∀ (o start : Nat) (texts : List Text)
      (done : List Node) (blocks : List OpenBlock),
      run ⟨o, some ⟨start, texts⟩, done, blocks⟩ depth (ps.text ++ after)
        = run ⟨o + ps.text.length, some ⟨start, (ps.map PreludePart.text).reverse ++ texts⟩,
            done, blocks⟩ (ps.bracketsBehind depth) after := by
  induction ps with
  | nil =>
      intro depth _ o start texts done blocks
      rfl
  | cons p ps ih =>
      intro depth h o start texts done blocks
      obtain ⟨hp, hps⟩ := h
      rw [Prelude.text_cons, List.append_assoc, run_part hp,
        step_part_some]
      show run _ _ _ = _
      rw [ih hps]
      simp only [List.map_cons, List.reverse_cons, List.append_assoc, List.singleton_append,
        List.length_append, Nat.add_assoc, Prelude.bracketsBehind]

/-- The statement being read behind a prelude that starts at offset `start`. -/
def pending (start : Nat) (ps : Prelude) : Option OpenStatement :=
  match ps with
  | [] => none
  | ps => some ⟨start, (ps.map PreludePart.text).reverse⟩

end ParseState

/-- No statement starts with white space or a comment. -/
theorem isTrivia_kind_of_startsStatement {p : PreludePart} {depth : Nat} {after rest : Text}
    (h : p.WellFormed depth after) (hstart : StartsStatement (p.text ++ rest)) :
    ParseState.isTrivia p.kind = false := by
  obtain ⟨c, u, hcu, hspace, -, -, hcomment⟩ := hstart
  cases p with
  | byte b =>
      obtain ⟨rfl, -⟩ := List.cons.inj hcu
      rw [PreludePart.kind, if_neg (by simp [hspace])]
      rfl
  | blockComment t =>
      obtain ⟨rfl, rfl⟩ := List.cons.inj hcu
      exact absurd ⟨rfl, Or.inr rfl⟩ hcomment
  | lineComment t =>
      obtain ⟨rfl, rfl⟩ := List.cons.inj hcu
      exact absurd ⟨rfl, Or.inl rfl⟩ hcomment
  | _ => rfl

namespace ParseState

/-- The units at the start of a statement leave it open. -/
theorem run_opening {ps : Prelude} {after : Text} (h : ps.Fits 0 after)
    (hstart : ps = [] ∨ StartsStatement (ps.text ++ after)) (o : Nat) (done : List Node)
    (blocks : List OpenBlock) :
    run ⟨o, none, done, blocks⟩ 0 (ps.text ++ after)
      = run ⟨o + ps.text.length, pending o ps, done, blocks⟩ (ps.bracketsBehind 0) after := by
  cases ps with
  | nil => rfl
  | cons p ps =>
      -- the first unit opens the statement, the others continue it
      obtain ⟨hp, hps⟩ := h
      have hstart := hstart.resolve_left (List.cons_ne_nil p ps)
      rw [Prelude.text_cons, List.append_assoc] at hstart
      have htrivia := isTrivia_kind_of_startsStatement hp hstart
      rw [Prelude.text_cons, List.append_assoc, run_part hp,
        step_part_none htrivia]
      show run _ _ _ = _
      rw [run_units hps]
      simp only [pending, List.map_cons, List.reverse_cons, List.length_append, Nat.add_assoc,
        Prelude.bracketsBehind]

/-- A prelude in front of a text leaves its statement open, with all brackets closed. -/
theorem run_statement {ps : Prelude} {after : Text} (h : ps.WellFormed 0 after)
    (hstart : StartsStatement (ps.text ++ after)) (o : Nat) (done : List Node)
    (blocks : List OpenBlock) :
    run ⟨o, none, done, blocks⟩ 0 (ps.text ++ after)
      = run ⟨o + ps.text.length, pending o ps, done, blocks⟩ 0 after := by
  obtain ⟨hps, hclosed⟩ := Prelude.wellFormed_iff.mp h
  rw [run_opening hps (Or.inr hstart), hclosed]

/-- The text of the statement behind a prelude is the prelude. -/
theorem raw_pending (start : Nat) (ps : Prelude) :
    OpenStatement.raw ⟨start, (ps.map PreludePart.text).reverse⟩ = ps.text := by
  rw [OpenStatement.raw, List.reverse_reverse, Prelude.text, List.flatMap_def]

/-! ### Terminators -/

theorem run_semicolon_none (o : Nat) (done : List Node) (blocks : List OpenBlock) (t : Text) :
    run ⟨o, none, done, blocks⟩ 0 (Ascii.semicolon :: t)
      = run ⟨o + 1, none, done, blocks⟩ 0 t := by
  rw [run_cons (Token.next_semicolon t)]
  rfl

theorem run_semicolon_some {ps : Prelude} (hps : ps ≠ []) (o start : Nat) (done : List Node)
    (blocks : List OpenBlock) (t : Text) :
    run ⟨o, pending start ps, done, blocks⟩ 0 (Ascii.semicolon :: t)
      = run ⟨o + 1, none, .leaf (readHead start ps.text false) (o + 1) :: done, blocks⟩ 0 t := by
  obtain ⟨p, qs, rfl⟩ := List.exists_cons_of_ne_nil hps
  rw [run_cons (Token.next_semicolon t), ← raw_pending start]
  rfl

theorem run_lbrace (ps : Prelude) (start : Nat) (done : List Node) (blocks : List OpenBlock)
    (t : Text) :
    run ⟨start + ps.text.length, pending start ps, done, blocks⟩ 0 (Ascii.lbrace :: t)
      = run ⟨start + ps.text.length + 1, none, [],
          ⟨readHead start ps.text true, start + ps.text.length + 1, done⟩ :: blocks⟩ 0 t := by
  rw [run_cons (Token.next_lbrace t)]
  cases ps with
  | nil => rfl
  | cons p ps =>
      rw [← raw_pending start]
      rfl

theorem run_rbrace (o : Nat) (done : List Node) (b : OpenBlock) (blocks : List OpenBlock)
    (t : Text) :
    run ⟨o, none, done, b :: blocks⟩ 0 (Ascii.rbrace :: t)
      = run ⟨o + 1, none, .block b.head b.bodyStart done.reverse (o + 1) :: b.before, blocks⟩ 0
          t := by
  rw [run_cons (Token.next_rbrace t)]
  rfl

end ParseState

theorem isSpace_iff {c : UInt8} :
    Ascii.isSpace c = true ↔ c = Ascii.space ∨ c = Ascii.tab ∨ c = Ascii.lf ∨ c = Ascii.cr ∨
      c = Ascii.ff := by
  simp [Ascii.isSpace, or_assoc]

/-- White space begins no other unit. -/
theorem isPlain_of_isSpace {c : UInt8} (h : Ascii.isSpace c = true) (after : Text) :
    PreludePart.IsPlain 0 after c := by
  rcases isSpace_iff.mp h with rfl | rfl | rfl | rfl | rfl
  all_goals exact ⟨by decide, by decide, by simp +decide, by simp +decide, by simp +decide,
    by decide⟩

namespace ParseState

/-- The end of a body ends the statement being read. -/
theorem run_endsBody {ps : Prelude} (hps : ps ≠ []) {after : Text} (h : EndsBody after)
    (o start : Nat) (done : List Node) (blocks : List OpenBlock) :
    run ⟨o, pending start ps, done, blocks⟩ 0 after
      = run ⟨o, none, .leaf (readHead start ps.text false) o :: done, blocks⟩ 0 after := by
  obtain ⟨p, qs, rfl⟩ := List.exists_cons_of_ne_nil hps
  rw [← raw_pending start]
  rcases h with rfl | ⟨t, rfl⟩
  · rw [run_nil, run_nil]
    rfl
  · rw [run_cons (Token.next_rbrace t), run_cons (Token.next_rbrace t)]
    rfl

/-! ### Bodies -/

theorem StartsStatement.ne_nil {ps : Prelude} {after : Text}
    (h : StartsStatement (ps.text ++ after)) (hafter : ¬ StartsStatement after) : ps ≠ [] := by
  rintro rfl
  exact hafter h

theorem not_startsStatement_of_endsBody {after : Text} (h : EndsBody after) :
    ¬ StartsStatement after := by
  rintro ⟨c, rest, rfl, -, -, hbrace, -⟩
  rcases h with h | ⟨t, h⟩
  · cases h
  · exact hbrace (List.cons.inj h).1

theorem not_startsStatement_semicolon (t : Text) :
    ¬ StartsStatement (Ascii.semicolon :: t) := by
  rintro ⟨c, rest, h, -, hsemi, -⟩
  exact hsemi (List.cons.inj h).1.symm

/-- White space and comments open and close no bracket. -/
theorem depthAfter_of_isTrivia {p : PreludePart} (htrivia : isTrivia p.kind = true)
    (depth : Nat) : p.depthAfter depth = depth := by
  cases p with
  | opening c => cases htrivia
  | closing c => cases htrivia
  | _ => rfl

/-- White space or a comment in front of a text is passed over. -/
theorem run_trivia (p : PreludePart) {after : Text} (h : p.WellFormed 0 after)
    (htrivia : isTrivia p.kind = true) (o : Nat) (done : List Node) (blocks : List OpenBlock) :
    run ⟨o, none, done, blocks⟩ 0 (p.text ++ after)
      = run ⟨o + p.text.length, none, done, blocks⟩ 0 after := by
  rw [run_part h, step_trivia htrivia, depthAfter_of_isTrivia htrivia]
  rfl

/-- **A body in front of a text puts its nodes into the open block.** -/
theorem run_body {b : Body} : ∀ {after : Text}, b.WellFormed after → EndsBody after →
    ∀ (o : Nat) (done : List Node) (blocks : List OpenBlock),
      run ⟨o, none, done, blocks⟩ 0 (b.text ++ after)
        = run ⟨o + b.text.length, none, (b.nodes o).reverse ++ done, blocks⟩ 0 after := by
  -- the nodes of the body are pushed on those before it, so the induction is over all states
  induction b with
  | done =>
      intro after _ _ o done blocks
      rfl
  | last ps =>
      intro after h hend o done blocks
      obtain ⟨hstart, hps⟩ := h
      have hne := StartsStatement.ne_nil hstart (not_startsStatement_of_endsBody hend)
      rw [Body.text, run_statement hps hstart, run_endsBody hne hend]
      rfl
  | space c rest ih =>
      intro after h hend o done blocks
      obtain ⟨hc, hrest⟩ := h
      have hkind : isTrivia (PreludePart.byte c).kind = true := by
        rw [PreludePart.kind, if_pos hc]
        rfl
      have htext : (Body.space c rest).text ++ after
          = (PreludePart.byte c).text ++ (rest.text ++ after) := rfl
      rw [htext, run_trivia (.byte c) (isPlain_of_isSpace hc _) hkind, ih hrest hend]
      simp only [Body.nodes, Body.text, PreludePart.text, List.length_cons, List.length_nil]
      congr 2
      omega
  | lineComment t rest ih =>
      intro after h hend o done blocks
      obtain ⟨ht, hrest⟩ := h
      have htext : (Body.lineComment t rest).text ++ after
          = (PreludePart.lineComment t).text ++ (rest.text ++ after) := by
        simp [Body.text, PreludePart.text]
      rw [htext, run_trivia (.lineComment t) ⟨rfl, ht⟩ rfl, ih hrest hend]
      simp only [Body.nodes, Body.text, PreludePart.text, List.length_cons, List.length_append]
      congr 2
      omega
  | blockComment t rest ih =>
      intro after h hend o done blocks
      obtain ⟨ht, hrest⟩ := h
      have htext : (Body.blockComment t rest).text ++ after
          = (PreludePart.blockComment t).text ++ (rest.text ++ after) := by
        simp [Body.text, PreludePart.text]
      rw [htext, run_trivia (.blockComment t) ht rfl, ih hrest hend]
      simp only [Body.nodes, Body.text, PreludePart.text, List.length_cons, List.length_append,
        List.length_nil]
      congr 2
      omega
  | semicolon rest ih =>
      intro after h hend o done blocks
      rw [Body.text, List.cons_append, run_semicolon_none, ih h hend]
      simp only [Body.nodes, List.length_cons]
      congr 2
      omega
  | leaf ps rest ih =>
      intro after h hend o done blocks
      obtain ⟨hstart, hps, hrest⟩ := h
      have hne := StartsStatement.ne_nil hstart (not_startsStatement_semicolon _)
      rw [Body.text, List.append_assoc, List.cons_append, run_statement hps hstart,
        run_semicolon_some hne, ih hrest hend]
      simp only [Body.nodes, List.length_append, List.length_cons, List.reverse_cons,
        List.append_assoc, List.singleton_append]
      congr 2
      omega
  | block ps inner rest ihi ihr =>
      intro after h hend o done blocks
      obtain ⟨hstart, hps, hinner, hrest⟩ := h
      rw [Body.text]
      simp only [List.append_assoc, List.cons_append]
      -- the inner body starts a list of nodes of its own, which the closing brace takes up
      rw [run_statement hps hstart, run_lbrace, ihi hinner (Or.inr ⟨_, rfl⟩), run_rbrace,
        ihr hrest hend]
      simp only [Body.nodes, List.length_append, List.length_cons, List.reverse_cons,
        List.append_assoc, List.singleton_append, List.append_nil, List.reverse_reverse]
      congr 2
      omega

/-! ### Open bodies

A block that is entered is put on the stack of open blocks with the offset of its statement. -/

/-- The offsets of the statements of the open blocks, innermost first. -/
def openStarts (blocks : List OpenBlock) : List Nat := blocks.map fun b => b.head.start

/-- An item in front of a text is passed over; the head of a block opens it. -/
theorem exists_run_item {i : BodyItem} {after : Text} (h : i.WellFormed after) (o : Nat)
    (done : List Node) (blocks : List OpenBlock) :
    ∃ done' blocks', run ⟨o, none, done, blocks⟩ 0 (i.text ++ after)
        = run ⟨o + i.text.length, none, done', blocks'⟩ 0 after ∧
      openStarts blocks' = i.opened o ++ openStarts blocks := by
  cases i with
  | trivia p => exact ⟨done, blocks, run_trivia p h.1 h.2 o done blocks, rfl⟩
  | semicolon => exact ⟨done, blocks, run_semicolon_none o done blocks after, rfl⟩
  | leaf ps =>
      have hrun := run_statement h.2 h.1 o done blocks
      rw [run_semicolon_some (StartsStatement.ne_nil h.1 (not_startsStatement_semicolon _))] at hrun
      rw [BodyItem.text, List.append_assoc, List.length_append]
      exact ⟨_, blocks, hrun, rfl⟩
  | block ps inner =>
      have hrun := run_statement h.1.2 h.1.1 o done blocks
      rw [run_lbrace, run_body h.2 (Or.inr ⟨_, rfl⟩), run_rbrace] at hrun
      have htext : (BodyItem.block ps inner).text ++ after
          = ps.text ++ Ascii.lbrace :: (inner.text ++ Ascii.rbrace :: after) := by
        simp [BodyItem.text]
      have hlength : o + (BodyItem.block ps inner).text.length
          = o + ps.text.length + 1 + inner.text.length + 1 := by
        simp only [BodyItem.text, List.length_append, List.length_cons, List.length_nil]
        omega
      rw [htext, hlength]
      exact ⟨_, blocks, hrun, rfl⟩
  | head ps =>
      -- the statements of the block are kept apart from those in front of it
      have hrun := run_statement h.2 h.1 o done blocks
      rw [run_lbrace] at hrun
      rw [BodyItem.text, List.append_assoc, List.length_append]
      refine ⟨[], _, hrun, ?_⟩
      rw [openStarts, List.map_cons, start_readHead]
      rfl

/-- An open body in front of a text is passed over, and its blocks stay open. -/
theorem exists_run_openBody {f : OpenBody} : ∀ {after : Text}, f.WellFormed after →
    ∀ (o : Nat) (done : List Node) (blocks : List OpenBlock),
      ∃ done' blocks', run ⟨o, none, done, blocks⟩ 0 (f.text ++ after)
          = run ⟨o + f.text.length, none, done', blocks'⟩ 0 after ∧
        openStarts blocks' = f.starts o ++ openStarts blocks := by
  induction f with
  | nil =>
      intro after _ o done blocks
      exact ⟨done, blocks, rfl, rfl⟩
  | cons i f ih =>
      intro after h o done blocks
      obtain ⟨done₁, blocks₁, hrun₁, hstarts₁⟩ := exists_run_item h.1 o done blocks
      obtain ⟨done₂, blocks₂, hrun₂, hstarts₂⟩ := ih h.2 (o + i.text.length) done₁ blocks₁
      refine ⟨done₂, blocks₂, ?_, ?_⟩
      · rw [OpenBody.text_cons, List.append_assoc, hrun₁, hrun₂, List.length_append,
          Nat.add_assoc]
      · rw [hstarts₂, hstarts₁, OpenBody.starts, List.append_assoc]

/-- **Where the reading of a text breaks off, the run fails**, with the error that tells why. -/
theorem run_breaksAt {f : OpenBody} {u : Text} {o : Nat} {e : SyntaxError} (hf : f.WellFormed u)
    (h : BreaksAt o f u e) (done : List Node) (blocks : List OpenBlock) :
    run ⟨o, none, done, blocks⟩ 0 (f.text ++ u) = .error e := by
  obtain ⟨done', blocks', hrun, hstarts⟩ := exists_run_openBody hf o done blocks
  rw [hrun]
  cases h with
  | @block inner k hinner hk =>
      -- the rest of the block is read, and then the text ends with the block on top of the stack
      have hhead : (openStarts blocks').head? = some k := by
        rw [hstarts, List.head?_append, hk]
        rfl
      have hbody := run_body hinner (Or.inl rfl) (o + f.text.length) done' blocks'
      rw [List.append_nil] at hbody
      rw [hbody, run_nil]
      cases blocks' with
      | nil => cases hhead
      | cons b bs =>
          have hstart : b.head.start = k := Option.some.inj hhead
          rw [← hstart]
          rfl
  | @bracket ps hstart hps hopen =>
      -- the text ends with the statement open, as it has a unit
      have hunits := run_opening hps (Or.inr (by rwa [List.append_nil])) (o + f.text.length) done'
        blocks'
      rw [List.append_nil] at hunits
      rw [hunits, run_nil]
      obtain ⟨p, qs, rfl⟩ : ∃ p qs, ps = p :: qs := by
        apply List.exists_cons_of_ne_nil
        rintro rfl
        exact Nat.lt_irrefl 0 hopen
      obtain ⟨d, hd⟩ := Nat.exists_eq_add_of_lt hopen
      rw [hd, Nat.zero_add]
      rfl
  | token hstart hps hnext =>
      rw [run_opening hps hstart, run_eq_error hnext]

/-- **A run that succeeds between statements finds a body**, up to a closing brace or the end
of the text. -/
theorem exists_body_of_run {t : Text} {o : Nat} {done nodes : List Node}
    {blocks : List OpenBlock} (h : run ⟨o, none, done, blocks⟩ 0 t = .ok nodes) :
    ∃ (b : Body) (after : Text), t = b.text ++ after ∧ b.WellFormed after ∧ EndsBody after := by
  rcases startsBody_or_breaksOff o t with hbody | ⟨f, u, e, rfl, hf, hbreak⟩
  · exact hbody
  · rw [run_breaksAt hf hbreak] at h
    cases h

end ParseState

/-! ## Derivations of a text -/

/-- A derivation makes the parser succeed with its nodes. -/
theorem parse_eq_ok_of_derives {b : Body} {src : Text} (h : b.Derives src) :
    parse src = .ok ⟨src.length, b.nodes 0⟩ := by
  -- the whole text is a body with nothing behind it
  obtain ⟨rfl, hb⟩ := h
  have hrun := ParseState.run_body hb (Or.inl rfl) 0 [] []
  rw [List.append_nil, ParseState.run_nil] at hrun
  have hbuild : (tokenize 0 b.text).build = .ok (b.nodes 0) := by
    refine hrun.trans ?_
    show Except.ok (List.reverse ((b.nodes 0).reverse ++ [])) = _
    rw [List.append_nil, List.reverse_reverse]
  rw [parse, hbuild]
  rfl

/-- A text that the parser accepts has a derivation. -/
theorem exists_derives_of_parse_eq_ok {src : Text} {sheet : Stylesheet}
    (h : parse src = .ok sheet) : ∃ b : Body, b.Derives src := by
  cases hbuild : (tokenize 0 src).build with
  | error e =>
      rw [parse, hbuild] at h
      cases h
  | ok nodes =>
      have hrun : ParseState.run ⟨0, none, [], []⟩ 0 src = .ok nodes := hbuild
      obtain ⟨b, after, rfl, hb, hafter⟩ := ParseState.exists_body_of_run hrun
      rw [ParseState.run_body hb hafter] at hrun
      rcases hafter with rfl | ⟨t, rfl⟩
      · exact ⟨b, by simp, hb⟩
      · -- a closing brace with no block open
        rw [ParseState.run_cons (Token.next_rbrace t)] at hrun
        cases hrun

/-- A text has at most one derivation. -/
theorem Body.Derives.unique {b b' : Body} {src : Text} (h : b.Derives src)
    (h' : b'.Derives src) : b = b' := by
  refine (Body.unique h.2 h'.2 (Or.inl rfl) (Or.inl rfl) ?_).1
  rw [h.1, h'.1]

/-- **The parser accepts exactly the texts that have a derivation**, a text has at most one, and
the parser returns the nodes of that one. -/
theorem parse_derivation (src : Text) :
    ((∃ sheet, parse src = .ok sheet) ↔ ∃ b : Body, b.Derives src) ∧
      (∀ b b' : Body, b.Derives src → b'.Derives src → b = b') ∧
      ∀ b : Body, b.Derives src → parse src = .ok ⟨src.length, b.nodes 0⟩ := by
  refine ⟨⟨?_, ?_⟩, ?_, ?_⟩
  · rintro ⟨sheet, h⟩
    exact exists_derives_of_parse_eq_ok h
  · rintro ⟨b, h⟩
    exact ⟨_, parse_eq_ok_of_derives h⟩
  · intro b b' h h'
    exact h.unique h'
  · intro b h
    exact parse_eq_ok_of_derives h

end StyleIndex
