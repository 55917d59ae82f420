import Mathlib.Tactic
import StyleIndex.Proofs.Grammar.Acceptance
import StyleIndex.Proofs.Symbol.Span

set_option autoImplicit false

/-! # The parser at the end of a mark

A mark `;`, `{` or `}` outside brackets ends every statement that is being read. So two texts that
agree up to the end of such a mark are cut into the same tokens up to there
(`tokenize_append_of_mark`), and the pass over the tokens is in one and the same state, between two
statements (`exists_state_of_mark`).

`ParseState.Tidy` says what that state holds: statements that end in front of it, and open blocks
whose heads do. Blocks begin and end at marks only, which is the last thing the invariant says.
-/

namespace StyleIndex

/-! ## Tokens up to a mark -/

/-- Whether a unit may stand in front of a text shows in the first byte of the text. -/
theorem PreludePart.WellFormed.congr {p : PreludePart} {depth : Nat} {after after' : Text}
    (h : p.WellFormed depth after) (hhead : after'.head? = after.head?) :
    p.WellFormed depth after' := by
  cases p with
  | lineComment t =>
      obtain ⟨hdepth, hline⟩ := h
      refine ⟨hdepth, hline.imp id ?_⟩
      rintro ⟨ht, rfl⟩
      exact ⟨ht, List.head?_eq_none_iff.mp hhead⟩
  | byte c =>
      exact ⟨h.not_quote, h.not_bracket, by rw [hhead]; exact h.not_interpolation,
        by rw [hhead]; exact h.not_blockComment, by rw [hhead]; exact h.not_lineComment, h.not_mark⟩
  | _ => exact h

/-- Whether a token of this kind bounds statements. -/
def TokenKind.isMark : TokenKind → Bool
  | .semicolon => true
  | .blockOpen => true
  | .blockClose => true
  | _ => false

/-- No unit is a mark. -/
theorem PreludePart.isMark_kind (p : PreludePart) : p.kind.isMark = false := by
  cases p with
  | byte c =>
      by_cases hc : Ascii.isSpace c = true
      · simp [kind, hc, TokenKind.isMark]
      · simp [kind, hc, TokenKind.isMark]
  | _ => rfl

/-- The text that a row of tokens was cut from. -/
def Token.spelling (ts : List Token) : Text := ts.flatMap Token.text

/-- A token of one of the given kinds ends at offset `o`. -/
def Token.EndsAt (kinds : TokenKind → Bool) (ts : List Token) (o : Nat) : Prop :=
  ∃ before m after, ts = before ++ m :: after ∧ kinds m.kind = true ∧
    o = (spelling (before ++ [m])).length

/-- A mark outside brackets is a token, whatever follows. -/
theorem tokenize_mark {c : UInt8} (hc : IsMark c) :
    ∃ kind : TokenKind, kind.isMark = true ∧ ∀ w, tokenize 0 (c :: w)
      = ⟨⟨kind, [c]⟩ :: (tokenize 0 w).tokens, (tokenize 0 w).ending⟩ := by
  rcases hc with rfl | rfl | rfl
  · refine ⟨.semicolon, rfl, fun w => ?_⟩
    rw [tokenize, Token.next_semicolon]
    rfl
  · refine ⟨.blockOpen, rfl, fun w => ?_⟩
    rw [tokenize, Token.next_lbrace]
    rfl
  · refine ⟨.blockClose, rfl, fun w => ?_⟩
    rw [tokenize, Token.next_rbrace]
    rfl

/-- The first token of a text is a mark, which is there whatever follows, or a unit. -/
theorem tokenize_cases {depth : Nat} {t : Text} {k : Token} {ks : List Token}
    (h : (tokenize depth t).tokens = k :: ks) :
    (depth = 0 ∧ k.kind.isMark = true ∧ (∃ c, IsMark c ∧ k.text = [c]) ∧
      (∀ w, tokenize 0 (k.text ++ w)
        = ⟨k :: (tokenize 0 w).tokens, (tokenize 0 w).ending⟩) ∧
      ∃ rest, t = k.text ++ rest ∧ (tokenize 0 rest).tokens = ks) ∨
    ∃ (p : PreludePart) (after : Text), p.WellFormed depth after ∧ t = p.text ++ after ∧
      k = ⟨p.kind, p.text⟩ ∧ (tokenize (p.depthAfter depth) after).tokens = ks := by
  cases t with
  | nil =>
      rw [tokenize] at h
      cases h
  | cons c rest =>
      cases hnext : Token.next depth c rest with
      | error e =>
          rw [tokenize, hnext] at h
          cases h
      | ok l =>
          rcases exists_part_of_next_eq_ok hnext with ⟨rfl, hmark⟩ | ⟨p, after, hp, htext⟩
          · obtain ⟨kind, hkind, htokens⟩ := tokenize_mark hmark
            rw [htokens] at h
            obtain ⟨rfl, hks⟩ := List.cons.inj h
            exact Or.inl ⟨rfl, hkind, ⟨c, hmark, rfl⟩, htokens, rest, rfl, hks⟩
          · rw [← htext, tokenize_part hp] at h
            obtain ⟨rfl, hks⟩ := List.cons.inj h
            exact Or.inr ⟨p, after, hp, htext.symm, rfl, hks⟩

/-- Marks are single bytes. -/
theorem length_text_of_isMark {depth : Nat} {t : Text} {k : Token}
    (hk : k ∈ (tokenize depth t).tokens) (hmark : k.kind.isMark = true) : k.text.length = 1 := by
  generalize hts : (tokenize depth t).tokens = ts at hk
  induction ts generalizing depth t with
  | nil => cases hk
  | cons k' ks ih =>
      rcases tokenize_cases hts with ⟨-, -, ⟨c, -, htext⟩, -, rest, -, hks⟩ |
        ⟨p, after, -, -, rfl, hks⟩
      · rcases List.mem_cons.mp hk with rfl | hk
        · rw [htext, List.length_singleton]
        · exact ih hks hk
      · rcases List.mem_cons.mp hk with rfl | hk
        · rw [p.isMark_kind] at hmark
          cases hmark
        · exact ih hks hk

namespace ParseState

@[simp] theorem offset_endLeaf (s : ParseState) (stop : Nat) :
    (s.endLeaf stop).offset = s.offset := by
  unfold endLeaf
  split <;> rfl

@[simp] theorem blocks_endLeaf (s : ParseState) (stop : Nat) :
    (s.endLeaf stop).blocks = s.blocks := by
  unfold endLeaf
  split <;> rfl

@[simp] theorem statement_endLeaf (s : ParseState) (stop : Nat) :
    (s.endLeaf stop).statement = none := by
  unfold endLeaf
  split
  · next h => exact h
  · rfl

/-- Ending the current statement adds nothing but its leaf. -/
theorem mem_done_endLeaf {s : ParseState} {stop : Nat} {n : Node}
    (h : n ∈ (s.endLeaf stop).done) :
    n ∈ s.done ∨ ∃ st, s.statement = some st ∧
      n = .leaf (readHead st.start st.raw false) stop := by
  unfold endLeaf at h
  split at h
  · exact Or.inl h
  · next st hst =>
    rcases List.mem_cons.mp h with rfl | h
    · exact Or.inr ⟨st, hst, rfl⟩
    · exact Or.inl h

/-- The statement that a token continues or starts. -/
def current (s : ParseState) : OpenStatement := s.statement.getD ⟨s.offset, []⟩

/-- What one token does to the state. -/
theorem step_cases {s s' : ParseState} {k : Token} (h : s.step k = .ok s') :
    (k.kind = .semicolon ∧
      s' = ⟨s.offset + k.text.length, none, (s.endLeaf (s.offset + 1)).done, s.blocks⟩) ∨
    (k.kind = .blockOpen ∧
      s' = ⟨s.offset + k.text.length, none, [],
        ⟨readHead s.current.start s.current.raw true, s.offset + 1, s.done⟩ :: s.blocks⟩) ∨
    (k.kind = .blockClose ∧ ∃ b blocks, s.blocks = b :: blocks ∧
      s' = ⟨s.offset + k.text.length, none, .block b.head b.bodyStart
        (s.endLeaf s.offset).done.reverse (s.offset + 1) :: b.before, blocks⟩) ∨
    (k.kind.isMark = false ∧
      (s.statement = none ∧ s' = { s with offset := s.offset + k.text.length } ∨
        s' = ⟨s.offset + k.text.length,
          some ⟨s.current.start, k.text :: s.current.texts⟩, s.done, s.blocks⟩)) := by
  obtain ⟨kind, text⟩ := k
  unfold step react at h
  cases kind with
  | semicolon =>
      obtain rfl := Except.ok.inj h
      exact Or.inl ⟨rfl, by simp⟩
  | blockOpen =>
      obtain rfl := Except.ok.inj h
      exact Or.inr (Or.inl ⟨rfl, rfl⟩)
  | blockClose =>
      cases hblocks : s.blocks with
      | nil =>
          simp [closeBlock, hblocks] at h
          cases h
      | cons b blocks =>
          simp only [closeBlock, blocks_endLeaf, hblocks, offset_endLeaf, statement_endLeaf] at h
          obtain rfl := Except.ok.inj h
          exact Or.inr (Or.inr (Or.inl ⟨rfl, b, blocks, rfl, by simp⟩))
  | _ =>
      obtain rfl := Except.ok.inj h
      refine Or.inr (Or.inr (Or.inr ⟨rfl, ?_⟩))
      split_ifs with hskip
      · exact Or.inl ⟨by simpa using (Bool.and_eq_true_iff.mp hskip).1, rfl⟩
      · exact Or.inr rfl

end ParseState

/-! ## Settled statements -/

namespace Token

variable {kinds : TokenKind → Bool} {ts us : List Token} {o : Nat}

theorem spelling_append (ts us : List Token) : spelling (ts ++ us) = spelling ts ++ spelling us :=
  List.flatMap_append

theorem length_spelling_le (ts us : List Token) :
    (spelling ts).length ≤ (spelling (ts ++ us)).length := by
  rw [spelling_append, List.length_append]
  exact Nat.le_add_right _ _

theorem EndsAt.append (h : EndsAt kinds ts o) (us : List Token) : EndsAt kinds (ts ++ us) o := by
  obtain ⟨before, m, after, rfl, hm, ho⟩ := h
  exact ⟨before, m, after ++ us, by simp, hm, ho⟩

theorem EndsAt.last {k : Token} (hk : kinds k.kind = true) (ts : List Token) :
    EndsAt kinds (ts ++ [k]) (spelling (ts ++ [k])).length :=
  ⟨ts, k, [], rfl, hk, rfl⟩

theorem EndsAt.le (h : EndsAt kinds ts o) : o ≤ (spelling ts).length := by
  obtain ⟨before, m, after, rfl, -, rfl⟩ := h
  simp [spelling]

end Token

/-- The head is read from a text that ends before offset `o`. -/
def Head.EndsBefore (o : Nat) (h : Head) : Prop :=
  ∃ raw block, h = readHead h.start raw block ∧ h.start + raw.length < o

theorem Head.EndsBefore.mono {h : Head} {o o' : Nat} (hh : h.EndsBefore o) (ho : o ≤ o') :
    h.EndsBefore o' := by
  obtain ⟨raw, block, hread, hlt⟩ := hh
  exact ⟨raw, block, hread, hlt.trans_le ho⟩

theorem endsBefore_readHead {start o : Nat} {raw : Text} (h : start + raw.length < o)
    (block : Bool) : (readHead start raw block).EndsBefore o := by
  refine ⟨raw, block, ?_, ?_⟩
  · rw [start_readHead]
  · rwa [start_readHead]

/-- The statement ends at or before offset `o`, and its prelude before that. -/
def Node.EndsBefore (o : Nat) (n : Node) : Prop := n.head.EndsBefore o ∧ n.stop ≤ o

/-- The blocks in a statement, itself included, begin and end at offsets with a property. -/
inductive Node.BlocksAt (P : Nat → Prop) : Node → Prop
  | leaf (head : Head) (stop : Nat) : BlocksAt P (.leaf head stop)
  | block {head : Head} {bodyStart : Nat} {children : List Node} {stop : Nat} :
      P bodyStart → P stop → (∀ n ∈ children, n.BlocksAt P) →
      BlocksAt P (.block head bodyStart children stop)

theorem Node.BlocksAt.mono {P Q : Nat → Prop} (hPQ : ∀ o, P o → Q o) {n : Node}
    (h : n.BlocksAt P) : n.BlocksAt Q := by
  induction h with
  | leaf head stop => exact .leaf head stop
  | block hstart hstop _ ih => exact .block (hPQ _ hstart) (hPQ _ hstop) ih

/-- The statement lies in the text of a row of tokens, and its blocks begin and end at marks. -/
def Node.Settled (ts : List Token) (n : Node) : Prop :=
  n.EndsBefore (Token.spelling ts).length ∧ n.BlocksAt (Token.EndsAt TokenKind.isMark ts)

theorem Node.Settled.append {n : Node} {ts : List Token} (h : n.Settled ts) (us : List Token) :
    n.Settled (ts ++ us) := by
  have hle := Token.length_spelling_le ts us
  obtain ⟨⟨hhead, hstop⟩, hblocks⟩ := h
  exact ⟨⟨hhead.mono hle, hstop.trans hle⟩, hblocks.mono fun o ho => ho.append us⟩

/-- The head of a block and what stands before it lie in the text of a row of tokens, and the block
begins at a mark. -/
structure OpenBlock.Settled (ts : List Token) (b : OpenBlock) : Prop where
  head : b.head.EndsBefore (Token.spelling ts).length
  bodyStart : Token.EndsAt TokenKind.isMark ts b.bodyStart
  before : ∀ n ∈ b.before, n.Settled ts

theorem OpenBlock.Settled.append {b : OpenBlock} {ts : List Token} (h : b.Settled ts)
    (us : List Token) : b.Settled (ts ++ us) where
  head := h.head.mono (Token.length_spelling_le ts us)
  bodyStart := h.bodyStart.append us
  before := fun n hn => (h.before n hn).append us

/-! ## The invariant of the pass -/

namespace ParseState

/-- What the state holds behind a row of tokens. -/
structure Tidy (ts : List Token) (s : ParseState) : Prop where
  offset : s.offset = (Token.spelling ts).length
  statement : ∀ st, s.statement = some st → st.start + st.raw.length = s.offset
  done : ∀ n ∈ s.done, n.Settled ts
  blocks : ∀ b ∈ s.blocks, b.Settled ts

variable {ts : List Token} {s s' : ParseState} {k : Token}

theorem tidy_initial : initial.Tidy [] where
  offset := rfl
  statement := fun st h => by cases h
  done := fun n h => by cases h
  blocks := fun b h => by cases h

theorem Tidy.current (h : s.Tidy ts) : s.current.start + s.current.raw.length = s.offset := by
  rw [ParseState.current]
  cases hst : s.statement with
  | none => rfl
  | some st => exact h.statement st hst

/-- The offset behind one more token. -/
theorem Tidy.offset_step (h : s.Tidy ts) (k : Token) :
    (Token.spelling (ts ++ [k])).length = s.offset + k.text.length := by
  rw [Token.spelling_append, List.length_append, h.offset]
  simp [Token.spelling]

/-- A mark settles the statement in front of it. -/
theorem Tidy.settled_endLeaf (h : s.Tidy ts) (hk : k.text.length = 1) {stop : Nat}
    (hstop : stop ≤ s.offset + 1) : ∀ n ∈ (s.endLeaf stop).done, n.Settled (ts ++ [k]) := by
  intro n hn
  rcases mem_done_endLeaf hn with hn | ⟨st, hst, rfl⟩
  · exact (h.done n hn).append [k]
  · have hend := h.statement st hst
    refine ⟨⟨endsBefore_readHead ?_ false, ?_⟩, .leaf _ _⟩
    · rw [h.offset_step, hk]
      omega
    · rw [h.offset_step, hk]
      exact hstop

/-- **One token keeps the state tidy.** -/
theorem Tidy.step (h : s.Tidy ts) (hk : k.kind.isMark = true → k.text.length = 1)
    (hstep : s.step k = .ok s') : s'.Tidy (ts ++ [k]) := by
  have hoffset := h.offset_step k
  have hblocks : ∀ b ∈ s.blocks, b.Settled (ts ++ [k]) := fun b hb => (h.blocks b hb).append [k]
  rcases step_cases hstep with ⟨hkind, rfl⟩ | ⟨hkind, rfl⟩ | ⟨hkind, b, blocks, hb, rfl⟩ |
    ⟨-, ⟨hst, rfl⟩ | rfl⟩
  · -- a semicolon ends the statement in front of it
    have hlen := hk (by rw [hkind]; rfl)
    exact ⟨hoffset.symm, by simp, h.settled_endLeaf hlen le_rfl, hblocks⟩
  · -- an opening brace makes the statement the head of a block
    have hmark : k.kind.isMark = true := by rw [hkind]; rfl
    have hend : (Token.spelling (ts ++ [k])).length = s.offset + 1 := by rw [hoffset, hk hmark]
    refine ⟨hoffset.symm, by simp, by simp, ?_⟩
    intro b hb
    rcases List.mem_cons.mp hb with rfl | hb
    · refine ⟨endsBefore_readHead ?_ true, ?_, fun n hn => (h.done n hn).append [k]⟩
      · rw [hend, h.current]
        exact Nat.lt_succ_self _
      · rw [← hend]
        exact .last hmark ts
    · exact hblocks b hb
  · -- a closing brace ends the statement and the innermost block
    have hmark : k.kind.isMark = true := by rw [hkind]; rfl
    have hend : (Token.spelling (ts ++ [k])).length = s.offset + 1 := by rw [hoffset, hk hmark]
    have hbs : b.Settled (ts ++ [k]) := hblocks b (by rw [hb]; exact List.mem_cons_self)
    refine ⟨hoffset.symm, by simp, ?_, ?_⟩
    · intro n hn
      rcases List.mem_cons.mp hn with rfl | hn
      · refine ⟨⟨hbs.head, hend.ge⟩, .block hbs.bodyStart (hend ▸ .last hmark ts) ?_⟩
        intro n hn
        exact (h.settled_endLeaf (hk hmark) (Nat.le_succ _) n (List.mem_reverse.mp hn)).2
      · exact hbs.before n hn
    · intro b' hb'
      exact hblocks b' (by rw [hb]; exact List.mem_cons_of_mem _ hb')
  · -- any other token is skipped between statements, or belongs to one
    refine ⟨hoffset.symm, ?_, fun n hn => (h.done n hn).append [k], hblocks⟩
    intro st hst'
    rw [hst] at hst'
    cases hst'
  · refine ⟨hoffset.symm, ?_, fun n hn => (h.done n hn).append [k], hblocks⟩
    intro st hst
    obtain rfl := Option.some.inj hst
    have hend := h.current
    simp only [OpenStatement.raw, List.reverse_cons, List.flatten_append, List.flatten_cons,
      List.flatten_nil, List.append_nil, List.length_append] at hend ⊢
    omega

/-- A pass over two rows of tokens goes through a state between them. -/
theorem exists_foldlM_of_append {ks ls : List Token}
    (h : (ks ++ ls).foldlM step s = .ok s') :
    ∃ s₁, ks.foldlM step s = .ok s₁ ∧ ls.foldlM step s₁ = .ok s' := by
  rw [List.foldlM_append] at h
  cases hfirst : ks.foldlM step s with
  | error e =>
      rw [hfirst] at h
      cases h
  | ok s₁ =>
      rw [hfirst] at h
      exact ⟨s₁, rfl, h⟩

theorem step_of_foldlM_singleton (h : [k].foldlM step s = .ok s') : s.step k = .ok s' := by
  have hlast : s.step k >>= pure = .ok s' := h
  rwa [bind_pure] at hlast

/-- A pass takes its first step and goes on. -/
theorem exists_step_of_foldlM {ks : List Token} (h : (k :: ks).foldlM step s = .ok s') :
    ∃ s₁, s.step k = .ok s₁ ∧ ks.foldlM step s₁ = .ok s' := by
  rw [← List.singleton_append] at h
  obtain ⟨s₁, hfirst, hrest⟩ := exists_foldlM_of_append h
  exact ⟨s₁, step_of_foldlM_singleton hfirst, hrest⟩

/-- The pass keeps the state tidy. -/
theorem Tidy.foldlM {ks : List Token} (h : s.Tidy ts)
    (hks : ∀ k ∈ ks, k.kind.isMark = true → k.text.length = 1)
    (hfold : ks.foldlM ParseState.step s = .ok s') : s'.Tidy (ts ++ ks) := by
  induction ks generalizing s ts with
  | nil =>
      obtain rfl := Except.ok.inj hfold
      rwa [List.append_nil]
  | cons k ks ih =>
      obtain ⟨s₁, hstep, hrest⟩ := exists_step_of_foldlM hfold
      have htidy := h.step (hks k List.mem_cons_self) hstep
      rw [← List.singleton_append, ← List.append_assoc]
      exact ih htidy (fun k' hk' => hks k' (List.mem_cons_of_mem _ hk')) hrest

/-- A run that succeeds takes the pass through the tokens. -/
theorem exists_foldlM_of_run {depth : Nat} {t : Text} {nodes : List Node}
    (h : s.run depth t = .ok nodes) :
    ∃ s', (tokenize depth t).tokens.foldlM step s = .ok s' ∧
      s'.finish (tokenize depth t).ending = .ok nodes := by
  rw [run] at h
  cases hfold : (tokenize depth t).tokens.foldlM step s with
  | error e =>
      rw [hfold] at h
      cases h
  | ok s' =>
      rw [hfold] at h
      exact ⟨s', rfl, h⟩

/-- The statements of a run that succeeds. -/
theorem done_of_finish {ending : LexingEnd} {nodes : List Node}
    (h : s.finish ending = .ok nodes) : nodes = (s.endLeaf s.offset).done.reverse := by
  unfold finish at h
  split at h
  · cases h
  · split at h
    · cases h
    · split at h
      · cases h
      · exact (Except.ok.inj h).symm

end ParseState

/-! ## Where blocks begin and end -/

/-- A statement among the given ones or inside one of them. -/
inductive Node.Within (n : Node) : List Node → Prop
  | here {nodes : List Node} : n ∈ nodes → Within n nodes
  | inside {m : Node} {nodes : List Node} : m ∈ nodes → Within n m.children → Within n nodes

end StyleIndex
