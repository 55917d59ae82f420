import Mathlib.Tactic
import StyleIndex.Proofs.Grammar.Boundary

set_option autoImplicit false

/-! # Statements at another place

A text that stands `n` bytes further on is read in the same way, with every offset larger by `n`.
`Node.shift` moves a statement: its start and its stop, the start of its block, the offsets of its
name, of its parameters and of its import targets, and the same for all statements inside it.

The offsets of a statement are sums that start from the offset of the statement, so reading the
head of a statement commutes with moving it (`readHead_add`). The pass over the tokens does too
(`run_behind`), also when statements were finished in front of it. These stand at the bottom of the
stack of open blocks, where no token reaches them.
-/

namespace StyleIndex

/-! ## Moving a statement -/

def Param.shift (n : Nat) (p : Param) : Param := { p with offset := n + p.offset }

def ImportTarget.shift (n : Nat) (t : ImportTarget) : ImportTarget :=
  { t with offset := n + t.offset }

/-- Moves the offsets of a form: those of its name, its parameters and its import targets. -/
def Form.shift (n : Nat) : Form → Form
  | .callable kind name nameStart params =>
      .callable kind name (n + nameStart) (params.map (Param.shift n))
  | .importing keyword targets => .importing keyword (targets.map (ImportTarget.shift n))
  | .inclusion name nameStart => .inclusion name (n + nameStart)
  | .binding name flags => .binding name flags
  | .atRule keyword => .atRule keyword
  | .ruleset => .ruleset
  | .declaration => .declaration

def Head.shift (n : Nat) (h : Head) : Head := ⟨n + h.start, h.form.shift n, h.value⟩

mutual

/-- The same statement in a text that starts `n` bytes earlier. -/
def Node.shift (n : Nat) : Node → Node
  | .leaf head stop => .leaf (head.shift n) (n + stop)
  | .block head bodyStart children stop =>
      .block (head.shift n) (n + bodyStart) (Node.shiftAll n children) (n + stop)

/-- Moves all statements of a list. -/
def Node.shiftAll (n : Nat) : List Node → List Node
  | [] => []
  | c :: rest => c.shift n :: Node.shiftAll n rest

end

theorem Node.shiftAll_eq_map (n : Nat) (nodes : List Node) :
    Node.shiftAll n nodes = nodes.map (Node.shift n) := by
  induction nodes with
  | nil => rw [Node.shiftAll, List.map_nil]
  | cons c rest ih => rw [Node.shiftAll, List.map_cons, ih]

theorem Node.shift_block (n : Nat) (head : Head) (bodyStart : Nat) (children : List Node)
    (stop : Nat) :
    (Node.block head bodyStart children stop).shift n
      = .block (head.shift n) (n + bodyStart) (children.map (Node.shift n)) (n + stop) := by
  rw [Node.shift, Node.shiftAll_eq_map]

/-! ## Reading a head at another place -/

theorem paramOfPiece?_add (n base : Nat) (piece : Piece) :
    paramOfPiece? (n + base) piece = (paramOfPiece? base piece).map (Param.shift n) := by
  simp only [paramOfPiece?]
  split_ifs
  · rfl
  · split
    · simp only [Option.map_some, Param.shift, Nat.add_assoc]
    · simp only [Option.map_some, Param.shift, Nat.add_assoc]

theorem readParams_add (n : Nat) (list : Text) (base : Nat) :
    readParams list (n + base) = (readParams list base).map (Param.shift n) := by
  rw [readParams, readParams, List.map_filterMap]
  exact List.filterMap_congr fun piece _ => paramOfPiece?_add n base piece

theorem targetOf?_add (n : Nat) (item : Text) (offset : Nat) :
    targetOf? item (n + offset) = (targetOf? item offset).map (ImportTarget.shift n) := by
  cases item with
  | nil => rfl
  | cons c rest =>
      simp only [targetOf?]
      split_ifs
      · simp only [Option.map_map, Function.comp_def, ImportTarget.shift, Nat.add_assoc]
      · simp only [Option.map_map, Function.comp_def, ImportTarget.shift, Nat.add_assoc]
      · rfl
      · rfl

theorem targetOfPiece?_add (n base : Nat) (piece : Piece) :
    targetOfPiece? (n + base) piece
      = (targetOfPiece? base piece).map (ImportTarget.shift n) := by
  simp only [targetOfPiece?, Nat.add_assoc]
  exact targetOf?_add n _ _

theorem readTargets_add (n : Nat) (keyword : ImportKeyword) (list : Text) (base : Nat) :
    readTargets keyword list (n + base)
      = (readTargets keyword list base).map (ImportTarget.shift n) := by
  have hpieces : ∀ pieces : List Piece, pieces.filterMap (targetOfPiece? (n + base))
      = (pieces.filterMap (targetOfPiece? base)).map (ImportTarget.shift n) := by
    intro pieces
    rw [List.map_filterMap]
    exact List.filterMap_congr fun piece _ => targetOfPiece?_add n base piece
  cases keyword with
  | importRule => exact hpieces _
  | useRule => exact hpieces _
  | forwardRule => exact hpieces _

theorem readCallable_add (n : Nat) (kind : CallableKind) (t : Text) (base : Nat) :
    readCallable kind t (n + base) = (readCallable kind t base).shift n := by
  simp only [readCallable, Form.shift]
  congr 1
  split
  · split
    · rw [Nat.add_assoc, readParams_add]
    · rfl
  · rfl

theorem readInclusion_add (n : Nat) (t : Text) (base : Nat) :
    readInclusion t (n + base) = (readInclusion t base).shift n := by
  simp only [readInclusion]
  split
  · simp only [Form.shift, Nat.add_assoc]
  · rfl

theorem readAtRule_add (n : Nat) (t : Text) (start : Nat) :
    readAtRule t (n + start) = (readAtRule t start).shift n := by
  have hbase : ∀ k, n + start + 1 + k = n + (start + 1 + k) := fun k => by omega
  simp only [readAtRule, hbase]
  split_ifs
  · exact readCallable_add n _ _ _
  · exact readCallable_add n _ _ _
  · exact readInclusion_add n _ _
  · simp only [Form.shift, readTargets_add]
  · simp only [Form.shift, readTargets_add]
  · simp only [Form.shift, readTargets_add]
  · rfl

/-- **A statement that stands further on has its head further on.** -/
theorem readHead_add (n start : Nat) (raw : Text) (block : Bool) :
    readHead (n + start) raw block = (readHead start raw block).shift n := by
  have hother : ∀ value : Text,
      (⟨n + start, if block then .ruleset else .declaration, value⟩ : Head)
        = Head.shift n ⟨start, if block then .ruleset else .declaration, value⟩ := by
    intro value
    cases block with
    | true => rfl
    | false => rfl
  simp only [readHead]
  split
  · split_ifs with hblock
    · simpa [hblock] using hother _
    · split
      · rfl
      · simpa [hblock] using hother _
  · simp only [Head.shift, readAtRule_add]
  · exact hother _

/-! ## The pass at another place -/

def OpenStatement.shift (n : Nat) (s : OpenStatement) : OpenStatement :=
  { s with start := n + s.start }

def OpenBlock.shift (n : Nat) (b : OpenBlock) : OpenBlock :=
  ⟨b.head.shift n, n + b.bodyStart, b.before.map (Node.shift n)⟩

/-- Puts finished statements, last first, under those of the outermost level. -/
def underlay (before done : List Node) : List OpenBlock → List Node × List OpenBlock
  | [] => (done ++ before, [])
  | b :: blocks =>
      let outer := underlay before b.before blocks
      (done, { b with before := outer.1 } :: outer.2)

theorem underlay_cons (before : List Node) (x : Node) (done : List Node)
    (blocks : List OpenBlock) :
    underlay before (x :: done) blocks
      = (x :: (underlay before done blocks).1, (underlay before done blocks).2) := by
  cases blocks with
  | nil => rfl
  | cons b blocks => rfl

namespace ParseState

/-- The state of the pass `n` bytes further on, behind the finished statements `before`, last
first. -/
def behind (n : Nat) (before : List Node) (s : ParseState) : ParseState :=
  let levels := underlay before (s.done.map (Node.shift n)) (s.blocks.map (OpenBlock.shift n))
  ⟨n + s.offset, s.statement.map (OpenStatement.shift n), levels.1, levels.2⟩

variable (n : Nat) (before : List Node)

theorem endLeaf_behind (s : ParseState) (stop : Nat) :
    (s.behind n before).endLeaf (n + stop) = (s.endLeaf stop).behind n before := by
  obtain ⟨offset, statement, done, blocks⟩ := s
  cases statement with
  | none => rfl
  | some st =>
      simp only [endLeaf, behind, Option.map_some, List.map_cons, underlay_cons]
      rw [Node.shift, ← readHead_add]
      rfl

theorem openBlock_behind (s : ParseState) :
    (s.behind n before).openBlock = s.openBlock.behind n before := by
  obtain ⟨offset, statement, done, blocks⟩ := s
  have hstart : ∀ st : Option OpenStatement,
      (st.map (OpenStatement.shift n)).getD ⟨n + offset, []⟩
        = (st.getD ⟨offset, []⟩).shift n := by
    intro st
    cases st with
    | none => rfl
    | some st => rfl
  simp only [openBlock, behind, hstart, List.map_cons, OpenBlock.shift, underlay, ← readHead_add]
  rfl

/-- Where a block can be closed, it can be closed further on; where not, not. -/
theorem closeBlock_behind (s : ParseState) :
    (s.behind n before).closeBlock
      = (s.closeBlock.map (behind n before)).mapError (SyntaxError.shift n) := by
  obtain ⟨offset, statement, done, blocks⟩ := s
  cases blocks with
  | nil => rfl
  | cons b blocks =>
      simp only [closeBlock, behind, List.map_cons, underlay, Except.map, Except.mapError,
        underlay_cons, Node.shift_block, OpenBlock.shift, List.map_reverse]
      rfl

theorem addToken_behind (s : ParseState) (k : Token) :
    (s.behind n before).addToken k = (s.addToken k).behind n before := by
  obtain ⟨offset, statement, done, blocks⟩ := s
  cases statement with
  | none => rfl
  | some st => rfl

theorem react_behind (s : ParseState) (k : Token) :
    (s.behind n before).react k
      = ((s.react k).map (behind n before)).mapError (SyntaxError.shift n) := by
  obtain ⟨kind, t⟩ := k
  have hother : (if (s.behind n before).statement.isNone && isTrivia kind then s.behind n before
        else (s.behind n before).addToken ⟨kind, t⟩)
      = (if s.statement.isNone && isTrivia kind then s else s.addToken ⟨kind, t⟩).behind n
          before := by
    have hnone : (s.behind n before).statement.isNone = s.statement.isNone := by
      simp [behind]
    rw [hnone, addToken_behind]
    split_ifs
    · rfl
    · rfl
  cases kind with
  | semicolon => exact congrArg Except.ok (endLeaf_behind n before s (s.offset + 1))
  | blockOpen => exact congrArg Except.ok (openBlock_behind n before s)
  | blockClose =>
      have hleaf := endLeaf_behind n before s s.offset
      have hclose := closeBlock_behind n before (s.endLeaf s.offset)
      rw [← hleaf] at hclose
      exact hclose
  | _ => exact congrArg Except.ok hother

/-- **One token does the same further on.** -/
theorem step_behind (s : ParseState) (k : Token) :
    (s.behind n before).step k
      = ((s.step k).map (behind n before)).mapError (SyntaxError.shift n) := by
  rw [step, step, react_behind]
  cases s.react k with
  | error e => rfl
  | ok s' =>
      show Except.ok _ = Except.ok _
      congr 1
      simp only [behind, Nat.add_assoc]

theorem foldlM_behind (ks : List Token) (s : ParseState) :
    ks.foldlM step (s.behind n before)
      = ((ks.foldlM step s).map (behind n before)).mapError (SyntaxError.shift n) := by
  induction ks generalizing s with
  | nil => rfl
  | cons k ks ih =>
      rw [List.foldlM_cons, List.foldlM_cons, step_behind]
      cases s.step k with
      | error e => rfl
      | ok s' => exact ih s'

theorem finish_behind (s : ParseState) (ending : LexingEnd) :
    (s.behind n before).finish ending
      = ((s.finish ending).map fun nodes => before.reverse ++ nodes.map (Node.shift n)).mapError
          (SyntaxError.shift n) := by
  cases ending with
  | stuck e =>
      show Except.error _ = Except.error _
      simp only [SyntaxError.shift, behind, Nat.add_assoc]
  | complete depth =>
      have hdone : s.blocks = [] → (((s.behind n before).endLeaf (n + s.offset)).done.reverse
          = before.reverse ++ ((s.endLeaf s.offset).done.reverse).map (Node.shift n)) := by
        intro hblocks
        rw [endLeaf_behind]
        have hnil : (s.endLeaf s.offset).blocks = [] := by rw [blocks_endLeaf, hblocks]
        simp only [behind, hnil, List.map_nil, underlay, List.reverse_append, List.map_reverse]
      obtain ⟨offset, statement, done, blocks⟩ := s
      cases blocks with
      | nil =>
          have hdone := hdone rfl
          cases statement with
          | none => exact congrArg Except.ok hdone
          | some st =>
              cases depth with
              | zero => exact congrArg Except.ok hdone
              | succ depth => rfl
      | cons b blocks =>
          cases statement with
          | none => rfl
          | some st =>
              cases depth with
              | zero => rfl
              | succ depth => rfl

/-- **A run further on gives the same statements further on**, behind those that were finished
before, or the same error further on. -/
theorem run_behind (s : ParseState) (depth : Nat) (t : Text) :
    (s.behind n before).run depth t
      = ((s.run depth t).map fun nodes => before.reverse ++ nodes.map (Node.shift n)).mapError
          (SyntaxError.shift n) := by
  rw [run, run, foldlM_behind]
  cases (tokenize depth t).tokens.foldlM step s with
  | error e => rfl
  | ok s' => exact finish_behind n before s' _

end ParseState

end StyleIndex
