import Mathlib.Tactic
import StyleIndex.Proofs.Symbol.Agreement

set_option autoImplicit false

/-! # The layout of a parsed tree

The statements of a body stand one behind the other, and those of a block between its braces
(`LaidOut`). Two consequences matter for the blocks around an offset.

The search for them looks at the first block of a level that holds the offset and at no other. It
still finds every block of the whole tree that does (`LaidOut.filter_allStatements`), because the
blocks of one level are disjoint.

What is declared on the way down comes in the order of the text (`LaidOut.ascend_enclosed`): the
statements in front of a block, then the name and the parameters of the block, then what it holds.
The proof is by induction on the layout. What carries it is that a level counts only up to the
block that holds the offset (`Declarations.upTo`), so that nothing of the level comes behind the
block.
-/

namespace StyleIndex

/-! ## Layout -/

theorem Node.start_of_head {n : Node} {start : Nat} {raw : Text} {block : Bool}
    (h : n.head = readHead start raw block) : n.start = start := by
  rw [Node.start, h, start_readHead]

/-- The statements stand one behind the other from offset `lo` to offset `hi`. Each is read from a
text that ends before its block begins and not behind the statement, and a block holds what it holds
between its braces. -/
inductive LaidOut : Nat → List Node → Nat → Prop
  | nil {lo hi : Nat} : lo ≤ hi → LaidOut lo [] hi
  | leaf {lo start stop hi : Nat} {raw : Text} {rest : List Node} :
      lo ≤ start → start + raw.length ≤ stop → LaidOut stop rest hi →
      LaidOut lo (.leaf (readHead start raw false) stop :: rest) hi
  | block {lo start bodyStart stop hi : Nat} {raw : Text} {children rest : List Node} :
      lo ≤ start → start + raw.length < bodyStart → LaidOut bodyStart children stop →
      LaidOut stop rest hi →
      LaidOut lo (.block (readHead start raw true) bodyStart children stop :: rest) hi

namespace LaidOut

variable {lo lo' hi hi' : Nat} {n : Node} {ns : List Node}

theorem mono_left (h : LaidOut lo ns hi) (hlo : lo' ≤ lo) : LaidOut lo' ns hi := by
  cases h with
  | nil hle => exact .nil (hlo.trans hle)
  | leaf hstart hstop hrest => exact .leaf (hlo.trans hstart) hstop hrest
  | block hstart hbody hchildren hrest => exact .block (hlo.trans hstart) hbody hchildren hrest

theorem mono_right (h : LaidOut lo ns hi) (hhi : hi ≤ hi') : LaidOut lo ns hi' := by
  induction h with
  | nil hle => exact .nil (hle.trans hhi)
  | leaf hstart hstop _ ih => exact .leaf hstart hstop (ih hhi)
  | block hstart hbody hchildren _ _ ih => exact .block hstart hbody hchildren (ih hhi)

theorem le (h : LaidOut lo ns hi) : lo ≤ hi := by
  induction h with
  | nil hle => exact hle
  | leaf => omega
  | block => omega

/-- No statement begins in front of the row. -/
theorem le_start (h : LaidOut lo ns hi) (hn : n ∈ ns) : lo ≤ n.start := by
  induction h with
  | nil => cases hn
  | leaf hstart hstop _ ih =>
      rcases List.mem_cons.mp hn with rfl | hn
      · exact hstart.trans (Node.start_of_head rfl).ge
      · have := ih hn
        omega
  | block hstart hbody hchildren _ _ ih =>
      rcases List.mem_cons.mp hn with rfl | hn
      · exact hstart.trans (Node.start_of_head rfl).ge
      · have := ih hn
        have := hchildren.le
        omega

end LaidOut

/-- **The statements of a body are laid out in its text.** -/
theorem Body.laidOut_nodes (b : Body) :
    ∀ pos : Nat, LaidOut pos (b.nodes pos) (pos + b.text.length) := by
  induction b with
  | done =>
      intro pos
      exact .nil (Nat.le_add_right _ _)
  | last ps =>
      intro pos
      exact .leaf le_rfl le_rfl (.nil le_rfl)
  | space c rest ih =>
      intro pos
      refine ((ih (pos + 1)).mono_left (by omega)).mono_right ?_
      simp only [text, List.length_cons]
      omega
  | lineComment t rest ih =>
      intro pos
      refine ((ih (pos + (t.length + 2))).mono_left (by omega)).mono_right ?_
      simp only [text, List.length_cons, List.length_append]
      omega
  | blockComment t rest ih =>
      intro pos
      refine ((ih (pos + (t.length + 4))).mono_left (by omega)).mono_right ?_
      simp only [text, List.length_cons, List.length_append]
      omega
  | semicolon rest ih =>
      intro pos
      refine ((ih (pos + 1)).mono_left (by omega)).mono_right ?_
      simp only [text, List.length_cons]
      omega
  | leaf ps rest ih =>
      intro pos
      refine .leaf le_rfl (Nat.le_succ _) ((ih (pos + ps.text.length + 1)).mono_right ?_)
      simp only [text, List.length_cons, List.length_append]
      omega
  | block ps inner rest ihi ihr =>
      intro pos
      have hinner := (ihi (pos + ps.text.length + 1)).mono_right (Nat.le_succ _)
      refine .block le_rfl (Nat.lt_succ_self _) hinner ((ihr _).mono_right ?_)
      simp only [text, List.length_cons, List.length_append]
      omega

/-- The statements of a parsed text are laid out in it. -/
theorem laidOut_of_parse {t : Text} {sheet : Stylesheet} (h : parse t = .ok sheet) :
    LaidOut 0 sheet.children t.length := by
  obtain ⟨b, hb⟩ := exists_derives_of_parse_eq_ok h
  rw [parse_eq_ok_of_derives hb] at h
  cases h
  obtain ⟨rfl, -⟩ := hb
  simpa using b.laidOut_nodes 0

/-! ## All statements of a tree -/

mutual

/-- The statement and all statements inside it, in the order of the text. -/
def Node.withInner : Node → List Node
  | .leaf head stop => [.leaf head stop]
  | .block head bodyStart children stop =>
      .block head bodyStart children stop :: allStatements children

/-- The statements of a row and all statements inside them, in the order of the text. -/
def allStatements : List Node → List Node
  | [] => []
  | n :: rest => n.withInner ++ allStatements rest

end

theorem enclosingInside_eq (o : Int) (n : Node) :
    enclosingInside o n = enclosingBlocks o n.children := by
  cases n with
  | leaf head stop => simp [enclosingInside, Node.children, enclosingBlocks]
  | block head bodyStart children stop => rw [enclosingInside, Node.children]

theorem Node.contains_block_iff {head : Head} {bodyStart stop : Nat} {children : List Node}
    {o : Int} : (Node.block head bodyStart children stop).contains o = true
      ↔ (bodyStart : Int) ≤ o ∧ o < stop := by
  simp only [Node.contains, Bool.and_eq_true, decide_eq_true_eq]

namespace LaidOut

variable {lo hi : Nat} {o : Int} {n : Node} {ns : List Node}

/-- A block that holds an offset has it between the ends of the row. -/
theorem between_of_contains (h : LaidOut lo ns hi) (hn : n ∈ allStatements ns)
    (ho : n.contains o = true) : (lo : Int) < o ∧ o < hi := by
  induction h with
  | nil => simp [allStatements] at hn
  | leaf hstart hstop _ ih =>
      simp only [allStatements, Node.withInner, List.singleton_append, List.mem_cons] at hn
      rcases hn with rfl | hn
      · cases ho
      · have := ih hn
        omega
  | block hstart hbody hchildren hrest ihc ihr =>
      have := hchildren.le
      have := hrest.le
      simp only [allStatements, Node.withInner, List.cons_append, List.mem_cons,
        List.mem_append] at hn
      rcases hn with rfl | hn | hn
      · rw [Node.contains_block_iff] at ho
        omega
      · have := ihc hn
        omega
      · have := ihr hn
        omega

/-- No block of the row holds an offset outside it. -/
theorem filter_eq_nil (h : LaidOut lo ns hi) (ho : o ≤ lo ∨ (hi : Int) ≤ o) :
    (allStatements ns).filter (·.contains o) = [] := by
  rw [List.filter_eq_nil_iff]
  intro n hn hcontains
  have := h.between_of_contains hn hcontains
  omega

/-- **The blocks of the whole tree that hold an offset** are those that the search finds. -/
theorem filter_allStatements (h : LaidOut lo ns hi) (o : Int) :
    (allStatements ns).filter (·.contains o) = enclosingBlocks o ns := by
  induction h with
  | nil => rfl
  | leaf _ _ _ ih =>
      rw [allStatements, Node.withInner, List.singleton_append, enclosingBlocks,
        List.filter_cons_of_neg (by simp [Node.contains]), if_neg (by simp [Node.contains]), ih]
  | @block _ start bodyStart stop _ raw children rest _ _ hchildren hrest ihc ihr =>
      rw [allStatements, Node.withInner, List.cons_append, enclosingBlocks, List.filter_cons,
        List.filter_append]
      split_ifs with ho
      · -- what follows the block begins behind the offset
        rw [Node.contains_block_iff] at ho
        rw [hrest.filter_eq_nil (by omega), ihc, List.append_nil, enclosingInside]
      · -- no block inside holds an offset that the block does not
        rw [Node.contains_block_iff] at ho
        rw [hchildren.filter_eq_nil (by omega), ihr, List.nil_append]

/-- What a statement anywhere in the tree holds is laid out. -/
theorem exists_children (h : LaidOut lo ns hi) (hn : n ∈ allStatements ns) :
    ∃ lo' hi', LaidOut lo' n.children hi' := by
  induction h with
  | nil => simp [allStatements] at hn
  | @leaf _ _ stop _ _ _ _ _ _ ih =>
      simp only [allStatements, Node.withInner, List.singleton_append, List.mem_cons] at hn
      rcases hn with rfl | hn
      · exact ⟨stop, stop, .nil le_rfl⟩
      · exact ih hn
  | block _ _ hchildren _ ihc ihr =>
      simp only [allStatements, Node.withInner, List.cons_append, List.mem_cons,
        List.mem_append] at hn
      rcases hn with rfl | hn | hn
      · exact ⟨_, _, hchildren⟩
      · exact ihc hn
      · exact ihr hn

/-- The statements start in the order of the row. -/
theorem pairwise_start (h : LaidOut lo ns hi) : ns.Pairwise fun a b => a.start ≤ b.start := by
  induction h with
  | nil => exact .nil
  | leaf _ hstop hrest ih =>
      refine List.pairwise_cons.mpr ⟨fun m hm => ?_, ih⟩
      have := hrest.le_start hm
      rw [Node.start_of_head rfl]
      omega
  | block _ hbody hchildren hrest _ ih =>
      refine List.pairwise_cons.mpr ⟨fun m hm => ?_, ih⟩
      have := hrest.le_start hm
      have := hchildren.le
      rw [Node.start_of_head rfl]
      omega

end LaidOut

/-- Whether the statement starts before an offset. -/
def Node.startsBefore (o : Int) (n : Node) : Bool := decide ((n.start : Int) < o)

theorem Node.startsBefore_iff {o : Int} {n : Node} :
    n.startsBefore o = true ↔ (n.start : Int) < o := decide_eq_true_iff

/-- Of statements in the order of their starts, those that start before an offset come first. -/
theorem takeWhile_startsBefore {ns : List Node} (h : ns.Pairwise fun a b => a.start ≤ b.start)
    (o : Int) : ns.takeWhile (Node.startsBefore o) = ns.filter (Node.startsBefore o) := by
  induction ns with
  | nil => rfl
  | cons n ns ih =>
      obtain ⟨hfirst, hrest⟩ := List.pairwise_cons.mp h
      by_cases hn : n.startsBefore o = true
      · rw [List.takeWhile_cons_of_pos hn, List.filter_cons_of_pos hn, ih hrest]
      · have hnone : ns.filter (Node.startsBefore o) = [] := by
          rw [List.filter_eq_nil_iff]
          intro m hm hlt
          have := hfirst m hm
          rw [Node.startsBefore_iff] at hn hlt
          omega
        rw [List.takeWhile_cons_of_neg hn, List.filter_cons_of_neg hn, hnone]

/-! ## Names in order -/

/-- The offsets of the names increase, from `lo` on and before `hi`. -/
structure NamesAscend {α : Type} (lo hi : Nat) (ds : List (Text × α × Nat)) : Prop where
  between : ∀ d ∈ ds, lo ≤ d.2.2 ∧ d.2.2 < hi
  increasing : ds.Pairwise fun a b => a.2.2 < b.2.2

namespace NamesAscend

variable {α : Type} {lo mid hi lo' hi' : Nat} {ds es : List (Text × α × Nat)}

theorem nil : NamesAscend lo hi ([] : List (Text × α × Nat)) := ⟨by simp, .nil⟩

/-- A single name between the two offsets. -/
theorem toList {d? : Option (Text × α × Nat)} (h : ∀ d, d? = some d → lo ≤ d.2.2 ∧ d.2.2 < hi) :
    NamesAscend lo hi d?.toList := by
  cases d? with
  | none => exact nil
  | some d =>
      refine ⟨fun e he => ?_, List.pairwise_singleton _ _⟩
      obtain rfl := List.mem_singleton.mp he
      exact h e rfl

theorem append (hds : NamesAscend lo mid ds) (hes : NamesAscend mid hi es) (hlo : lo ≤ mid)
    (hhi : mid ≤ hi) : NamesAscend lo hi (ds ++ es) := by
  refine ⟨fun d hd => ?_, List.pairwise_append.mpr ⟨hds.increasing, hes.increasing, ?_⟩⟩
  · rcases List.mem_append.mp hd with hd | hd
    · have := hds.between d hd
      omega
    · have := hes.between d hd
      omega
  · intro d hd e he
    exact (hds.between d hd).2.trans_le (hes.between e he).1

theorem mono (h : NamesAscend lo hi ds) (hlo : lo' ≤ lo) (hhi : hi ≤ hi') :
    NamesAscend lo' hi' ds := by
  refine ⟨fun d hd => ?_, h.increasing⟩
  have := h.between d hd
  omega

theorem of_append_right (h : NamesAscend lo hi (ds ++ es)) : NamesAscend lo hi es :=
  ⟨fun d hd => h.between d (List.mem_append_right ds hd), (List.pairwise_append.mp h.increasing).2.1⟩

end NamesAscend

/-- The names of each kind are in the order of the text, from `lo` on and before `hi`. -/
structure Declarations.Ascend (lo hi : Nat) (d : Declarations) : Prop where
  vars : NamesAscend lo hi d.vars
  mixins : NamesAscend lo hi d.mixins
  functions : NamesAscend lo hi d.functions

namespace Declarations.Ascend

variable {lo mid hi lo' hi' : Nat} {a b : Declarations}

theorem nil : Ascend lo hi ⟨[], [], []⟩ := ⟨.nil, .nil, .nil⟩

theorem append (ha : a.Ascend lo mid) (hb : b.Ascend mid hi) (hlo : lo ≤ mid) (hhi : mid ≤ hi) :
    (a.append b).Ascend lo hi :=
  ⟨ha.vars.append hb.vars hlo hhi, ha.mixins.append hb.mixins hlo hhi,
    ha.functions.append hb.functions hlo hhi⟩

theorem mono (h : a.Ascend lo hi) (hlo : lo' ≤ lo) (hhi : hi ≤ hi') : a.Ascend lo' hi' :=
  ⟨h.vars.mono hlo hhi, h.mixins.mono hlo hhi, h.functions.mono hlo hhi⟩

theorem of_append_right (h : (a.append b).Ascend lo hi) : b.Ascend lo hi :=
  ⟨h.vars.of_append_right, h.mixins.of_append_right, h.functions.of_append_right⟩

end Declarations.Ascend

/-! ## The names of one statement -/

theorem le_offset_of_mem_piecesAt {t : Text} {p : Piece} {is : List Nat} :
    ∀ {start : Nat}, (∀ i ∈ is, start ≤ i) → is.Pairwise (· < ·) → p ∈ piecesAt t start is →
      start ≤ p.offset := by
  induction is with
  | nil =>
      intro start _ _ hp
      obtain rfl := List.mem_singleton.mp hp
      exact le_rfl
  | cons i is ih =>
      intro start hstart hsorted hp
      obtain ⟨hlt, hsorted⟩ := List.pairwise_cons.mp hsorted
      rcases List.mem_cons.mp hp with rfl | hp
      · exact le_rfl
      · have := hstart i List.mem_cons_self
        have := ih (fun j hj => hlt j hj) hsorted hp
        omega

/-- A separator stands between two pieces. -/
theorem pairwise_piecesAt {t : Text} {is : List Nat} :
    ∀ {start : Nat}, (∀ i ∈ is, start ≤ i) → is.Pairwise (· < ·) →
      (piecesAt t start is).Pairwise fun p q => p.offset + p.text.length < q.offset := by
  induction is with
  | nil =>
      intro start _ _
      exact List.pairwise_singleton _ _
  | cons i is ih =>
      intro start hstart hsorted
      obtain ⟨hlt, hsorted⟩ := List.pairwise_cons.mp hsorted
      refine List.pairwise_cons.mpr ⟨fun q hq => ?_, ih (fun j hj => hlt j hj) hsorted⟩
      have := hstart i List.mem_cons_self
      have := le_offset_of_mem_piecesAt (fun j hj => hlt j hj) hsorted hq
      have : (t.slice start i).length ≤ i - start := by simp [Text.slice]
      simp only
      omega

/-- The parameters of a list are read in their order. -/
theorem pairwise_readParams (list : Text) (base : Nat) :
    (readParams list base).Pairwise fun p q => p.offset < q.offset := by
  obtain ⟨hmem, hsorted⟩ := separatorOffsets_spec Ascii.comma 0 0 list
  have hpieces : (topLevelPieces list Ascii.comma).Pairwise
      fun p q => p.offset + p.text.length < q.offset :=
    pairwise_piecesAt (fun i hi => (hmem i hi).1) hsorted
  refine hpieces.filterMap _ ?_
  intro a b hab p hp q hq
  have := offset_of_paramOfPiece? hp
  have := offset_of_paramOfPiece? hq
  omega

theorem pairwise_params_readCallable {u name : Text} {base nameStart : Nat}
    {kind k : CallableKind} {params : List Param}
    (h : readCallable kind u base = .callable k name nameStart params) :
    params.Pairwise fun p q => p.offset < q.offset := by
  simp only [readCallable, Form.callable.injEq] at h
  obtain ⟨-, -, -, rfl⟩ := h
  split
  · split
    · exact pairwise_readParams _ _
    · exact .nil
  · exact .nil

/-- A variable is never a block. -/
theorem form_readHead_ne_binding (start : Nat) (raw name : Text) (flags : List Flag) :
    (readHead start raw true).form ≠ .binding name flags := by
  intro h
  unfold readHead at h
  simp only [if_true] at h
  split at h
  · cases h
  · next rest hraw =>
    rcases readAtRule_cases rest start with ⟨kind, hrule⟩ | ⟨_, _, hrule⟩ | ⟨_, _, hrule⟩ |
      ⟨_, hrule⟩
    all_goals
      rw [hrule] at h
      cases h
  · cases h

section Statement

variable {n : Node} {start : Nat} {raw : Text} {block : Bool}

/-- A variable begins where its statement does. -/
theorem namesAscend_binding? (h : n.head = readHead start raw block) :
    NamesAscend start (start + raw.length) n.binding?.toList := by
  refine .toList fun v hv => ?_
  unfold Node.binding? at hv
  split at hv
  · next name flags hform =>
    obtain rfl := Option.some.inj hv
    rw [Node.form, h] at hform
    have hraw : raw ≠ [] := by
      rintro rfl
      cases block <;> cases hform
    have hlength := List.length_pos_iff.mpr hraw
    simp only [Node.start_of_head h]
    omega
  · cases hv

/-- A mixin or function that has a name has it inside its statement. -/
theorem namesAscend_callable? (h : n.head = readHead start raw block) (kind : CallableKind) :
    NamesAscend start (start + raw.length) (n.callable? kind).toList := by
  refine .toList fun c hc => ?_
  unfold Node.callable? at hc
  split at hc
  · next k name nameStart params hform =>
    split_ifs at hc with hname
    obtain rfl := Option.some.inj hc
    rw [Node.form, h] at hform
    have hstands := standsAt_replicate start raw
    obtain ⟨⟨hstart, -⟩, -⟩ := hstands.callable_bounds hform
    obtain ⟨front, back, htext, hfront, -⟩ := hstands.nameAt_callable hform hname.2
    have hpos := List.length_pos_iff.mpr hname.2
    have hlength := congrArg List.length htext
    simp only [List.length_append, List.length_replicate] at hlength
    simp only
    omega
  · cases hc

/-- The parameters of a statement stand inside it, in their order. -/
theorem namesAscend_parameterVariables (h : n.head = readHead start raw block) :
    NamesAscend start (start + raw.length) n.parameterVariables := by
  unfold Node.parameterVariables
  split
  · next k name nameStart params hform =>
    rw [Node.form, h] at hform
    have hstands := standsAt_replicate start raw
    refine ⟨fun v hv => ?_, ?_⟩
    · obtain ⟨p, hp, rfl⟩ := List.mem_map.mp hv
      have hbounds := (hstands.callable_bounds hform).2 p hp
      rwa [List.length_append, List.length_replicate] at hbounds
    · obtain ⟨u, -, hcall⟩ := hstands.callable hform
      exact List.pairwise_map.mpr (pairwise_params_readCallable hcall)
  · exact .nil

end Statement

/-! ## The names around an offset -/

namespace Declarations

/-- What the blocks around an offset declare before it, in the order of the text. -/
def enclosed (o : Int) (nodes : List Node) : Declarations :=
  ((enclosingBlocks o nodes).map (ofBlock o)).foldl append ⟨[], [], []⟩

theorem around_eq_reverse (o : Int) (nodes : List Node) :
    around o nodes = (enclosed o nodes).reverse := rfl

theorem enclosed_eq (o : Int) (nodes : List Node) :
    enclosed o nodes = ⟨(enclosingBlocks o nodes).flatMap fun b => (ofBlock o b).vars,
      (enclosingBlocks o nodes).flatMap fun b => (ofBlock o b).mixins,
      (enclosingBlocks o nodes).flatMap fun b => (ofBlock o b).functions⟩ := by
  simp [enclosed, foldl_append_eq, List.flatMap_map]

theorem enclosed_cons_of_contains {o : Int} {n : Node} (h : n.contains o = true)
    (rest : List Node) :
    enclosed o (n :: rest) = (ofBlock o n).append (enclosed o n.children) := by
  simp [enclosed_eq, enclosingBlocks, h, enclosingInside_eq, append]

theorem enclosed_cons_of_not_contains {o : Int} {n : Node} (h : ¬ n.contains o = true)
    (rest : List Node) : enclosed o (n :: rest) = enclosed o rest := by
  simp [enclosed, enclosingBlocks, h]

theorem append_assoc (a b c : Declarations) : (a.append b).append c = a.append (b.append c) := by
  simp [append]

/-- What a statement declares for the level it stands on. -/
def ofStatement (n : Node) : Declarations :=
  ⟨n.binding?.toList, (n.callable? .mixin).toList, (n.callable? .function).toList⟩

theorem ofLevel_cons (n : Node) (nodes : List Node) :
    ofLevel (n :: nodes) = (ofStatement n).append (ofLevel nodes) := by
  have hcons : ∀ {α : Type} (f : Node → Option α),
      (n :: nodes).filterMap f = (f n).toList ++ nodes.filterMap f := by
    intro α f
    cases hf : f n with
    | none => rw [List.filterMap_cons_none hf, Option.toList_none, List.nil_append]
    | some a => rw [List.filterMap_cons_some hf, Option.toList_some, List.singleton_append]
  simp only [ofLevel, hcons, ofStatement, append]

/-- What a statement declares for its own block. -/
def ofParameters (n : Node) : Declarations := ⟨n.parameterVariables, [], []⟩

/-- What a block declares before an offset, where its statements are laid out. -/
theorem ofBlock_eq_append {lo hi : Nat} {n : Node} (h : LaidOut lo n.children hi) (o : Int) :
    ofBlock o n = (ofParameters n).append (ofLevel (n.children.filter (Node.startsBefore o))) := by
  rw [← takeWhile_startsBefore h.pairwise_start]
  rfl

variable {n : Node} {start : Nat} {raw : Text} {block : Bool}

theorem ascend_ofStatement (h : n.head = readHead start raw block) :
    (ofStatement n).Ascend start (start + raw.length) :=
  ⟨namesAscend_binding? h, namesAscend_callable? h .mixin, namesAscend_callable? h .function⟩

/-- The head of a block declares its name for the level around it and its parameters for the block,
both before the block begins. A variable would come behind the parameters, but is never a block. -/
theorem ascend_head (h : n.head = readHead start raw true) :
    ((ofStatement n).append (ofParameters n)).Ascend start (start + raw.length) := by
  have hbinding : n.binding? = none := by
    unfold Node.binding?
    split
    · next name flags hform =>
      rw [Node.form, h] at hform
      exact absurd hform (form_readHead_ne_binding start raw name flags)
    · rfl
  have hlevel := ascend_ofStatement h
  refine ⟨?_, by simpa [append, ofParameters] using hlevel.mixins,
    by simpa [append, ofParameters] using hlevel.functions⟩
  simpa [append, ofStatement, ofParameters, hbinding] using namesAscend_parameterVariables h

end Declarations

namespace Declarations

/-- What a level declares before an offset, followed by what the blocks around the offset do. -/
def upTo (o : Int) (nodes : List Node) : Declarations :=
  (ofLevel (nodes.filter (Node.startsBefore o))).append (enclosed o nodes)

variable {n : Node} {start stop lo hi : Nat} {raw : Text} {block : Bool} {rest : List Node}
  {o : Int}

/-- A statement that does not hold the offset comes in front of what follows it. -/
theorem ascend_upTo_passed (hhead : n.head = readHead start raw block)
    (ho : ¬ n.contains o = true) (hstart : lo ≤ start) (hstop : start + raw.length ≤ stop)
    (hhi : stop ≤ hi) (hrest : (upTo o rest).Ascend stop hi) :
    (upTo o (n :: rest)).Ascend lo hi := by
  rw [upTo, enclosed_cons_of_not_contains ho, List.filter_cons]
  split_ifs
  · rw [ofLevel_cons, append_assoc]
    exact ((ascend_ofStatement hhead).mono hstart hstop).append hrest (by omega) hhi
  · exact hrest.mono (by omega) le_rfl

/-- A block that holds the offset is the last statement before it on its level, and what the block
holds comes behind its head. -/
theorem ascend_upTo_entered {bodyStart : Nat} {children : List Node}
    (hn : n = .block (readHead start raw true) bodyStart children stop)
    (ho : n.contains o = true) (hstart : lo ≤ start) (hbody : start + raw.length < bodyStart)
    (hchildren : LaidOut bodyStart children stop) (hrest : LaidOut stop rest hi)
    (hinner : (upTo o children).Ascend bodyStart stop) : (upTo o (n :: rest)).Ascend lo hi := by
  have hhead : n.head = readHead start raw true := by rw [hn, Node.head]
  have hholds : (bodyStart : Int) ≤ o ∧ o < stop := by
    rwa [hn, Node.contains_block_iff] at ho
  have hle := hchildren.le
  have hfirst : n.startsBefore o = true := by
    rw [Node.startsBefore_iff, Node.start_of_head hhead]
    omega
  have hlater : rest.filter (Node.startsBefore o) = [] := by
    rw [List.filter_eq_nil_iff]
    intro m hm hlt
    have := hrest.le_start hm
    rw [Node.startsBefore_iff] at hlt
    omega
  have hsplit : upTo o (n :: rest)
      = ((ofStatement n).append (ofParameters n)).append (upTo o children) := by
    have hnil : (ofStatement n).append (ofLevel []) = ofStatement n := by simp [append, ofLevel]
    have hlaid : LaidOut bodyStart n.children stop := by rwa [hn, Node.children]
    rw [upTo, List.filter_cons_of_pos hfirst, hlater, ofLevel_cons, hnil,
      enclosed_cons_of_contains ho, ofBlock_eq_append hlaid, append_assoc, append_assoc, hn]
    rfl
  rw [hsplit]
  exact (((ascend_head hhead).mono hstart hbody.le).append hinner (by omega) hle).mono le_rfl
    hrest.le

end Declarations

/-- **What is declared around an offset is in the order of the text**: the statements of a level
that start before it, then what the block of this level that holds it declares, and so on
inwards. -/
theorem LaidOut.ascend_upTo {lo hi : Nat} {ns : List Node} (h : LaidOut lo ns hi) (o : Int) :
    (Declarations.upTo o ns).Ascend lo hi := by
  induction h with
  | nil => exact .nil
  | leaf hstart hstop hrest ih =>
      exact Declarations.ascend_upTo_passed rfl (by simp [Node.contains]) hstart hstop hrest.le ih
  | @block _ start bodyStart stop _ raw children _ hstart hbody hchildren hrest ihc ihr =>
      have hle := hchildren.le
      by_cases ho : (Node.block (readHead start raw true) bodyStart children stop).contains o = true
      · exact Declarations.ascend_upTo_entered rfl ho hstart hbody hchildren hrest ihc
      · exact Declarations.ascend_upTo_passed rfl ho hstart (by omega) hrest.le ihr

/-- What the blocks around an offset declare before it is in the order of the text. -/
theorem LaidOut.ascend_enclosed {lo hi : Nat} {ns : List Node} (h : LaidOut lo ns hi) (o : Int) :
    (Declarations.enclosed o ns).Ascend lo hi :=
  (h.ascend_upTo o).of_append_right

end StyleIndex
