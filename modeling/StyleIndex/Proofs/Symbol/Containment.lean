import Mathlib.Tactic
import StyleIndex.Proofs.Grammar.Interior
import StyleIndex.Proofs.Symbol.Layout

set_option autoImplicit false

/-! # The tree of a text is well nested

The statements of a block stand between its braces, one behind the other, and take up room; and so
do those of the whole text (`parse_wellNested`). `WellNested` says this of all levels at once,
together with the braces themselves, and is read off the derivation of the text by induction
(`Body.wellNested_nodes`).

Blocks on one level are therefore disjoint, and a block holds the offsets of all blocks inside it.
So the statements that hold an offset form one chain, from a statement of the top level down to the
innermost block; it is the chain that the search for the enclosing blocks finds
(`LaidOut.mem_enclosingBlocks_iff`, `LaidOut.isChain_enclosingBlocks`).
-/

namespace StyleIndex

/-! ## Nesting -/

/-- The statements stand in `src` one behind the other between the offsets `lo` and `hi`. A block
has its braces around its statements. -/
inductive WellNested (src : Text) : Nat → List Node → Nat → Prop
  | nil {lo hi : Nat} : WellNested src lo [] hi
  | leaf {lo stop hi : Nat} {head : Head} {rest : List Node} :
      lo ≤ head.start → head.start < stop → stop ≤ hi → WellNested src stop rest hi →
      WellNested src lo (.leaf head stop :: rest) hi
  | block {lo bodyStart stop hi : Nat} {head : Head} {children rest : List Node} :
      lo ≤ head.start → head.start < bodyStart → bodyStart < stop → stop ≤ hi →
      src[bodyStart - 1]? = some Ascii.lbrace → src[stop - 1]? = some Ascii.rbrace →
      WellNested src bodyStart children (stop - 1) → WellNested src stop rest hi →
      WellNested src lo (.block head bodyStart children stop :: rest) hi

namespace WellNested

variable {src : Text} {lo lo' hi hi' : Nat} {n : Node} {ns : List Node}

theorem mono_left (h : WellNested src lo ns hi) (hlo : lo' ≤ lo) : WellNested src lo' ns hi := by
  cases h with
  | nil => exact .nil
  | leaf hstart hstop hhi hrest => exact .leaf (hlo.trans hstart) hstop hhi hrest
  | block hstart hbody hstop hhi hopen hclose hchildren hrest =>
      exact .block (hlo.trans hstart) hbody hstop hhi hopen hclose hchildren hrest

theorem mono_right (h : WellNested src lo ns hi) (hhi : hi ≤ hi') : WellNested src lo ns hi' := by
  induction h with
  | nil => exact .nil
  | leaf hstart hstop hle _ ih => exact .leaf hstart hstop (hle.trans hhi) (ih hhi)
  | block hstart hbody hstop hle hopen hclose hchildren _ _ ih =>
      exact .block hstart hbody hstop (hle.trans hhi) hopen hclose hchildren (ih hhi)

end WellNested

/-- **The statements of a body are nested in its text.** -/
theorem Body.wellNested_nodes {src : Text} {b : Body} : ∀ {pos : Nat} {front after : Text},
    src = front ++ (b.text ++ after) → front.length = pos → b.WellFormed after → EndsBody after →
      WellNested src pos (b.nodes pos) (pos + b.text.length) := by
  -- `front` is the text in front of the body; it grows by what is passed
  induction b with
  | done =>
      intro pos front after _ _ _ _
      exact .nil
  | last ps =>
      intro pos front after _ _ hwf hend
      have hne : ps ≠ [] := ParseState.StartsStatement.ne_nil hwf.1
        (ParseState.not_startsStatement_of_endsBody hend)
      have hpos : 0 < ps.text.length := by
        obtain ⟨p, rest, rfl⟩ := List.exists_cons_of_ne_nil hne
        have := List.length_pos_of_ne_nil p.text_ne_nil
        rw [Prelude.text_cons, List.length_append]
        omega
      refine .leaf (start_readHead ..).ge ?_ le_rfl .nil
      rw [start_readHead]
      omega
  | space c rest ih =>
      intro pos front after hsrc hpos hwf hend
      have hrest := @ih (pos + 1) (front ++ [c]) after (by simp [hsrc, text]) (by simp [hpos])
        hwf.2 hend
      refine (hrest.mono_left (by omega)).mono_right ?_
      simp only [text, List.length_cons]
      omega
  | lineComment t rest ih =>
      intro pos front after hsrc hpos hwf hend
      have hrest := @ih (pos + (t.length + 2)) (front ++ Ascii.slash :: Ascii.slash :: t) after
        (by simp [hsrc, text]) (by simp [hpos]) hwf.2 hend
      refine (hrest.mono_left (by omega)).mono_right ?_
      simp only [text, List.length_cons, List.length_append]
      omega
  | blockComment t rest ih =>
      intro pos front after hsrc hpos hwf hend
      have hrest := @ih (pos + (t.length + 4))
        (front ++ Ascii.slash :: Ascii.star :: (t ++ [Ascii.star, Ascii.slash])) after
        (by simp [hsrc, text]) (by simp [hpos]) hwf.2 hend
      refine (hrest.mono_left (by omega)).mono_right ?_
      simp only [text, List.length_cons, List.length_append]
      omega
  | semicolon rest ih =>
      intro pos front after hsrc hpos hwf hend
      have hrest := @ih (pos + 1) (front ++ [Ascii.semicolon]) after (by simp [hsrc, text])
        (by simp [hpos]) hwf hend
      refine (hrest.mono_left (by omega)).mono_right ?_
      simp only [text, List.length_cons]
      omega
  | leaf ps rest ih =>
      intro pos front after hsrc hpos hwf hend
      have hrest := @ih (pos + ps.text.length + 1) (front ++ (ps.text ++ [Ascii.semicolon])) after
        (by simp [hsrc, text]) (by simp [hpos, Nat.add_assoc]) hwf.2.2 hend
      have hsize : (Body.leaf ps rest).text.length = ps.text.length + (rest.text.length + 1) := by
        simp [text]
      refine .leaf (start_readHead ..).ge ?_ (by omega) (hrest.mono_right (by omega))
      rw [start_readHead]
      omega
  | block ps inner rest ihi ihr =>
      intro pos front after hsrc hpos hwf hend
      obtain ⟨-, -, hinner, hafter⟩ := hwf
      have hchildren := @ihi (pos + ps.text.length + 1) (front ++ (ps.text ++ [Ascii.lbrace]))
        (Ascii.rbrace :: (rest.text ++ after)) (by simp [hsrc, text])
        (by simp [hpos, Nat.add_assoc]) hinner (Or.inr ⟨_, rfl⟩)
      have hrest := @ihr (pos + ps.text.length + 1 + inner.text.length + 1)
        (front ++ (ps.text ++ Ascii.lbrace :: (inner.text ++ [Ascii.rbrace]))) after
        (by simp [hsrc, text]) (by simp [hpos]; omega) hafter hend
      have hsize : (Body.block ps inner rest).text.length
          = ps.text.length + (inner.text.length + (rest.text.length + 1) + 1) := by
        simp [text]
      refine .block (start_readHead ..).ge ?_ (by omega) (by omega) ?_ ?_ hchildren
        (hrest.mono_right (by omega))
      · rw [start_readHead]
        omega
      · -- the text up to the opening brace
        have hopen : src = (front ++ ps.text)
            ++ Ascii.lbrace :: (inner.text ++ Ascii.rbrace :: (rest.text ++ after)) := by
          simp [hsrc, text]
        rw [hopen, Nat.add_sub_cancel, ← hpos, ← List.length_append]
        simp
      · -- the text up to the closing brace
        have hclose : src = (front ++ (ps.text ++ Ascii.lbrace :: inner.text))
            ++ Ascii.rbrace :: (rest.text ++ after) := by
          simp [hsrc, text]
        have hlength : (front ++ (ps.text ++ Ascii.lbrace :: inner.text)).length
            = pos + ps.text.length + 1 + inner.text.length := by
          simp [hpos]
          omega
        rw [hclose, Nat.add_sub_cancel, ← hlength]
        simp

theorem wellNested_of_parse {src : Text} {sheet : Stylesheet} (h : parse src = .ok sheet) :
    WellNested src 0 sheet.children src.length := by
  obtain ⟨b, hb⟩ := exists_derives_of_parse_eq_ok h
  rw [parse_eq_ok_of_derives hb] at h
  cases h
  obtain ⟨rfl, hwf⟩ := hb
  have hnested : WellNested b.text 0 (b.nodes 0) (0 + b.text.length) :=
    @Body.wellNested_nodes b.text b 0 [] [] (by simp) rfl hwf (Or.inl rfl)
  rwa [Nat.zero_add] at hnested

/-! ## Rows and blocks -/

/-- The statements stand between two offsets, each behind those in front of it. -/
structure RowBetween (lo hi : Nat) (nodes : List Node) : Prop where
  between : ∀ n ∈ nodes, lo ≤ n.start ∧ n.start < n.stop ∧ n.stop ≤ hi
  apart : nodes.Pairwise fun m n => m.stop ≤ n.start

/-- A block stands in `src` with its braces around a row of statements, and a statement without a
block holds none. -/
def Node.BracesRow (src : Text) (n : Node) : Prop :=
  match n.bodyStart? with
  | none => n.children = []
  | some bodyStart => n.start < bodyStart ∧ bodyStart ≤ n.stop - 1 ∧
      src[bodyStart - 1]? = some Ascii.lbrace ∧ src[n.stop - 1]? = some Ascii.rbrace ∧
      RowBetween bodyStart (n.stop - 1) n.children

namespace WellNested

variable {src : Text} {lo hi : Nat} {n : Node} {ns : List Node}

theorem between (h : WellNested src lo ns hi) (hn : n ∈ ns) :
    lo ≤ n.start ∧ n.start < n.stop ∧ n.stop ≤ hi := by
  induction h with
  | nil => cases hn
  | leaf hstart hstop hhi _ ih =>
      rcases List.mem_cons.mp hn with rfl | hn
      · exact ⟨hstart, hstop, hhi⟩
      · obtain ⟨hlo, hrest⟩ := ih hn
        exact ⟨by omega, hrest⟩
  | block hstart hbody hstop hhi _ _ _ _ _ ih =>
      rcases List.mem_cons.mp hn with rfl | hn
      · exact ⟨hstart, hbody.trans hstop, hhi⟩
      · obtain ⟨hlo, hrest⟩ := ih hn
        exact ⟨by omega, hrest⟩

theorem pairwise (h : WellNested src lo ns hi) : ns.Pairwise fun m n => m.stop ≤ n.start := by
  induction h with
  | nil => exact .nil
  | leaf _ _ _ hrest ih =>
      exact List.pairwise_cons.mpr ⟨fun m hm => (hrest.between hm).1, ih⟩
  | block _ _ _ _ _ _ _ hrest _ ih =>
      exact List.pairwise_cons.mpr ⟨fun m hm => (hrest.between hm).1, ih⟩

theorem rowBetween (h : WellNested src lo ns hi) : RowBetween lo hi ns :=
  ⟨fun _ hn => h.between hn, h.pairwise⟩

/-- **Every statement of the tree braces a row of statements.** -/
theorem bracesRow (h : WellNested src lo ns hi) (hn : n.Within ns) : n.BracesRow src := by
  induction h with
  | nil => exact absurd hn n.not_within_nil
  | leaf _ _ _ _ ih =>
      rcases Node.within_cons.mp hn with rfl | hn | hn
      · exact rfl
      · exact absurd hn n.not_within_nil
      · exact ih hn
  | block _ hbody hstop _ hopen hclose hchildren _ ihc ihr =>
      rcases Node.within_cons.mp hn with rfl | hn | hn
      · exact ⟨hbody, Nat.le_sub_one_of_lt hstop, hopen, hclose, hchildren.rowBetween⟩
      · exact ihc hn
      · exact ihr hn

end WellNested

theorem Node.BracesRow.of_contains {src : Text} {n : Node} (h : n.BracesRow src) {o : Int}
    (ho : n.contains o = true) : (n.start : Int) < o ∧ o < n.stop := by
  cases n with
  | leaf head stop => cases ho
  | block head bodyStart children stop =>
      rw [Node.contains_block_iff] at ho
      have hstart : (Node.block head bodyStart children stop).start < bodyStart := h.1
      exact ⟨by omega, ho.2⟩

/-- At most one of the statements of a row holds an offset. -/
theorem RowBetween.length_filter_contains_le {src : Text} {lo hi : Nat} {ns : List Node}
    (h : RowBetween lo hi ns) (hbraces : ∀ n ∈ ns, n.BracesRow src) (o : Int) :
    (ns.filter (·.contains o)).length ≤ 1 := by
  have hapart := h.apart.filter (·.contains o)
  have hholds : ∀ n ∈ ns.filter (·.contains o), (n.start : Int) < o ∧ o < n.stop := by
    intro n hn
    obtain ⟨hmem, ho⟩ := List.mem_filter.mp hn
    exact (hbraces n hmem).of_contains ho
  generalize ns.filter (·.contains o) = holding at hapart hholds
  match holding with
  | [] => simp
  | [_] => simp
  | m :: n :: rest =>
      -- the second would begin behind the offset that the first one holds
      have hle : m.stop ≤ n.start := (List.pairwise_cons.mp hapart).1 n List.mem_cons_self
      have hm := hholds m List.mem_cons_self
      have hn := hholds n (List.mem_cons_of_mem _ List.mem_cons_self)
      omega

/-! ## The statements around an offset -/

theorem Node.Within.child {m n : Node} {ns : List Node} (hn : n.Within ns) (hm : m ∈ n.children) :
    m.Within ns := by
  induction hn with
  | here hn => exact .inside hn (.here hm)
  | inside hk _ ih => exact .inside hk ih

namespace LaidOut

variable {lo hi : Nat} {n : Node} {ns : List Node}

/-- A statement is read from a text that it has room for, and a block from one that ends before
the block begins. -/
theorem exists_raw (h : LaidOut lo ns hi) (hn : n.Within ns) :
    ∃ raw block, n.head = readHead n.start raw block ∧ n.start + raw.length ≤ n.stop ∧
      ∀ bodyStart ∈ n.bodyStart?, n.start + raw.length < bodyStart := by
  induction h with
  | nil => exact absurd hn n.not_within_nil
  | @leaf _ start _ _ raw _ _ hstop _ ih =>
      rcases Node.within_cons.mp hn with rfl | hn | hn
      · refine ⟨raw, false, ?_, ?_, by simp [Node.bodyStart?]⟩
        · rw [Node.start_of_head rfl, Node.head]
        · rwa [Node.start_of_head rfl, Node.stop]
      · exact absurd hn n.not_within_nil
      · exact ih hn
  | @block _ start bodyStart stop _ raw _ _ _ hraw hchildren _ ihc ihr =>
      rcases Node.within_cons.mp hn with rfl | hn | hn
      · have hle := hchildren.le
        refine ⟨raw, true, ?_, ?_, ?_⟩
        · rw [Node.start_of_head rfl, Node.head]
        · rw [Node.start_of_head rfl, Node.stop]
          omega
        · intro bodyStart' hbody
          obtain rfl := Option.some.inj hbody
          rwa [Node.start_of_head rfl]
      · exact ihc hn
      · exact ihr hn

theorem mem_allStatements_iff (h : LaidOut lo ns hi) : n ∈ allStatements ns ↔ n.Within ns := by
  induction h with
  | nil => simp [allStatements, n.not_within_nil]
  | leaf _ _ _ ih =>
      rw [allStatements, Node.withInner, Node.within_cons]
      simp [ih, Node.children, n.not_within_nil]
  | block _ _ _ _ ihc ihr =>
      rw [allStatements, Node.withInner, Node.within_cons]
      simp [ihc, ihr, Node.children]

/-- The search for the blocks around an offset finds all statements that hold it. -/
theorem mem_enclosingBlocks_iff (h : LaidOut lo ns hi) {o : Int} :
    n ∈ enclosingBlocks o ns ↔ n.Within ns ∧ n.contains o = true := by
  rw [← h.filter_allStatements o, List.mem_filter, h.mem_allStatements_iff]

/-- The search goes from each block to one of its statements. -/
theorem isChain_enclosingBlocks (h : LaidOut lo ns hi) (o : Int) :
    (∀ n ∈ (enclosingBlocks o ns).head?, n ∈ ns) ∧
      (enclosingBlocks o ns).IsChain fun m n => n ∈ m.children := by
  induction h with
  | nil => exact ⟨by simp [enclosingBlocks], .nil⟩
  | leaf _ _ _ ih =>
      rw [enclosingBlocks, if_neg (by simp [Node.contains])]
      exact ⟨fun n hn => List.mem_cons_of_mem _ (ih.1 n hn), ih.2⟩
  | block _ _ _ _ ihc ihr =>
      rw [enclosingBlocks]
      split_ifs
      · refine ⟨?_, ?_⟩
        · intro n hn
          obtain rfl := Option.some.inj hn
          exact List.mem_cons_self
        · rw [enclosingInside, List.isChain_cons]
          exact ihc
      · exact ⟨fun n hn => List.mem_cons_of_mem _ (ihr.1 n hn), ihr.2⟩

end LaidOut

/-- **The tree of a text is well nested.** The whole text is the extent of the tree. On each level
the statements stand one behind the other, each with an extent that is not empty: those of the top
level in the text, and those of a block between its braces, which are where the block says. A
statement without a block holds none. So at most one statement of a level holds a given offset, and
the statements that hold it form one chain: the first of them is a statement of the top level, and
each of the others is a statement of the one in front of it. -/
theorem parse_wellNested {src : Text} {sheet : Stylesheet} (h : parse src = .ok sheet) :
    sheet.size = src.length ∧ RowBetween 0 src.length sheet.children ∧
      (∀ n : Node, n.Within sheet.children → n.BracesRow src) ∧
      ∀ o : Int, (sheet.children.filter (·.contains o)).length ≤ 1 ∧
        (∀ n : Node, n.Within sheet.children → (n.children.filter (·.contains o)).length ≤ 1) ∧
        ∃ chain : List Node,
          (∀ n, n ∈ chain ↔ n.Within sheet.children ∧ n.contains o = true) ∧
          (∀ n ∈ chain.head?, n ∈ sheet.children ∧ sheet.contains o = true) ∧
          chain.IsChain fun m n => n ∈ m.children := by
  have hnested := wellNested_of_parse h
  have hlaid := laidOut_of_parse h
  have hrow := hnested.rowBetween
  have hbraces : ∀ n : Node, n.Within sheet.children → n.BracesRow src :=
    fun n hn => hnested.bracesRow hn
  have hsize : sheet.size = src.length := by
    obtain ⟨b, hb⟩ := exists_derives_of_parse_eq_ok h
    rw [parse_eq_ok_of_derives hb] at h
    cases h
    rfl
  refine ⟨hsize, hrow, hbraces, ?_⟩
  intro o
  refine ⟨hrow.length_filter_contains_le (fun n hn => hbraces n (.here hn)) o, ?_, ?_⟩
  · intro n hn
    cases n with
    | leaf head stop => simp [Node.children]
    | block head bodyStart children stop =>
        obtain ⟨-, -, -, -, hchildren⟩ := hbraces _ hn
        exact hchildren.length_filter_contains_le (fun m hm => hbraces m (hn.child hm)) o
  · obtain ⟨hhead, hchain⟩ := hlaid.isChain_enclosingBlocks o
    refine ⟨enclosingBlocks o sheet.children, fun n => hlaid.mem_enclosingBlocks_iff, ?_, hchain⟩
    intro n hn
    have hmem := hhead n hn
    have ho := (hlaid.mem_enclosingBlocks_iff.mp (List.mem_of_mem_head? hn)).2
    obtain ⟨hlow, hhigh⟩ := (hbraces n (.here hmem)).of_contains ho
    have hstop := (hrow.between n hmem).2.2
    refine ⟨hmem, ?_⟩
    simp only [Stylesheet.contains, hsize, Bool.and_eq_true, decide_eq_true_eq]
    omega

/-- An offset in the innermost block is held by the rule and by the mixin inside it. -/
theorem parse_wellNested_nestedText :
    let rule : Node := .block ⟨0, .ruleset, text "a"⟩ 3 [nestedMixin] 34
    parse nestedText = .ok ⟨34, [rule]⟩ ∧ rule.contains 26 = true ∧
      nestedMixin.contains 26 = true ∧ RowBetween 0 nestedText.length [rule] ∧
      rule.BracesRow nestedText ∧ nestedMixin.BracesRow nestedText ∧
      ∃ chain : List Node, (∀ n, n ∈ chain ↔ n.Within [rule] ∧ n.contains 26 = true) ∧
        (∀ n ∈ chain.head?, n ∈ [rule]) ∧ chain.IsChain fun m n => n ∈ m.children := by
  intro rule
  have hparse : parse nestedText = .ok ⟨34, [rule]⟩ := by cbv
  have hrule : rule.Within [rule] := .here List.mem_cons_self
  have hmixin : nestedMixin.Within [rule] :=
    .inside List.mem_cons_self (.here List.mem_cons_self)
  obtain ⟨-, hrow, hbraces, hchains⟩ := parse_wellNested hparse
  obtain ⟨-, -, chain, hmem, hhead, hchain⟩ := hchains 26
  exact ⟨hparse, by decide, by decide, hrow, hbraces rule hrule, hbraces nestedMixin hmixin,
    chain, hmem, fun n hn => (hhead n hn).1, hchain⟩

end StyleIndex
