import Mathlib.Tactic
import StyleIndex.Proofs.Grammar.Acceptance
import StyleIndex.Proofs.Symbol.Span
import StyleIndex.Symbol.Extract

set_option autoImplicit false

/-! # Where the symbols of a record stand

Every symbol of a record carries the offset and the position of its name. Both point at the name
in the text the record was extracted from (`speltIn_extractStrict`, `speltIn_extractLenient`),
whether the symbol is declared at the top level or in a block around a cursor.

The nodes of a parsed text are those of its derivation, so each statement is read from a part of
the text (`Node.SpeltIn`). The names of variables are only considered where they start with a
dollar sign; a parameter list may hold other texts as well.
-/

namespace StyleIndex

/-! ## Statements -/

/-- The statement is read from the part of `t` that stands at its start. -/
def Node.SpeltIn (t : Text) (n : Node) : Prop :=
  ∃ raw block, n.head = readHead n.start raw block ∧ StandsAt t n.start raw

theorem speltIn_leaf {t raw : Text} {start : Nat} (h : StandsAt t start raw) (stop : Nat) :
    (Node.leaf (readHead start raw false) stop).SpeltIn t := by
  have hstart : (Node.leaf (readHead start raw false) stop).start = start :=
    start_readHead start raw false
  refine ⟨raw, false, ?_, ?_⟩
  · rw [hstart]
    rfl
  · rwa [hstart]

theorem speltIn_block {t raw : Text} {start : Nat} (h : StandsAt t start raw) (bodyStart : Nat)
    (children : List Node) (stop : Nat) :
    (Node.block (readHead start raw true) bodyStart children stop).SpeltIn t := by
  have hstart : (Node.block (readHead start raw true) bodyStart children stop).start = start :=
    start_readHead start raw true
  refine ⟨raw, true, ?_, ?_⟩
  · rw [hstart]
    rfl
  · rwa [hstart]

namespace StandsAt

variable {t : Text} {pos : Nat}

theorem leaf_parts {ps : Prelude} {rest : Body} (h : StandsAt t pos (Body.leaf ps rest).text) :
    StandsAt t pos ps.text ∧ StandsAt t (pos + ps.text.length + 1) rest.text := by
  have h : StandsAt t pos (ps.text ++ Ascii.semicolon :: rest.text) := h
  exact ⟨h.left (Utf8.startsFresh_cons (by decide) _), h.right.tail⟩

theorem block_parts {ps : Prelude} {inner rest : Body}
    (h : StandsAt t pos (Body.block ps inner rest).text) :
    StandsAt t pos ps.text ∧ StandsAt t (pos + ps.text.length + 1) inner.text ∧
      StandsAt t (pos + ps.text.length + 1 + inner.text.length + 1) rest.text := by
  have h : StandsAt t pos
      (ps.text ++ Ascii.lbrace :: (inner.text ++ Ascii.rbrace :: rest.text)) := h
  refine ⟨h.left (Utf8.startsFresh_cons (by decide) _), ?_, h.right.tail.right.tail⟩
  exact h.right.tail.left (Utf8.startsFresh_cons (by decide) _)

theorem lineComment_rest {u : Text} {rest : Body}
    (h : StandsAt t pos (Body.lineComment u rest).text) :
    StandsAt t (pos + (u.length + 2)) rest.text := by
  have h : StandsAt t pos (Ascii.slash :: Ascii.slash :: (u ++ rest.text)) := h
  have hrest := h.tail.tail.right
  rwa [show pos + 1 + 1 + u.length = pos + (u.length + 2) by omega] at hrest

theorem blockComment_rest {u : Text} {rest : Body}
    (h : StandsAt t pos (Body.blockComment u rest).text) :
    StandsAt t (pos + (u.length + 4)) rest.text := by
  have h : StandsAt t pos
      (Ascii.slash :: Ascii.star :: (u ++ Ascii.star :: Ascii.slash :: rest.text)) := h
  have hrest := h.tail.tail.right.tail.tail
  rwa [show pos + 1 + 1 + u.length + 1 + 1 = pos + (u.length + 4) by omega] at hrest

end StandsAt

/-- The statements of a body are read from the text. -/
theorem speltIn_of_mem_nodes {t : Text} {n : Node} {b : Body} :
    ∀ {pos : Nat}, StandsAt t pos b.text → n ∈ b.nodes pos → n.SpeltIn t := by
  induction b with
  | done =>
      intro pos h hn
      cases hn
  | last ps =>
      intro pos h hn
      obtain rfl := List.mem_singleton.mp hn
      exact speltIn_leaf h _
  | space c rest ih =>
      intro pos h hn
      exact ih (StandsAt.tail h) hn
  | lineComment u rest ih =>
      intro pos h hn
      exact ih h.lineComment_rest hn
  | blockComment u rest ih =>
      intro pos h hn
      exact ih h.blockComment_rest hn
  | semicolon rest ih =>
      intro pos h hn
      exact ih (StandsAt.tail h) hn
  | leaf ps rest ih =>
      intro pos h hn
      obtain ⟨hps, hrest⟩ := h.leaf_parts
      rcases List.mem_cons.mp hn with rfl | hn
      · exact speltIn_leaf hps _
      · exact ih hrest hn
  | block ps inner rest ihi ihr =>
      intro pos h hn
      obtain ⟨hps, -, hrest⟩ := h.block_parts
      rcases List.mem_cons.mp hn with rfl | hn
      · exact speltIn_block hps _ _ _
      · exact ihr hrest hn

/-- The blocks around a cursor are read from the text, and so are the statements in them. -/
theorem speltIn_of_mem_enclosingBlocks {t : Text} {offset : Int} {n : Node} {b : Body} :
    ∀ {pos : Nat}, StandsAt t pos b.text → n ∈ enclosingBlocks offset (b.nodes pos) →
      n.SpeltIn t ∧ ∀ m ∈ n.children, m.SpeltIn t := by
  induction b with
  | done =>
      intro pos h hn
      cases hn
  | last ps =>
      intro pos h hn
      cases hn
  | space c rest ih =>
      intro pos h hn
      exact ih (StandsAt.tail h) hn
  | lineComment u rest ih =>
      intro pos h hn
      exact ih h.lineComment_rest hn
  | blockComment u rest ih =>
      intro pos h hn
      exact ih h.blockComment_rest hn
  | semicolon rest ih =>
      intro pos h hn
      exact ih (StandsAt.tail h) hn
  | leaf ps rest ih =>
      intro pos h hn
      exact ih h.leaf_parts.2 hn
  | block ps inner rest ihi ihr =>
      intro pos h hn
      obtain ⟨hps, hinner, hrest⟩ := h.block_parts
      rw [Body.nodes, enclosingBlocks] at hn
      split_ifs at hn
      · rcases List.mem_cons.mp hn with rfl | hn
        · exact ⟨speltIn_block hps _ _ _, fun m hm => speltIn_of_mem_nodes hinner hm⟩
        · exact ihi hinner hn
      · exact ihr hrest hn

/-! ## Declarations -/

/-- The names of the declarations stand at their offsets. -/
structure Declarations.SpeltIn (t : Text) (d : Declarations) : Prop where
  vars : ∀ name value offset, (name, value, offset) ∈ d.vars →
    name.head? = some Ascii.dollar → NameAt t offset name
  mixins : ∀ name params offset, (name, params, offset) ∈ d.mixins → NameAt t offset name
  functions : ∀ name params offset, (name, params, offset) ∈ d.functions → NameAt t offset name

namespace Node.SpeltIn

variable {t : Text} {n : Node}

theorem nameAt_of_binding? (h : n.SpeltIn t) {name value : Text} {offset : Nat}
    (hn : n.binding? = some (name, value, offset)) : NameAt t offset name := by
  obtain ⟨raw, block, hhead, hraw⟩ := h
  unfold binding? at hn
  split at hn
  · next name' flags hform =>
    cases hn
    rw [form, hhead] at hform
    exact hraw.nameAt_binding hform
  · cases hn

theorem nameAt_of_callable? (h : n.SpeltIn t) {kind : CallableKind} {name : Text}
    {params : List Parameter} {offset : Nat}
    (hn : n.callable? kind = some (name, params, offset)) : NameAt t offset name := by
  obtain ⟨raw, block, hhead, hraw⟩ := h
  unfold callable? at hn
  split at hn
  · next k name' nameStart params' hform =>
    split_ifs at hn with hc
    cases hn
    rw [form, hhead] at hform
    exact hraw.nameAt_callable hform hc.2
  · cases hn

theorem nameAt_of_parameter (h : n.SpeltIn t) {name value : Text} {offset : Nat}
    (hn : (name, value, offset) ∈ n.parameterVariables)
    (hname : name.head? = some Ascii.dollar) : NameAt t offset name := by
  obtain ⟨raw, block, hhead, hraw⟩ := h
  unfold parameterVariables at hn
  split at hn
  · next k name' nameStart params hform =>
    obtain ⟨p, hp, heq⟩ := List.mem_map.mp hn
    cases heq
    rw [form, hhead] at hform
    exact hraw.nameAt_parameter hform hp hname
  · cases hn

end Node.SpeltIn

namespace Declarations

variable {t : Text}

theorem speltIn_nil : SpeltIn t ⟨[], [], []⟩ :=
  ⟨by simp, by simp, by simp⟩

/-- What a level declares. -/
theorem speltIn_ofLevel {nodes : List Node} (h : ∀ n ∈ nodes, n.SpeltIn t) :
    (ofLevel nodes).SpeltIn t := by
  refine ⟨?_, ?_, ?_⟩
  · intro name value offset hmem _
    obtain ⟨n, hn, heq⟩ := List.mem_filterMap.mp hmem
    exact (h n hn).nameAt_of_binding? heq
  · intro name params offset hmem
    obtain ⟨n, hn, heq⟩ := List.mem_filterMap.mp hmem
    exact (h n hn).nameAt_of_callable? heq
  · intro name params offset hmem
    obtain ⟨n, hn, heq⟩ := List.mem_filterMap.mp hmem
    exact (h n hn).nameAt_of_callable? heq

/-- What a block declares, its parameters included. -/
theorem speltIn_ofBlock {block : Node} (h : block.SpeltIn t)
    (hchildren : ∀ n ∈ block.children, n.SpeltIn t) (offset : Int) :
    (ofBlock offset block).SpeltIn t := by
  have hlevel : (ofLevel (block.children.takeWhile fun n =>
      decide ((n.start : Int) < offset))).SpeltIn t :=
    speltIn_ofLevel fun n hn => hchildren n ((List.takeWhile_sublist _).subset hn)
  refine ⟨?_, hlevel.mixins, hlevel.functions⟩
  intro name value offset' hmem hname
  rcases List.mem_append.mp hmem with hparam | hvar
  · exact h.nameAt_of_parameter hparam hname
  · exact hlevel.vars name value offset' hvar hname

theorem SpeltIn.append {a b : Declarations} (ha : a.SpeltIn t) (hb : b.SpeltIn t) :
    (a.append b).SpeltIn t := by
  refine ⟨?_, ?_, ?_⟩
  · intro name value offset hmem
    exact (List.mem_append.mp hmem).elim (ha.vars name value offset) (hb.vars name value offset)
  · intro name params offset hmem
    exact (List.mem_append.mp hmem).elim (ha.mixins name params offset)
      (hb.mixins name params offset)
  · intro name params offset hmem
    exact (List.mem_append.mp hmem).elim (ha.functions name params offset)
      (hb.functions name params offset)

theorem SpeltIn.reverse {d : Declarations} (h : d.SpeltIn t) : d.reverse.SpeltIn t := by
  refine ⟨?_, ?_, ?_⟩
  · intro name value offset hmem
    exact h.vars name value offset (List.mem_reverse.mp hmem)
  · intro name params offset hmem
    exact h.mixins name params offset (List.mem_reverse.mp hmem)
  · intro name params offset hmem
    exact h.functions name params offset (List.mem_reverse.mp hmem)

theorem speltIn_foldl {ds : List Declarations} (h : ∀ d ∈ ds, d.SpeltIn t) :
    ∀ {d : Declarations}, d.SpeltIn t → (ds.foldl append d).SpeltIn t := by
  induction ds with
  | nil =>
      intro d hd
      exact hd
  | cons e ds ih =>
      intro d hd
      rw [List.foldl_cons]
      exact ih (fun d hd => h d (List.mem_cons_of_mem _ hd))
        (hd.append (h e List.mem_cons_self))

/-- **All declarations visible at a cursor stand where they say.** -/
theorem speltIn_visibleAt (b : Body) (scope : Option Int) :
    (visibleAt scope (b.nodes 0)).SpeltIn b.text := by
  have hwhole := StandsAt.whole b.text
  have hlevel : (ofLevel (b.nodes 0)).SpeltIn b.text :=
    speltIn_ofLevel fun n hn => speltIn_of_mem_nodes hwhole hn
  cases scope with
  | none => exact hlevel
  | some offset =>
      refine SpeltIn.append (SpeltIn.reverse (speltIn_foldl ?_ speltIn_nil)) hlevel
      intro d hd
      obtain ⟨n, hn, rfl⟩ := List.mem_map.mp hd
      obtain ⟨hspelt, hchildren⟩ := speltIn_of_mem_enclosingBlocks hwhole hn
      exact speltIn_ofBlock hspelt hchildren offset

end Declarations

/-! ## Records -/

/-- A symbol is declared in `t`: its name stands at its offset, which is at its position. -/
def DeclaredIn (t : Text) (name : Text) (offset : Nat) (position : Position) : Prop :=
  NameAt t offset name ∧ position = (LineIndex.ofText t).positionAt offset

/-- The symbols of a record are declared in `t`. -/
structure Document.SpeltIn (t : Text) (d : Document) : Prop where
  vars : ∀ v ∈ d.vars, v.name.head? = some Ascii.dollar →
    DeclaredIn t v.name v.offset v.position
  mixins : ∀ m ∈ d.mixins, DeclaredIn t m.name m.offset m.position
  functions : ∀ f ∈ d.functions, DeclaredIn t f.name f.offset f.position

theorem speltIn_ofNodes {path t : Text} {scope : Option Int} {nodes : List Node}
    (h : (Declarations.visibleAt scope nodes).SpeltIn t) :
    (Document.ofNodes path t scope nodes).SpeltIn t := by
  refine ⟨?_, ?_, ?_⟩
  · intro v hv hname
    obtain ⟨⟨name, value, offset⟩, hd, rfl⟩ := List.mem_map.mp hv
    exact ⟨h.vars name value offset hd hname, rfl⟩
  · intro m hm
    obtain ⟨⟨name, params, offset⟩, hd, rfl⟩ := List.mem_map.mp hm
    exact ⟨h.mixins name params offset hd, rfl⟩
  · intro f hf
    obtain ⟨⟨name, params, offset⟩, hd, rfl⟩ := List.mem_map.mp hf
    exact ⟨h.functions name params offset hd, rfl⟩

/-- A record is made from some statements. -/
theorem exists_ofNodes_of_extract {path t : Text} {scope : Option Int} {strict : Bool}
    {d : Document} (h : extract path t scope strict = .ok d) :
    ∃ nodes, d = Document.ofNodes path t scope nodes := by
  unfold extract extractStrict extractLenient at h
  split_ifs at h
  · split at h
    · next sheet _ =>
      cases h
      exact ⟨sheet.children, rfl⟩
    · cases h
  · cases h
    split
    · next sheet _ => exact ⟨sheet.children, rfl⟩
    · exact ⟨[], rfl⟩

/-- The nodes of a parsed text are those of a derivation. -/
theorem speltIn_ofNodes_of_parse {path t : Text} {scope : Option Int} {sheet : Stylesheet}
    (h : parse t = .ok sheet) : (Document.ofNodes path t scope sheet.children).SpeltIn t := by
  obtain ⟨b, hb⟩ := exists_derives_of_parse_eq_ok h
  rw [parse_eq_ok_of_derives hb] at h
  cases h
  obtain ⟨rfl, -⟩ := hb
  exact speltIn_ofNodes (Declarations.speltIn_visibleAt b scope)

/-- **The symbols of an extracted record are declared in its text.** -/
theorem speltIn_extractStrict {path t : Text} {scope : Option Int} {d : Document}
    (h : extractStrict path t scope = .ok d) : d.SpeltIn t := by
  unfold extractStrict at h
  split at h
  · next sheet hparse =>
    cases h
    exact speltIn_ofNodes_of_parse hparse
  · cases h

theorem speltIn_extractLenient (path t : Text) (scope : Option Int) :
    (extractLenient path t scope).SpeltIn t := by
  unfold extractLenient
  split
  · next sheet hparse => exact speltIn_ofNodes_of_parse hparse
  · refine speltIn_ofNodes ?_
    cases scope with
    | none => exact Declarations.speltIn_nil
    | some offset => exact Declarations.speltIn_nil

end StyleIndex
