import Mathlib.Tactic
import StyleIndex.Command.Print
import StyleIndex.Proofs.Editor.Definition
import StyleIndex.Proofs.Symbol.Containment
import StyleIndex.Proofs.Symbol.Cutting
import StyleIndex.Proofs.Symbol.SourceSpan

set_option autoImplicit false

/-! # The caret stands under the right parameter

The column of a parameter is searched for, label after label, and it is the one that counting the
bytes in front gives (`parameterColumn_signatureHelp?`). That is so because each search begins
directly behind the label before, in front of the comma and the space that separate two labels, and
no label begins with either of them (`head?_label`). A label begins with the first byte of a piece
of the parameter list that is no blank, and that is no comma, because the list is cut at every comma
outside of brackets and quotations.
-/

namespace StyleIndex

/-! ## The beginning of a piece -/

/-- Behind the first separator the search begins anew. -/
theorem exists_of_separatorOffsets_eq_cons {sep : UInt8} {i : Nat} {is : List Nat} {depth : Int}
    {pos : Nat} {t : Text} (h : separatorOffsets sep depth pos t = i :: is) :
    ∃ u v, t = u ++ sep :: v ∧ pos + u.length = i ∧ is = separatorOffsets sep 0 (i + 1) v := by
  fun_induction separatorOffsets sep depth pos t with
  | case1 => cases h
  | case2 depth pos c rest hq n ih =>
      obtain ⟨u, v, hrest, hi, his⟩ := ih h
      refine ⟨c :: (rest.take n ++ u), v, ?_, ?_, his⟩
      · rw [List.cons_append, List.append_assoc, ← hrest, List.take_append_drop]
      · have hlength := congrArg List.length hrest
        simp only [List.length_drop, List.length_append, List.length_cons] at hlength
        rw [List.length_cons, List.length_append, List.length_take]
        omega
  | case3 depth pos c rest hq ho ih =>
      obtain ⟨u, v, rfl, hi, his⟩ := ih h
      exact ⟨c :: u, v, rfl, by rw [List.length_cons]; omega, his⟩
  | case4 depth pos c rest hq ho hc ih =>
      obtain ⟨u, v, rfl, hi, his⟩ := ih h
      exact ⟨c :: u, v, rfl, by rw [List.length_cons]; omega, his⟩
  | case5 depth pos c rest hq ho hc hsep ih =>
      obtain ⟨rfl, rfl⟩ := List.cons.inj h
      exact ⟨[], rest, by rw [hsep.1]; rfl, rfl, by rw [hsep.2]⟩
  | case6 depth pos c rest hq ho hc hsep ih =>
      obtain ⟨u, v, rfl, hi, his⟩ := ih h
      exact ⟨c :: u, v, rfl, by rw [List.length_cons]; omega, his⟩

/-- A piece ends with the text or at the first separator that is found from its beginning on. -/
theorem exists_behind_of_mem_piecesAt {t : Text} {sep : UInt8} {p : Piece} {is : List Nat} :
    ∀ {start : Nat}, separatorOffsets sep 0 start (t.drop start) = is → p ∈ piecesAt t start is →
      ∃ back : Text,
        ∀ i ∈ (separatorOffsets sep 0 0 (p.text ++ back)).head?, i = p.text.length := by
  have hshift : ∀ (start : Nat) (u : Text), separatorOffsets sep 0 start u
      = (separatorOffsets sep 0 0 u).map (start + ·) :=
    fun start u => separatorOffsets_add sep start 0 0 u
  induction is with
  | nil =>
      intro start hscan hp
      obtain rfl := List.mem_singleton.mp hp
      rw [hshift, List.map_eq_nil_iff] at hscan
      exact ⟨[], by rw [List.append_nil, hscan]; simp⟩
  | cons i is ih =>
      intro start hscan hp
      obtain ⟨u, v, hdrop, hi, his⟩ := exists_of_separatorOffsets_eq_cons hscan
      rcases List.mem_cons.mp hp with rfl | hp
      · have hu : t.slice start i = u := by
          rw [Text.slice, hdrop, ← hi, Nat.add_sub_cancel_left, List.take_left]
        refine ⟨sep :: v, ?_⟩
        intro j hj
        rw [hu] at hj ⊢
        rw [hdrop, hshift, List.map_eq_cons_iff] at hscan
        obtain ⟨k, ks, hks, hk, -⟩ := hscan
        rw [hks] at hj
        obtain rfl := Option.some.inj hj
        show k = u.length
        have hk : start + k = i := hk
        omega
      · refine ih ?_ hp
        have hbehind : t.drop (i + 1) = v := by
          rw [← hi, Nat.add_assoc, ← List.drop_drop, hdrop, ← List.drop_drop, List.drop_left]
          rfl
        rw [hbehind, his]

/-- **No piece begins with the comma it is cut at**, bytes without a meaning apart. -/
theorem ne_comma_of_mem_topLevelPieces {list lead rest : Text} {c : UInt8} {p : Piece}
    (hp : p ∈ topLevelPieces list Ascii.comma) (htext : p.text = lead ++ c :: rest)
    (hlead : ∀ b ∈ lead, b ∉ valueMarks) : c ≠ Ascii.comma := by
  rintro rfl
  have hscan : separatorOffsets Ascii.comma 0 0 (list.drop 0)
      = separatorOffsets Ascii.comma 0 0 list := rfl
  obtain ⟨back, hback⟩ := exists_behind_of_mem_piecesAt hscan hp
  have hbytes : ∀ b ∈ lead, b ∉ valueMarks ∧ b ≠ Ascii.comma := by
    intro b hb
    refine ⟨hlead b hb, ?_⟩
    rintro rfl
    exact hlead _ hb (by decide)
  have hfirst : (separatorOffsets Ascii.comma 0 0 (p.text ++ back)).head? = some lead.length := by
    rw [htext, List.append_assoc, separatorOffsets_bytes hbytes, List.cons_append, separatorOffsets,
      if_neg (by decide), if_neg (by decide), if_neg (by decide), if_pos ⟨rfl, rfl⟩,
      List.head?_cons, Nat.zero_add]
  have hlength := hback _ hfirst
  rw [htext, List.length_append, List.length_cons] at hlength
  omega

/-! ## The beginning of a label -/

/-- A label begins with the name, and what may follow it there begins with a colon. -/
theorem Parameter.exists_label_eq (p : Parameter) :
    ∃ tail, p.label = p.name ++ tail ∧ ∀ c ∈ tail.head?, c = Ascii.colon := by
  by_cases hdefault : p.default = []
  · exact ⟨[], by rw [label_of_no_default hdefault, List.append_nil], by simp⟩
  · exact ⟨_, label_of_default hdefault, by simp [eq_comm]⟩

/-- **No label begins with a comma or a space.** -/
theorem head?_label {list : Text} {base : Nat} {piece : Piece} {p : Param}
    (hpiece : piece ∈ topLevelPieces list Ascii.comma) (h : paramOfPiece? base piece = some p) :
    ∀ c ∈ p.withoutOffset.label.head?, c ∉ text ", " := by
  intro c hc
  obtain ⟨tail, hlabel, htail⟩ := p.withoutOffset.exists_label_eq
  obtain ⟨behind, hbehind, -, -⟩ := name_of_paramOfPiece? h
  rw [hlabel, show p.withoutOffset.name = p.name from rfl] at hc
  cases hname : p.name with
  | nil =>
      rw [hname] at hc
      rw [htail c hc]
      decide
  | cons d name =>
      rw [hname] at hc hbehind
      obtain rfl := Option.some.inj hc
      obtain ⟨lead, trail, htext, hlead, -, -, hblank⟩ := Text.exists_trimBlank piece.text
      rw [hbehind] at htext
      have hcomma : d ≠ Ascii.comma :=
        ne_comma_of_mem_topLevelPieces hpiece htext
          fun b hb => (notMem_valueMarks_of_blank hlead b hb).1
      have hspace : d ≠ Ascii.space := by
        rintro rfl
        have hstep := hblank _ _ hbehind
        rw [Utf8.step.eq_def, if_pos (by decide)] at hstep
        exact absurd hstep (by decide)
      have hbytes : text ", " = [Ascii.comma, Ascii.space] := by decide
      simp [hbytes, hcomma, hspace]

/-! ## The search -/

theorem Text.join_cons (sep t : Text) (ts : List Text) :
    Text.join sep (t :: ts) = t ++ ts.flatMap (sep ++ ·) := by
  induction ts generalizing t with
  | nil => simp [Text.join]
  | cons u ts ih =>
      rw [Text.join, ih, List.flatMap_cons, List.append_assoc, List.append_assoc]
      exact List.cons_ne_nil u ts

/-- Labels are found one behind the other. The search begins in front of what separates the first
of them from the one before. -/
theorem columnFrom_labels (tail : Text) {i : Nat} :
    ∀ (front gap : Text) {label : Text} {labels : List Text}, i ≤ labels.length →
      (∀ l ∈ label :: labels, l ≠ []) → (∀ c ∈ label.head?, c ∉ gap) →
      (∀ l ∈ labels, ∀ c ∈ l.head?, c ∉ text ", ") →
      columnFrom (front ++ (gap ++ (label ++ (labels.flatMap (text ", " ++ ·) ++ tail))))
          front.length i (label :: labels)
        = front.length + gap.length
          + (((label :: labels).take i).map fun l => l.length + 2).sum := by
  induction i with
  | zero =>
      intro front gap label labels _ hne hfirst _
      have hlabel := hne label List.mem_cons_self
      rw [columnFrom, List.drop_left, Text.indexOf?_of_head? (List.head?_eq_some_head hlabel)
        (hfirst _ (List.head_mem_head? hlabel))]
      rfl
  | succ i ih =>
      intro front gap label labels hi hne hfirst hrest
      have hlabel := hne label List.mem_cons_self
      obtain ⟨next, labels, rfl⟩ :=
        List.exists_cons_of_length_pos (Nat.lt_of_lt_of_le (Nat.succ_pos i) hi)
      obtain ⟨hnext, hbehind⟩ := List.forall_mem_cons.mp hrest
      have hcolumn := ih (front ++ (gap ++ label)) _ (Nat.le_of_succ_le_succ hi)
        (fun l hl => hne l (List.mem_cons_of_mem _ hl)) hnext hbehind
      rw [columnFrom, List.drop_left, Text.indexOf?_of_head? (List.head?_eq_some_head hlabel)
        (hfirst _ (List.head_mem_head? hlabel))]
      simp only [List.flatMap_cons, List.append_assoc, List.length_append, List.take_succ_cons,
        List.map_cons, List.sum_cons] at hcolumn ⊢
      have hseparator : (text ", ").length = 2 := by decide
      rw [Nat.add_assoc front.length, hcolumn, hseparator]
      omega

/-- The text of a signature with at least one parameter. -/
theorem signatureLabel_cons {name label : Text} {ps : List Parameter} {labels : List Text}
    (h : ps.map Parameter.label = label :: labels) :
    signatureLabel name ps = name ++ Ascii.lparen ::
      (label ++ (labels.flatMap (text ", " ++ ·) ++ text ")")) := by
  have hopen : text "(" = [Ascii.lparen] := by decide
  rw [signatureLabel, h, Text.join_cons, hopen]
  simp only [List.append_assoc, List.cons_append, List.nil_append]

/-- **The column of a parameter is that of the bytes in front of it.** -/
theorem parameterColumn_signatureLabel {name : Text} {ps : List Parameter}
    (hname : Ascii.lparen ∉ name) (hne : ∀ l ∈ ps.map Parameter.label, l ≠ [])
    (hhead : ∀ l ∈ ps.map Parameter.label, ∀ c ∈ l.head?, c ∉ text ", ") {i : Nat}
    (hi : i < (ps.map Parameter.label).length) :
    parameterColumn (signatureLabel name ps) (ps.map Parameter.label) i
      = name.length + 1 + (((ps.map Parameter.label).take i).map fun l => l.length + 2).sum := by
  obtain ⟨label, labels, hlabels⟩ := List.exists_cons_of_length_pos (Nat.zero_lt_of_lt hi)
  rw [hlabels] at hne hhead hi
  have hcolumn := columnFrom_labels (text ")") (name ++ [Ascii.lparen]) []
    (Nat.le_of_lt_succ hi) hne (by simp) (List.forall_mem_cons.mp hhead).2
  rw [signatureLabel_cons hlabels, hlabels, parameterColumn, Text.byteIndex?_append hname]
  simpa using hcolumn

/-! ## Declared signatures -/

/-- A text declares a mixin or function of this name with these parameters. -/
def DeclaresCallable (src name : Text) (ps : List Parameter) : Prop :=
  ∃ (sheet : Stylesheet) (n : Node) (kind : CallableKind) (nameStart : Nat) (params : List Param),
    parse src = .ok sheet ∧ n.Within sheet.children ∧
      n.form = .callable kind name nameStart params ∧ params.map Param.withoutOffset = ps

namespace DeclaresCallable

variable {src name : Text} {ps : List Parameter}

theorem exists_readCallable_eq (h : DeclaresCallable src name ps) :
    ∃ kind v base k nameStart params,
      readCallable kind v base = .callable k name nameStart params ∧
        params.map Param.withoutOffset = ps := by
  obtain ⟨sheet, n, k, nameStart, params, hparse, hn, hform, hparams⟩ := h
  obtain ⟨raw, block, hhead, -⟩ := exists_text_of_parse hparse hn
  rw [Node.form, hhead] at hform
  obtain ⟨kind, v, base, -, hread⟩ := StyleIndex.exists_readCallable_eq hform
  exact ⟨kind, v, base, k, nameStart, params, hread, hparams⟩

/-- The first parenthesis of a signature is the one behind the name. -/
theorem lparen_notMem (h : DeclaresCallable src name ps) : Ascii.lparen ∉ name := by
  obtain ⟨kind, v, base, k, nameStart, params, hread, -⟩ := h.exists_readCallable_eq
  simp only [readCallable, Form.callable.injEq] at hread
  obtain ⟨-, rfl, -⟩ := hread
  intro hmem
  exact absurd (List.mem_takeWhile_imp hmem) (by decide)

theorem head?_labels (h : DeclaresCallable src name ps) :
    ∀ l ∈ ps.map Parameter.label, ∀ c ∈ l.head?, c ∉ text ", " := by
  obtain ⟨kind, v, base, k, nameStart, params, hread, rfl⟩ := h.exists_readCallable_eq
  intro l hl
  rw [List.map_map] at hl
  obtain ⟨p, hp, rfl⟩ := List.mem_map.mp hl
  obtain ⟨rest, inner, -, -, hmem⟩ := exists_list_of_mem_readCallable hread hp
  obtain ⟨piece, hpiece, hparam⟩ := List.mem_filterMap.mp hmem
  exact head?_label hpiece hparam

end DeclaresCallable

/-! ## Signatures in records -/

/-- Every mixin and function of a record is declared by some text. -/
def Document.DeclaredCallables (d : Document) : Prop :=
  ∀ m ∈ d.mixins ++ d.functions, ∃ src, DeclaresCallable src m.name m.parameters

theorem Node.form_of_callable? {n : Node} {kind : CallableKind} {name : Text}
    {ps : List Parameter} {offset : Nat} (h : n.callable? kind = some (name, ps, offset)) :
    ∃ params, n.form = .callable kind name offset params ∧ params.map Param.withoutOffset = ps := by
  unfold callable? at h
  split at h
  · next k name' nameStart params hform =>
    split_ifs at h with hc
    cases h
    exact ⟨params, by rw [hform, hc.1], rfl⟩
  · cases h

namespace Declarations

/-- The callables are declared by statements of the tree. -/
def StatedIn (nodes : List Node) (d : Declarations) : Prop :=
  ∀ x ∈ d.mixins ++ d.functions, ∃ (n : Node) (kind : CallableKind),
    n.Within nodes ∧ n.callable? kind = some x

variable {nodes level : List Node}

theorem statedIn_ofLevel (h : ∀ n ∈ level, n.Within nodes) : (ofLevel level).StatedIn nodes := by
  intro x hx
  rcases List.mem_append.mp hx with hx | hx
  · obtain ⟨n, hn, hcall⟩ := List.mem_filterMap.mp hx
    exact ⟨n, .mixin, h n hn, hcall⟩
  · obtain ⟨n, hn, hcall⟩ := List.mem_filterMap.mp hx
    exact ⟨n, .function, h n hn, hcall⟩

theorem statedIn_ofBlock {b : Node} (hb : b.Within nodes) (o : Int) :
    (ofBlock o b).StatedIn nodes := by
  have hlevel : ∀ n ∈ b.children.takeWhile fun n => decide ((n.start : Int) < o), n.Within nodes :=
    fun _ hn => hb.child ((List.takeWhile_sublist _).subset hn)
  exact statedIn_ofLevel hlevel

/-- What is visible at a cursor is declared by statements of the tree. -/
theorem statedIn_visibleAt {lo hi : Nat} (h : LaidOut lo nodes hi) (scope : Option Int) :
    (visibleAt scope nodes).StatedIn nodes := by
  have hlevel : (ofLevel nodes).StatedIn nodes := statedIn_ofLevel fun n hn => .here hn
  cases scope with
  | none => exact hlevel
  | some o =>
      have hblocks : ∀ b ∈ enclosingBlocks o nodes, (ofBlock o b).StatedIn nodes := fun b hb =>
        statedIn_ofBlock (h.mem_enclosingBlocks_iff.mp hb).1 o
      rw [visibleAt, around_eq_reverse, enclosed_eq]
      intro x hx
      simp only [append, reverse, List.mem_append, List.mem_reverse, List.mem_flatMap] at hx
      rcases hx with (⟨b, hb, hx⟩ | hx) | (⟨b, hb, hx⟩ | hx)
      · exact hblocks b hb x (List.mem_append_left _ hx)
      · exact hlevel x (List.mem_append_left _ hx)
      · exact hblocks b hb x (List.mem_append_right _ hx)
      · exact hlevel x (List.mem_append_right _ hx)

end Declarations

namespace Document.DeclaredCallables

/-- The record of statements that a text was parsed into. -/
theorem ofNodes {path t u : Text} {scope : Option Int} {sheet : Stylesheet}
    (h : parse t = .ok sheet) :
    (Document.ofNodes path u scope sheet.children).DeclaredCallables := by
  intro m hm
  simp only [Document.ofNodes, ← List.map_append] at hm
  obtain ⟨⟨name, ps, offset⟩, hx, rfl⟩ := List.mem_map.mp hm
  obtain ⟨n, kind, hn, hcall⟩ := Declarations.statedIn_visibleAt (laidOut_of_parse h) scope _ hx
  obtain ⟨params, hform, hparams⟩ := Node.form_of_callable? hcall
  exact ⟨t, sheet, n, kind, offset, params, h, hn, hform, hparams⟩

theorem empty (path : Text) : (Document.empty path).DeclaredCallables := by
  intro m hm
  cases hm

theorem of_extractStrict {path t : Text} {scope : Option Int} {d : Document}
    (h : extractStrict path t scope = .ok d) : d.DeclaredCallables := by
  unfold extractStrict at h
  split at h
  · next sheet hparse =>
    cases h
    exact ofNodes hparse
  · cases h

theorem of_extractLenient (path t : Text) (scope : Option Int) :
    (extractLenient path t scope).DeclaredCallables := by
  unfold extractLenient
  split
  · next sheet hparse => exact ofNodes hparse
  · have hnil : parse [] = .ok ⟨0, []⟩ := by cbv
    exact ofNodes hnil

theorem of_get? {s : Store} {files : Text → Text} (hfiles : s.Extracted files) {path : Text}
    {d : Document} (hd : s.get? path = some d) : d.DeclaredCallables := by
  rw [hfiles (s.key path) d hd]
  exact of_extractLenient _ _ _

theorem of_recordAt {s : Store} {files : Text → Text} (hfiles : s.Extracted files)
    (path t : Text) (cursor : Nat) : (recordAt s path t cursor).DeclaredCallables := by
  unfold recordAt
  split
  · next record hrecord => exact of_extractStrict hrecord
  · unfold recoverRecord
    extract_lets stored
    split
    · next record hrecord => exact fun m hm => of_extractStrict hrecord m hm
    · unfold stored
      cases hget : s.get? path with
      | none => exact empty path
      | some d => exact of_get? hfiles hget

end Document.DeclaredCallables

/-- **A visible mixin or function is declared by some text.** -/
theorem declaresCallable_of_lookup? {s : Store} {start : Document} {name : Text}
    {kind : SymbolKind} {f : FoundSymbol} (hkind : kind ≠ .variableSymbol)
    (hstored : ∀ path d, s.get? path = some d → d.DeclaredCallables)
    (hstart : start.DeclaredCallables) (h : (s.resolve start).lookup? name kind = some f) :
    ∃ src, DeclaresCallable src f.name f.parameters := by
  rw [lookup?_resolve s start kind name (fun hvar => absurd hvar hkind)] at h
  obtain ⟨v, hv, hf⟩ := List.mem_flatMap.mp (List.mem_of_find?_eq_some h)
  obtain ⟨⟨seen, hexplored⟩, -⟩ := explored_visits s start
  have hdocument : v.document.DeclaredCallables := by
    rcases (hexplored.chain v hv).start_or_stored with ⟨-, hstartDocument⟩ | ⟨-, hget, -⟩
    · rw [hstartDocument]
      exact hstart
    · exact hstored _ _ hget
  cases kind with
  | variableSymbol => exact absurd rfl hkind
  | mixin =>
      obtain ⟨m, hm, rfl⟩ := List.mem_map.mp hf
      exact hdocument m (List.mem_append_left _ hm)
  | function =>
      obtain ⟨m, hm, rfl⟩ := List.mem_map.mp hf
      exact hdocument m (List.mem_append_right _ hm)

/-- No call is that of a variable. -/
theorem kind_of_findCall? {t : Text} {offset : Nat} {call : Call}
    (h : findCall? t offset = some call) : call.kind ≠ .variableSymbol := by
  simp only [findCall?, Option.bind_eq_bind, Option.bind_eq_some_iff] at h
  obtain ⟨frames, -, parenthesis, -, hcallee⟩ := h
  unfold callee? at hcallee
  simp only at hcallee
  split_ifs at hcallee <;> cases hcallee <;> simp

/-- **The caret stands under the right parameter.** Take the signature of the call around a cursor.
It shows the symbol that the name of the call refers to, and where all records of the store are
those of texts, that symbol is declared by a text. If so, and if no label is empty, the column of a
parameter is the width of what stands in front: the name with its parenthesis, and the labels of the
parameters before, each with a comma and a space. It does not matter whether a label comes twice, or
is part of another one or of a default. -/
theorem parameterColumn_signatureHelp? {s : Store} {b : Buffer} {offset : Int} {h : SignatureHelp}
    (hhelp : signatureHelp? s b offset = some h) :
    ∃ call found, findCall? b.text (b.clamp offset) = some call ∧
      (b.request s offset).visible.lookup? call.name call.kind = some found ∧
      h.parameters = found.parameters.map Parameter.label ∧
      h.label = found.name ++ text "(" ++ Text.join (text ", ") h.parameters ++ text ")" ∧
      (∀ files, s.Extracted files → ∃ src, DeclaresCallable src found.name found.parameters) ∧
      ∀ src, DeclaresCallable src found.name found.parameters →
        (∀ l ∈ h.parameters, l ≠ []) → ∀ i < h.parameters.length,
          parameterColumn h.label h.parameters i
            = found.name.length + 1 + ((h.parameters.take i).map fun l => l.length + 2).sum := by
  simp only [signatureHelp?, Option.bind_eq_bind, Option.bind_eq_some_iff, Option.pure_def] at hhelp
  obtain ⟨call, hcall, found, hfound, heq⟩ := hhelp
  cases heq
  refine ⟨call, found, hcall, hfound, rfl, rfl, ?_, ?_⟩
  · intro files hfiles
    exact declaresCallable_of_lookup? (kind_of_findCall? hcall)
      (fun path d hd => .of_get? hfiles hd) (.of_recordAt hfiles _ _ _) hfound
  · intro src hsrc hne i hi
    exact parameterColumn_signatureLabel hsrc.lparen_notMem hne hsrc.head?_labels hi

/-- A buffer in which the labels of a mixin are alike: the first is the beginning of the others, and
it stands in a default, behind a parenthesis and in front of a comma. -/
def alikeBuffer : Buffer :=
  ⟨text "/a.scss", text "@mixin m($a, $a: f(\"($a,\", $b), $aa)\x7b\x7d.x\x7b@include m("⟩

theorem parameterColumn_signatureHelp?_alikeBuffer :
    let labels := [text "$a", text "$a: f(\"($a,\", $b)", text "$aa"]
    let label := text "m($a, $a: f(\"($a,\", $b), $aa)"
    signatureHelp? (Store.empty (text "/")) alikeBuffer alikeBuffer.text.length
        = some ⟨label, labels, 0⟩ ∧
      (∀ l ∈ labels, l ≠ []) ∧ parameterColumn label labels 0 = 2 ∧
      parameterColumn label labels 1 = 6 ∧ parameterColumn label labels 2 = 25 := by
  intro labels label
  have hhelp : signatureHelp? (Store.empty (text "/")) alikeBuffer alikeBuffer.text.length
      = some ⟨label, labels, 0⟩ := by decide +kernel
  have hne : ∀ l ∈ labels, l ≠ [] := by decide +kernel
  obtain ⟨call, found, -, -, -, hlabel, hdeclared, hcolumn⟩ := parameterColumn_signatureHelp? hhelp
  obtain ⟨src, hsrc⟩ := hdeclared (fun _ => []) (Store.extracted_empty _ _)
  have hname : found.name = text "m" := by
    have hm : label = text "m" ++ text "(" ++ Text.join (text ", ") labels ++ text ")" := by
      decide +kernel
    exact List.append_cancel_right (List.append_cancel_right
      (List.append_cancel_right (hlabel.symm.trans hm)))
  have hcolumns := hcolumn src hsrc hne
  rw [hname] at hcolumns
  exact ⟨hhelp, hne, (hcolumns 0 (by decide)).trans (by decide +kernel),
    (hcolumns 1 (by decide)).trans (by decide +kernel),
    (hcolumns 2 (by decide)).trans (by decide +kernel)⟩

end StyleIndex
