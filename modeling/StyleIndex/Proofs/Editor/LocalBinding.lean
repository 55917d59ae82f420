import Mathlib.Tactic
import StyleIndex.Proofs.Editor.Definition
import StyleIndex.Proofs.Symbol.Containment
import StyleIndex.Proofs.Symbol.Scope

set_option autoImplicit false

/-! # A local variable is its own definition

With the cursor in the name of a variable that is declared in a block, go to definition stays where
it is (`definition?_localBinding`), whatever else has that name: the parameters and variables of the
blocks around, the top level, or an imported file.

Three searches have to agree on the declaration. The reference under the cursor is the name of the
statement (`referenceAt?_of_word`). The block of the statement holds the cursor, so its variable is
in scope. And it is the last one of its name in scope: everything in scope begins before the cursor
(`LaidOut.vars_around_lt`), and no other variable begins between the dollar sign and the cursor,
since the bytes there are those of the name.

In front of the dollar sign the searches no longer agree (`definition?_at_dollar`): the reference is
found there too, but a statement that begins at the cursor does not begin before it.
-/

namespace StyleIndex

/-! ## The name of a variable -/

/-- **The reference in a variable** is the variable, with the cursor anywhere behind its dollar
sign. -/
theorem referenceAt?_of_word {front word back : Text} (hne : word ≠ [])
    (hword : ∀ c ∈ word, isNameByte c = true) (hback : ∀ c ∈ back.head?, isNameByte c = false)
    {o : Nat} (hlow : front.length < o) (hhigh : o ≤ front.length + (word.length + 1)) :
    referenceAt? (front ++ (Ascii.dollar :: word ++ back)) o
      = some ⟨Ascii.dollar :: word, .variableSymbol, front.length,
          front.length + (word.length + 1)⟩ := by
  -- the cursor cuts the word in two
  obtain ⟨left, right, rfl, rfl⟩ : ∃ left right, word = left ++ right ∧
      o = front.length + (left.length + 1) := by
    refine ⟨word.take (o - front.length - 1), word.drop (o - front.length - 1),
      (List.take_append_drop _ _).symm, ?_⟩
    rw [List.length_take]
    omega
  have htext : front ++ (Ascii.dollar :: (left ++ right) ++ back)
      = (front ++ Ascii.dollar :: left) ++ (right ++ back) := by simp
  have hlength : (front ++ Ascii.dollar :: left).length = front.length + (left.length + 1) := by
    simp
  have hleft : ∀ c ∈ left.reverse, isNameByte c = true := by
    intro c hc
    exact hword c (List.mem_append_left _ (List.mem_reverse.mp hc))
  have hright : ∀ c ∈ right, isNameByte c = true :=
    fun c hc => hword c (List.mem_append_right _ hc)
  have hbefore : ((front ++ Ascii.dollar :: left)).reverse
      = left.reverse ++ Ascii.dollar :: front.reverse := by simp
  have hdollar : onDollar (left.reverse ++ Ascii.dollar :: front.reverse) (right ++ back)
      = false := by
    cases right with
    | cons c right =>
        have hc : c ≠ Ascii.dollar := by
          rintro rfl
          exact absurd (hright Ascii.dollar List.mem_cons_self) (by decide)
        simp [onDollar, hc]
    | nil =>
        -- the cursor is at the end of the word
        have hlast : left.reverse ≠ [] := by simpa using hne
        obtain ⟨c, rest, hc⟩ := List.exists_cons_of_ne_nil hlast
        have hname : isNameByte c = true := hleft c (by rw [hc]; exact List.mem_cons_self)
        simp [onDollar, hc, hname]
  have hnil := takeWhile_eq_nil_of_head? hback
  rw [referenceAt?, htext, ← hlength, List.take_left, List.drop_left, hbefore]
  simp only [hdollar, Bool.false_eq_true, if_false, referenceBetween?,
    List.takeWhile_append_of_pos hleft, List.dropWhile_append_of_pos hleft,
    List.takeWhile_append_of_pos hright, hnil]
  rw [List.takeWhile_cons_of_neg (by decide), List.dropWhile_cons_of_neg (by decide)]
  simp only [List.append_nil, List.reverse_reverse, List.head?_cons, if_true,
    List.isEmpty_iff, if_neg hne, List.length_cons, List.length_reverse, List.length_append,
    Nat.add_sub_cancel, Option.some.injEq, SymbolReference.mk.injEq, true_and]
  omega

/-! ## What is in scope -/

namespace LaidOut

variable {lo hi : Nat} {n : Node} {ns : List Node}

/-- A variable ends behind its name. -/
theorem lt_stop_of_binding (h : LaidOut lo ns hi) (hn : n.Within ns) {name : Text}
    {flags : List Flag} (hform : n.form = .binding name flags) :
    n.start + name.length < n.stop := by
  obtain ⟨raw, block, hhead, hroom, -⟩ := h.exists_raw hn
  rw [Node.form, hhead] at hform
  obtain ⟨word, after, -, hraw, -, -, hafter, -⟩ := exists_word_of_binding hform
  have hlength : raw.length = name.length + after.length := by rw [hraw, List.length_append]
  have hpos := List.length_pos_of_ne_nil hafter
  omega

/-- What is in scope at an offset begins before it. -/
theorem vars_around_lt (h : LaidOut lo ns hi) {o : Nat} {v : Text × Text × Nat}
    (hv : v ∈ (Declarations.around o ns).vars) : v.2.2 < o := by
  rw [Declarations.around_eq_reverse, Declarations.enclosed_eq] at hv
  obtain ⟨b, hb, hv⟩ := List.mem_flatMap.mp (List.mem_reverse.mp hv)
  obtain ⟨hwithin, ho⟩ := h.mem_enclosingBlocks_iff.mp hb
  rcases List.mem_append.mp hv with hparam | hvar
  · cases b with
    | leaf head stop => cases ho
    | block head bodyStart children stop =>
        rw [Node.contains_block_iff] at ho
        obtain ⟨raw, isBlock, hhead, -, hbody⟩ := h.exists_raw hwithin
        have hends : Head.EndsBefore bodyStart head := ⟨raw, isBlock, hhead, hbody bodyStart rfl⟩
        have := Head.EndsBefore.parameterVariables_lt hends v hparam
        omega
  · obtain ⟨m, hm, hv⟩ := List.mem_filterMap.mp hvar
    have hlt : (m.start : Int) < o := by simpa using List.mem_takeWhile_imp hm
    unfold Node.binding? at hv
    split at hv
    · cases hv
      show m.start < o
      omega
    · cases hv

/-- A variable of a block is in scope from its dollar sign to the end of the block. -/
theorem mem_vars_around (h : LaidOut lo ns hi) {o : Nat} {block : Node} (hblock : block.Within ns)
    (ho : block.contains o = true) (hn : n ∈ block.children) (hlt : n.start < o)
    {v : Text × Text × Nat} (hv : n.binding? = some v) : v ∈ (Declarations.around o ns).vars := by
  obtain ⟨lo', hi', hchildren⟩ := h.exists_children (h.mem_allStatements_iff.mpr hblock)
  have hbefore : n ∈ block.children.filter (Node.startsBefore o) :=
    List.mem_filter.mpr ⟨hn, Node.startsBefore_iff.mpr (by omega)⟩
  rw [Declarations.around_eq_reverse, Declarations.enclosed_eq]
  refine List.mem_reverse.mpr (List.mem_flatMap.mpr ⟨block, ?_, ?_⟩)
  · exact h.mem_enclosingBlocks_iff.mpr ⟨hblock, ho⟩
  · rw [Declarations.ofBlock_eq_append hchildren]
    exact List.mem_append_right _ (List.mem_filterMap.mpr ⟨n, hbefore, hv⟩)

end LaidOut

/-! ## Definitions -/

/-- No variable begins in the word of another one. -/
theorem NameAt.eq_of_word {front word back name : Text} {k : Nat}
    (h : NameAt (front ++ (Ascii.dollar :: word ++ back)) k name)
    (hname : name.head? = some Ascii.dollar) (hword : ∀ c ∈ word, isNameByte c = true)
    (hlow : front.length ≤ k) (hhigh : k < front.length + (word.length + 1)) :
    k = front.length := by
  by_contra hne
  obtain ⟨j, rfl⟩ : ∃ j, k = front.length + (j + 1) := ⟨k - front.length - 1, by omega⟩
  obtain ⟨front', back', htext, hlen, -, -⟩ := h
  have hdollar : (front ++ (Ascii.dollar :: word ++ back))[front.length + (j + 1)]?
      = some Ascii.dollar := by
    obtain ⟨rest, rfl⟩ := eq_cons_of_head? hname
    rw [htext, ← hlen]
    simp
  rw [List.getElem?_append_right (by omega), Nat.add_sub_cancel_left, List.cons_append,
    List.getElem?_cons_succ, List.getElem?_append_left (by omega)] at hdollar
  exact absurd (hword _ (List.mem_of_getElem? hdollar)) (by decide)

/-- A lookup for a cursor finds a variable of the text before the cursor, not before one of its
name that is in scope. -/
theorem lookup?_of_mem_around {t : Text} {sheet : Stylesheet} (hparse : parse t = .ok sheet)
    (path : Text) (s : Store) {o offset : Nat} {name value : Text}
    (hname : name.head? = some Ascii.dollar)
    (hmem : (name, value, offset) ∈ (Declarations.around o sheet.children).vars) :
    ∃ f, (s.resolve (Document.ofNodes path t (some o) sheet.children)).lookup? name .variableSymbol
        = some f ∧ f.name = name ∧ f.document = path ∧ DeclaredIn t name f.offset f.position ∧
      offset ≤ f.offset ∧ f.offset < o := by
  have hlaid := laidOut_of_parse hparse
  have hsorted := (hlaid.latestFirst_around o t).found path .variableSymbol
  generalize hinner : ((Declarations.around o sheet.children).tableIn t).found path
    .variableSymbol = inner at hsorted
  have hmemInner : ∃ g ∈ inner, g.name = name ∧ g.offset = offset := by
    rw [← hinner]
    refine ⟨_, List.mem_map_of_mem (List.mem_map_of_mem hmem), rfl, rfl⟩
  obtain ⟨g, hg, hgname, hgoffset⟩ := hmemInner
  obtain ⟨f, hf⟩ : ∃ f, inner.find? (·.name = name) = some f := by
    rw [← Option.isSome_iff_exists, List.find?_isSome]
    exact ⟨g, hg, by simpa using hgname⟩
  have hlatest := isLatest_of_find? hsorted hf
  -- the symbols of the blocks are the first that the record has
  have hfind : ((Document.ofNodes path t (some o) sheet.children).symbolTable.found path
      .variableSymbol).find? (·.name = name) = some f := by
    rw [symbolTable_ofNodes, Declarations.visibleAt, Declarations.tableIn_append,
      SymbolTable.found_append, hinner, List.find?_append, hf, Option.some_or]
  have hsought : VisibleSet.soughtName .variableSymbol name = name :=
    VisibleSet.soughtName_eq fun _ => hname
  have hmemf := hlatest.mem
  rw [← hinner] at hmemf
  obtain ⟨v, hv, rfl⟩ := List.mem_map.mp hmemf
  obtain ⟨d, hd, rfl⟩ := List.mem_map.mp hv
  refine ⟨_, lookup?_of_find? hfind s hsought, hlatest.named, rfl, ?_, ?_, ?_⟩
  · have hspelt : (Document.ofNodes path t (some (o : Int)) sheet.children).SpeltIn t :=
      speltIn_ofNodes_of_parse hparse
    have hdname : d.1 = name := hlatest.named
    rw [← hdname] at hname ⊢
    exact hspelt.vars _ (List.mem_map_of_mem (List.mem_append_left _ hd)) hname
  · rw [← hgoffset]
    exact hlatest.latest g hg hgname
  · exact hlaid.vars_around_lt hd

/-- A variable of a block in the text: the block holds the cursor in its name, and the name is a
dollar sign and a word. -/
theorem exists_word_of_localBinding {t : Text} {sheet : Stylesheet} (hparse : parse t = .ok sheet)
    {block n : Node} (hblock : block.Within sheet.children) (hn : n ∈ block.children) {name : Text}
    {flags : List Flag} (hform : n.form = .binding name flags) {o : Nat} (hlow : n.start ≤ o)
    (hhigh : o ≤ n.start + name.length) :
    block.contains o = true ∧ ∃ front word back, t = front ++ (name ++ back) ∧
      front.length = n.start ∧ name = Ascii.dollar :: word ∧ word ≠ [] ∧
      (∀ c ∈ word, isNameByte c = true) ∧ ∀ c ∈ back.head?, isNameByte c = false := by
  have hlaid := laidOut_of_parse hparse
  have hroom := hlaid.lt_stop_of_binding (hblock.child hn) hform
  have hholds : block.contains o = true := by
    have hbraces := (wellNested_of_parse hparse).bracesRow hblock
    cases block with
    | leaf head stop => cases hn
    | block head bodyStart children stop =>
        obtain ⟨-, -, -, -, hrow⟩ := hbraces
        obtain ⟨hstart, -, hstop⟩ := hrow.between n hn
        rw [Node.stop] at hstop
        rw [Node.contains_block_iff]
        omega
  refine ⟨hholds, ?_⟩
  obtain ⟨b, hb⟩ := exists_derives_of_parse_eq_ok hparse
  rw [parse_eq_ok_of_derives hb] at hparse
  cases hparse
  obtain ⟨rfl, -⟩ := hb
  have hmem := hlaid.mem_enclosingBlocks_iff.mpr ⟨hblock, hholds⟩
  obtain ⟨raw, isBlock, hhead, front, back, htext, hfront, -⟩ :=
    (speltIn_of_mem_enclosingBlocks (StandsAt.whole b.text) hmem).2 n hn
  rw [Node.form, hhead] at hform
  obtain ⟨word, after, hname, hraw, hne, hword, hafter, hnext⟩ := exists_word_of_binding hform
  refine ⟨front, word, after ++ back, ?_, hfront, hname, hne, hword, ?_⟩
  · rw [htext, hraw, List.append_assoc]
  · rwa [List.head?_append_of_ne_nil _ hafter]

/-- **A local variable is its own definition.** With the cursor behind the dollar sign of a variable
that stands directly in a block, up to the end of its name, the definition is that name in the
buffer, whatever the store holds and whatever else has the name. -/
theorem definition?_localBinding {b : Buffer} {sheet : Stylesheet}
    (hparse : parse b.text = .ok sheet) {block n : Node} (hblock : block.Within sheet.children)
    (hn : n ∈ block.children) {name : Text} {flags : List Flag}
    (hform : n.form = .binding name flags) (s : Store) {o : Nat} (hlow : n.start < o)
    (hhigh : o ≤ n.start + name.length) :
    definition? s b o = some ⟨s.key b.path, ⟨(LineIndex.ofText b.text).positionAt n.start,
      (LineIndex.ofText b.text).positionAt (n.start + name.length : Nat)⟩⟩ := by
  obtain ⟨hholds, front, word, back, htext, hfront, rfl, hne, hword, hback⟩ :=
    exists_word_of_localBinding hparse hblock hn hform hlow.le hhigh
  rw [← hfront] at hlow hhigh ⊢
  have hcursor : b.clamp o = o := by
    have hlength := congrArg List.length htext
    simp only [List.length_append, List.length_cons] at hlength hhigh
    simp only [Buffer.clamp, Int.toNat_natCast]
    omega
  have hrecord : recordAt s (s.key b.path) b.text o
      = Document.ofNodes (s.key b.path) b.text (some o) sheet.children := by
    simp only [recordAt, extractStrict, hparse]
  -- the variable is in scope, and none of its name comes between it and the cursor
  have hscope : (Ascii.dollar :: word, n.head.value, n.start)
      ∈ (Declarations.around o sheet.children).vars := by
    refine (laidOut_of_parse hparse).mem_vars_around hblock hholds hn (by omega) ?_
    simp only [Node.binding?, hform]
  obtain ⟨f, hlookup, hname, hdocument, ⟨hat, hposition⟩, hle, hlt⟩ :=
    lookup?_of_mem_around hparse (s.key b.path) s rfl hscope
  have hoffset : f.offset = front.length := by
    rw [htext] at hat
    exact hat.eq_of_word rfl hword (by omega) (by simp only [List.length_cons] at hhigh; omega)
  have href : referenceAt? b.text o = some ⟨Ascii.dollar :: word, .variableSymbol, front.length,
      front.length + (word.length + 1)⟩ := by
    rw [htext]
    exact referenceAt?_of_word hne hword hback hlow hhigh
  have hsymbol : (b.request s o).symbol? = some (⟨Ascii.dollar :: word, .variableSymbol,
      front.length, front.length + (word.length + 1)⟩, f) := by
    simp only [Request.symbol?, Buffer.request, hcursor, hrecord, href, hlookup,
      Option.bind_eq_bind, Option.bind_some, Option.pure_def]
  have hplain : ∀ c ∈ Ascii.dollar :: word, ¬ IsLineBreak c :=
    IsSymbolName.not_isLineBreak ⟨[Ascii.dollar], word, rfl, Or.inr rfl, hne, hword⟩
  rw [definition?, hsymbol]
  show some (⟨f.document, rangeOfName f.position f.name⟩ : Location) = _
  rw [hdocument, hname, hposition, hat.rangeOfName_eq hplain, hoffset]

/-- A store with a file that declares the variable of the buffer below. -/
def variableStore : Store :=
  (Store.empty (text "/")).insert (extractLenient (text "/b.scss") (text "$x: 0;") none)

/-- A buffer that imports the file and declares the variable in a block of its own. -/
def localBuffer : Buffer := ⟨text "/a.scss", text "@import 'b'; c \x7b $x: 1; \x7d"⟩

/-- The variable in the block. -/
def localVariable : Node := .leaf ⟨17, .binding (text "$x") [], text "1"⟩ 23

/-- The block. -/
def localBlock : Node := .block ⟨13, .ruleset, text "c"⟩ 16 [localVariable] 25

/-- The tree of the buffer. -/
def localSheet : Stylesheet :=
  ⟨25, [.leaf ⟨0, .importing .importRule [⟨text "b", 9, false⟩], text "@import 'b'"⟩ 12,
    localBlock]⟩

theorem parse_localBuffer : parse localBuffer.text = .ok localSheet := by cbv

theorem localBlock_within : localBlock.Within localSheet.children :=
  .here (List.mem_cons_of_mem _ List.mem_cons_self)

theorem definition?_localBinding_localBuffer :
    parse localBuffer.text = .ok localSheet ∧ localBlock.Within localSheet.children ∧
      localVariable ∈ localBlock.children ∧ localVariable.form = .binding (text "$x") [] ∧
      definition? variableStore localBuffer 18 = some ⟨text "/a.scss", ⟨⟨0, 17⟩, ⟨0, 19⟩⟩⟩ := by
  have hmem : localVariable ∈ localBlock.children := List.mem_cons_self
  have hdefinition := definition?_localBinding parse_localBuffer localBlock_within hmem rfl
    variableStore (o := 18) (by decide) (by decide)
  exact ⟨parse_localBuffer, localBlock_within, hmem, rfl, hdefinition.trans (by decide +kernel)⟩

/-- **In front of its dollar sign a local variable is not its own definition**: the cursor there is
on the name as well, but the definition is the variable of the imported file. -/
theorem definition?_at_dollar :
    parse localBuffer.text = .ok localSheet ∧ localBlock.Within localSheet.children ∧
      localVariable ∈ localBlock.children ∧ localVariable.form = .binding (text "$x") [] ∧
      localVariable.start = 17 ∧
      referenceAt? localBuffer.text 17 = some ⟨text "$x", .variableSymbol, 17, 19⟩ ∧
      definition? variableStore localBuffer 17 = some ⟨text "/b.scss", ⟨⟨0, 0⟩, ⟨0, 2⟩⟩⟩ := by
  refine ⟨parse_localBuffer, localBlock_within, List.mem_cons_self, rfl, rfl, ?_, ?_⟩
  · decide +kernel
  · decide +kernel

end StyleIndex
