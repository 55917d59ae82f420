import Mathlib.Tactic
import StyleIndex.Proofs.Grammar.Placement
import StyleIndex.Proofs.Symbol.Layout

set_option autoImplicit false

/-! # Names, parameters and targets are parts of the source

What a statement records of its text is there at the recorded offset, byte for byte, and in the head
of the statement: its name, the names of its parameters, and its import targets in quotes
(`parse_spells`).

`PartAt` follows an offset through the readers. Each reader cuts its text and hands on a part with
the offset of the part, so parts compose (`PartAt.trans`). The one offset that is not counted but
searched for, that of a parameter, is that of an occurrence of the parameter, which need not be the
one that was cut out.

A statement is read from a text that stands at its start and that its head has room for
(`Node.ReadBehind`), so its parts are parts of the source within its head.
-/

namespace StyleIndex

/-! ## Parts of a text -/

/-- `u` is a part of `w`. Where `w` begins at offset `base`, `u` begins at offset `i`. -/
def PartAt (base : Nat) (w : Text) (i : Nat) (u : Text) : Prop :=
  ∃ front back, w = front ++ (u ++ back) ∧ base + front.length = i

/-- A part that does not stand directly behind a quote. -/
def PartBehind (base : Nat) (w : Text) (i : Nat) (u : Text) : Prop :=
  ∃ front back, w = front ++ (u ++ back) ∧ base + front.length = i ∧
    ∀ c ∈ front.getLast?, Ascii.isQuote c = false

namespace PartAt

variable {base i j : Nat} {u v w : Text}

theorem first (base : Nat) (u v : Text) : PartAt base (u ++ v) base u := ⟨[], v, rfl, rfl⟩

theorem suffix (base : Nat) (h : u <:+ w) : PartAt base w (base + (w.length - u.length)) u := by
  obtain ⟨front, rfl⟩ := h
  exact ⟨front, [], by simp, by simp⟩

theorem trans (hv : PartAt base w i v) (hu : PartAt i v j u) : PartAt base w j u := by
  obtain ⟨front, back, rfl, rfl⟩ := hv
  obtain ⟨front', back', rfl, rfl⟩ := hu
  exact ⟨front ++ front', back' ++ back, by simp, by simp [Nat.add_assoc]⟩

theorem bounds (h : PartAt base w i u) : base ≤ i ∧ i + u.length ≤ base + w.length := by
  obtain ⟨front, back, rfl, rfl⟩ := h
  simp only [List.length_append]
  omega

theorem slice_eq (h : PartAt 0 w i u) : w.slice i (i + u.length) = u := by
  obtain ⟨front, back, rfl, rfl⟩ := h
  rw [Text.slice, Nat.zero_add, List.drop_left, Nat.add_sub_cancel_left, List.take_left]

end PartAt

namespace PartBehind

variable {base i j : Nat} {u v w : Text}

theorem partAt (h : PartBehind base w i u) : PartAt base w i u := by
  obtain ⟨front, back, htext, hoffset, -⟩ := h
  exact ⟨front, back, htext, hoffset⟩

theorem trans (hv : PartBehind base w i v) (hu : PartBehind i v j u) : PartBehind base w j u := by
  obtain ⟨front, back, rfl, rfl, hfront⟩ := hv
  obtain ⟨front', back', rfl, rfl, hfront'⟩ := hu
  refine ⟨front ++ front', back' ++ back, by simp, by simp [Nat.add_assoc], ?_⟩
  intro c hc
  rw [List.getLast?_append, Option.mem_def, Option.or_eq_some_iff] at hc
  rcases hc with hc | ⟨-, hc⟩
  · exact hfront' c hc
  · exact hfront c hc

/-- What stands in front of the whole does not matter to a part further on. -/
theorem of_partAt (hv : PartAt base w i v) (hu : PartBehind i v j u) (hlt : i < j) :
    PartBehind base w j u := by
  obtain ⟨front, back, rfl, rfl⟩ := hv
  obtain ⟨front', back', rfl, rfl, hfront'⟩ := hu
  have hne : front' ≠ [] := by
    rintro rfl
    simp at hlt
  refine ⟨front ++ front', back' ++ back, by simp, by simp [Nat.add_assoc], ?_⟩
  rwa [List.getLast?_append_of_ne_nil front hne]

end PartBehind

/-! ## Pieces -/

/-- The pieces of a list stand where their offsets say, at the beginning of the list or behind a
comma. -/
theorem partBehind_of_mem_topLevelPieces {list : Text} {p : Piece}
    (hp : p ∈ topLevelPieces list Ascii.comma) (base : Nat) :
    PartBehind base list (base + p.offset) p.text := by
  obtain ⟨hmem, hsorted⟩ := separatorOffsets_spec Ascii.comma 0 0 list
  obtain ⟨front, back, hlist, hlength, -⟩ :=
    exists_of_mem_piecesAt (Nat.zero_le _) hmem hsorted hp
  refine ⟨front, back, hlist, by rw [hlength], ?_⟩
  intro c hc
  rcases offset_of_mem_piecesAt hp with hzero | ⟨i, hi, hoffset⟩
  · obtain rfl : front = [] := List.length_eq_zero_iff.mp (hlength.trans hzero)
    cases hc
  · obtain ⟨-, hcomma⟩ := hmem i hi
    have hindex : front.length - 1 = i := by omega
    rw [hlist, Nat.sub_zero, List.getElem?_append_left (by omega), ← hindex,
      ← List.getLast?_eq_getElem?, Option.mem_def.mp hc] at hcomma
    obtain rfl := Option.some.inj hcomma
    decide

/-- **A parameter stands at its offset.** -/
theorem partAt_of_paramOfPiece? {base : Nat} {piece : Piece} {p : Param}
    (h : paramOfPiece? base piece = some p) :
    PartAt (base + piece.offset) piece.text p.offset p.name := by
  obtain ⟨behind, htrim, -, hoffset⟩ := name_of_paramOfPiece? h
  cases hindex : Text.indexOf? (Text.trimBlank piece.text) piece.text with
  | none =>
      -- what is left of a text when it is trimmed occurs in it
      obtain ⟨lead, trail, htext, -⟩ := Text.exists_trimBlank piece.text
      refine absurd ⟨lead, trail, ?_⟩ (Text.indexOf?_eq_none hindex)
      rw [List.append_assoc]
      exact htext.symm
  | some i =>
      obtain ⟨front, back, htext, rfl, -⟩ := Text.indexOf?_eq_some hindex
      rw [hindex, Option.getD_some] at hoffset
      exact ⟨front, behind ++ back, by rw [htext, htrim, List.append_assoc], hoffset.symm⟩

/-! ## Names and parameters of at-rules -/

section AtRule

variable {v name : Text} {base nameStart : Nat}

theorem partAt_of_readCallable {kind k : CallableKind} {params : List Param}
    (h : readCallable kind v base = .callable k name nameStart params) :
    PartAt base v nameStart name ∧ ∀ p ∈ params, PartAt base v p.offset p.name := by
  refine ⟨?_, ?_⟩
  · simp only [readCallable, Form.callable.injEq] at h
    obtain ⟨-, rfl, rfl, -⟩ := h
    have hpart := PartAt.first base (v.takeWhile isNameByte) (v.dropWhile isNameByte)
    rwa [List.takeWhile_append_dropWhile] at hpart
  · intro p hp
    -- from the parenthesis to the list, to the piece
    obtain ⟨rest, inner, hrest, hinner, hmem⟩ := exists_list_of_mem_readCallable h hp
    obtain ⟨back, rfl⟩ := eq_append_of_parenthesised? hinner
    obtain ⟨piece, hpiece, hparam⟩ := List.mem_filterMap.mp hmem
    have hbehind := PartAt.suffix base ((List.suffix_cons Ascii.lparen _).trans hrest)
    have hlist := hbehind.trans (PartAt.first _ inner (Ascii.rparen :: back))
    exact (hlist.trans (partBehind_of_mem_topLevelPieces hpiece _).partAt).trans
      (partAt_of_paramOfPiece? hparam)

theorem partAt_of_readInclusion (h : readInclusion v base = .inclusion name nameStart) :
    PartAt base v nameStart name := by
  have hqualified := PartAt.first base (v.takeWhile isQualifiedByte) (v.dropWhile isQualifiedByte)
  rw [List.takeWhile_append_dropWhile] at hqualified
  rw [readInclusion] at h
  generalize v.takeWhile isQualifiedByte = qualified at hqualified h
  split at h
  · next i hi =>
    cases h
    obtain ⟨namespacePart, after, rfl, -, rfl⟩ := Text.lastByteIndex?_eq_some hi
    refine hqualified.trans ⟨namespacePart ++ [Ascii.dot], [], ?_, by simp⟩
    rw [List.append_cons, List.drop_left' (by simp), List.append_nil]
  · cases h
    exact hqualified

end AtRule

/-! ## Import targets -/

/-- Neither white space nor a name holds a quote. -/
theorem not_isQuote_of_isSpace_or {c : UInt8} (h : Ascii.isSpace c = true ∨ isNameByte c = true) :
    Ascii.isQuote c = false := by
  by_contra hquote
  rw [Bool.not_eq_false] at hquote
  rcases isQuote_iff.mp hquote with rfl | rfl
  · exact absurd h (by decide)
  · exact absurd h (by decide)

theorem Text.beforeBlank_prefix (t : Text) : Text.beforeBlank t <+: t := by
  fun_induction Text.beforeBlank t with
  | case1 => exact List.prefix_rfl
  | case2 => exact List.nil_prefix
  | case3 c rest hblank ih =>
      conv_rhs => rw [← List.take_append_drop (Utf8.step c rest).2 (c :: rest)]
      exact (List.prefix_append_right_inj _).mpr ih

/-- The first word of a text stands behind its blanks. -/
theorem Text.exists_firstWord (t : Text) :
    ∃ blanks after, t = blanks ++ (Text.firstWord t ++ after) ∧
      ∀ c ∈ blanks, c ≤ 0x20 ∨ 0x80 ≤ c := by
  obtain ⟨blanks, hblanks, hbytes, -⟩ := Text.exists_trimBlankStart t
  obtain ⟨after, hafter⟩ := Text.beforeBlank_prefix (Text.trimBlankStart t)
  refine ⟨blanks, after, ?_, hbytes⟩
  rw [Text.firstWord, hafter]
  exact hblanks

/-- A target is read from an item that begins with a quotation, with `url(`, or with something else
than a quote. -/
theorem targetOf?_cases {item : Text} {offset : Nat} {t : ImportTarget}
    (h : targetOf? item offset = some t) :
    (∃ q after, Ascii.isQuote q = true ∧ item = q :: (t.path ++ q :: after) ∧ q ∉ t.path ∧
        t.offset = offset + 1 ∧ t.url = false) ∨
      (startsWithUrl item = true ∧ t.offset = offset + 4 ∧ t.url = true) ∨
      ∃ c rest blanks after, Ascii.isQuote c = false ∧ item = c :: rest ∧
        item = blanks ++ (t.path ++ after) ∧ (∀ c ∈ blanks, c ≤ 0x20 ∨ 0x80 ≤ c) ∧
        t.offset = offset ∧ t.url = false := by
  cases item with
  | nil => cases h
  | cons c rest =>
      simp only [targetOf?] at h
      split_ifs at h with hquote hstarts hempty
      · obtain ⟨i, hi, rfl⟩ := Option.map_eq_some_iff.mp h
        obtain ⟨u, after, rfl, hu, rfl⟩ := Text.byteIndex?_eq_some hi
        exact Or.inl ⟨c, after, hquote, by simp, by simpa using hu, rfl, rfl⟩
      · obtain ⟨inner, -, rfl⟩ := Option.map_eq_some_iff.mp h
        exact Or.inr (Or.inl ⟨hstarts, rfl, rfl⟩)
      · cases h
        obtain ⟨blanks, after, hitem, hblanks⟩ := Text.exists_firstWord (c :: rest)
        exact Or.inr (Or.inr
          ⟨c, rest, blanks, after, by simpa using hquote, rfl, hitem, hblanks, rfl, rfl⟩)

/-- Every target is read from an item of the list, which is no part of a quotation. -/
theorem exists_item_of_mem_readTargets {keyword : ImportKeyword} {list : Text} {base : Nat}
    {t : ImportTarget} (h : t ∈ readTargets keyword list base) :
    ∃ item offset, PartBehind base list offset item ∧ targetOf? item offset = some t := by
  obtain ⟨piece, hpiece, htarget⟩ : ∃ piece ∈ topLevelPieces list Ascii.comma,
      targetOfPiece? base piece = some t := by
    cases keyword with
    | importRule => exact List.mem_filterMap.mp h
    | useRule =>
        obtain ⟨piece, hpiece, htarget⟩ := List.mem_filterMap.mp h
        exact ⟨piece, List.mem_of_mem_take hpiece, htarget⟩
    | forwardRule =>
        obtain ⟨piece, hpiece, htarget⟩ := List.mem_filterMap.mp h
        exact ⟨piece, List.mem_of_mem_take hpiece, htarget⟩
  refine ⟨_, _, (partBehind_of_mem_topLevelPieces hpiece base).trans ?_, htarget⟩
  -- the item stands behind the white space of its piece
  have hsplit : piece.text.takeWhile Ascii.isSpace ++ Text.trimSpaceStart piece.text = piece.text :=
    List.takeWhile_append_dropWhile
  have hlength := congrArg List.length hsplit
  rw [List.length_append] at hlength
  refine ⟨piece.text.takeWhile Ascii.isSpace, [], by rw [List.append_nil]; exact hsplit.symm,
    by omega, ?_⟩
  intro c hc
  exact not_isQuote_of_isSpace_or (Or.inl (List.mem_takeWhile_imp (List.mem_of_getLast? hc)))

/-! ## Heads -/

/-- What a statement is read as. That of an at-rule is read from what follows its keyword and the
white space behind it, where no quotation begins earlier. -/
theorem readHead_forms (start : Nat) (raw : Text) (block : Bool) :
    (∃ name flags, (readHead start raw block).form = .binding name flags) ∨
      (∃ v base, PartBehind start raw base v ∧ start < base ∧
        ((∃ kind, (readHead start raw block).form = readCallable kind v base) ∨
          (readHead start raw block).form = readInclusion v base ∨
          (∃ keyword, (readHead start raw block).form
            = .importing keyword (readTargets keyword v base)) ∨
          ∃ keyword, (readHead start raw block).form = .atRule keyword)) ∨
      (readHead start raw block).form = .ruleset ∨
      (readHead start raw block).form = .declaration := by
  rcases readHead_cases start raw block with ⟨_, word, _, flags, -, -, heq⟩ | ⟨rest, hraw, heq⟩ |
    heq | heq
  · exact Or.inl ⟨_, flags, heq⟩
  · obtain ⟨v, base, hv, hbase, hforms⟩ := readAtRule_forms rest start
    obtain ⟨trail, htrail, -⟩ := exists_trimSpaceEnd raw
    have hgap : (rest.dropWhile isNameByte).takeWhile Ascii.isSpace
        ++ Text.trimSpaceStart (rest.dropWhile isNameByte) = rest.dropWhile isNameByte :=
      List.takeWhile_append_dropWhile
    have hword : rest.takeWhile isNameByte ++ rest.dropWhile isNameByte = rest :=
      List.takeWhile_append_dropWhile
    rw [← hv] at hgap
    rw [← hgap, ← List.append_assoc] at hword
    have hlength := congrArg List.length hword
    rw [List.length_append] at hlength
    have hpart : PartBehind start raw base v := by
      refine ⟨Ascii.atSign :: (rest.takeWhile isNameByte
        ++ (rest.dropWhile isNameByte).takeWhile Ascii.isSpace), trail, ?_, ?_, ?_⟩
      · conv_lhs => rw [htrail, hraw, ← hword]
        simp only [List.cons_append, List.append_assoc]
      · rw [List.length_cons]
        omega
      · intro c hc
        rcases List.mem_cons.mp (List.mem_of_getLast? hc) with rfl | hc
        · decide
        · refine not_isQuote_of_isSpace_or ?_
          rcases List.mem_append.mp hc with hc | hc
          · exact Or.inr (List.mem_takeWhile_imp hc)
          · exact Or.inl (List.mem_takeWhile_imp hc)
    exact Or.inr (Or.inl ⟨v, base, hpart, by omega, by rwa [heq]⟩)
  · exact Or.inr (Or.inr (Or.inl heq))
  · exact Or.inr (Or.inr (Or.inr heq))

section Head

variable {start nameStart : Nat} {raw name : Text} {block : Bool}

/-- The name of a binding begins the statement. -/
theorem partAt_of_binding {flags : List Flag}
    (h : (readHead start raw block).form = .binding name flags) : PartAt start raw start name := by
  obtain ⟨word, after, -, rfl, -⟩ := exists_word_of_binding h
  exact .first start name after

/-- A mixin or function is read from what follows its keyword. -/
theorem exists_readCallable_eq {kind : CallableKind} {params : List Param}
    (h : (readHead start raw block).form = .callable kind name nameStart params) :
    ∃ kind' v base, PartBehind start raw base v ∧
      readCallable kind' v base = .callable kind name nameStart params := by
  rcases readHead_forms start raw block with ⟨_, _, heq⟩ |
    ⟨v, base, hv, -, ⟨kind', heq⟩ | heq | ⟨_, heq⟩ | ⟨_, heq⟩⟩ | heq | heq <;> rw [h] at heq
  · cases heq
  · exact ⟨kind', v, base, hv, heq.symm⟩
  · rw [readInclusion] at heq
    split at heq <;> cases heq
  all_goals cases heq

theorem partAt_of_callable {kind : CallableKind} {params : List Param}
    (h : (readHead start raw block).form = .callable kind name nameStart params) :
    PartAt start raw nameStart name ∧ (∀ p ∈ params, PartAt start raw p.offset p.name) ∧
      params.Pairwise fun p q => p.offset < q.offset := by
  obtain ⟨kind', v, base, hv, hread⟩ := exists_readCallable_eq h
  obtain ⟨hname, hparams⟩ := partAt_of_readCallable hread
  exact ⟨hv.partAt.trans hname, fun p hp => hv.partAt.trans (hparams p hp),
    pairwise_params_readCallable hread⟩

theorem partAt_of_inclusion (h : (readHead start raw block).form = .inclusion name nameStart) :
    PartAt start raw nameStart name := by
  rcases readHead_forms start raw block with ⟨_, _, heq⟩ |
    ⟨v, base, hv, -, ⟨_, heq⟩ | heq | ⟨_, heq⟩ | ⟨_, heq⟩⟩ | heq | heq <;> rw [h] at heq
  · cases heq
  · simp [readCallable] at heq
  · exact hv.partAt.trans (partAt_of_readInclusion heq.symm)
  all_goals cases heq

/-- The item a target is read from is part of the statement, behind its keyword. -/
theorem exists_item_of_importing {keyword : ImportKeyword} {targets : List ImportTarget}
    {t : ImportTarget} (h : (readHead start raw block).form = .importing keyword targets)
    (ht : t ∈ targets) :
    ∃ item offset, PartBehind start raw offset item ∧ start < offset ∧
      targetOf? item offset = some t := by
  rcases readHead_forms start raw block with ⟨_, _, heq⟩ |
    ⟨v, base, hv, hlt, ⟨_, heq⟩ | heq | ⟨_, heq⟩ | ⟨_, heq⟩⟩ | heq | heq <;> rw [h] at heq
  · cases heq
  · simp [readCallable] at heq
  · rw [readInclusion] at heq
    split at heq <;> cases heq
  · obtain ⟨rfl, rfl⟩ := Form.importing.inj heq
    obtain ⟨item, offset, hitem, htarget⟩ := exists_item_of_mem_readTargets ht
    exact ⟨item, offset, hv.trans hitem, hlt.trans_le hitem.partAt.bounds.1, htarget⟩
  all_goals cases heq

end Head

/-! ## Spans of the source -/

/-- In the text `src`, the statement spells `u` at an offset within its head. -/
structure Node.Spells (n : Node) (src : Text) (offset : Nat) (u : Text) : Prop where
  start_le : n.start ≤ offset
  le_headStop : offset + u.length ≤ n.headStop
  slice_eq : src.slice offset (offset + u.length) = u

namespace ImportTarget

variable {t : ImportTarget} {n : Node} {src raw after : Text} {offset : Nat}

/-- The target stands between two quotes that are the same, and holds none of these. -/
def Quoted (t : ImportTarget) (src : Text) : Prop :=
  ∃ q, Ascii.isQuote q = true ∧ 0 < t.offset ∧ src[t.offset - 1]? = some q ∧
    src[t.offset + t.path.length]? = some q ∧ q ∉ t.path

/-- The target stands at its offset, blanks apart, where no quote is nor directly in front. -/
def Unquoted (t : ImportTarget) (n : Node) (src : Text) : Prop :=
  0 < t.offset ∧ (∃ c, src[t.offset - 1]? = some c ∧ Ascii.isQuote c = false) ∧
    (∃ c, src[t.offset]? = some c ∧ Ascii.isQuote c = false) ∧
    ∃ blanks, (∀ c ∈ blanks, c ≤ 0x20 ∨ 0x80 ≤ c) ∧ n.Spells src t.offset (blanks ++ t.path)

/-- In front of the offset stands `url(`, in any case. -/
def BehindUrl (t : ImportTarget) (n : Node) (src : Text) : Prop :=
  ∃ item, startsWithUrl item = true ∧ 4 ≤ t.offset ∧ n.Spells src (t.offset - 4) item

/-- A quotation has its text between the quotes. -/
theorem quoted_of_partAt {q : UInt8} (hitem : PartAt 0 src offset (q :: (t.path ++ q :: after)))
    (hq : Ascii.isQuote q = true) (hnot : q ∉ t.path) (hoffset : t.offset = offset + 1) :
    t.Quoted src := by
  obtain ⟨front, back, rfl, rfl⟩ := hitem
  refine ⟨q, hq, by omega, by simp [hoffset], ?_, hnot⟩
  have hlength : t.offset + t.path.length = (front ++ q :: t.path).length := by
    simp [hoffset]
    omega
  rw [hlength, List.getElem?_eq_some_iff]
  simp

/-- The bytes where an item begins that is no part of a quotation. -/
theorem exists_bytes_of_partBehind {c : UInt8} (hitem : PartBehind 0 src offset (c :: after))
    (hoffset : 0 < offset) :
    (∃ b, src[offset - 1]? = some b ∧ Ascii.isQuote b = false) ∧ src[offset]? = some c := by
  obtain ⟨front, back, rfl, hlength, hfront⟩ := hitem
  rw [Nat.zero_add] at hlength
  rw [← hlength] at hoffset
  have hne : front ≠ [] := List.length_pos_iff.mp hoffset
  have hlast := List.getLast?_eq_some_getLast hne
  refine ⟨⟨front.getLast hne, ?_, hfront _ hlast⟩, ?_⟩
  · rw [← hlength, List.getElem?_append_left (by omega), ← List.getLast?_eq_getElem?, hlast]
  · rw [← hlength, List.getElem?_append_right le_rfl, Nat.sub_self]
    rfl

end ImportTarget

/-- **A statement of a parsed text is read from a part of it.** -/
theorem exists_text_of_parse {src : Text} {sheet : Stylesheet} {n : Node}
    (h : parse src = .ok sheet) (hn : n.Within sheet.children) :
    ∃ raw block, n.head = readHead n.start raw block ∧ PartAt 0 src n.start raw ∧
      n.start + raw.length ≤ n.headStop := by
  obtain ⟨before, ps, rest, hread⟩ := exists_readBehind h hn
  have hstart := hread.start_eq
  obtain ⟨block, hhead⟩ := hread.head
  rw [Nat.zero_add, ← hstart] at hhead
  refine ⟨ps.text, block, hhead, ⟨Token.spelling before, rest, hread.cut.text, ?_⟩, hread.room⟩
  rw [Nat.zero_add, hstart]

namespace Node

variable {n : Node} {src raw u : Text} {offset : Nat}

/-- A part of the text that a statement is read from is spelt within its head. -/
theorem spells_of_partAt (hraw : PartAt 0 src n.start raw)
    (hroom : n.start + raw.length ≤ n.headStop) (h : PartAt n.start raw offset u) :
    n.Spells src offset u := by
  obtain ⟨hlow, hhigh⟩ := h.bounds
  exact ⟨hlow, hhigh.trans hroom, (hraw.trans h).slice_eq⟩

/-- **The name of a statement is spelt at its offset.** -/
theorem partAt_nameStart {start : Nat} {raw : Text} {block : Bool}
    (hhead : n.head = readHead start raw block)
    (hkind : n.form.kind ∈ [NodeKind.binding, .mixin, .function, .inclusion]) :
    PartAt start raw n.head.nameStart n.form.name := by
  have hstart : n.head.start = start := by rw [hhead, start_readHead]
  have hform : n.form = (readHead start raw block).form := by rw [form, hhead]
  rw [Head.nameStart, ← form]
  cases hn : n.form with
  | binding name flags =>
      simp only [hstart]
      exact partAt_of_binding (hform.symm.trans hn)
  | callable kind name nameStart params =>
      exact (partAt_of_callable (hform.symm.trans hn)).1
  | inclusion name nameStart => exact partAt_of_inclusion (hform.symm.trans hn)
  | _ =>
      rw [hn] at hkind
      simp [Form.kind] at hkind

end Node

/-- **Names, parameters and quoted targets are parts of the source.** In a parsed text, a binding, a
mixin, a function and an inclusion spell their name at its offset, within their head, which ends
where their block begins and else with the statement. So does a mixin or a function each of its
parameters, and their offsets increase. A target of an import statement that is not written as
`url(…)` stands between quotes, and is spelt at its offset in the head of the statement; or it is a
word, with no quote at its offset nor in front. A word may have blanks in front that are no white
space of a stylesheet, such as a no-break space. -/
theorem parse_spells {src : Text} {sheet : Stylesheet} (h : parse src = .ok sheet) {n : Node}
    (hn : n.Within sheet.children) :
    (n.form.kind ∈ [NodeKind.binding, .mixin, .function, .inclusion] →
        n.Spells src n.head.nameStart n.form.name) ∧
      (∀ kind name nameStart params, n.form = .callable kind name nameStart params →
        (∀ p ∈ params, n.Spells src p.offset p.name) ∧
          params.Pairwise fun p q => p.offset < q.offset) ∧
      ∀ keyword targets, n.form = .importing keyword targets → ∀ t ∈ targets,
        (t.url = true → t.BehindUrl n src) ∧
          (t.url = false →
            t.Quoted src ∧ n.Spells src t.offset t.path ∨ t.Unquoted n src) := by
  obtain ⟨raw, block, hhead, hraw, hroom⟩ := exists_text_of_parse h hn
  have hform : n.form = (readHead n.start raw block).form := by rw [Node.form, ← hhead]
  have hspells : ∀ {offset : Nat} {u : Text}, PartAt n.start raw offset u →
      n.Spells src offset u := fun hu => Node.spells_of_partAt hraw hroom hu
  refine ⟨?_, ?_, ?_⟩
  · intro hkind
    exact hspells (Node.partAt_nameStart hhead hkind)
  · intro kind name nameStart params hcall
    obtain ⟨-, hparams, hoffsets⟩ := partAt_of_callable (hform.symm.trans hcall)
    exact ⟨fun p hp => hspells (hparams p hp), hoffsets⟩
  · intro keyword targets himport t ht
    obtain ⟨item, offset, hitem, hlt, htarget⟩ :=
      exists_item_of_importing (hform.symm.trans himport) ht
    rcases targetOf?_cases htarget with ⟨q, after, hq, rfl, hnot, hoffset, hurl⟩ |
      ⟨hstarts, hoffset, hurl⟩ | ⟨c, rest, blanks, after, hc, hfirst, hword, hblanks, rfl, hurl⟩
    · -- a quotation
      refine ⟨by simp [hurl], fun _ => Or.inl ⟨?_, ?_⟩⟩
      · exact ImportTarget.quoted_of_partAt (hraw.trans hitem.partAt) hq hnot hoffset
      · exact hspells (hitem.partAt.trans ⟨[q], q :: after, rfl, hoffset.symm⟩)
    · -- `url(…)`
      refine ⟨fun _ => ⟨item, hstarts, by omega, ?_⟩, by simp [hurl]⟩
      rw [hoffset, Nat.add_sub_cancel]
      exact hspells hitem.partAt
    · -- a word
      refine ⟨by simp [hurl], fun _ => Or.inr ?_⟩
      have hpositive : 0 < t.offset := Nat.zero_lt_of_lt hlt
      have hbehind := PartBehind.of_partAt hraw hitem hlt
      rw [hfirst] at hbehind
      obtain ⟨hbefore, hat⟩ := ImportTarget.exists_bytes_of_partBehind hbehind hpositive
      refine ⟨hpositive, hbefore, ⟨c, hat, hc⟩, blanks, hblanks, hspells ?_⟩
      rw [hword, ← List.append_assoc] at hitem
      exact hitem.partAt.trans (PartAt.first t.offset (blanks ++ t.path) after)

def spannedText : Text :=
  text "@mixin m(\t $x: (1, 2), $y)\x7b@include n.k\x7d@import 'a',\"b\";"

/-- White space in front of a parameter, a comma in a value, a qualified name. -/
theorem parse_spells_spannedText :
    let inclusion : Node := .leaf ⟨27, .inclusion (text "k") 38, text "@include n.k"⟩ 39
    let params : List Param := [⟨text "$x", text "(1, 2)", 11⟩, ⟨text "$y", [], 23⟩]
    let mixin : Node :=
      .block ⟨0, .callable .mixin (text "m") 7 params, text "@mixin m(\t $x: (1, 2), $y)"⟩ 27
        [inclusion] 40
    let targets : List ImportTarget := [⟨text "a", 49, false⟩, ⟨text "b", 53, false⟩]
    let imports : Node :=
      .leaf ⟨40, .importing .importRule targets, text "@import 'a',\"b\""⟩ 56
    parse spannedText = .ok ⟨56, [mixin, imports]⟩ ∧
      mixin.Spells spannedText 7 (text "m") ∧ inclusion.Spells spannedText 38 (text "k") ∧
      (∀ p ∈ params, mixin.Spells spannedText p.offset p.name) ∧
      ∀ t ∈ targets, t.Quoted spannedText ∧ imports.Spells spannedText t.offset t.path := by
  intro inclusion params mixin targets imports
  have hparse : parse spannedText = .ok ⟨56, [mixin, imports]⟩ := by cbv
  have hmixin : mixin.Within [mixin, imports] := .here (by simp)
  have hinclusion : inclusion.Within [mixin, imports] :=
    .inside List.mem_cons_self (.here List.mem_cons_self)
  have himports : imports.Within [mixin, imports] := .here (by simp)
  obtain ⟨hname, hparams, -⟩ := parse_spells hparse hmixin
  obtain ⟨hincluded, -⟩ := parse_spells hparse hinclusion
  refine ⟨hparse, hname (by simp [mixin, Node.form, Node.head, Form.kind]),
    hincluded (by simp [inclusion, Node.form, Node.head, Form.kind]),
    (hparams _ _ _ _ rfl).1, ?_⟩
  intro t ht
  have hurl : t.url = false ∧ spannedText[t.offset - 1]?.any Ascii.isQuote = true := by
    revert t
    decide
  refine (((parse_spells hparse himports).2.2 _ _ rfl t ht).2 hurl.1).resolve_right ?_
  rintro ⟨-, ⟨c, hc, hquote⟩, -⟩
  simp [hc, hquote] at hurl

end StyleIndex
