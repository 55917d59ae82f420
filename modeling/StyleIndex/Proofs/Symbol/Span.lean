import Mathlib.Tactic
import StyleIndex.Proofs.Text.Position
import StyleIndex.Proofs.Text.Search
import StyleIndex.Stylesheet.Statement

set_option autoImplicit false

/-! # Where the names of a statement stand

A statement records the offsets of the names it declares. This file compares these offsets with
the text the statement was read from: the name of a variable stands at the start of the
statement, the name of a mixin or function at `nameStart`, and a parameter that is a variable at
its own offset.

A part of a text is traced by `StandsAt t base u`: `u` stands at offset `base` of `t`, and no
character reaches from `u` into what follows. Each scanner cuts its argument into two, and
`StandsAt.left` and `StandsAt.right` follow the cut.
-/

namespace StyleIndex

/-! ## Parts of a text -/

/-- `u` stands at offset `base` of `t`, and a character starts behind it. -/
def StandsAt (t : Text) (base : Nat) (u : Text) : Prop :=
  ∃ front back, t = front ++ (u ++ back) ∧ front.length = base ∧ Utf8.StartsFresh back

namespace StandsAt

theorem whole (t : Text) : StandsAt t 0 t := ⟨[], [], by simp, rfl, Utf8.startsFresh_nil⟩

theorem left {t u v : Text} {base : Nat} (h : StandsAt t base (u ++ v))
    (hv : Utf8.StartsFresh v) : StandsAt t base u := by
  obtain ⟨front, back, rfl, hlen, hback⟩ := h
  exact ⟨front, v ++ back, by simp, hlen, hv.append hback⟩

theorem right {t u v : Text} {base : Nat} (h : StandsAt t base (u ++ v)) :
    StandsAt t (base + u.length) v := by
  obtain ⟨front, back, rfl, rfl, hback⟩ := h
  exact ⟨front ++ u, back, by simp, by simp, hback⟩

theorem tail {t u : Text} {c : UInt8} {base : Nat} (h : StandsAt t base (c :: u)) :
    StandsAt t (base + 1) u := right (u := [c]) h

/-- A variable is a name wherever it stands. -/
theorem nameAt_of_dollar {t name : Text} {base : Nat} (h : StandsAt t base name)
    (hname : name.head? = some Ascii.dollar) : NameAt t base name := by
  obtain ⟨front, back, rfl, hlen, hback⟩ := h
  refine ⟨front, back, rfl, hlen, Or.inr (Or.inr ?_), Or.inr (Or.inr hback)⟩
  cases name with
  | nil => cases hname
  | cons c name =>
      cases hname
      exact Utf8.startsFresh_cons (by decide) _

/-- What follows an ASCII byte is a name. -/
theorem nameAt_of_last {t u name : Text} {base : Nat} (h : StandsAt t base (u ++ name))
    (hlast : ∃ c ∈ u.getLast?, c < 0x80) : NameAt t (base + u.length) name := by
  obtain ⟨front, back, rfl, rfl, hback⟩ := h
  obtain ⟨c, hc, hlt⟩ := hlast
  refine ⟨front ++ u, back, by simp, by simp, Or.inr (Or.inl ⟨c, ?_, hlt⟩), Or.inr (Or.inr hback)⟩
  rw [List.getLast?_append, Option.mem_def.mp hc]
  rfl

end StandsAt

/-! ## Fresh starts -/

theorem startsFresh_of_head? {t : Text} {c : UInt8} (h : t.head? = some c) (hc : c < 0x80) :
    Utf8.StartsFresh t := by
  intro d hd
  rw [Option.mem_def, h] at hd
  cases hd
  exact Utf8.isContinuation_of_lt hc

theorem isNameByte_of_isContinuation {c : UInt8} (h : Utf8.isContinuation c = true) :
    isNameByte c = true := by
  simp only [Utf8.isContinuation, Bool.and_eq_true] at h
  simp [isNameByte, h.1]

theorem startsFresh_of_not_isNameByte {t : Text}
    (h : ∀ c ∈ t.head?, isNameByte c = false) : Utf8.StartsFresh t := by
  intro c hc
  by_contra hcont
  have hname := isNameByte_of_isContinuation (by simpa using hcont)
  rw [h c hc] at hname
  cases hname

/-- What follows a name starts with no byte of a name. -/
theorem not_isNameByte_of_dropWhile (t : Text) :
    ∀ c ∈ (t.dropWhile isNameByte).head?, isNameByte c = false := by
  intro c hc
  have hnot := List.head?_dropWhile_not isNameByte t
  rw [Option.mem_def.mp hc] at hnot
  simpa using hnot

theorem startsFresh_dropWhile (t : Text) : Utf8.StartsFresh (t.dropWhile isNameByte) :=
  startsFresh_of_not_isNameByte (not_isNameByte_of_dropWhile t)

theorem lt_of_isSpace {c : UInt8} (h : Ascii.isSpace c = true) : c < 0x80 := by
  simp only [Ascii.isSpace, Bool.or_eq_true, beq_iff_eq] at h
  rcases h with (((rfl | rfl) | rfl) | rfl) | rfl <;> decide

/-- The white space at the end of a text can be put back. -/
theorem exists_trimSpaceEnd (t : Text) :
    ∃ trail, t = Text.trimSpaceEnd t ++ trail ∧ Utf8.StartsFresh trail := by
  refine ⟨(t.reverse.takeWhile Ascii.isSpace).reverse, ?_, ?_⟩
  · rw [Text.trimSpaceEnd, Text.trimEndWhile, ← List.reverse_append,
      List.takeWhile_append_dropWhile, List.reverse_reverse]
  · intro c hc
    have hmem : c ∈ t.reverse.takeWhile Ascii.isSpace :=
      List.mem_reverse.mp (List.mem_of_mem_head? hc)
    exact Utf8.isContinuation_of_lt (lt_of_isSpace (List.mem_takeWhile_imp hmem))

/-! ## Pieces -/

theorem getElem?_of_drop {sep c : UInt8} {rest : Text} {pos n i : Nat}
    (h : pos + 1 + n ≤ i ∧ (rest.drop n)[i - (pos + 1 + n)]? = some sep) :
    pos ≤ i ∧ (c :: rest)[i - pos]? = some sep := by
  obtain ⟨hle, hsep⟩ := h
  have hindex : i - pos = n + (i - (pos + 1 + n)) + 1 := by omega
  rw [List.getElem?_drop] at hsep
  rw [hindex, List.getElem?_cons_succ]
  exact ⟨by omega, hsep⟩

/-- A separator stands at each offset that is found, and the offsets increase. -/
theorem separatorOffsets_spec (sep : UInt8) (depth : Int) (pos : Nat) (t : Text) :
    (∀ i ∈ separatorOffsets sep depth pos t, pos ≤ i ∧ t[i - pos]? = some sep) ∧
      (separatorOffsets sep depth pos t).Pairwise (· < ·) := by
  fun_induction separatorOffsets sep depth pos t with
  | case1 => simp
  | case2 depth pos c rest hq n ih =>
      exact ⟨fun i hi => getElem?_of_drop (ih.1 i hi), ih.2⟩
  | case3 depth pos c rest hq ho ih =>
      exact ⟨fun i hi => getElem?_of_drop (n := 0) (ih.1 i hi), ih.2⟩
  | case4 depth pos c rest hq ho hc ih =>
      exact ⟨fun i hi => getElem?_of_drop (n := 0) (ih.1 i hi), ih.2⟩
  | case5 depth pos c rest hq ho hc h ih =>
      -- the only case that finds a separator
      refine ⟨?_, List.pairwise_cons.mpr ⟨?_, ih.2⟩⟩
      · intro i hi
        rcases List.mem_cons.mp hi with rfl | hi
        · simp [h.1]
        · exact getElem?_of_drop (n := 0) (ih.1 i hi)
      · intro i hi
        exact (ih.1 i hi).1
  | case6 depth pos c rest hq ho hc h ih =>
      exact ⟨fun i hi => getElem?_of_drop (n := 0) (ih.1 i hi), ih.2⟩

theorem slice_split {t : Text} {start i : Nat} {sep : UInt8} (hle : start ≤ i)
    (hsep : t[i]? = some sep) :
    t = t.take start ++ (t.slice start i ++ t.drop i) ∧ (t.drop i).head? = some sep := by
  constructor
  · have hdrop : t.drop i = (t.drop start).drop (i - start) := by
      rw [List.drop_drop, Nat.add_sub_cancel' hle]
    rw [Text.slice, hdrop, List.take_append_drop, List.take_append_drop]
  · rw [List.head?_drop, hsep]

/-- A piece stands at its offset, and a separator or the end of the text follows it. -/
theorem exists_of_mem_piecesAt {t : Text} {sep : UInt8} {p : Piece} {is : List Nat} :
    ∀ {start : Nat}, start ≤ t.length → (∀ i ∈ is, start ≤ i ∧ t[i]? = some sep) →
      is.Pairwise (· < ·) → p ∈ piecesAt t start is →
      ∃ front back, t = front ++ (p.text ++ back) ∧ front.length = p.offset ∧
        (back = [] ∨ back.head? = some sep) := by
  induction is with
  | nil =>
      intro start hstart _ _ hp
      obtain rfl := List.mem_singleton.mp hp
      exact ⟨t.take start, [], by simp, by simp [hstart], Or.inl rfl⟩
  | cons i is ih =>
      intro start hstart hsep hsorted hp
      obtain ⟨hle, hi⟩ := hsep i List.mem_cons_self
      rcases List.mem_cons.mp hp with rfl | hp
      · obtain ⟨hsplit, hhead⟩ := slice_split hle hi
        exact ⟨t.take start, t.drop i, hsplit, by simp [hstart], Or.inr hhead⟩
      · obtain ⟨hlt, hsorted⟩ := List.pairwise_cons.mp hsorted
        refine ih ?_ ?_ hsorted hp
        · exact (List.getElem?_eq_some_iff.mp hi).1
        · intro j hj
          exact ⟨hlt j hj, (hsep j (List.mem_cons_of_mem _ hj)).2⟩

/-- A piece begins where the text does or behind a separator. -/
theorem offset_of_mem_piecesAt {t : Text} {p : Piece} {is : List Nat} :
    ∀ {start : Nat}, p ∈ piecesAt t start is → p.offset = start ∨ ∃ i ∈ is, p.offset = i + 1 := by
  induction is with
  | nil =>
      intro start hp
      obtain rfl := List.mem_singleton.mp hp
      exact Or.inl rfl
  | cons i is ih =>
      intro start hp
      rcases List.mem_cons.mp hp with rfl | hp
      · exact Or.inl rfl
      · rcases ih hp with hfirst | ⟨j, hj, hlater⟩
        · exact Or.inr ⟨i, List.mem_cons_self, hfirst⟩
        · exact Or.inr ⟨j, List.mem_cons_of_mem _ hj, hlater⟩

/-- The pieces of a list stand where their offsets say. -/
theorem StandsAt.piece {t list : Text} {base : Nat} {sep : UInt8} {p : Piece}
    (h : StandsAt t base list) (hsep : sep < 0x80) (hp : p ∈ topLevelPieces list sep) :
    StandsAt t (base + p.offset) p.text := by
  obtain ⟨hmem, hsorted⟩ := separatorOffsets_spec sep 0 0 list
  obtain ⟨front, back, hlist, hlen, hback⟩ :=
    exists_of_mem_piecesAt (Nat.zero_le _) hmem hsorted hp
  rw [hlist] at h
  rw [← hlen]
  refine h.right.left ?_
  rcases hback with rfl | hhead
  · exact Utf8.startsFresh_nil
  · exact startsFresh_of_head? hhead hsep

/-- A text is cut at its first separator. -/
theorem eq_append_of_splitTopLevel? {t a b : Text} {sep : UInt8}
    (h : splitTopLevel? t sep = some (a, b)) : t = a ++ sep :: b := by
  obtain ⟨i, hi, hab⟩ := Option.map_eq_some_iff.mp h
  obtain ⟨rfl, rfl⟩ := Prod.mk.inj hab
  obtain ⟨-, hsep⟩ := (separatorOffsets_spec sep 0 0 t).1 i (List.mem_of_mem_head? hi)
  obtain ⟨hlt, hget⟩ := List.getElem?_eq_some_iff.mp hsep
  have hget' : t[i] = sep := hget
  rw [← hget', List.getElem_cons_drop, List.take_append_drop]

/-- A closing parenthesis stands where one is found. -/
theorem getElem?_of_closingParen? (depth : Nat) (t : Text) :
    ∀ i, closingParen? depth t = some i → t[i]? = some Ascii.rparen := by
  fun_induction closingParen? depth t with
  | case1 =>
      intro i h
      cases h
  | case2 depth c rest hq n ih =>
      intro i h
      obtain ⟨j, hj, rfl⟩ := Option.map_eq_some_iff.mp h
      have hget := ih j hj
      rw [List.getElem?_drop] at hget
      have hindex : j + (n + 1) = n + j + 1 := by omega
      rw [hindex, List.getElem?_cons_succ]
      exact hget
  | case3 depth rest hq ih =>
      intro i h
      obtain ⟨j, hj, rfl⟩ := Option.map_eq_some_iff.mp h
      exact ih j hj
  | case4 rest hq hl =>
      intro i h
      cases h
      rfl
  | case5 depth rest hq hl h1 ih =>
      intro i h
      obtain ⟨j, hj, rfl⟩ := Option.map_eq_some_iff.mp h
      exact ih j hj
  | case6 depth c rest hq hl hr ih =>
      intro i h
      obtain ⟨j, hj, rfl⟩ := Option.map_eq_some_iff.mp h
      exact ih j hj

/-- A list in parentheses is followed by the closing one. -/
theorem eq_append_of_parenthesised? {t inner : Text} (h : parenthesised? t = some inner) :
    ∃ back, t = inner ++ Ascii.rparen :: back := by
  obtain ⟨i, hi, rfl⟩ := Option.map_eq_some_iff.mp h
  obtain ⟨hlt, hget⟩ := List.getElem?_eq_some_iff.mp (getElem?_of_closingParen? 1 t i hi)
  refine ⟨t.drop (i + 1), ?_⟩
  rw [← hget, List.getElem_cons_drop, List.take_append_drop]

/-! ## Parameters -/

/-- The part of a trimmed text before an ASCII separator has no blanks in front. -/
theorem trimBlankStart_of_append {u v : Text} {sep : UInt8} (hsep : sep < 0x80)
    (h : ∀ c rest, u ++ sep :: v = c :: rest → (Utf8.step c rest).1.isBlank = false) :
    Text.trimBlankStart u = u := by
  cases u with
  | nil => rw [Text.trimBlankStart]
  | cons c u =>
      have hblank := h c (u ++ sep :: v) rfl
      have hfresh := Utf8.startsFresh_cons (Utf8.isContinuation_of_lt hsep) v
      rw [Utf8.step_append (Or.inr (Or.inr hfresh))] at hblank
      exact Text.trimBlankStart_of_not_isBlank hblank

/-- Of the part of a trimmed text before an ASCII separator, trimming takes off only the blanks in
front of the separator. -/
theorem exists_gap_of_append {u v : Text} {sep : UInt8} (hsep : sep < 0x80)
    (h : ∀ c rest, u ++ sep :: v = c :: rest → (Utf8.step c rest).1.isBlank = false) :
    ∃ gap, u = Text.trimBlank u ++ gap ∧ Utf8.StartsFresh gap := by
  obtain ⟨gap, hgap, hfresh, -⟩ := Text.exists_trimBlankEnd u
  refine ⟨gap, ?_, hfresh⟩
  rw [Text.trimBlank, trimBlankStart_of_append hsep h]
  exact hgap

/-- The name of a parameter begins its piece, blanks apart. The offset of the parameter is searched
for: it is that of an occurrence of all that is left of the piece. -/
theorem name_of_paramOfPiece? {base : Nat} {piece : Piece} {p : Param}
    (h : paramOfPiece? base piece = some p) :
    ∃ behind, Text.trimBlank piece.text = p.name ++ behind ∧ Utf8.StartsFresh behind ∧
      p.offset = base + piece.offset
        + (Text.indexOf? (Text.trimBlank piece.text) piece.text).getD 0 := by
  obtain ⟨lead, trail, -, -, -, -, hblank⟩ := Text.exists_trimBlank piece.text
  rw [paramOfPiece?] at h
  generalize Text.trimBlank piece.text = trimmed at hblank h ⊢
  simp only at h
  split_ifs at h
  cases hsplit : splitTopLevel? trimmed Ascii.colon with
  | none =>
      simp only [hsplit] at h
      cases h
      exact ⟨[], (List.append_nil _).symm, Utf8.startsFresh_nil, rfl⟩
  | some ab =>
      obtain ⟨a, b⟩ := ab
      simp only [hsplit] at h
      cases h
      -- the name is the front of the trimmed text, less the blanks in front of the colon
      have hab := eq_append_of_splitTopLevel? hsplit
      obtain ⟨gap, hgap, hfresh⟩ :=
        exists_gap_of_append (v := b) (by decide) (fun c rest heq => hblank c rest (hab.trans heq))
      refine ⟨gap ++ Ascii.colon :: b, ?_, hfresh.append (Utf8.startsFresh_cons (by decide) b), rfl⟩
      rw [← List.append_assoc, ← hgap]
      exact hab

/-- **A parameter that is a variable stands at its offset.** -/
theorem StandsAt.param {t : Text} {base : Nat} {piece : Piece} {p : Param}
    (h : StandsAt t (base + piece.offset) piece.text) (hp : paramOfPiece? base piece = some p)
    (hname : p.name.head? = some Ascii.dollar) : NameAt t p.offset p.name := by
  obtain ⟨behind, htrim, hbehind, hoffset⟩ := name_of_paramOfPiece? hp
  obtain ⟨lead, trail, htext, hbytes, hfresh, -, -⟩ := Text.exists_trimBlank piece.text
  rw [htrim] at htext hoffset
  -- the search stops behind the blanks, for none of them holds the dollar sign of the name
  have hdollar : Ascii.dollar ∉ lead := fun hmem => absurd (hbytes _ hmem) (by decide)
  have hhead : (p.name ++ behind).head? = some Ascii.dollar := by
    rw [List.head?_append, hname]
    rfl
  rw [htext, Text.indexOf?_of_head? hhead hdollar, Option.getD_some] at hoffset
  rw [htext] at h
  rw [hoffset]
  exact ((h.right.left hfresh).left hbehind).nameAt_of_dollar hname

/-! ## Heads -/

theorem StandsAt.suffix {t u v : Text} {base : Nat} (h : StandsAt t base u) (hv : v <:+ u) :
    StandsAt t (base + (u.length - v.length)) v := by
  obtain ⟨x, rfl⟩ := hv
  rw [List.length_append, Nat.add_sub_cancel]
  exact h.right

theorem eq_takeWhile_of_splitBinding? {t u v : Text} (h : splitBinding? t = some (u, v)) :
    u = t.takeWhile isNameByte := by
  unfold splitBinding? at h
  simp only at h
  split at h
  · split_ifs at h
    cases h
    rfl
  · cases h

/-- The statements that declare something start with a dollar sign or an at sign. -/
theorem readHead_cases (start : Nat) (raw : Text) (block : Bool) :
    (∃ rest u v flags, Text.trimSpaceEnd raw = Ascii.dollar :: rest ∧
        splitBinding? rest = some (u, v) ∧
        (readHead start raw block).form = .binding (Ascii.dollar :: u) flags) ∨
      (∃ rest, Text.trimSpaceEnd raw = Ascii.atSign :: rest ∧
        (readHead start raw block).form = readAtRule rest start) ∨
      (readHead start raw block).form = .ruleset ∨
      (readHead start raw block).form = .declaration := by
  unfold readHead
  simp only
  split
  · next rest hraw =>
    cases block with
    | true => exact Or.inr (Or.inr (Or.inl rfl))
    | false =>
        cases hsplit : splitBinding? rest with
        | none => exact Or.inr (Or.inr (Or.inr rfl))
        | some uv => exact Or.inl ⟨rest, uv.1, uv.2, _, hraw, hsplit, rfl⟩
  · next rest hraw => exact Or.inr (Or.inl ⟨rest, hraw, rfl⟩)
  · cases block with
    | true => exact Or.inr (Or.inr (Or.inl rfl))
    | false => exact Or.inr (Or.inr (Or.inr rfl))

theorem start_readHead (start : Nat) (raw : Text) (block : Bool) :
    (readHead start raw block).start = start := by
  unfold readHead
  simp only
  split
  · split_ifs
    · rfl
    · split <;> rfl
  · rfl
  · rfl

/-- What an at-rule is read as, from what follows its keyword and the white space behind it. -/
theorem readAtRule_forms (t : Text) (start : Nat) :
    ∃ v base, v = Text.trimSpaceStart (t.dropWhile isNameByte) ∧
      base = start + 1 + (t.length - v.length) ∧
      ((∃ kind, readAtRule t start = readCallable kind v base) ∨
        readAtRule t start = readInclusion v base ∨
        (∃ keyword, readAtRule t start = .importing keyword (readTargets keyword v base)) ∨
        ∃ keyword, readAtRule t start = .atRule keyword) := by
  refine ⟨_, _, rfl, rfl, ?_⟩
  unfold readAtRule
  simp only
  split_ifs
  · exact Or.inl ⟨_, rfl⟩
  · exact Or.inl ⟨_, rfl⟩
  · exact Or.inr (Or.inl rfl)
  · exact Or.inr (Or.inr (Or.inl ⟨_, rfl⟩))
  · exact Or.inr (Or.inr (Or.inl ⟨_, rfl⟩))
  · exact Or.inr (Or.inr (Or.inl ⟨_, rfl⟩))
  · exact Or.inr (Or.inr (Or.inr ⟨_, rfl⟩))

/-- What an at-rule is read as. Only the keywords `mixin` and `function` declare callables. -/
theorem readAtRule_cases (t : Text) (start : Nat) :
    (∃ kind, readAtRule t start = readCallable kind (Text.trimSpaceStart (t.dropWhile isNameByte))
        (start + 1 + (t.length - (Text.trimSpaceStart (t.dropWhile isNameByte)).length))) ∨
      (∃ name nameStart, readAtRule t start = .inclusion name nameStart) ∨
      (∃ keyword targets, readAtRule t start = .importing keyword targets) ∨
      ∃ keyword, readAtRule t start = .atRule keyword := by
  obtain ⟨v, base, rfl, rfl, hcallable | hinclusion | ⟨keyword, himport⟩ | hother⟩ :=
    readAtRule_forms t start
  · exact Or.inl hcallable
  · refine Or.inr (Or.inl ?_)
    rw [hinclusion, readInclusion]
    split
    · exact ⟨_, _, rfl⟩
    · exact ⟨_, _, rfl⟩
  · exact Or.inr (Or.inr (Or.inl ⟨keyword, _, himport⟩))
  · exact Or.inr (Or.inr (Or.inr hother))

theorem takeWhile_eq_nil_of_head? {t : Text} (h : ∀ c ∈ t.head?, isNameByte c = false) :
    t.takeWhile isNameByte = [] := by
  cases t with
  | nil => rfl
  | cons c t => rw [List.takeWhile_cons, if_neg (by simp [h c rfl])]

/-- A name behind a keyword has white space in front. -/
theorem exists_space_before (t : Text)
    (h : (Text.trimSpaceStart (t.dropWhile isNameByte)).takeWhile isNameByte ≠ []) :
    ∃ u, t = u ++ Text.trimSpaceStart (t.dropWhile isNameByte) ∧
      ∃ c ∈ u.getLast?, c < 0x80 := by
  have hsplit : (t.dropWhile isNameByte).takeWhile Ascii.isSpace
      ++ Text.trimSpaceStart (t.dropWhile isNameByte) = t.dropWhile isNameByte :=
    List.takeWhile_append_dropWhile
  -- without white space the keyword would run on into the name
  have hspace : (t.dropWhile isNameByte).takeWhile Ascii.isSpace ≠ [] := by
    intro hnil
    rw [hnil, List.nil_append] at hsplit
    rw [hsplit] at h
    exact h (takeWhile_eq_nil_of_head? (not_isNameByte_of_dropWhile t))
  refine ⟨t.takeWhile isNameByte ++ (t.dropWhile isNameByte).takeWhile Ascii.isSpace, ?_, ?_⟩
  · rw [List.append_assoc, hsplit, List.takeWhile_append_dropWhile]
  · have hlast := List.getLast?_eq_some_getLast hspace
    refine ⟨_, ?_, lt_of_isSpace (List.mem_takeWhile_imp (List.getLast_mem hspace))⟩
    rw [List.getLast?_append, hlast]
    rfl

/-- A parameter list is read from what stands between its parentheses. -/
theorem exists_list_of_mem_readCallable {u name : Text} {base nameStart : Nat}
    {kind k : CallableKind} {params : List Param} {p : Param}
    (h : readCallable kind u base = .callable k name nameStart params) (hp : p ∈ params) :
    ∃ rest inner, Ascii.lparen :: rest <:+ u ∧ parenthesised? rest = some inner ∧
      p ∈ readParams inner (base + (u.length - rest.length)) := by
  simp only [readCallable, Form.callable.injEq] at h
  obtain ⟨-, -, -, rfl⟩ := h
  split at hp
  · next rest hlist =>
    split at hp
    · next inner hinner =>
      refine ⟨rest, inner, ?_, hinner, hp⟩
      rw [← show Text.trimSpaceStart (u.dropWhile isNameByte) = Ascii.lparen :: rest from hlist]
      exact (List.dropWhile_suffix Ascii.isSpace).trans (List.dropWhile_suffix isNameByte)
    · cases hp
  · cases hp

/-- A variable is read from a dollar sign and a word. Something follows the word, if only the
colon. -/
theorem exists_word_of_binding {start : Nat} {raw name : Text} {block : Bool} {flags : List Flag}
    (h : (readHead start raw block).form = .binding name flags) :
    ∃ word after, name = Ascii.dollar :: word ∧ raw = name ++ after ∧ word ≠ [] ∧
      (∀ c ∈ word, isNameByte c = true) ∧ after ≠ [] ∧
      ∀ c ∈ after.head?, isNameByte c = false := by
  obtain ⟨trail, htrail, -⟩ := exists_trimSpaceEnd raw
  rcases readHead_cases start raw block with ⟨rest, word, value, flags', hraw, hsplit, heq⟩ |
    ⟨rest, hraw, heq⟩ | heq | heq
  · rw [h] at heq
    cases heq
    have hword := eq_takeWhile_of_splitBinding? hsplit
    -- the colon is behind the word
    have hrest : rest.dropWhile isNameByte ≠ [] ∧ word ≠ [] := by
      unfold splitBinding? at hsplit
      simp only at hsplit
      split at hsplit
      · next hcolon =>
        split_ifs at hsplit with hempty
        cases hsplit
        refine ⟨fun hnil => ?_, by simpa using hempty⟩
        rw [hnil] at hcolon
        cases hcolon
      · cases hsplit
    have hhead := not_isNameByte_of_dropWhile rest
    refine ⟨word, rest.dropWhile isNameByte ++ trail, rfl, ?_, hrest.2, ?_, ?_, ?_⟩
    · have hparts : rest = word ++ rest.dropWhile isNameByte := by
        rw [hword, List.takeWhile_append_dropWhile]
      conv_lhs => rw [htrail, hraw, hparts]
      simp
    · intro c hc
      rw [hword] at hc
      exact List.mem_takeWhile_imp hc
    · exact List.append_ne_nil_of_left_ne_nil hrest.1 trail
    · rwa [List.head?_append_of_ne_nil _ hrest.1]
  · rcases readAtRule_cases rest start with ⟨kind, hrule⟩ | ⟨_, _, hrule⟩ | ⟨_, _, hrule⟩ |
      ⟨_, hrule⟩
    all_goals
      rw [h, hrule] at heq
      cases heq
  · rw [h] at heq
    cases heq
  · rw [h] at heq
    cases heq

section Statement

variable {t raw : Text} {start : Nat} {block : Bool}

/-- **The name of a variable stands at the start of its statement.** -/
theorem StandsAt.nameAt_binding {name : Text} {flags : List Flag} (h : StandsAt t start raw)
    (hform : (readHead start raw block).form = .binding name flags) : NameAt t start name := by
  obtain ⟨word, after, rfl, rfl, -, -, -, hafter⟩ := exists_word_of_binding hform
  exact (h.left (startsFresh_of_not_isNameByte hafter)).nameAt_of_dollar rfl

/-- A callable is read from what follows its keyword and the white space behind it. -/
theorem StandsAt.callable {kind : CallableKind} {name : Text} {nameStart : Nat}
    {params : List Param} (h : StandsAt t start raw)
    (hform : (readHead start raw block).form = .callable kind name nameStart params) :
    ∃ u, StandsAt t (start + 1) u ∧
      readCallable kind (Text.trimSpaceStart (u.dropWhile isNameByte))
          (start + 1 + (u.length - (Text.trimSpaceStart (u.dropWhile isNameByte)).length))
        = .callable kind name nameStart params := by
  obtain ⟨trail, htrail, hfresh⟩ := exists_trimSpaceEnd raw
  rcases readHead_cases start raw block with ⟨rest, u, v, flags', hraw, hsplit, heq⟩ |
    ⟨rest, hraw, heq⟩ | heq | heq
  · rw [hform] at heq
    cases heq
  · rw [htrail, hraw] at h
    refine ⟨rest, (h.left hfresh).tail, ?_⟩
    rcases readAtRule_cases rest start with ⟨kind', hrule⟩ | ⟨_, _, hrule⟩ | ⟨_, _, hrule⟩ |
      ⟨_, hrule⟩
    · rw [hform, hrule] at heq
      have hkind : kind = kind' := (Form.callable.inj heq).1
      rw [hkind] at heq ⊢
      exact heq.symm
    all_goals
      rw [hform, hrule] at heq
      cases heq
  · rw [hform] at heq
    cases heq
  · rw [hform] at heq
    cases heq

/-- **The name of a mixin or function stands at its name start.** -/
theorem StandsAt.nameAt_callable {kind : CallableKind} {name : Text} {nameStart : Nat}
    {params : List Param} (h : StandsAt t start raw)
    (hform : (readHead start raw block).form = .callable kind name nameStart params)
    (hname : name ≠ []) : NameAt t nameStart name := by
  obtain ⟨u, hu, hcall⟩ := h.callable hform
  simp only [readCallable, Form.callable.injEq, true_and] at hcall
  obtain ⟨rfl, rfl, -⟩ := hcall
  obtain ⟨w, hw, hlast⟩ := exists_space_before u hname
  generalize Text.trimSpaceStart (u.dropWhile isNameByte) = v at hw
  have hcut : u = (w ++ v.takeWhile isNameByte) ++ v.dropWhile isNameByte := by
    rw [List.append_assoc, List.takeWhile_append_dropWhile]
    exact hw
  have hlen : u.length - v.length = w.length := by
    rw [hw, List.length_append, Nat.add_sub_cancel]
  rw [hlen]
  rw [hcut] at hu
  exact (hu.left (startsFresh_dropWhile v)).nameAt_of_last hlast

/-- **A parameter that is a variable stands at its offset.** -/
theorem StandsAt.nameAt_parameter {kind : CallableKind} {name : Text} {nameStart : Nat}
    {params : List Param} {p : Param} (h : StandsAt t start raw)
    (hform : (readHead start raw block).form = .callable kind name nameStart params)
    (hp : p ∈ params) (hname : p.name.head? = some Ascii.dollar) : NameAt t p.offset p.name := by
  obtain ⟨u, hu, hcall⟩ := h.callable hform
  -- from the keyword to the parenthesis, to the list, to the piece
  have hv := hu.suffix
    ((List.dropWhile_suffix Ascii.isSpace).trans (List.dropWhile_suffix isNameByte))
  obtain ⟨rest, inner, hrest, hinner, hmem⟩ := exists_list_of_mem_readCallable hcall hp
  have hlist := hv.suffix ((List.suffix_cons Ascii.lparen rest).trans hrest)
  obtain ⟨back, rfl⟩ := eq_append_of_parenthesised? hinner
  obtain ⟨piece, hpiece, hparam⟩ := List.mem_filterMap.mp hmem
  have hinnerAt := hlist.left (Utf8.startsFresh_cons (by decide) back)
  exact (hinnerAt.piece (by decide) hpiece).param hparam hname

end Statement

end StyleIndex
