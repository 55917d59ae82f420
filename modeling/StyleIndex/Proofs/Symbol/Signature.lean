import Mathlib
import StyleIndex.Editor.Location
import StyleIndex.Proofs.Grammar.Acceptance
import StyleIndex.Proofs.Symbol.Value
import StyleIndex.Proofs.Text.Decoding

set_option autoImplicit false

/-! # Signatures are read back

The signature of a mixin or function, as an editor shows it, can be put behind `@mixin` or
`@function` again: the declaration parses, and declares a callable with the same name and the same
parameters (`parse_signature`).

A signature is the text of a value (`valueText_signatureLabel`), so the scanners take it as it is
meant: the declaration is one prelude, the parentheses around the parameters belong together, and
the commas between the parameters are the only ones that separate. What is left is white space. A
piece between two commas is a label behind a space, and a default stands behind a colon and a space;
both are trimmed, and this takes off no more than that space, since the names and defaults have no
blanks at their ends (`Text.Trimmed`).
-/

namespace StyleIndex

/-! ## Trimmed texts -/

namespace Text

/-- No blank stands at either end. -/
structure Trimmed (t : Text) : Prop where
  head : ∀ c ∈ (Utf8.characters t).head?, c.isBlank = false
  last : ∀ c ∈ (Utf8.characters t).getLast?, c.isBlank = false

/-- There are no blanks behind a last character that is not blank. -/
theorem trailingBlankWidth_eq_zero {t : Text} (hne : t ≠ [])
    (h : ∀ c ∈ (Utf8.characters t).getLast?, c.isBlank = false) (width : Nat) :
    trailingBlankWidth width t = 0 := by
  fun_induction trailingBlankWidth width t with
  | case1 => exact absurd rfl hne
  | case2 width c rest ih =>
      rw [Utf8.characters] at h
      by_cases hrest : (c :: rest).drop (Utf8.step c rest).2 = []
      · rw [hrest, Utf8.characters] at h
        have hblank : (Utf8.step c rest).1.isBlank = false := h _ rfl
        rw [hrest, trailingBlankWidth, hblank]
        rfl
      · refine ih hrest ?_
        intro d hd
        refine h d ?_
        rw [List.getLast?_cons, Option.mem_def.mp hd]
        rfl

theorem Trimmed.trimBlank_eq {t : Text} (h : Trimmed t) : trimBlank t = t := by
  cases t with
  | nil => simp [trimBlank, trimBlankEnd]
  | cons c rest =>
      have hhead := h.head
      rw [Utf8.characters] at hhead
      rw [trimBlank, trimBlankStart_of_not_isBlank (hhead _ rfl), trimBlankEnd,
        trailingBlankWidth_eq_zero (List.cons_ne_nil c rest) h.last, Nat.sub_zero, List.take_length]

theorem trimBlank_space (t : Text) : trimBlank (Ascii.space :: t) = trimBlank t := by
  have hstep : Utf8.step Ascii.space t = (.scalar 0x20, 1) := rfl
  rw [trimBlank, trimBlankStart, hstep]
  rfl

end Text

/-! ## Parameters -/

/-- A declared parameter, wherever it stands. -/
def Param.withoutOffset (q : Param) : Parameter := ⟨q.name, q.default⟩

namespace Parameter

variable {p : Parameter}

theorem label_of_default (hdefault : p.default ≠ []) :
    p.label = p.name ++ Ascii.colon :: Ascii.space :: p.default := by
  have hcolon : text ": " = [Ascii.colon, Ascii.space] := by decide
  rw [label, if_neg (by simpa using hdefault), hcolon, List.append_assoc]
  rfl

theorem label_of_no_default (hdefault : p.default = []) : p.label = p.name := by
  rw [label, hdefault]
  rfl

/-- A parameter that can be written: its name is that of a variable, with or without an ellipsis,
its default is empty or a value text, and no blanks stand at the ends of either. -/
structure Writable (p : Parameter) : Prop where
  name : ∃ word tail, p.name = Ascii.dollar :: (word ++ tail) ∧
    (∀ c ∈ word, isNameByte c = true) ∧ (tail = [] ∨ tail = text "...")
  name_trimmed : Text.Trimmed p.name
  default : ValueText p.default
  default_trimmed : Text.Trimmed p.default

namespace Writable

theorem name_bytes (h : p.Writable) : ∀ c ∈ p.name, c ∉ valueMarks ∧ c ≠ Ascii.colon := by
  obtain ⟨word, tail, hname, hword, htail⟩ := h.name
  intro c hc
  rw [hname, List.mem_cons, List.mem_append] at hc
  rcases hc with rfl | hc | hc
  · decide
  · refine ⟨notMem_valueMarks_of_isNameByte (hword c hc), ?_⟩
    rintro rfl
    exact absurd (hword _ hc) (by decide)
  · have hdots : ∀ d ∈ text "...", d ∉ valueMarks ∧ d ≠ Ascii.colon :=
      List.all_iff_forall_prop.mp rfl
    rcases htail with rfl | rfl
    · cases hc
    · exact hdots c hc

theorem valueText_label (h : p.Writable) : ValueText p.label := by
  have hname : ValueText p.name := .bytes fun c hc => (h.name_bytes c hc).1
  by_cases hdefault : p.default = []
  · rw [label_of_no_default hdefault]
    exact hname
  · have hcolon : ValueText [Ascii.colon, Ascii.space] :=
      .bytes (List.all_iff_forall_prop.mp rfl)
    rw [label_of_default hdefault]
    exact .append hname (.append hcolon h.default)

theorem trimmed_label (h : p.Writable) : Text.Trimmed p.label := by
  by_cases hdefault : p.default = []
  · rw [label_of_no_default hdefault]
    exact h.name_trimmed
  · obtain ⟨word, tail, hname, -, -⟩ := h.name
    have hcut : Utf8.IsCut (p.name ++ [Ascii.colon, Ascii.space]) p.default :=
      Or.inr (Or.inl ⟨Ascii.space, by simp, by decide⟩)
    have hsplit : Utf8.characters p.label
        = Utf8.characters (p.name ++ [Ascii.colon, Ascii.space]) ++ Utf8.characters p.default := by
      rw [← Utf8.characters_append hcut, label_of_default hdefault, List.append_assoc]
      rfl
    refine ⟨?_, ?_⟩
    · intro c hc
      rw [label_of_default hdefault, hname, List.cons_append, Utf8.characters] at hc
      obtain rfl := Option.some.inj hc
      rfl
    · -- the last character of the label is that of the default, which has one
      intro c hc
      obtain ⟨b, rest, hrest⟩ := List.exists_cons_of_ne_nil hdefault
      refine h.default_trimmed.last c ?_
      rw [hsplit, List.getLast?_append] at hc
      rw [hrest, Utf8.characters] at hc ⊢
      rw [List.getLast?_cons] at hc ⊢
      exact hc

/-- The first colon of a label stands behind the name. -/
theorem splitTopLevel?_label (h : p.Writable) :
    splitTopLevel? p.label Ascii.colon
      = if p.default = [] then none else some (p.name, Ascii.space :: p.default) := by
  by_cases hdefault : p.default = []
  · have hnone := separatorOffsets_bytes h.name_bytes 0 0 []
    rw [List.append_nil] at hnone
    rw [if_pos hdefault, label_of_no_default hdefault, splitTopLevel?, hnone, separatorOffsets]
    rfl
  · have hcolon : ∀ (pos : Nat) (rest : Text),
        separatorOffsets Ascii.colon 0 pos (Ascii.colon :: rest)
          = pos :: separatorOffsets Ascii.colon 0 (pos + 1) rest := by
      intro pos rest
      rw [separatorOffsets]
      rfl
    rw [if_neg hdefault, label_of_default hdefault, splitTopLevel?,
      separatorOffsets_bytes h.name_bytes, hcolon]
    simp

/-- **A parameter is read back from its label.** -/
theorem paramOfPiece?_label (h : p.Writable) {piece : Piece}
    (hpiece : Text.trimBlank piece.text = p.label) (base : Nat) :
    ∃ offset, paramOfPiece? base piece = some ⟨p.name, p.default, offset⟩ := by
  obtain ⟨word, tail, hname, -, -⟩ := h.name
  have hne : p.label.isEmpty = false := by
    rw [label]
    split_ifs <;> simp [hname]
  rw [paramOfPiece?]
  simp only [hpiece, hne, h.splitTopLevel?_label]
  by_cases hdefault : p.default = []
  · simp [hdefault, label_of_no_default hdefault]
  · simp [hdefault, h.name_trimmed.trimBlank_eq, Text.trimBlank_space,
      h.default_trimmed.trimBlank_eq]

end Writable

end Parameter

/-! ## Lists of parameters -/

/-- The labels as they stand between the commas of a signature: all but the first behind a space. -/
def spacedLabels : List Parameter → List Text
  | [] => []
  | p :: ps => p.label :: ps.map fun q => Ascii.space :: q.label

section Lists

variable {ps : List Parameter}

theorem join_labels (ps : List Parameter) :
    Text.join (text ", ") (ps.map Parameter.label)
      = Text.join [Ascii.comma] (spacedLabels ps) := by
  have hsep : text ", " = [Ascii.comma] ++ [Ascii.space] := by decide
  have hjoin : ∀ (sep u v : Text) (us : List Text),
      Text.join sep (u :: v :: us) = u ++ sep ++ Text.join sep (v :: us) := fun _ _ _ _ => rfl
  have hspace : ∀ (v : Text) (us : List Text), Text.join [Ascii.comma] ((Ascii.space :: v) :: us)
      = Ascii.space :: Text.join [Ascii.comma] (v :: us) := by
    intro v us
    cases us <;> rfl
  cases ps with
  | nil => rfl
  | cons p ps =>
      rw [List.map_cons, spacedLabels]
      induction ps generalizing p with
      | nil => rfl
      | cons q ps ih =>
          rw [List.map_cons, List.map_cons, hjoin, hjoin, ih, hspace, hsep]
          simp only [List.append_assoc, List.cons_append, List.nil_append]

/-- Between the commas there are the labels, up to blanks. -/
theorem forall₂_spacedLabels (hps : ∀ p ∈ ps, p.Writable) :
    List.Forall₂ (fun t p => Parameter.Writable p ∧ Text.trimBlank t = p.label)
      (spacedLabels ps) ps := by
  cases ps with
  | nil => exact .nil
  | cons p ps =>
      obtain ⟨hp, hps⟩ := List.forall_mem_cons.mp hps
      refine .cons ⟨hp, hp.trimmed_label.trimBlank_eq⟩ ?_
      rw [List.forall₂_map_left_iff, List.forall₂_same]
      intro q hq
      refine ⟨hps q hq, ?_⟩
      rw [Text.trimBlank_space, (hps q hq).trimmed_label.trimBlank_eq]

theorem valueText_of_mem_spacedLabels (hps : ∀ p ∈ ps, p.Writable) :
    ∀ u ∈ spacedLabels ps, ValueText u := by
  cases ps with
  | nil =>
      intro u hu
      cases hu
  | cons p ps =>
      obtain ⟨hp, hps⟩ := List.forall_mem_cons.mp hps
      intro u hu
      rcases List.mem_cons.mp hu with rfl | hu
      · exact hp.valueText_label
      · obtain ⟨q, hq, rfl⟩ := List.mem_map.mp hu
        have hspace : ValueText [Ascii.space] := .byte (by decide)
        exact hspace.append (hps q hq).valueText_label

/-- Pieces that hold labels are read as the parameters. -/
theorem map_paramOfPiece? {pieces : List Piece} (base : Nat)
    (h : List.Forall₂ (fun t p => Parameter.Writable p ∧ Text.trimBlank t = p.label)
      (pieces.map Piece.text) ps) :
    (pieces.filterMap (paramOfPiece? base)).map Param.withoutOffset = ps := by
  rw [List.forall₂_map_left_iff] at h
  induction h with
  | nil => rfl
  | cons hp _ ih =>
      obtain ⟨offset, hread⟩ := hp.1.paramOfPiece?_label hp.2 base
      rw [List.filterMap_cons_some hread, List.map_cons, ih]
      rfl

/-- **A list of parameters is read back.** -/
theorem readParams_spacedLabels (hps : ∀ p ∈ ps, p.Writable) (base : Nat) :
    (readParams (Text.join [Ascii.comma] (spacedLabels ps)) base).map Param.withoutOffset = ps := by
  cases hlabels : spacedLabels ps with
  | nil =>
      -- an empty list is one blank piece
      obtain rfl : ps = [] := by
        cases ps with
        | nil => rfl
        | cons p ps => cases hlabels
      have hblank : Text.trimBlank [] = [] := by
        simp [Text.trimBlank, Text.trimBlankEnd]
      simp [readParams, topLevelPieces, separatorOffsets, piecesAt, paramOfPiece?, Text.join,
        hblank]
  | cons u us =>
      have hne : spacedLabels ps ≠ [] := by
        rw [hlabels]
        exact List.cons_ne_nil u us
      have htexts : (topLevelPieces (Text.join [Ascii.comma] (spacedLabels ps))
          Ascii.comma).map Piece.text = spacedLabels ps :=
        texts_piecesAt_join hne (valueText_of_mem_spacedLabels hps) []
      rw [← hlabels]
      refine map_paramOfPiece? base ?_
      rw [htexts]
      exact forall₂_spacedLabels hps

end Lists

/-! ## Signatures -/

section Signatures

variable {name : Text} {ps : List Parameter}

/-- The keyword that declares a callable of a kind. -/
def CallableKind.keyword : CallableKind → Text
  | .mixin => text "mixin"
  | .function => text "function"

theorem signatureLabel_eq (name : Text) (ps : List Parameter) :
    signatureLabel name ps
      = name ++ Ascii.lparen :: (Text.join [Ascii.comma] (spacedLabels ps)
        ++ [closerOf Ascii.lparen]) := by
  have hopen : text "(" = [Ascii.lparen] := by decide
  have hclose : text ")" = [closerOf Ascii.lparen] := by decide
  rw [signatureLabel, hopen, hclose, join_labels]
  simp only [List.append_assoc, List.cons_append, List.nil_append]

theorem valueText_signatureLabel (hname : ∀ c ∈ name, isNameByte c = true)
    (hps : ∀ p ∈ ps, p.Writable) : ValueText (signatureLabel name ps) := by
  have hbytes : ValueText name := .bytes fun c hc => notMem_valueMarks_of_isNameByte (hname c hc)
  rw [signatureLabel_eq]
  exact hbytes.append (.group (Or.inl rfl) (valueText_of_mem_spacedLabels hps))

theorem parenthesised?_spacedLabels (hps : ∀ p ∈ ps, p.Writable) :
    parenthesised? (Text.join [Ascii.comma] (spacedLabels ps) ++ [closerOf Ascii.lparen])
      = some (Text.join [Ascii.comma] (spacedLabels ps)) := by
  have hpast := passing_closingParen?.list (d := 0) (fun u hu =>
    passing_closingParen?.valueText (valueText_of_mem_spacedLabels hps u hu) 1) 0
      [closerOf Ascii.lparen]
  have hlast : closingParen? 1 [closerOf Ascii.lparen] = some 0 := by
    rw [closingParen?]
    rfl
  rw [parenthesised?, hpast, hlast]
  simp

theorem takeWhile_isNameByte (hname : ∀ c ∈ name, isNameByte c = true) {c : UInt8}
    (hc : isNameByte c = false) (rest : Text) :
    (name ++ c :: rest).takeWhile isNameByte = name ∧
      (name ++ c :: rest).dropWhile isNameByte = c :: rest := by
  rw [List.takeWhile_append_of_pos hname, List.dropWhile_append_of_pos hname]
  simp [hc]

theorem not_isSpace_of_isNameByte {c : UInt8} (h : isNameByte c = true) :
    Ascii.isSpace c = false := by
  by_contra hspace
  rcases isSpace_iff.mp (by simpa using hspace) with rfl | rfl | rfl | rfl | rfl <;>
    exact absurd h (by decide)

/-- **A callable is read back from its signature.** -/
theorem readCallable_signatureLabel (kind : CallableKind)
    (hname : ∀ c ∈ name, isNameByte c = true) (hps : ∀ p ∈ ps, p.Writable) (base : Nat) :
    ∃ params, readCallable kind (signatureLabel name ps) base = .callable kind name base params ∧
      params.map Param.withoutOffset = ps := by
  have hparen : isNameByte Ascii.lparen = false := by decide
  obtain ⟨htake, hdrop⟩ := takeWhile_isNameByte hname hparen
    (Text.join [Ascii.comma] (spacedLabels ps) ++ [closerOf Ascii.lparen])
  have hspace : ∀ t : Text, Text.trimSpaceStart (Ascii.lparen :: t) = Ascii.lparen :: t :=
    fun _ => rfl
  rw [signatureLabel_eq, readCallable]
  simp only [htake, hdrop, hspace]
  refine ⟨_, rfl, ?_⟩
  -- what follows the name begins with a parenthesis
  split
  · next rest hrest =>
    obtain rfl := List.tail_eq_of_cons_eq hrest
    rw [parenthesised?_spacedLabels hps]
    exact readParams_spacedLabels hps _
  · next hother => exact absurd rfl (hother _)

/-- A declaration is read from behind its keyword. -/
theorem readAtRule_keyword (kind : CallableKind) (hne : name ≠ [])
    (hname : ∀ c ∈ name, isNameByte c = true) (start : Nat) :
    readAtRule (kind.keyword ++ Ascii.space :: signatureLabel name ps) start
      = readCallable kind (signatureLabel name ps) (start + kind.keyword.length + 2) := by
  have hkeyword : ∀ c ∈ kind.keyword, isNameByte c = true := by
    cases kind <;> exact List.all_iff_forall_prop.mp rfl
  have hbreak : isNameByte Ascii.space = false := by decide
  obtain ⟨htake, hdrop⟩ := takeWhile_isNameByte hkeyword hbreak (signatureLabel name ps)
  have hspace : Text.trimSpaceStart (Ascii.space :: signatureLabel name ps)
      = signatureLabel name ps := by
    obtain ⟨c, rest, rfl⟩ := List.exists_cons_of_ne_nil hne
    have hc := not_isSpace_of_isNameByte (hname c List.mem_cons_self)
    show (Ascii.space :: c :: _).dropWhile Ascii.isSpace = c :: _
    rw [List.dropWhile_cons_of_pos (by decide), List.dropWhile_cons_of_neg (by simp [hc])]
  have hlower : Text.toLower kind.keyword = kind.keyword := by cases kind <;> cbv
  have hbase : start + 1 + ((kind.keyword ++ Ascii.space :: signatureLabel name ps).length
      - (signatureLabel name ps).length) = start + kind.keyword.length + 2 := by
    rw [List.length_append, List.length_cons]
    omega
  rw [readAtRule]
  simp only [htake, hdrop, hspace, hlower, hbase]
  cases kind with
  | mixin => exact if_pos rfl
  | function =>
      rw [if_neg (by decide)]
      exact if_pos rfl

/-- The declaration of a callable with the given signature, up to its block. -/
def declarationHead (kind : CallableKind) (name : Text) (ps : List Parameter) : Text :=
  Ascii.atSign :: (kind.keyword ++ Ascii.space :: signatureLabel name ps)

theorem trimSpaceEnd_declarationHead (kind : CallableKind) (name : Text) (ps : List Parameter) :
    Text.trimSpaceEnd (declarationHead kind name ps ++ [Ascii.space])
      = declarationHead kind name ps := by
  obtain ⟨front, hfront⟩ : ∃ front, declarationHead kind name ps = front ++ [Ascii.rparen] :=
    ⟨Ascii.atSign :: (kind.keyword ++ Ascii.space :: (name ++ Ascii.lparen ::
      Text.join [Ascii.comma] (spacedLabels ps))),
      by simp [declarationHead, signatureLabel_eq, closerOf]⟩
  rw [hfront, Text.trimSpaceEnd, Text.trimEndWhile, List.reverse_append, List.reverse_append]
  show (Ascii.rparen :: front.reverse).reverse = _
  rw [List.reverse_cons, List.reverse_reverse]

/-- The declaration can be cut into the units of a prelude. -/
theorem exists_prelude_declarationHead (kind : CallableKind)
    (hname : ∀ c ∈ name, isNameByte c = true) (hps : ∀ p ∈ ps, p.Writable) :
    ∃ units : Prelude, units.text = declarationHead kind name ps ++ [Ascii.space] ∧
      ∀ after, units.WellFormed 0 after := by
  have hkeyword : ValueText (Ascii.atSign :: (kind.keyword ++ [Ascii.space])) :=
    .bytes (by cases kind <;> exact List.all_iff_forall_prop.mp rfl)
  have hspace : ValueText [Ascii.space] := .byte (by decide)
  have hvalue : ValueText (declarationHead kind name ps ++ [Ascii.space]) := by
    have happend := (hkeyword.append (valueText_signatureLabel hname hps)).append hspace
    rw [declarationHead]
    simpa only [List.append_assoc, List.cons_append, List.nil_append] using happend
  obtain ⟨units, htext, hunits⟩ := passing_prelude.valueText hvalue 0
  refine ⟨units, htext, ?_⟩
  intro after
  have hwf := @hunits [] after rfl
  rwa [List.append_nil] at hwf

end Signatures

/-- **A signature is read back.** Take a name of name bytes and parameters that can be written. The
declaration of a mixin or function with this signature and an empty block is a stylesheet of one
statement: a callable of that kind, with this name, whose parameters have the given names and
defaults in their order. -/
theorem parse_signature (kind : CallableKind) {name : Text} {ps : List Parameter}
    (hne : name ≠ []) (hname : ∀ c ∈ name, isNameByte c = true) (hps : ∀ p ∈ ps, p.Writable) :
    let src := text "@" ++ kind.keyword ++ text " " ++ signatureLabel name ps ++ text " \x7b\x7d"
    ∃ params, params.map Param.withoutOffset = ps ∧
      parse src = .ok ⟨src.length, [.block
        ⟨0, .callable kind name (kind.keyword.length + 2) params, declarationHead kind name ps⟩
        (src.length - 1) [] src.length]⟩ := by
  intro src
  obtain ⟨units, htext, hunits⟩ := exists_prelude_declarationHead kind hname hps
  obtain ⟨params, hread, hparams⟩ :=
    readCallable_signatureLabel kind hname hps (0 + kind.keyword.length + 2)
  have hsrc : src = units.text ++ [Ascii.lbrace, Ascii.rbrace] := by
    have hat : text "@" = [Ascii.atSign] := by decide
    have hspace : text " " = [Ascii.space] := by decide
    have hblock : text " \x7b\x7d" = [Ascii.space, Ascii.lbrace, Ascii.rbrace] := by decide
    rw [htext, declarationHead]
    simp only [src, hat, hspace, hblock, List.append_assoc, List.cons_append, List.nil_append]
  have hderives : (Body.block units .done .done).Derives src := by
    refine ⟨hsrc.symm, ?_, hunits _, trivial, trivial⟩
    rw [htext]
    exact ⟨Ascii.atSign, _, rfl, by decide, by decide, by decide, fun h => absurd h.1 (by decide)⟩
  have hhead : readHead 0 units.text true = ⟨0, .callable kind name (kind.keyword.length + 2)
      params, declarationHead kind name ps⟩ := by
    rw [← Nat.zero_add kind.keyword.length, ← hread, ← readAtRule_keyword kind hne hname, htext,
      readHead, trimSpaceEnd_declarationHead]
    rfl
  have hlength : src.length = units.text.length + 2 := by
    rw [hsrc, List.length_append]
    rfl
  refine ⟨params, hparams, ?_⟩
  rw [parse_eq_ok_of_derives hderives, Body.nodes, hhead, hlength]
  simp only [Body.nodes, Body.text, List.length_nil, Nat.zero_add, Nat.add_zero, Nat.add_assoc]
  rfl

/-- A parameter whose default has separators inside a literal and inside groups, and one with an
ellipsis. -/
def mixedParameters : List Parameter :=
  [⟨text "$b", text "f('),', [c:d,e])"⟩, ⟨text "$rest...", []⟩]

theorem valueText_nested : ValueText (text "f('),', [c:d,e])") := by
  have hlist : ∀ v ∈ [text "c:d", text "e"], ValueText v := by
    intro v hv
    rcases List.mem_pair.mp hv with rfl | rfl
    · exact .bytes (List.all_iff_forall_prop.mp rfl)
    · exact .bytes (List.all_iff_forall_prop.mp rfl)
  have hitems : ∀ v ∈ [text "'),'", text " [c:d,e]"], ValueText v := by
    intro v hv
    rcases List.mem_pair.mp hv with rfl | rfl
    · exact @ValueText.literal Ascii.apostrophe (text "),") rfl (List.all_iff_forall_prop.mp rfl)
    · have hspace : ValueText [Ascii.space] := .byte (by decide)
      exact hspace.append (.group (Or.inr rfl) hlist)
  have hname : ValueText (text "f") := .bytes (List.all_iff_forall_prop.mp rfl)
  exact hname.append (.group (Or.inl rfl) hitems)

theorem writable_of_mem_mixedParameters : ∀ p ∈ mixedParameters, p.Writable := by
  -- the first and the last character of each text are seen by decoding it
  have htrimmed : ∀ {t : Text} {c d : Character}, (Utf8.characters t).head? = some c →
      (Utf8.characters t).getLast? = some d → c.isBlank = false → d.isBlank = false →
      Text.Trimmed t := by
    intro t c d hhead hlast hc hd
    refine ⟨?_, ?_⟩
    · rw [hhead]
      rintro b ⟨⟩
      exact hc
    · rw [hlast]
      rintro b ⟨⟩
      exact hd
  have hempty : Text.Trimmed [] := ⟨by simp [Utf8.characters], by simp [Utf8.characters]⟩
  intro p hp
  rcases List.mem_pair.mp hp with rfl | rfl
  · refine ⟨⟨text "b", [], rfl, List.all_iff_forall_prop.mp rfl, Or.inl rfl⟩, ?_,
      valueText_nested, ?_⟩
    · exact @htrimmed _ (.scalar 0x24) (.scalar 0x62) (by cbv) (by cbv) rfl rfl
    · exact @htrimmed _ (.scalar 0x66) (.scalar 0x29) (by cbv) (by cbv) rfl rfl
  · refine ⟨⟨text "rest", text "...", rfl, List.all_iff_forall_prop.mp rfl, Or.inr rfl⟩, ?_,
      .nil, hempty⟩
    exact @htrimmed _ (.scalar 0x24) (.scalar 0x2e) (by cbv) (by cbv) rfl rfl

theorem parse_signature_mixedParameters :
    let src := text "@function f($b: f('),', [c:d,e]), $rest...) \x7b\x7d"
    (∀ c ∈ text "f", isNameByte c = true) ∧ (∀ p ∈ mixedParameters, p.Writable) ∧
      text "@" ++ CallableKind.function.keyword ++ text " "
        ++ signatureLabel (text "f") mixedParameters ++ text " \x7b\x7d" = src ∧
      ∃ params, params.map Param.withoutOffset = mixedParameters ∧
        parse src = .ok ⟨src.length, [.block ⟨0, .callable .function (text "f") 10 params,
          declarationHead .function (text "f") mixedParameters⟩ (src.length - 1) []
          src.length]⟩ := by
  intro src
  have hname : ∀ c ∈ text "f", isNameByte c = true := List.all_iff_forall_prop.mp rfl
  have hsrc : text "@" ++ CallableKind.function.keyword ++ text " "
      ++ signatureLabel (text "f") mixedParameters ++ text " \x7b\x7d" = src := by decide
  have hparse := parse_signature .function (by decide) hname writable_of_mem_mixedParameters
  simp only [hsrc] at hparse
  exact ⟨hname, writable_of_mem_mixedParameters, hsrc, hparse⟩

end StyleIndex
