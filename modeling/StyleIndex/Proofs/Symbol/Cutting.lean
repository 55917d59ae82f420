import Mathlib
import StyleIndex.Proofs.Symbol.Signature
import StyleIndex.Proofs.Symbol.Span

set_option autoImplicit false

/-! # Lists cut at their separators

A list is cut at the separators that stand in no bracket or brace. Here the list is given as a row
of units, single bytes and texts that are passed over as a whole, and `cutUnits` cuts such a row.
The scanners of a statement see only the bytes. They cut the spelling of a row where the row is cut
(`texts_piecesAt`), find its end (`closingParen?_units`) and the first colon of a piece
(`splitTopLevel?_units`), provided that the texts are passed over by them (`Skipped`), that no other
byte is a quote, and that brackets and braces are closed by their own kind (`openersAfter?`).

One induction carries this. The nesting depth of the scanners is the number of openers on the stack
of `openersAfter?`, so it never falls below zero; and a scanner that counts parentheses only has the
number of parentheses on that stack.
-/

namespace StyleIndex

/-! ## Blanks around a piece -/

theorem separatorOffsets_add (sep : UInt8) (n : Nat) (depth : Int) (pos : Nat) (t : Text) :
    separatorOffsets sep depth (n + pos) t
      = (separatorOffsets sep depth pos t).map (n + ·) := by
  fun_induction separatorOffsets sep depth pos t with
  | case1 => rw [separatorOffsets]; rfl
  | case2 depth pos c rest hq k ih =>
      have hpos : n + pos + 1 + k = n + (pos + 1 + k) := by omega
      rw [separatorOffsets, if_pos hq]
      show separatorOffsets sep depth (n + pos + 1 + k) (rest.drop k) = _
      rw [hpos]
      exact ih
  | case3 depth pos c rest hq ho ih =>
      rw [separatorOffsets, if_neg hq, if_pos ho]
      exact ih
  | case4 depth pos c rest hq ho hc ih =>
      rw [separatorOffsets, if_neg hq, if_neg ho, if_pos hc]
      exact ih
  | case5 depth pos c rest hq ho hc hsep ih =>
      rw [separatorOffsets, if_neg hq, if_neg ho, if_neg hc, if_pos hsep, List.map_cons]
      exact congrArg _ ih
  | case6 depth pos c rest hq ho hc hsep ih =>
      rw [separatorOffsets, if_neg hq, if_neg ho, if_neg hc, if_neg hsep]
      exact ih

/-- Bytes without a meaning at the end of a text add no separators. -/
theorem separatorOffsets_append_bytes {sep : UInt8} {v : Text}
    (hv : ∀ c ∈ v, c ∉ valueMarks ∧ c ≠ sep) (depth : Int) (pos : Nat) (u : Text) :
    separatorOffsets sep depth pos (u ++ v) = separatorOffsets sep depth pos u := by
  fun_induction separatorOffsets sep depth pos u with
  | case1 depth pos =>
      have hnone := separatorOffsets_bytes hv depth pos []
      rw [List.append_nil, separatorOffsets] at hnone
      exact hnone
  | case2 depth pos c rest hq k ih =>
      -- the quote has its partner in front of the added bytes, or none
      have hextra : quotationExtra c (rest ++ v) = k ∧ k ≤ rest.length := by
        show quotationExtra c (rest ++ v) = quotationExtra c rest ∧
          quotationExtra c rest ≤ rest.length
        cases hindex : Text.byteIndex? c rest with
        | none =>
            have hnot : c ∉ rest ++ v := by
              rw [List.mem_append, not_or]
              refine ⟨Text.byteIndex?_eq_none_iff.mp hindex, fun hmem => ?_⟩
              rw [not_isQuote_of_notMem (hv c hmem).1] at hq
              cases hq
            simp [quotationExtra, hindex, Text.byteIndex?_eq_none_iff.mpr hnot]
        | some i =>
            obtain ⟨x, y, rfl, hx, rfl⟩ := Text.byteIndex?_eq_some hindex
            have hmore := Text.byteIndex?_append hx (y ++ v)
            rw [quotationExtra, quotationExtra, hindex, List.append_assoc, List.cons_append, hmore]
            simp
      rw [List.cons_append, separatorOffsets, if_pos hq, hextra.1]
      show separatorOffsets sep depth (pos + 1 + k) ((rest ++ v).drop k) = _
      rw [List.drop_append_of_le_length hextra.2]
      exact ih
  | case3 depth pos c rest hq ho ih =>
      rw [List.cons_append, separatorOffsets, if_neg hq, if_pos ho]
      exact ih
  | case4 depth pos c rest hq ho hc ih =>
      rw [List.cons_append, separatorOffsets, if_neg hq, if_neg ho, if_pos hc]
      exact ih
  | case5 depth pos c rest hq ho hc hsep ih =>
      rw [List.cons_append, separatorOffsets, if_neg hq, if_neg ho, if_neg hc, if_pos hsep, ih]
  | case6 depth pos c rest hq ho hc hsep ih =>
      rw [List.cons_append, separatorOffsets, if_neg hq, if_neg ho, if_neg hc, if_neg hsep]
      exact ih

/-- What is not printable has no meaning. -/
theorem notMem_valueMarks_of_blank {t : Text} (h : ∀ c ∈ t, c ≤ 0x20 ∨ 0x80 ≤ c) :
    ∀ c ∈ t, c ∉ valueMarks ∧ c ≠ Ascii.colon := by
  have hmarks : ∀ d ∈ valueMarks, ¬ (d ≤ 0x20 ∨ 0x80 ≤ d) := by decide +kernel
  intro c hc
  refine ⟨fun hmem => hmarks c hmem (h c hc), ?_⟩
  rintro rfl
  exact absurd (h _ hc) (by decide)

/-- A text is cut at its first separator, which stands where the first part ends. -/
theorem splitTopLevel?_eq_some_iff {t a b : Text} {sep : UInt8} :
    splitTopLevel? t sep = some (a, b) ↔
      t = a ++ sep :: b ∧ (separatorOffsets sep 0 0 t).head? = some a.length := by
  constructor
  · intro h
    refine ⟨eq_append_of_splitTopLevel? h, ?_⟩
    obtain ⟨i, hi, hab⟩ := Option.map_eq_some_iff.mp h
    obtain ⟨rfl, rfl⟩ := Prod.mk.inj hab
    obtain ⟨-, hsep⟩ := (separatorOffsets_spec sep 0 0 t).1 i (List.mem_of_mem_head? hi)
    have hlt : i < t.length := (List.getElem?_eq_some_iff.mp hsep).1
    rw [hi, List.length_take, Nat.min_eq_left hlt.le]
  · rintro ⟨rfl, hfirst⟩
    rw [splitTopLevel?, hfirst, Option.map_some, List.take_left, List.append_cons,
      List.drop_left' (by simp)]

/-- The blanks at either end of a text hold no colon and nest nothing. -/
theorem separatorOffsets_trimBlank (t : Text) :
    separatorOffsets Ascii.colon 0 0 t
      = (separatorOffsets Ascii.colon 0 0 (Text.trimBlank t)).map
        (t.length - (Text.trimBlankStart t).length + ·) := by
  obtain ⟨lead, hlead, hleadBytes, -⟩ := Text.exists_trimBlankStart t
  obtain ⟨trail, htrail, -, hblanks⟩ := Text.exists_trimBlankEnd (Text.trimBlankStart t)
  have htrim : Text.trimBlankEnd (Text.trimBlankStart t) = Text.trimBlank t := rfl
  rw [htrim] at htrail
  have htrailBytes : ∀ c ∈ trail, c ≤ 0x20 ∨ 0x80 ≤ c := by
    obtain ⟨front, hfront, hbytes, -⟩ := Text.exists_trimBlankStart trail
    rw [hblanks, List.append_nil] at hfront
    rwa [hfront]
  have hwidth : t.length - (Text.trimBlankStart t).length = lead.length := by
    have hlength := congrArg List.length hlead
    rw [List.length_append] at hlength
    omega
  calc separatorOffsets Ascii.colon 0 0 t
      = separatorOffsets Ascii.colon 0 0 (lead ++ (Text.trimBlank t ++ trail)) := by
        rw [← htrail, ← hlead]
    _ = separatorOffsets Ascii.colon 0 (lead.length + 0) (Text.trimBlank t ++ trail) := by
        rw [separatorOffsets_bytes (notMem_valueMarks_of_blank hleadBytes), Nat.add_comm]
    _ = separatorOffsets Ascii.colon 0 (lead.length + 0) (Text.trimBlank t) := by
        rw [separatorOffsets_append_bytes (notMem_valueMarks_of_blank htrailBytes)]
    _ = _ := by
        rw [separatorOffsets_add, hwidth]

/-- **Trimming a piece does not move its first colon.** -/
theorem splitTopLevel?_trimBlank (t : Text) :
    splitTopLevel? (Text.trimBlank t) Ascii.colon = (splitTopLevel? t Ascii.colon).map
      fun parts => (Text.trimBlankStart parts.1, Text.trimBlankEnd parts.2) := by
  have hoffsets := separatorOffsets_trimBlank t
  cases hcut : splitTopLevel? t Ascii.colon with
  | none =>
      rw [splitTopLevel?, Option.map_eq_none_iff, List.head?_eq_none_iff, hoffsets,
        List.map_eq_nil_iff] at hcut
      rw [splitTopLevel?, hcut]
      rfl
  | some parts =>
      obtain ⟨front, back⟩ := parts
      obtain ⟨ht, hfirst⟩ := splitTopLevel?_eq_some_iff.mp hcut
      have hstart : Text.trimBlankStart t = Text.trimBlankStart front ++ Ascii.colon :: back := by
        rw [ht, Text.trimBlankStart_separator (by decide) (by decide)]
      have hboth : Text.trimBlank t
          = Text.trimBlankStart front ++ Ascii.colon :: Text.trimBlankEnd back := by
        rw [Text.trimBlank, hstart, Text.trimBlankEnd_separator (by decide) (by decide)]
      rw [hoffsets, List.head?_map] at hfirst
      obtain ⟨i, hi, hlength⟩ := Option.map_eq_some_iff.mp hfirst
      -- the colon has moved by the blanks that are gone
      have hwidth : i = (Text.trimBlankStart front).length := by
        have hle := Text.length_trimBlankStart_le front
        rw [hstart, ht] at hlength
        simp only [List.length_append, List.length_cons] at hlength
        omega
      rw [hwidth] at hi
      exact splitTopLevel?_eq_some_iff.mpr ⟨hboth, hi⟩

/-- A parameter is read from a piece as if the piece were cut at its colon before it is trimmed. -/
theorem withoutOffset_paramOfPiece? (base : Nat) (piece : Piece) :
    (paramOfPiece? base piece).map Param.withoutOffset
      = if (Text.trimBlank piece.text).isEmpty then none
        else match splitTopLevel? piece.text Ascii.colon with
          | some (name, default) => some ⟨Text.trimBlank name, Text.trimBlank default⟩
          | none => some ⟨Text.trimBlank piece.text, []⟩ := by
  have hname : ∀ u, Text.trimBlank (Text.trimBlankStart u) = Text.trimBlank u := by
    intro u
    rw [Text.trimBlank, Text.trimBlankStart_idem]
    rfl
  have hdefault : ∀ u, Text.trimBlank (Text.trimBlankEnd u) = Text.trimBlank u := by
    intro u
    obtain ⟨trail, htrail, hfresh, hblanks⟩ := Text.exists_trimBlankEnd u
    conv_rhs => rw [htrail]
    rw [Text.trimBlank_append hfresh hblanks]
  rw [paramOfPiece?]
  by_cases hempty : (Text.trimBlank piece.text).isEmpty = true
  · simp [hempty]
  · simp only [hempty, splitTopLevel?_trimBlank]
    cases splitTopLevel? piece.text Ascii.colon with
    | none => rfl
    | some parts => simp [Param.withoutOffset, hname, hdefault]

/-! ## Units of a list -/

/-- A unit of a list: a text that is passed over as a whole, or a byte. -/
inductive ListUnit where
  | whole (t : Text)
  | byte (c : UInt8)
  deriving DecidableEq

namespace ListUnit

def text : ListUnit → Text
  | .whole t => t
  | .byte c => [c]

/-- The text of a row of units. -/
def spelling (us : List ListUnit) : Text := us.flatMap text

/-- The number of open brackets and braces behind a unit. -/
def levelAfter (level : Nat) : ListUnit → Nat
  | .whole _ => level
  | .byte c => if isOpener c then level + 1 else if isCloser c then level - 1 else level

/-- The units before and after the first separator that stands in no bracket or brace, where
`level` of them are open. -/
def firstCut? (sep : UInt8) (level : Nat) :
    List ListUnit → Option (List ListUnit × List ListUnit)
  | [] => none
  | u :: us =>
    if u = .byte sep ∧ level = 0 then some ([], us)
    else (firstCut? sep (u.levelAfter level) us).map fun parts => (u :: parts.1, parts.2)

/-- The units are those before the separator, the separator, and those behind it. -/
theorem eq_append_of_firstCut? {sep : UInt8} {us a b : List ListUnit} : ∀ {level : Nat},
    firstCut? sep level us = some (a, b) → us = a ++ .byte sep :: b := by
  induction us generalizing a with
  | nil =>
      intro level h
      cases h
  | cons u us ih =>
      intro level h
      rw [firstCut?] at h
      split_ifs at h with hsep
      · cases h
        rw [hsep.1]
        rfl
      · obtain ⟨⟨a', b'⟩, hrest, heq⟩ := Option.map_eq_some_iff.mp h
        cases heq
        rw [ih hrest]
        rfl

theorem spelling_of_firstCut? {sep : UInt8} {us a b : List ListUnit} {level : Nat}
    (h : firstCut? sep level us = some (a, b)) : spelling us = spelling a ++ sep :: spelling b := by
  rw [eq_append_of_firstCut? h]
  simp [spelling, text]

/-- Cuts a row of units at all its separators that stand in no bracket or brace. -/
def cutUnits (sep : UInt8) (us : List ListUnit) : List (List ListUnit) :=
  match _h : firstCut? sep 0 us with
  | none => [us]
  | some (a, b) => a :: cutUnits sep b
termination_by us.length
decreasing_by
  rw [eq_append_of_firstCut? _h, List.length_append, List.length_cons]
  omega

/-- The openers that are open behind a unit, innermost first; nothing when the unit closes another
one than the innermost. -/
def openersAfter? (openers : List UInt8) : ListUnit → Option (List UInt8)
  | .whole _ => some openers
  | .byte c =>
    if isOpener c then some (c :: openers)
    else if isCloser c then
      if openers.head?.map closerOf = some c then some openers.tail else none
    else some openers

/-- Whether each bracket and brace is closed by its own kind, and all are closed at the end. -/
def isMatched (us : List ListUnit) : Bool := us.foldlM openersAfter? [] == some []

/-- What a unit does to the openers. -/
theorem openersAfter?_cases {σ σ' : List UInt8} {u : ListUnit}
    (h : openersAfter? σ u = some σ') :
    (σ' = σ ∧ ∀ c, u = .byte c → isOpener c = false ∧ isCloser c = false) ∨
      (∃ c, u = .byte c ∧ isOpener c = true ∧ σ' = c :: σ) ∨
      ∃ c o, u = .byte c ∧ isOpener c = false ∧ isCloser c = true ∧ closerOf o = c ∧
        σ = o :: σ' := by
  cases u with
  | whole t =>
      cases h
      exact Or.inl ⟨rfl, fun c hc => by cases hc⟩
  | byte c =>
      by_cases ho : isOpener c = true
      · rw [openersAfter?, if_pos ho] at h
        cases h
        exact Or.inr (Or.inl ⟨c, rfl, ho, rfl⟩)
      · have ho' : isOpener c = false := by simpa using ho
        rw [openersAfter?, if_neg ho] at h
        by_cases hc : isCloser c = true
        · rw [if_pos hc] at h
          split_ifs at h with hfit
          cases h
          obtain ⟨o, ho, hoc⟩ := Option.map_eq_some_iff.mp hfit
          obtain ⟨outer, rfl⟩ := List.head?_eq_some_iff.mp ho
          exact Or.inr (Or.inr ⟨c, o, rfl, ho', hc, hoc, rfl⟩)
        · rw [if_neg hc] at h
          cases h
          refine Or.inl ⟨rfl, ?_⟩
          rintro _ ⟨⟩
          exact ⟨ho', by simpa using hc⟩

theorem levelAfter_of_openersAfter? {σ σ' : List UInt8} {u : ListUnit} (k : Nat)
    (h : openersAfter? σ u = some σ') : u.levelAfter (k + σ.length) = k + σ'.length := by
  rcases openersAfter?_cases h with ⟨rfl, hplain⟩ | ⟨c, rfl, ho, rfl⟩ | ⟨c, o, rfl, ho, hc, -, rfl⟩
  · cases u with
    | whole t => rfl
    | byte c =>
        obtain ⟨ho, hc⟩ := hplain c rfl
        simp [levelAfter, ho, hc]
  · simp [levelAfter, ho, Nat.add_assoc]
  · simp [levelAfter, ho, hc]

theorem foldlM_openersAfter?_cons {σ σ' : List UInt8} {u : ListUnit} {us : List ListUnit}
    (h : (u :: us).foldlM openersAfter? σ = some σ') :
    ∃ τ, openersAfter? σ u = some τ ∧ us.foldlM openersAfter? τ = some σ' := by
  rw [List.foldlM_cons] at h
  exact Option.bind_eq_some_iff.mp h

/-- No separator cuts where something stays open around the units. -/
theorem firstCut?_inside {sep : UInt8} {us : List ListUnit} {k : Nat} :
    ∀ {σ σ' : List UInt8}, us.foldlM openersAfter? σ = some σ' →
      firstCut? sep (k + 1 + σ.length) us = none := by
  induction us with
  | nil =>
      intro σ σ' _
      rfl
  | cons u us ih =>
      intro σ σ' h
      obtain ⟨τ, hu, hus⟩ := foldlM_openersAfter?_cons h
      rw [firstCut?, if_neg (by omega), levelAfter_of_openersAfter? _ hu, ih hus]
      rfl

/-- Before and behind the first separator brackets and braces are closed. -/
theorem foldlM_of_firstCut? {sep : UInt8} (hsep : isOpener sep = false ∧ isCloser sep = false)
    {us a b : List ListUnit} : ∀ {σ : List UInt8}, us.foldlM openersAfter? σ = some [] →
      firstCut? sep σ.length us = some (a, b) →
      a.foldlM openersAfter? σ = some [] ∧ b.foldlM openersAfter? [] = some [] ∧
        firstCut? sep σ.length a = none := by
  induction us generalizing a with
  | nil =>
      intro σ _ h
      cases h
  | cons u us ih =>
      intro σ h hcut
      obtain ⟨τ, hu, hus⟩ := foldlM_openersAfter?_cons h
      rw [firstCut?] at hcut
      split_ifs at hcut with hhere
      · cases hcut
        obtain ⟨rfl, hlevel⟩ := hhere
        obtain rfl := List.length_eq_zero_iff.mp hlevel
        obtain rfl : τ = [] := by simpa [openersAfter?, hsep, eq_comm] using hu
        exact ⟨rfl, hus, rfl⟩
      · obtain ⟨⟨a', b'⟩, hrest, heq⟩ := Option.map_eq_some_iff.mp hcut
        cases heq
        have hlevel := levelAfter_of_openersAfter? 0 hu
        rw [Nat.zero_add, Nat.zero_add] at hlevel
        rw [hlevel] at hrest
        obtain ⟨ha, hb, hnone⟩ := ih hus hrest
        refine ⟨?_, hb, ?_⟩
        · rw [List.foldlM_cons, hu]
          exact ha
        · rw [firstCut?, if_neg hhere, hlevel, hnone]
          rfl

end ListUnit

/-! ## The scanners on units -/

/-- The scanners go past a text as if nothing stood there. -/
structure Skipped (t : Text) : Prop where
  separators : ∀ sep, sep = Ascii.comma ∨ sep = Ascii.colon → ∀ (depth pos : Nat) (rest : Text),
    separatorOffsets sep depth pos (t ++ rest) = separatorOffsets sep depth (pos + t.length) rest
  parenthesis : ∀ (depth : Nat) (rest : Text), closingParen? (depth + 1) (t ++ rest)
    = (closingParen? (depth + 1) rest).map (· + t.length)

/-- The scanners take a unit as it is meant. -/
def ListUnit.Plain : ListUnit → Prop
  | .whole t => Skipped t
  | .byte c => Ascii.isQuote c = false

namespace ListUnit

section Scanners

variable {sep : UInt8} {u : ListUnit} {us : List ListUnit} {σ σ' : List UInt8}

/-- The level behind a unit is the depth of the search for separators. -/
theorem Plain.separatorOffsets_append (h : u.Plain) (hsep : sep = Ascii.comma ∨ sep = Ascii.colon)
    {k : Nat} (hu : openersAfter? σ u = some σ') (hcut : ¬ (u = .byte sep ∧ k + σ.length = 0))
    (pos : Nat) (rest : Text) :
    separatorOffsets sep ((k + σ.length : Nat) : Int) pos (u.text ++ rest)
      = separatorOffsets sep ((k + σ'.length : Nat) : Int) (pos + u.text.length) rest := by
  cases u with
  | whole t =>
      cases hu
      exact h.separators sep hsep _ pos rest
  | byte c =>
      have hq : ¬ Ascii.isQuote c = true := by
        have : Ascii.isQuote c = false := h
        simp [this]
      rw [text, List.singleton_append, separatorOffsets, if_neg hq]
      rcases openersAfter?_cases hu with ⟨rfl, hplain⟩ | ⟨_, ⟨⟩, ho, rfl⟩ |
        ⟨_, o, ⟨⟩, ho, hc, -, rfl⟩
      · obtain ⟨ho, hc⟩ := hplain c rfl
        rw [if_neg (by simp [ho]), if_neg (by simp [hc]), if_neg ?_]
        · rfl
        · rintro ⟨rfl, hlevel⟩
          exact hcut ⟨rfl, by omega⟩
      · rw [if_pos ho]
        rfl
      · have hlevel : ((k + (o :: σ').length : Nat) : Int) - 1 = ((k + σ'.length : Nat) : Int) := by
          rw [List.length_cons]
          omega
        rw [if_neg (by simp [ho]), if_pos hc, hlevel]
        rfl

/-- **The search for separators goes past units without a cut.** -/
theorem separatorOffsets_units (hsep : sep = Ascii.comma ∨ sep = Ascii.colon)
    (hplain : ∀ u ∈ us, Plain u) {k : Nat} (hσ : us.foldlM openersAfter? σ = some σ')
    (hcut : firstCut? sep (k + σ.length) us = none) (pos : Nat) (rest : Text) :
    separatorOffsets sep ((k + σ.length : Nat) : Int) pos (spelling us ++ rest)
      = separatorOffsets sep ((k + σ'.length : Nat) : Int) (pos + (spelling us).length) rest := by
  induction us generalizing σ pos with
  | nil =>
      cases hσ
      rfl
  | cons u us ih =>
      obtain ⟨τ, hu, hus⟩ := foldlM_openersAfter?_cons hσ
      obtain ⟨hup, husp⟩ := List.forall_mem_cons.mp hplain
      rw [firstCut?] at hcut
      split_ifs at hcut with hhere
      rw [Option.map_eq_none_iff, levelAfter_of_openersAfter? _ hu] at hcut
      have hspelling : spelling (u :: us) = u.text ++ spelling us := rfl
      rw [hspelling, List.append_assoc, hup.separatorOffsets_append hsep hu hhere,
        ih husp hus hcut, List.length_append, Nat.add_assoc]

/-- The parentheses among the openers are those that the search for a closing parenthesis has
counted. -/
theorem Plain.closingParen?_append (h : u.Plain) (hu : openersAfter? σ u = some σ') (depth : Nat)
    (rest : Text) :
    closingParen? (depth + 1 + σ.count Ascii.lparen) (u.text ++ rest)
      = (closingParen? (depth + 1 + σ'.count Ascii.lparen) rest).map (· + u.text.length) := by
  cases u with
  | whole t =>
      cases hu
      have hpast := h.parenthesis (depth + σ.count Ascii.lparen) rest
      rwa [Nat.add_right_comm] at hpast
  | byte c =>
      have hq : Ascii.isQuote c = false := h
      have hother : c ≠ Ascii.lparen → c ≠ Ascii.rparen →
          σ.count Ascii.lparen = σ'.count Ascii.lparen →
          closingParen? (depth + 1 + σ.count Ascii.lparen) (c :: rest)
            = (closingParen? (depth + 1 + σ'.count Ascii.lparen) rest).map (· + 1) := by
        intro hl hr hcount
        rw [closingParen?_byte hq hl hr, hcount]
      rcases openersAfter?_cases hu with ⟨rfl, hplain⟩ | ⟨_, ⟨⟩, ho, rfl⟩ |
        ⟨_, o, ⟨⟩, ho, hc, hfit, rfl⟩
      · obtain ⟨ho, hc⟩ := hplain c rfl
        refine hother ?_ ?_ rfl
        · rintro rfl
          cases ho
        · rintro rfl
          cases hc
      · by_cases hl : c = Ascii.lparen
        · subst hl
          rw [List.count_cons_self]
          exact closingParen?_lparen _ rest
        · refine hother hl ?_ (List.count_cons_of_ne hl).symm
          rintro rfl
          cases ho
      · have hne : c ≠ Ascii.lparen := by
          rintro rfl
          cases ho
        by_cases hl : o = Ascii.lparen
        · -- only a closing parenthesis fits
          subst hl
          obtain rfl : c = Ascii.rparen := hfit.symm
          have hdepth : depth + 1 + (Ascii.lparen :: σ').count Ascii.lparen
              = depth + σ'.count Ascii.lparen + 2 := by
            rw [List.count_cons_self]
            omega
          rw [hdepth, Nat.add_right_comm depth 1]
          exact closingParen?_rparen _ rest
        · refine hother hne ?_ (List.count_cons_of_ne hl)
          rintro rfl
          rw [closerOf, if_neg hl] at hfit
          split_ifs at hfit <;> exact absurd hfit (by decide)

/-- **The search for the closing parenthesis goes past units.** -/
theorem closingParen?_units (hplain : ∀ u ∈ us, Plain u)
    (hσ : us.foldlM openersAfter? σ = some σ') (depth : Nat) (rest : Text) :
    closingParen? (depth + 1 + σ.count Ascii.lparen) (spelling us ++ rest)
      = (closingParen? (depth + 1 + σ'.count Ascii.lparen) rest).map
        (· + (spelling us).length) := by
  induction us generalizing σ with
  | nil =>
      cases hσ
      simp [spelling]
  | cons u us ih =>
      obtain ⟨τ, hu, hus⟩ := foldlM_openersAfter?_cons hσ
      obtain ⟨hup, husp⟩ := List.forall_mem_cons.mp hplain
      have hspelling : spelling (u :: us) = u.text ++ spelling us := rfl
      have hlength : ∀ i : Nat, i + (spelling us).length + u.text.length
          = i + (spelling (u :: us)).length := by
        intro i
        rw [hspelling, List.length_append]
        omega
      rw [hspelling, List.append_assoc, hup.closingParen?_append hu, ih husp hus, ← hspelling]
      simp only [Option.map_map, Function.comp_def, hlength]

end Scanners

/-! ## Pieces and parameters -/

section Pieces

variable {us : List ListUnit}

theorem isMatched_iff : isMatched us = true ↔ us.foldlM openersAfter? [] = some [] := by
  rw [isMatched, beq_iff_eq]

/-- The separators of a matched row, from the first cut on. -/
theorem separatorOffsets_spelling {sep : UInt8} (hsep : sep = Ascii.comma ∨ sep = Ascii.colon)
    (hplain : ∀ u ∈ us, Plain u) (hmatched : isMatched us = true) (pos : Nat) :
    separatorOffsets sep 0 pos (spelling us) = match firstCut? sep 0 us with
      | none => []
      | some (a, b) => (pos + (spelling a).length)
          :: separatorOffsets sep 0 (pos + (spelling a).length + 1) (spelling b) := by
  have hσ := isMatched_iff.mp hmatched
  have hnot : isOpener sep = false ∧ isCloser sep = false ∧ Ascii.isQuote sep = false := by
    rcases hsep with rfl | rfl <;> decide
  cases hcut : firstCut? sep 0 us with
  | none =>
      have hpast := @separatorOffsets_units sep us [] [] hsep hplain 0 hσ hcut pos []
      rw [List.append_nil] at hpast
      exact hpast.trans (by rw [separatorOffsets])
  | some parts =>
      obtain ⟨a, b⟩ := parts
      obtain ⟨ha, -, hnone⟩ := @foldlM_of_firstCut? sep ⟨hnot.1, hnot.2.1⟩ us a b [] hσ hcut
      have hplainFront : ∀ u ∈ a, Plain u := by
        intro u hu
        exact hplain u (by simp [eq_append_of_firstCut? hcut, hu])
      have hpast := @separatorOffsets_units sep a [] [] hsep hplainFront 0 ha hnone pos
        (sep :: spelling b)
      rw [spelling_of_firstCut? hcut]
      refine hpast.trans ?_
      rw [separatorOffsets, if_neg (by simp [hnot.2.2]), if_neg (by simp [hnot.1]),
        if_neg (by simp [hnot.2.1]), if_pos ⟨rfl, rfl⟩]
      rfl

/-- A row of units is cut at its first colon. -/
theorem splitTopLevel?_units (hplain : ∀ u ∈ us, Plain u) (hmatched : isMatched us = true) :
    splitTopLevel? (spelling us) Ascii.colon
      = (firstCut? Ascii.colon 0 us).map fun parts => (spelling parts.1, spelling parts.2) := by
  have hoffsets := separatorOffsets_spelling (Or.inr rfl) hplain hmatched 0
  cases hcut : firstCut? Ascii.colon 0 us with
  | none =>
      rw [hcut] at hoffsets
      rw [splitTopLevel?, hoffsets]
      rfl
  | some parts =>
      rw [hcut] at hoffsets
      refine splitTopLevel?_eq_some_iff.mpr ⟨spelling_of_firstCut? hcut, ?_⟩
      rw [hoffsets, List.head?_cons, Nat.zero_add]

theorem isMatched_of_firstCut? {sep : UInt8}
    (hsep : isOpener sep = false ∧ isCloser sep = false) {a b : List ListUnit}
    (hmatched : isMatched us = true) (hcut : firstCut? sep 0 us = some (a, b)) :
    isMatched a = true ∧ isMatched b = true := by
  obtain ⟨ha, hb, -⟩ := @foldlM_of_firstCut? sep hsep us a b [] (isMatched_iff.mp hmatched) hcut
  exact ⟨isMatched_iff.mpr ha, isMatched_iff.mpr hb⟩

/-- The pieces of a matched row are made of its units and are matched rows. -/
theorem of_mem_cutUnits {sep : UInt8} (hsep : isOpener sep = false ∧ isCloser sep = false)
    (hmatched : isMatched us = true) : ∀ piece ∈ cutUnits sep us,
      (∀ u ∈ piece, u ∈ us) ∧ isMatched piece = true := by
  fun_induction cutUnits sep us with
  | case1 us hcut =>
      intro piece hpiece
      rw [List.mem_singleton.mp hpiece]
      exact ⟨fun u hu => hu, hmatched⟩
  | case2 us a b hcut ih =>
      obtain ⟨ha, hb⟩ := isMatched_of_firstCut? hsep hmatched hcut
      have hus := eq_append_of_firstCut? hcut
      intro piece hpiece
      rcases List.mem_cons.mp hpiece with rfl | hpiece
      · exact ⟨fun u hu => hus ▸ List.mem_append_left _ hu, ha⟩
      · obtain ⟨hmem, hpieceMatched⟩ := ih hb piece hpiece
        refine ⟨fun u hu => ?_, hpieceMatched⟩
        rw [hus]
        exact List.mem_append_right _ (List.mem_cons_of_mem _ (hmem u hu))

/-- **The spelling of a row is cut where the row is cut.** -/
theorem texts_piecesAt (hplain : ∀ u ∈ us, Plain u) (hmatched : isMatched us = true)
    (front : Text) :
    (piecesAt (front ++ spelling us) front.length
      (separatorOffsets Ascii.comma 0 front.length (spelling us))).map Piece.text
        = (cutUnits Ascii.comma us).map spelling := by
  -- `front` takes up the pieces that are cut off
  fun_induction cutUnits Ascii.comma us generalizing front with
  | case1 us hcut =>
      rw [separatorOffsets_spelling (Or.inl rfl) hplain hmatched, hcut, piecesAt, List.drop_left]
      rfl
  | case2 us a b hcut ih =>
      obtain ⟨-, hb⟩ := isMatched_of_firstCut? (by decide) hmatched hcut
      have hus := eq_append_of_firstCut? hcut
      have hlater := ih (fun u hu => hplain u (by simp [hus, hu])) hb
        (front ++ (spelling a ++ [Ascii.comma]))
      rw [separatorOffsets_spelling (Or.inl rfl) hplain hmatched, hcut]
      simp only [piecesAt, List.map_cons]
      rw [spelling_of_firstCut? hcut, Text.slice, List.drop_left, Nat.add_sub_cancel_left,
        List.take_left]
      simp only [List.append_assoc, List.length_append, List.length_singleton, List.cons_append,
        List.nil_append, ← Nat.add_assoc] at hlater
      rw [hlater]

/-- The parameter that a piece declares: the name in front of its first colon and the default behind
it, both without the blanks around them. A blank piece declares nothing. -/
def parameter? (us : List ListUnit) : Option Parameter :=
  if (Text.trimBlank (spelling us)).isEmpty then none
  else match firstCut? Ascii.colon 0 us with
    | some (name, default) =>
        some ⟨Text.trimBlank (spelling name), Text.trimBlank (spelling default)⟩
    | none => some ⟨Text.trimBlank (spelling us), []⟩

theorem withoutOffset_paramOfPiece?_units (hplain : ∀ u ∈ us, Plain u)
    (hmatched : isMatched us = true) (base offset : Nat) :
    (paramOfPiece? base ⟨offset, spelling us⟩).map Param.withoutOffset = parameter? us := by
  rw [withoutOffset_paramOfPiece?, parameter?, splitTopLevel?_units hplain hmatched]
  cases firstCut? Ascii.colon 0 us <;> rfl

/-- **The parameters of a list are those of its pieces.** -/
theorem readParams_units (hplain : ∀ u ∈ us, Plain u) (hmatched : isMatched us = true)
    (base : Nat) :
    (readParams (spelling us) base).map Param.withoutOffset
      = (cutUnits Ascii.comma us).filterMap parameter? := by
  have htexts := texts_piecesAt hplain hmatched []
  have hpieces := @of_mem_cutUnits us Ascii.comma (by decide) hmatched
  rw [readParams, List.map_filterMap]
  show ((piecesAt ([] ++ spelling us) ([] : Text).length _).filterMap _) = _
  generalize piecesAt ([] ++ spelling us) ([] : Text).length
    (separatorOffsets Ascii.comma 0 ([] : Text).length (spelling us)) = pieces at htexts ⊢
  generalize cutUnits Ascii.comma us = rows at htexts hpieces ⊢
  induction rows generalizing pieces with
  | nil =>
      obtain rfl := List.map_eq_nil_iff.mp htexts
      rfl
  | cons row rows ih =>
      obtain ⟨piece, pieces, rfl, htext, hrest⟩ := List.map_eq_cons_iff.mp htexts
      obtain ⟨hrow, hrows⟩ := List.forall_mem_cons.mp hpieces
      have hread := withoutOffset_paramOfPiece?_units (fun u hu => hplain u (hrow.1 u hu)) hrow.2
        base piece.offset
      rw [← htext] at hread
      rw [List.filterMap_cons, List.filterMap_cons, ih pieces hrest hrows]
      have hpiece : (⟨piece.offset, piece.text⟩ : Piece) = piece := rfl
      rw [hpiece] at hread
      rw [hread]

end Pieces

end ListUnit

end StyleIndex
