import Mathlib.Tactic
import StyleIndex.Proofs.Editor.EnclosingCall
import StyleIndex.Proofs.Symbol.Value

set_option autoImplicit false

/-! # Calls that are being typed

While a call is typed, its parenthesis is open at the cursor, and so are those of the calls around
it. `signatureHelp?_openCalls` says which call an editor is told about and which of its arguments:
the last call of the row, and the argument behind as many commas as have been typed in it.

Two scanners have to agree here. The one that looks for open parentheses keeps a stack, the one that
counts commas keeps a depth, and both go past a finished argument as if nothing stood there
(`passing_openFrames?`, `passing_separatorOffsets`). The name in front of the parenthesis is read
backwards, and so is the keyword in front of the name. That search cannot leave the call around
the name: an `@` stands in no argument outside of its literals, and a quote, a comma or a bracket
ends the search (`Barred`).
-/

namespace StyleIndex

/-! ## Arguments -/

/-- The bytes that do not stand for themselves in an argument. -/
def argumentMarks : List UInt8 := Ascii.atSign :: Ascii.lf :: Ascii.cr :: valueMarks

/-- The text of an argument: a row of plain bytes, of literals, and of groups in parentheses or
square brackets. A group holds a list of arguments. -/
inductive ArgumentText : Text → Prop
  | nil : ArgumentText []
  | append {u v : Text} : ArgumentText u → ArgumentText v → ArgumentText (u ++ v)
  | byte {c : UInt8} : c ∉ argumentMarks → ArgumentText [c]
  | literal {q : UInt8} {body : Text} : Ascii.isQuote q = true →
      (∀ c ∈ body, c ≠ q ∧ c ≠ Ascii.backslash ∧ c ≠ Ascii.lf ∧ c ≠ Ascii.cr) →
      ArgumentText (q :: (body ++ [q]))
  | group {o : UInt8} {vs : List Text} : o = Ascii.lparen ∨ o = Ascii.lbracket →
      (∀ v ∈ vs, ArgumentText v) →
      ArgumentText (o :: (Text.join [Ascii.comma] vs ++ [closerOf o]))

theorem ArgumentText.bytes {t : Text} (h : ∀ c ∈ t, c ∉ argumentMarks) : ArgumentText t := by
  induction t with
  | nil => exact .nil
  | cons c t ih =>
      obtain ⟨hc, ht⟩ := List.forall_mem_cons.mp h
      exact .append (.byte hc) (ih ht)

theorem notMem_argumentMarks {c : UInt8} (h : c ∉ argumentMarks) :
    c ∉ valueMarks ∧ c ≠ Ascii.atSign := by
  simp only [argumentMarks, List.mem_cons, not_or] at h
  exact ⟨h.2.2.2, h.1⟩

/-- An argument can be passed as a value. -/
theorem ArgumentText.valueText {t : Text} (h : ArgumentText t) : ValueText t := by
  induction h with
  | nil => exact .nil
  | append _ _ ihu ihv => exact .append ihu ihv
  | byte hc => exact .byte (notMem_argumentMarks hc).1
  | literal hq hbody =>
      refine .literal hq fun c hc => ?_
      obtain ⟨hquote, hback, hlf, -⟩ := hbody c hc
      exact ⟨hquote, hback, hlf⟩
  | group ho _ ih => exact .group ho ih

/-! ## The search for open parentheses -/

/-- A literal is passed over by the search for open parentheses. -/
theorem openFrames?_quoted {q : UInt8} {body : Text} (hq : Ascii.isQuote q = true)
    (hbody : ∀ c ∈ body, c ≠ q ∧ c ≠ Ascii.backslash ∧ c ≠ Ascii.lf) (pos : Nat)
    (frames : List CallFrame) (rest : Text) :
    openFrames? pos frames (q :: (body ++ [q]) ++ rest)
      = openFrames? (pos + (q :: (body ++ [q])).length) frames rest := by
  have hliteral : Literal.WellFormed ⟨q, body.map .byte⟩ := by
    refine ⟨hq, ?_⟩
    intro p hp
    obtain ⟨c, hc, rfl⟩ := List.mem_map.mp hp
    exact hbody c hc
  have htext : Literal.text ⟨q, body.map .byte⟩ = q :: (body ++ [q]) := by
    simp [Literal.text, List.flatMap_map, LiteralPart.text]
  rw [← htext]
  exact openFrames?_literal hliteral rest

/-- A byte that begins no literal, comment or interpolation changes the frames only. -/
theorem openFrames?_single {c : UInt8} (hq : Ascii.isQuote c = false) (hs : c ≠ Ascii.slash)
    (hh : c ≠ Ascii.hash) (pos : Nat) (frames : List CallFrame) (rest : Text) :
    openFrames? pos frames (c :: rest) = openFrames? (pos + 1) (framesAfter pos frames c) rest :=
  openFrames?_byte hq (fun h => hs h.1) (fun h => hs h.1) (fun h => hh h.1)

/-- The search for open parentheses goes past a value text. -/
theorem passing_openFrames? : Passing fun _ t => ∀ (pos : Nat) (frames : List CallFrame)
    (rest : Text), openFrames? pos frames (t ++ rest)
      = openFrames? (pos + t.length) frames rest where
  nil := fun _ pos frames rest => rfl
  append := by
    intro _ u v hu hv pos frames rest
    rw [List.append_assoc, hu, hv, List.length_append, Nat.add_assoc]
  byte := by
    intro _ c hc pos frames rest
    have hne : ∀ d ∈ valueMarks, c ≠ d := by
      rintro d hd rfl
      exact hc hd
    have hframes : framesAfter pos frames c = frames := by
      rw [framesAfter, if_neg (hne _ (by decide)), if_neg (hne _ (by decide)),
        if_neg (hne _ (by decide)), if_neg (not_or.mpr ⟨hne _ (by decide), hne _ (by decide)⟩)]
    rw [List.singleton_append, openFrames?_single (not_isQuote_of_notMem hc) (hne _ (by decide))
      (hne _ (by decide)), hframes]
    rfl
  comma := fun _ pos frames rest => openFrames?_single rfl (by decide) (by decide) pos frames rest
  literal := fun hq hbody => openFrames?_quoted hq hbody
  group := by
    intro _ o t ho ht pos frames rest
    have hlength : pos + (o :: (t ++ [closerOf o])).length = pos + 1 + t.length + 1 := by
      simp only [List.length_cons, List.length_append, List.length_nil]
      omega
    rw [hlength, List.cons_append, List.append_assoc, List.singleton_append]
    rcases ho with rfl | rfl
    · -- the parenthesis of the group is pushed, and its partner takes it off again
      rw [openFrames?_single rfl (by decide) (by decide), ht,
        openFrames?_single (by decide) (by decide) (by decide)]
      rfl
    · rw [openFrames?_single rfl (by decide) (by decide), ht,
        openFrames?_single (by decide) (by decide) (by decide)]
      rfl

theorem ValueText.openFrames?_append {v : Text} (hv : ValueText v) (pos : Nat)
    (frames : List CallFrame) (rest : Text) :
    openFrames? pos frames (v ++ rest) = openFrames? (pos + v.length) frames rest :=
  passing_openFrames?.valueText hv 0 pos frames rest

/-! ## Lists of arguments -/

/-- Arguments, each with the comma that follows it. -/
def commaEnded (as : List Text) : Text := as.flatMap (· ++ [Ascii.comma])

section Lists

variable {as : List Text}

/-- The search for open parentheses goes past a list of arguments. -/
theorem openFrames?_commaEnded (has : ∀ a ∈ as, ArgumentText a) (frames : List CallFrame)
    (rest : Text) : ∀ pos : Nat,
    openFrames? pos frames (commaEnded as ++ rest)
      = openFrames? (pos + (commaEnded as).length) frames rest := by
  induction as with
  | nil => exact fun _ => rfl
  | cons a as ih =>
      intro pos
      obtain ⟨ha, has⟩ := List.forall_mem_cons.mp has
      have hcomma := passing_openFrames?.comma 0
      rw [commaEnded, List.flatMap_cons, List.append_assoc, List.append_assoc,
        ha.valueText.openFrames?_append, hcomma, ← commaEnded, ih has]
      congr 1
      simp only [List.length_append]
      omega

/-- The commas behind the arguments are counted, and no others. -/
theorem length_separatorOffsets_commaEnded (has : ∀ a ∈ as, ArgumentText a) {last : Text}
    (hlast : ArgumentText last) : ∀ pos : Nat,
    (separatorOffsets Ascii.comma 0 pos (commaEnded as ++ last)).length
      = as.length := by
  induction as with
  | nil =>
      intro pos
      have hpass := hlast.valueText.separatorOffsets_append pos []
      rw [List.append_nil, separatorOffsets] at hpass
      rw [commaEnded, List.flatMap_nil, List.nil_append, hpass]
      rfl
  | cons a as ih =>
      intro pos
      obtain ⟨ha, has⟩ := List.forall_mem_cons.mp has
      have hcomma : ∀ (pos : Nat) (rest : Text),
          separatorOffsets Ascii.comma 0 pos (Ascii.comma :: rest)
            = pos :: separatorOffsets Ascii.comma 0 (pos + 1) rest := by
        intro pos rest
        rw [separatorOffsets]
        rfl
      rw [commaEnded, List.flatMap_cons, List.append_assoc, List.append_assoc,
        ha.valueText.separatorOffsets_append, List.singleton_append, hcomma, List.length_cons,
        ← commaEnded, ih has, List.length_cons]

end Lists

/-! ## Open calls -/

/-- A call whose parenthesis is open: the name of what is called, the arguments that a comma
follows, and what has been typed of the argument behind them. -/
structure OpenCall where
  name : Text
  arguments : List Text
  last : Text
  name_ne_nil : name ≠ []
  name_bytes : ∀ c ∈ name, isNameByte c = true
  arguments_text : ∀ a ∈ arguments, ArgumentText a
  last_text : ArgumentText last

namespace OpenCall

/-- What stands behind the parenthesis. -/
def typed (c : OpenCall) : Text := commaEnded c.arguments ++ c.last

/-- The call as it has been typed. -/
def spelling (c : OpenCall) : Text := c.name ++ Ascii.lparen :: c.typed

/-- Whether a name behind the call is a name of its own: what has been typed of the last argument
ends neither in a name nor in the mark of a variable. -/
def Admits (c : OpenCall) : Prop :=
  ∀ b ∈ c.last.getLast?, isNameByte b = false ∧ b ≠ Ascii.dollar

variable (c : OpenCall)

theorem countTopLevel_typed : countTopLevel c.typed Ascii.comma = c.arguments.length :=
  length_separatorOffsets_commaEnded c.arguments_text c.last_text 0

/-- Behind a call its parenthesis is open. -/
theorem openFrames?_spelling (pos : Nat) (frames : List CallFrame) (rest : Text) :
    openFrames? pos frames (c.spelling ++ rest)
      = openFrames? (pos + c.spelling.length) (.paren (pos + c.name.length) :: frames) rest := by
  have hname : ValueText c.name :=
    .bytes fun b hb => notMem_valueMarks_of_isNameByte (c.name_bytes b hb)
  rw [spelling, List.append_assoc, hname.openFrames?_append, List.cons_append,
    openFrames?_single rfl (by decide) (by decide), framesAfter, if_pos rfl, typed,
    List.append_assoc, openFrames?_commaEnded c.arguments_text,
    c.last_text.valueText.openFrames?_append]
  congr 1
  simp only [List.length_append, List.length_cons]
  omega

/-- The search for open parentheses goes past a row of calls. -/
theorem exists_openFrames?_spellings (calls : List OpenCall) (rest : Text) :
    ∀ (pos : Nat) (frames : List CallFrame),
      ∃ behind, openFrames? pos frames (calls.flatMap spelling ++ rest)
        = openFrames? (pos + (calls.flatMap spelling).length) behind rest := by
  induction calls with
  | nil => exact fun pos frames => ⟨frames, rfl⟩
  | cons c calls ih =>
      intro pos frames
      obtain ⟨behind, hbehind⟩ :=
        ih (pos + c.spelling.length) (.paren (pos + c.name.length) :: frames)
      refine ⟨behind, ?_⟩
      rw [List.flatMap_cons, List.append_assoc, c.openFrames?_spelling, hbehind,
        List.length_append, Nat.add_assoc]

end OpenCall

/-! ## The name in front of a parenthesis -/

/-- Whether a byte ends the search for a keyword, and is not the beginning of one. -/
def barsKeyword (c : UInt8) : Bool :=
  !isNameByte c && !isLineSpace c && c != Ascii.dot && c != Ascii.atSign

/-- The text before a name in reverse, where no keyword is found: the search ends in front of an
`@`. -/
def Barred (reversed : Text) : Prop :=
  ∃ front bar rest, reversed = front ++ bar :: rest ∧ Ascii.atSign ∉ front ∧
    barsKeyword bar = true

theorem Barred.of_bar {bar : UInt8} (h : barsKeyword bar = true) (rest : Text) :
    Barred (bar :: rest) :=
  ⟨[], bar, rest, rfl, List.not_mem_nil, h⟩

/-- Nothing is found in front of an argument that is not found in front of what it follows. -/
theorem ArgumentText.barred {t : Text} (h : ArgumentText t) :
    ∀ {before : Text}, Barred before → Barred (t.reverse ++ before) := by
  induction h with
  | nil => exact id
  | append _ _ ihu ihv =>
      intro before hbefore
      rw [List.reverse_append, List.append_assoc]
      exact ihv (ihu hbefore)
  | @byte c hc =>
      rintro before ⟨front, bar, rest, rfl, hfront, hbar⟩
      refine ⟨c :: front, bar, rest, rfl, ?_, hbar⟩
      rw [List.mem_cons, not_or]
      exact ⟨Ne.symm (notMem_argumentMarks hc).2, hfront⟩
  | @literal q body hq _ =>
      intro before _
      have hbar : barsKeyword q = true := by
        rcases isQuote_iff.mp hq with rfl | rfl <;> decide
      rw [List.reverse_cons, List.reverse_append]
      exact .of_bar hbar _
  | @group o vs ho _ _ =>
      intro before _
      have hbar : barsKeyword (closerOf o) = true := by
        rcases ho with rfl | rfl <;> decide
      rw [List.reverse_cons, List.reverse_append]
      exact .of_bar hbar _

namespace Barred

variable {r : Text}

theorem dropWhile (h : Barred r) {p : UInt8 → Bool} (hp : ∀ c, barsKeyword c = true → p c = false) :
    Barred (r.dropWhile p) := by
  obtain ⟨front, bar, rest, rfl, hfront, hbar⟩ := h
  refine ⟨front.dropWhile p, bar, rest, ?_, ?_, hbar⟩
  · rw [List.dropWhile_append]
    split_ifs with hempty
    · rw [List.isEmpty_iff.mp hempty, List.dropWhile_cons_of_neg (by simp [hp bar hbar])]
      rfl
    · rfl
  · intro hmem
    exact hfront ((List.dropWhile_suffix p).subset hmem)

/-- The bar is not reached by passing over a dot. -/
theorem behindDot (h : Barred (Ascii.dot :: r)) : Barred r := by
  obtain ⟨front, bar, rest, hr, hfront, hbar⟩ := h
  cases front with
  | nil =>
      obtain ⟨rfl, -⟩ := List.cons.inj hr
      cases hbar
  | cons d front =>
      obtain ⟨-, rfl⟩ := List.cons.inj hr
      exact ⟨front, bar, rest, rfl, fun hmem => hfront (List.mem_cons_of_mem d hmem), hbar⟩

theorem ne_atSign (h : Barred r) (rest : Text) : r ≠ Ascii.atSign :: rest := by
  obtain ⟨front, bar, rest', rfl, hfront, hbar⟩ := h
  intro hr
  cases front with
  | nil =>
      obtain ⟨rfl, -⟩ := List.cons.inj hr
      cases hbar
  | cons d front =>
      obtain ⟨rfl, -⟩ := List.cons.inj hr
      exact hfront List.mem_cons_self

/-- **There is no keyword in front of a name where the search is barred.** -/
theorem precedingKeyword_eq (h : Barred r) : precedingKeyword r = [] := by
  have hname : ∀ c, barsKeyword c = true → isNameByte c = false := by
    intro c hc
    simp only [barsKeyword, Bool.and_eq_true, Bool.not_eq_true'] at hc
    exact hc.1.1.1
  have hspace : ∀ c, barsKeyword c = true → isLineSpace c = false := by
    intro c hc
    simp only [barsKeyword, Bool.and_eq_true, Bool.not_eq_true'] at hc
    exact hc.1.1.2
  unfold precedingKeyword
  extract_lets unqualified trimmed
  have hunqualified : Barred unqualified := by
    unfold unqualified
    split
    · exact h.behindDot.dropWhile hname
    · exact h
  have htrimmed : Barred (trimmed.dropWhile isNameByte) :=
    (hunqualified.dropWhile hspace).dropWhile hname
  split_ifs
  · rfl
  · split
    · next rest hrest => exact absurd hrest (htrimmed.ne_atSign rest)
    · rfl

end Barred

/-- The call of a name that begins behind `front`: the keyword in front of the name gives its kind. -/
theorem callee?_name {front name : Text} (hne : name ≠ []) (hname : ∀ c ∈ name, isNameByte c = true)
    (hfront : ∀ c ∈ front.getLast?, isNameByte c = false ∧ c ≠ Ascii.dollar)
    (hcall : ¬ (precedingKeyword front.reverse = text "mixin" ∨
      precedingKeyword front.reverse = text "function")) (rest : Text) :
    callee? (front ++ name ++ rest) (front ++ name).length
      = some ⟨name, if precedingKeyword front.reverse = text "include" then .mixin else .function,
          (front ++ name).length⟩ := by
  have hname' : ∀ c ∈ name.reverse, isNameByte c = true :=
    fun c hc => hname c (List.mem_reverse.mp hc)
  have hspace : (name.reverse ++ front.reverse).dropWhile isLineSpace
      = name.reverse ++ front.reverse := by
    obtain ⟨c, rest, hrest⟩ := List.exists_cons_of_ne_nil (List.reverse_ne_nil_iff.mpr hne)
    have hc : isNameByte c = true := hname' c (by rw [hrest]; exact List.mem_cons_self)
    have hnot : ¬ isLineSpace c = true := by
      intro hspace
      simp only [isLineSpace, Bool.or_eq_true, beq_iff_eq] at hspace
      rcases hspace with rfl | rfl <;> exact absurd hc (by decide)
    rw [hrest, List.cons_append, List.dropWhile_cons_of_neg hnot]
  have hhead : ∀ c ∈ front.reverse.head?, isNameByte c = false ∧ c ≠ Ascii.dollar := by
    rwa [List.head?_reverse]
  have htake : front.reverse.takeWhile isNameByte = [] ∧
      front.reverse.dropWhile isNameByte = front.reverse := by
    cases hrev : front.reverse with
    | nil => exact ⟨rfl, rfl⟩
    | cons c rest =>
        have hc : ¬ isNameByte c = true := by
          rw [(hhead c (by rw [hrev]; rfl)).1]
          simp
        exact ⟨List.takeWhile_cons_of_neg hc, List.dropWhile_cons_of_neg hc⟩
  have hdollar : front.reverse.head? ≠ some Ascii.dollar := by
    intro h
    exact (hhead _ h).2 rfl
  simp only [callee?, List.take_left, List.reverse_append, hspace,
    List.takeWhile_append_of_pos hname', List.dropWhile_append_of_pos hname', htake,
    List.append_nil, List.reverse_reverse]
  rw [if_neg (by simpa [hne] using hdollar), if_neg hcall]

namespace OpenCall

variable (c : OpenCall)

/-- The last argument of a call stands behind a comma or behind the parenthesis. -/
theorem exists_separator (before : Text) : ∃ front bar,
    before ++ c.spelling = front ++ [bar] ++ c.last ∧ (bar = Ascii.lparen ∨ bar = Ascii.comma) := by
  rcases List.eq_nil_or_concat c.arguments with has | ⟨as, a, has⟩
  · refine ⟨before ++ c.name, Ascii.lparen, ?_, Or.inl rfl⟩
    simp [spelling, typed, has, commaEnded]
  · refine ⟨before ++ c.name ++ Ascii.lparen :: (commaEnded as ++ a), Ascii.comma, ?_, Or.inr rfl⟩
    simp [spelling, typed, has, commaEnded]

/-- No keyword is found from inside a call. -/
theorem barred_spelling (before : Text) : Barred (before ++ c.spelling).reverse := by
  obtain ⟨front, bar, hspelling, hbar⟩ := c.exists_separator before
  have hbars : barsKeyword bar = true := by
    rcases hbar with rfl | rfl <;> rfl
  rw [hspelling, List.reverse_append, List.reverse_append]
  exact c.last_text.barred (.of_bar hbars _)

/-- A name behind a call that admits one begins there. -/
theorem Admits.getLast?_spelling {c : OpenCall} (hc : c.Admits) (before : Text) :
    ∀ b ∈ (before ++ c.spelling).getLast?, isNameByte b = false ∧ b ≠ Ascii.dollar := by
  obtain ⟨front, bar, hspelling, hbar⟩ := c.exists_separator before
  intro b hb
  rw [hspelling, List.getLast?_append, List.getLast?_concat] at hb
  cases hlast : c.last.getLast? with
  | none =>
      rw [hlast] at hb
      obtain rfl := Option.some.inj hb
      rcases hbar with rfl | rfl <;> decide
  | some d =>
      rw [hlast] at hb
      obtain rfl := Option.some.inj hb
      exact hc d hlast

end OpenCall

/-! ## The call at the cursor -/

/-- Where calls are typed: in the value of a declaration, or behind `@include`. -/
inductive CallPlace where
  | value
  | inclusion
  deriving DecidableEq

namespace CallPlace

/-- What stands in front of the outermost call. -/
def lead : CallPlace → Text
  | .value => text ".x\x7bw:"
  | .inclusion => text ".x\x7b@include "

/-- What a call inside the given calls refers to: `@include` takes a mixin, and its arguments are
values again. -/
def kind : CallPlace → List OpenCall → SymbolKind
  | .inclusion, [] => .mixin
  | _, _ => .function

/-- What stands in front of a call inside the given calls, outermost first. -/
def front (place : CallPlace) (outer : List OpenCall) : Text :=
  place.lead ++ outer.flatMap OpenCall.spelling

variable {outer : List OpenCall} (place : CallPlace)

/-- Nothing is open in front of the outermost call. -/
theorem openFrames?_lead (rest : Text) :
    openFrames? 0 [] (place.lead ++ rest) = openFrames? place.lead.length [] rest := by
  have hselector : ValueText (text ".x") := .bytes (List.all_iff_forall_prop.mp rfl)
  have hlead : ∃ u, ValueText u ∧ place.lead = text ".x" ++ Ascii.lbrace :: u := by
    cases place with
    | value => exact ⟨text "w:", .bytes (List.all_iff_forall_prop.mp rfl), by decide⟩
    | inclusion => exact ⟨text "@include ", .bytes (List.all_iff_forall_prop.mp rfl), by decide⟩
  obtain ⟨u, hu, hlead⟩ := hlead
  rw [hlead, List.append_assoc, hselector.openFrames?_append, List.cons_append,
    openFrames?_single rfl (by decide) (by decide), hu.openFrames?_append]
  congr 1
  simp only [List.length_append, List.length_cons]
  omega

/-- A name behind the calls begins there. -/
theorem getLast?_front (houter : ∀ c ∈ outer, c.Admits) :
    ∀ b ∈ (place.front outer).getLast?, isNameByte b = false ∧ b ≠ Ascii.dollar := by
  rcases List.eq_nil_or_concat outer with rfl | ⟨around, c, rfl⟩
  · have hlast : (place.front []).getLast? = some Ascii.colon ∨
        (place.front []).getLast? = some Ascii.space := by
      cases place <;> decide +kernel
    intro b hb
    rcases hlast with hlast | hlast
    · obtain rfl := Option.some.inj (hlast.symm.trans hb)
      decide
    · obtain rfl := Option.some.inj (hlast.symm.trans hb)
      decide
  · have hc : c.Admits := houter c (by simp)
    rw [front, List.concat_eq_append, List.flatMap_append, List.flatMap_singleton, ← List.append_assoc]
    exact hc.getLast?_spelling _

/-- The keyword in front of a name behind the calls. From inside a call `@include` is not seen. -/
theorem precedingKeyword_front (outer : List OpenCall) :
    precedingKeyword (place.front outer).reverse
      = if place.kind outer = .mixin then StyleIndex.text "include" else [] := by
  rcases List.eq_nil_or_concat outer with rfl | ⟨around, c, rfl⟩
  · cases place <;> decide +kernel
  · have hkind : place.kind (around.concat c) = .function := by
      cases place <;> cases around <;> rfl
    rw [hkind, front, List.concat_eq_append, List.flatMap_append, List.flatMap_singleton,
      ← List.append_assoc]
    exact (c.barred_spelling _).precedingKeyword_eq

theorem callee?_front (houter : ∀ c ∈ outer, c.Admits) (inner : OpenCall) :
    callee? (place.front outer ++ inner.spelling) (place.front outer ++ inner.name).length
      = some ⟨inner.name, place.kind outer, (place.front outer ++ inner.name).length⟩ := by
  have hkind : (if (if place.kind outer = .mixin then text "include" else []) = text "include"
      then SymbolKind.mixin else .function) = place.kind outer := by
    have hcallable : place.kind outer = .mixin ∨ place.kind outer = .function := by
      cases place <;> cases outer <;> simp [kind]
    rcases hcallable with h | h <;> rw [h] <;> decide
  have hcallee := callee?_name inner.name_ne_nil inner.name_bytes (place.getLast?_front houter)
    (by rw [place.precedingKeyword_front]; split_ifs <;> decide) (Ascii.lparen :: inner.typed)
  rw [place.precedingKeyword_front, hkind, List.append_assoc] at hcallee
  exact hcallee

/-- At the end of the text the parenthesis of the last call is the innermost open one. -/
theorem exists_openFrames?_front (outer : List OpenCall) (inner : OpenCall) :
    ∃ behind, openFrames? 0 [] (place.front outer ++ inner.spelling)
      = some (.paren (place.front outer ++ inner.name).length :: behind) := by
  obtain ⟨behind, hbehind⟩ :=
    OpenCall.exists_openFrames?_spellings outer inner.spelling place.lead.length []
  have hinner := inner.openFrames?_spelling
    (place.lead.length + (outer.flatMap OpenCall.spelling).length) behind []
  rw [List.append_nil, openFrames?_nil] at hinner
  refine ⟨behind, ?_⟩
  rw [front, List.append_assoc, openFrames?_lead, hbehind, hinner, List.length_append,
    List.length_append]

end CallPlace

theorem activeParameter_eq (ps : List Parameter) (argument : Nat) :
    activeParameter ps argument
      = if 1 ≤ ps.length ∧ ps.length ≤ argument ∧
            ps.getLast?.any (fun p => Text.endsWith p.name (text "..."))
          then ps.length - 1 else argument := by
  rcases List.eq_nil_or_concat ps with rfl | ⟨front, last, rfl⟩
  · rfl
  · simp [activeParameter]

/-- **The innermost call is found, and its arguments are counted.** Calls are typed one inside the
other, in a value or behind `@include`; the cursor stands at the end. The call found is the last
one, and the commas typed in it are counted. So an editor shows the parameter of that number, or
the last one if that takes all arguments from its own on. -/
theorem signatureHelp?_openCalls (place : CallPlace) (outer : List OpenCall) (inner : OpenCall)
    (houter : ∀ c ∈ outer, c.Admits) {t : Text} (ht : t = place.front outer ++ inner.spelling) :
    findCall? t t.length
        = some ⟨inner.name, place.kind outer, (place.front outer ++ inner.name).length⟩ ∧
      countTopLevel (t.slice ((place.front outer ++ inner.name).length + 1) t.length) Ascii.comma
        = inner.arguments.length ∧
      ∀ (s : Store) (path : Text) (found : FoundSymbol),
        (Buffer.request s ⟨path, t⟩ t.length).visible.lookup? inner.name (place.kind outer)
          = some found →
        signatureHelp? s ⟨path, t⟩ t.length
          = some ⟨signatureLabel found.name found.parameters,
              found.parameters.map Parameter.label,
              if 1 ≤ found.parameters.length ∧
                  found.parameters.length ≤ inner.arguments.length ∧
                  found.parameters.getLast?.any (fun p => Text.endsWith p.name (text "..."))
                then found.parameters.length - 1 else inner.arguments.length⟩ := by
  have hcall : findCall? t t.length
      = some ⟨inner.name, place.kind outer, (place.front outer ++ inner.name).length⟩ := by
    obtain ⟨behind, hframes⟩ := place.exists_openFrames?_front outer inner
    rw [findCall?, List.take_length, ht, hframes]
    exact place.callee?_front houter inner
  have hslice : t.slice ((place.front outer ++ inner.name).length + 1) t.length = inner.typed := by
    have hsplit : t = place.front outer ++ inner.name ++ [Ascii.lparen] ++ inner.typed := by
      rw [ht, OpenCall.spelling]
      simp only [List.append_assoc, List.singleton_append]
    have hlength : (place.front outer ++ inner.name).length + 1
        = (place.front outer ++ inner.name ++ [Ascii.lparen]).length := by
      simp only [List.length_append, List.length_singleton]
    rw [Text.slice, hlength, hsplit, List.drop_left, List.length_append, Nat.add_sub_cancel_left,
      List.take_length]
  have hcount := inner.countTopLevel_typed
  rw [← hslice] at hcount
  refine ⟨hcall, hcount, ?_⟩
  intro s path found hfound
  have hclamp : (Buffer.request s ⟨path, t⟩ t.length).offset = t.length := by
    simp [Buffer.request, Buffer.clamp]
  have htext : (Buffer.request s ⟨path, t⟩ t.length).text = t := rfl
  rw [signatureHelp?, hclamp, htext, hcall]
  show (VisibleSet.lookup? _ _ _).bind _ = _
  rw [hfound, ← activeParameter_eq, ← hcount]
  rfl

/-- A call of a mixin, behind its first argument. -/
def mixinCall : OpenCall where
  name := text "m"
  arguments := [text "$a"]
  last := text " "
  name_ne_nil := by decide
  name_bytes := List.all_iff_forall_prop.mp rfl
  arguments_text := List.forall_mem_singleton.mpr (.bytes (List.all_iff_forall_prop.mp rfl))
  last_text := .bytes (List.all_iff_forall_prop.mp rfl)

/-- A call of a function, behind a literal and a group that have commas of their own. -/
def functionCall : OpenCall where
  name := text "f"
  arguments := [text "\"(,\"", text "[1, 2]"]
  last := text " 3"
  name_ne_nil := by decide
  name_bytes := List.all_iff_forall_prop.mp rfl
  arguments_text := by
    have hliteral : ArgumentText (Ascii.quote :: (text "(," ++ [Ascii.quote])) :=
      .literal rfl (List.all_iff_forall_prop.mp rfl)
    have hvalues : ∀ v ∈ [text "1", text " 2"], ArgumentText v :=
      List.forall_mem_cons.mpr ⟨.bytes (List.all_iff_forall_prop.mp rfl),
        List.forall_mem_singleton.mpr (.bytes (List.all_iff_forall_prop.mp rfl))⟩
    exact List.forall_mem_cons.mpr
      ⟨hliteral, List.forall_mem_singleton.mpr (.group (Or.inr rfl) hvalues)⟩
  last_text := .bytes (List.all_iff_forall_prop.mp rfl)

/-- A buffer in which the function is called in an argument of the mixin. -/
def callingBuffer : Buffer :=
  ⟨text "/a.scss", text ".x\x7b@include m($a, f(\"(,\",[1, 2], 3"⟩

/-- A store where the file of the buffer imports one that declares the function. -/
def callingStore : Store :=
  ((Store.empty (text "/")).insert
    (extractLenient (text "/a.scss") (text "@import 'b';") none)).insert
    (extractLenient (text "/b.scss") (text "@function f($x, $rest...) \x7b\x7d") none)

/-- The function as the buffer sees it. -/
def calledFunction : FoundSymbol :=
  ⟨text "f", .function, [], [⟨text "$x", []⟩, ⟨text "$rest...", []⟩], 10, ⟨0, 10⟩,
    text "/b.scss", 1⟩

/-- The third argument belongs to the second parameter, which takes all that follow. -/
theorem signatureHelp?_openCalls_callingBuffer :
    mixinCall.Admits ∧
      callingBuffer.text = CallPlace.front .inclusion [mixinCall] ++ functionCall.spelling ∧
      (callingBuffer.request callingStore callingBuffer.text.length).visible.lookup? (text "f")
        .function = some calledFunction ∧
      findCall? callingBuffer.text callingBuffer.text.length = some ⟨text "f", .function, 19⟩ ∧
      signatureHelp? callingStore callingBuffer callingBuffer.text.length
        = some ⟨text "f($x, $rest...)", [text "$x", text "$rest..."], 1⟩ := by
  have hadmits : mixinCall.Admits := by
    intro b hb
    obtain rfl := Option.some.inj hb
    decide
  have htext : callingBuffer.text
      = CallPlace.front .inclusion [mixinCall] ++ functionCall.spelling := by decide +kernel
  have hfound : (callingBuffer.request callingStore callingBuffer.text.length).visible.lookup?
      (text "f") .function = some calledFunction := by decide +kernel
  obtain ⟨hcall, -, hhelp⟩ := signatureHelp?_openCalls .inclusion [mixinCall] functionCall
    (List.forall_mem_singleton.mpr hadmits) htext
  refine ⟨hadmits, htext, hfound, hcall.trans (by decide +kernel), ?_⟩
  exact (hhelp callingStore (text "/a.scss") calledFunction hfound).trans (by decide +kernel)

end StyleIndex
