import Mathlib.Data.Bool.AllAny
import Mathlib.Tactic
import StyleIndex.Proofs.Grammar.Derivation
import StyleIndex.Proofs.Text.Search
import StyleIndex.Stylesheet.Closing

set_option autoImplicit false

/-! # The text of a value

A value may hold commas, colons and parentheses, but only inside literals and groups. `ValueText` is
the grammar of such texts. Each scanner of a declaration goes past a value text as if nothing stood
there: the cutting into units (`passing_prelude`), the search for the closing parenthesis
(`passing_closingParen?`), and the search for separators (`passing_separatorOffsets`).

The three are one induction. `Passing` collects what has to be shown of a scanner, one field for
each way to build a value text, and `Passing.valueText` is what follows. The scanners differ in what
they count: the units of a prelude depend on the number of open brackets, the search for a
parenthesis counts no square brackets, and a comma separates only where no group is open.
-/

namespace StyleIndex

/-! ## Values -/

/-- The bytes that do not stand for themselves in a value: quotes, brackets, braces, the marks `,`
and `;`, and what may begin an interpolation, a comment or an escape. -/
def valueMarks : List UInt8 :=
  [Ascii.quote, Ascii.apostrophe, Ascii.lparen, Ascii.lbracket, Ascii.lbrace, Ascii.rparen,
    Ascii.rbracket, Ascii.rbrace, Ascii.comma, Ascii.semicolon, Ascii.hash, Ascii.slash,
    Ascii.backslash]

/-- The text of a value: a row of plain bytes, of literals, and of groups in parentheses or square
brackets. A group holds a list of values. -/
inductive ValueText : Text → Prop
  | nil : ValueText []
  | append {u v : Text} : ValueText u → ValueText v → ValueText (u ++ v)
  | byte {c : UInt8} : c ∉ valueMarks → ValueText [c]
  | literal {q : UInt8} {body : Text} : Ascii.isQuote q = true →
      (∀ c ∈ body, c ≠ q ∧ c ≠ Ascii.backslash ∧ c ≠ Ascii.lf) → ValueText (q :: (body ++ [q]))
  | group {o : UInt8} {vs : List Text} : o = Ascii.lparen ∨ o = Ascii.lbracket →
      (∀ v ∈ vs, ValueText v) →
      ValueText (o :: (Text.join [Ascii.comma] vs ++ [closerOf o]))

theorem ValueText.bytes {t : Text} (h : ∀ c ∈ t, c ∉ valueMarks) : ValueText t := by
  induction t with
  | nil => exact .nil
  | cons c t ih =>
      have hrest := ih fun b hb => h b (List.mem_cons_of_mem _ hb)
      exact .append (.byte (h c List.mem_cons_self)) hrest

theorem not_isQuote_of_notMem {c : UInt8} (h : c ∉ valueMarks) : Ascii.isQuote c = false := by
  simp_all [valueMarks, Ascii.isQuote]

theorem not_isOpener_of_notMem {c : UInt8} (h : c ∉ valueMarks) : isOpener c = false := by
  simp_all [valueMarks, isOpener]

theorem not_isCloser_of_notMem {c : UInt8} (h : c ∉ valueMarks) : isCloser c = false := by
  simp_all [valueMarks, isCloser]

theorem notMem_valueMarks_of_isNameByte {c : UInt8} (h : isNameByte c = true) :
    c ∉ valueMarks := by
  have hmarks : ∀ d ∈ valueMarks, isNameByte d = false :=
    List.all_iff_forall_prop.mp rfl
  intro hmem
  rw [hmarks c hmem] at h
  cases h

/-- What is true of value texts because it is true of their parts. `P d t` says something about the
text `t` where `d` groups are open; a comma may stand inside groups only. -/
structure Passing (P : Nat → Text → Prop) : Prop where
  nil : ∀ d, P d []
  append : ∀ {d u v}, P d u → P d v → P d (u ++ v)
  byte : ∀ {d c}, c ∉ valueMarks → P d [c]
  comma : ∀ d, P (d + 1) [Ascii.comma]
  literal : ∀ {d q body}, Ascii.isQuote q = true →
    (∀ c ∈ body, c ≠ q ∧ c ≠ Ascii.backslash ∧ c ≠ Ascii.lf) → P d (q :: (body ++ [q]))
  group : ∀ {d o t}, o = Ascii.lparen ∨ o = Ascii.lbracket → P (d + 1) t →
    P d (o :: (t ++ [closerOf o]))

namespace Passing

variable {P : Nat → Text → Prop}

/-- A list of value texts is passed over inside a group. -/
theorem list (h : Passing P) {us : List Text} {d : Nat} (hus : ∀ u ∈ us, P (d + 1) u) :
    P (d + 1) (Text.join [Ascii.comma] us) := by
  fun_induction Text.join [Ascii.comma] us with
  | case1 => exact h.nil (d + 1)
  | case2 t => exact hus t List.mem_cons_self
  | case3 t rest hrest ih =>
      have hfront := h.append (hus t List.mem_cons_self) (h.comma d)
      exact h.append hfront (ih fun u hu => hus u (List.mem_cons_of_mem _ hu))

/-- **What is true of the parts is true of every value text.** -/
theorem valueText (h : Passing P) {v : Text} (hv : ValueText v) (d : Nat) : P d v := by
  induction hv generalizing d with
  | nil => exact h.nil d
  | append _ _ ihu ihv => exact h.append (ihu d) (ihv d)
  | byte hc => exact h.byte hc
  | literal hq hbody => exact h.literal hq hbody
  | group ho _ ih => exact h.group ho (h.list fun v hv => ih v hv (d + 1))

end Passing

/-! ## The scanners -/

section Scanners

variable {c q : UInt8} {body : Text}

/-- A value text can be cut into the units of a prelude, whatever stands around it. -/
theorem passing_prelude : Passing fun d t => ∃ ps : Prelude, ps.text = t ∧
    ∀ {qs : Prelude} {after : Text}, qs.WellFormed d after → (ps ++ qs).WellFormed d after where
  nil := fun _ => ⟨[], rfl, id⟩
  append := by
    rintro d _ _ ⟨ps, rfl, hps⟩ ⟨qs, rfl, hqs⟩
    refine ⟨ps ++ qs, List.flatMap_append, ?_⟩
    intro rs after hrs
    rw [List.append_assoc]
    exact hps (hqs hrs)
  byte := by
    intro d c hc
    refine ⟨[.byte c], rfl, ?_⟩
    intro qs after hqs
    refine ⟨⟨not_isQuote_of_notMem hc, ?_, ?_, ?_, ?_, ?_⟩, hqs⟩
    all_goals simp_all [valueMarks]
  comma := by
    intro d
    refine ⟨[.byte Ascii.comma], rfl, ?_⟩
    intro qs after hqs
    have hhash : ¬ Ascii.comma = Ascii.hash := by decide
    have hslash : ¬ Ascii.comma = Ascii.slash := by decide
    exact ⟨⟨rfl, by decide, by simp [hhash], by simp [hslash], by simp, by simp⟩, hqs⟩
  literal := by
    intro d q body hq hbody
    refine ⟨[.literal ⟨q, body.map .byte⟩], ?_, ?_⟩
    · simp [Prelude.text, PreludePart.text, Literal.text, List.flatMap_map, LiteralPart.text]
    · intro qs after hqs
      refine ⟨⟨hq, ?_⟩, hqs⟩
      intro p hp
      obtain ⟨c, hc, rfl⟩ := List.mem_map.mp hp
      exact hbody c hc
  group := by
    rintro d o _ ho ⟨ps, rfl, hps⟩
    refine ⟨.opening o :: (ps ++ [.closing (closerOf o)]), ?_, ?_⟩
    · simp [Prelude.text, PreludePart.text]
    · intro qs after hqs
      have hclose : Prelude.WellFormed (d + 1) after (.closing (closerOf o) :: qs) := by
        refine ⟨⟨?_, Nat.succ_pos d⟩, hqs⟩
        rcases ho with rfl | rfl
        · exact Or.inl rfl
        · exact Or.inr rfl
      have hrest := hps hclose
      rw [← List.singleton_append, ← List.append_assoc] at hrest
      exact ⟨ho, hrest⟩

/-- A literal without its own quote inside is a quotation. -/
theorem quotationExtra_literal (hq : q ∉ body) (rest : Text) :
    quotationExtra q (body ++ q :: rest) = body.length + 1 ∧
      (body ++ q :: rest).drop (body.length + 1) = rest := by
  refine ⟨by rw [quotationExtra, Text.byteIndex?_append hq], ?_⟩
  rw [← List.drop_drop, List.drop_left, List.drop_succ_cons, List.drop_zero]

theorem closingParen?_literal (hquote : Ascii.isQuote q = true) (hq : q ∉ body) (depth : Nat)
    (rest : Text) : closingParen? depth (q :: (body ++ [q]) ++ rest)
      = (closingParen? depth rest).map (· + (q :: (body ++ [q])).length) := by
  obtain ⟨hextra, hdrop⟩ := quotationExtra_literal hq rest
  rw [List.cons_append, List.append_assoc, List.singleton_append, closingParen?, if_pos hquote,
    hextra]
  simp only [hdrop, List.length_cons, List.length_append, List.length_nil]

theorem separatorOffsets_literal (hquote : Ascii.isQuote q = true) (hq : q ∉ body) (sep : UInt8)
    (depth : Int) (pos : Nat) (rest : Text) :
    separatorOffsets sep depth pos (q :: (body ++ [q]) ++ rest)
      = separatorOffsets sep depth (pos + (q :: (body ++ [q])).length) rest := by
  obtain ⟨hextra, hdrop⟩ := quotationExtra_literal hq rest
  have hlength : pos + (q :: (body ++ [q])).length = pos + 1 + (body.length + 1) := by
    simp only [List.length_cons, List.length_append, List.length_nil]
    omega
  rw [List.cons_append, List.append_assoc, List.singleton_append, separatorOffsets, if_pos hquote,
    hextra, hlength]
  simp only [hdrop]

theorem closingParen?_byte (hc : Ascii.isQuote c = false) (hl : c ≠ Ascii.lparen)
    (hr : c ≠ Ascii.rparen) (depth : Nat) (rest : Text) :
    closingParen? depth (c :: rest) = (closingParen? depth rest).map (· + 1) := by
  rw [closingParen?, if_neg (by simp [hc]), if_neg hl, if_neg hr]

theorem closingParen?_lparen (depth : Nat) (rest : Text) :
    closingParen? depth (Ascii.lparen :: rest) = (closingParen? (depth + 1) rest).map (· + 1) := by
  rw [closingParen?, if_neg (by decide), if_pos rfl]

theorem closingParen?_rparen (depth : Nat) (rest : Text) :
    closingParen? (depth + 2) (Ascii.rparen :: rest)
      = (closingParen? (depth + 1) rest).map (· + 1) := by
  rw [closingParen?, if_neg (by decide), if_neg (by decide), if_pos rfl, if_neg (by omega)]
  rfl

/-- The search for a closing parenthesis goes past a value text. -/
theorem passing_closingParen? : Passing fun _ t => ∀ (depth : Nat) (rest : Text),
    closingParen? (depth + 1) (t ++ rest)
      = (closingParen? (depth + 1) rest).map (· + t.length) where
  nil := by
    intro _ depth rest
    simp
  append := by
    intro _ u v hu hv depth rest
    rw [List.append_assoc, hu, hv, Option.map_map, List.length_append]
    congr 1
    funext i
    simp only [Function.comp_apply]
    omega
  byte := by
    intro _ c hc depth rest
    refine closingParen?_byte (not_isQuote_of_notMem hc) ?_ ?_ _ rest
    all_goals
      rintro rfl
      exact hc (by decide)
  comma := fun _ depth rest => closingParen?_byte rfl (by decide) (by decide) _ rest
  literal := fun hq hbody depth rest =>
    closingParen?_literal hq (fun hmem => (hbody _ hmem).1 rfl) (depth + 1) rest
  group := by
    intro _ o t ho ht depth rest
    have hsum : ∀ i : Nat, i + 1 + t.length + 1 = i + (o :: (t ++ [closerOf o])).length := by
      intro i
      simp only [List.length_cons, List.length_append, List.length_nil]
      omega
    rw [List.cons_append, List.append_assoc, List.singleton_append]
    rcases ho with rfl | rfl
    · -- the parenthesis of the group opens a further level, and its partner closes that one
      rw [closingParen?_lparen, ht (depth + 1)]
      show Option.map _ (Option.map _ (closingParen? (depth + 2) (Ascii.rparen :: rest))) = _
      rw [closingParen?_rparen]
      simp only [Option.map_map, Function.comp_def, hsum]
    · rw [closingParen?_byte rfl (by decide) (by decide), ht depth,
        closingParen?_byte (by decide) (by decide) (by decide)]
      simp only [Option.map_map, Function.comp_def, hsum]

theorem separatorOffsets_byte (hq : Ascii.isQuote c = false) (ho : isOpener c = false)
    (hc : isCloser c = false) {sep : UInt8} {depth : Int} (hsep : ¬ (c = sep ∧ depth = 0))
    (pos : Nat) (rest : Text) :
    separatorOffsets sep depth pos (c :: rest) = separatorOffsets sep depth (pos + 1) rest := by
  rw [separatorOffsets, if_neg (by simp [hq]), if_neg (by simp [ho]), if_neg (by simp [hc]),
    if_neg hsep]

theorem separatorOffsets_bytes {sep : UInt8} {t : Text}
    (ht : ∀ c ∈ t, c ∉ valueMarks ∧ c ≠ sep) (depth : Int) (pos : Nat) (rest : Text) :
    separatorOffsets sep depth pos (t ++ rest)
      = separatorOffsets sep depth (pos + t.length) rest := by
  induction t generalizing pos with
  | nil => rfl
  | cons c t ih =>
      obtain ⟨hmark, hsep⟩ := ht c List.mem_cons_self
      rw [List.cons_append, separatorOffsets_byte (not_isQuote_of_notMem hmark)
        (not_isOpener_of_notMem hmark) (not_isCloser_of_notMem hmark) (fun hc => hsep hc.1),
        ih fun b hb => ht b (List.mem_cons_of_mem _ hb), List.length_cons, Nat.add_assoc,
        Nat.add_comm 1]

theorem separatorOffsets_bracket {o : UInt8} (ho : o = Ascii.lparen ∨ o = Ascii.lbracket)
    (sep : UInt8) (depth : Int) (pos : Nat) (rest : Text) :
    separatorOffsets sep depth pos (o :: rest) = separatorOffsets sep (depth + 1) (pos + 1) rest ∧
      separatorOffsets sep (depth + 1) pos (closerOf o :: rest)
        = separatorOffsets sep depth (pos + 1) rest := by
  constructor
  · have hopen : Ascii.isQuote o = false ∧ isOpener o = true := by
      rcases ho with rfl | rfl <;> decide
    rw [separatorOffsets, if_neg (by simp [hopen.1]), if_pos hopen.2]
  · have hclose : Ascii.isQuote (closerOf o) = false ∧ isOpener (closerOf o) = false ∧
        isCloser (closerOf o) = true := by
      rcases ho with rfl | rfl <;> decide
    rw [separatorOffsets, if_neg (by simp [hclose.1]), if_neg (by simp [hclose.2.1]),
      if_pos hclose.2.2, add_sub_cancel_right]

/-- No comma outside its groups separates a value text. -/
theorem passing_separatorOffsets : Passing fun d t => ∀ (pos : Nat) (rest : Text),
    separatorOffsets Ascii.comma d pos (t ++ rest)
      = separatorOffsets Ascii.comma d (pos + t.length) rest where
  nil := fun _ pos rest => rfl
  append := by
    intro d u v hu hv pos rest
    rw [List.append_assoc, hu, hv, List.length_append, Nat.add_assoc]
  byte := by
    intro d c hc pos rest
    refine separatorOffsets_byte (not_isQuote_of_notMem hc) (not_isOpener_of_notMem hc)
      (not_isCloser_of_notMem hc) ?_ pos rest
    rintro ⟨rfl, -⟩
    exact hc (by decide)
  comma := fun d pos rest => separatorOffsets_byte rfl rfl rfl (by omega) pos rest
  literal := fun hq hbody pos rest =>
    separatorOffsets_literal hq (fun hmem => (hbody _ hmem).1 rfl) _ _ pos rest
  group := by
    intro d o t ho ht pos rest
    have hlength : pos + (o :: (t ++ [closerOf o])).length = pos + 1 + t.length + 1 := by
      simp only [List.length_cons, List.length_append, List.length_nil]
      omega
    rw [List.cons_append, List.append_assoc, List.singleton_append,
      (separatorOffsets_bracket ho _ _ _ _).1, ← Nat.cast_succ, ht, Nat.cast_succ,
      (separatorOffsets_bracket ho _ _ _ _).2, hlength]

theorem ValueText.separatorOffsets_append {v : Text} (hv : ValueText v) (pos : Nat) (rest : Text) :
    separatorOffsets Ascii.comma 0 pos (v ++ rest)
      = separatorOffsets Ascii.comma 0 (pos + v.length) rest :=
  passing_separatorOffsets.valueText hv 0 pos rest

end Scanners

/-! ## Lists of values -/

/-- The pieces between commas are the texts that were joined with commas. -/
theorem texts_piecesAt_join {us : List Text} (hne : us ≠ []) (hus : ∀ u ∈ us, ValueText u)
    (front : Text) :
    (piecesAt (front ++ Text.join [Ascii.comma] us) front.length
      (separatorOffsets Ascii.comma 0 front.length (Text.join [Ascii.comma] us))).map Piece.text
        = us := by
  fun_induction Text.join [Ascii.comma] us generalizing front with
  | case1 => exact absurd rfl hne
  | case2 u =>
      have hnone : separatorOffsets Ascii.comma 0 front.length u = [] := by
        have hpass := (hus u List.mem_cons_self).separatorOffsets_append front.length []
        rw [List.append_nil] at hpass
        rw [hpass, separatorOffsets]
      rw [hnone, piecesAt, List.drop_left]
      rfl
  | case3 u rest hrest ih =>
      have hcomma : separatorOffsets Ascii.comma 0 front.length
          (u ++ [Ascii.comma] ++ Text.join [Ascii.comma] rest)
            = (front.length + u.length) :: separatorOffsets Ascii.comma 0
                (front.length + u.length + 1) (Text.join [Ascii.comma] rest) := by
        rw [List.append_assoc, (hus u List.mem_cons_self).separatorOffsets_append,
          List.singleton_append, separatorOffsets]
        rfl
      have hslice : Text.slice (front ++ (u ++ [Ascii.comma] ++ Text.join [Ascii.comma] rest))
          front.length (front.length + u.length) = u := by
        rw [Text.slice, List.drop_left, Nat.add_sub_cancel_left, List.append_assoc, List.take_left]
      have hlater := ih (by simpa using hrest) (fun v hv => hus v (List.mem_cons_of_mem _ hv))
        (front ++ (u ++ [Ascii.comma]))
      rw [hcomma, piecesAt, List.map_cons, hslice]
      simp only [List.append_assoc, List.length_append, List.length_singleton] at hlater ⊢
      rw [← Nat.add_assoc] at hlater
      rw [hlater]

end StyleIndex
