import Mathlib.Data.List.TakeWhile
import Mathlib.Tactic
import StyleIndex.Editor.Location
import StyleIndex.Proofs.Text.Decoding

set_option autoImplicit false

/-! # Positions of names

A symbol is stored with the position of its name, and an editor is sent to the range of
`characterCount name` characters from there. That range is the name again when neither end of the
name cuts a character and the name holds no line break (`slice_rangeOfName`).

The position of an offset depends on the text up to and including that offset only
(`positionAt_congr`). So it may be taken in a text that goes on differently.
-/

namespace StyleIndex

/-! ## Lines -/

/-- The bytes that end a line. -/
def IsLineBreak (c : UInt8) : Prop := c = Ascii.lf ∨ c = Ascii.cr

/-- A line starts behind a line break. -/
theorem isLineBreak_of_mem_lineStartsAfter {n : Nat} {t : Text} :
    ∀ {pos : Nat}, n ∈ lineStartsAfter pos t →
      pos < n ∧ ∃ c, t[n - 1 - pos]? = some c ∧ IsLineBreak c := by
  induction t with
  | nil =>
      intro pos h
      cases h
  | cons c rest ih =>
      intro pos h
      -- the line starts behind `c`, or further on
      have hcases : (n = pos + 1 ∧ IsLineBreak c) ∨ n ∈ lineStartsAfter (pos + 1) rest := by
        rw [lineStartsAfter] at h
        split_ifs at h with hbreak
        · rcases List.mem_cons.mp h with hn | hrest
          · exact Or.inl ⟨hn, hbreak.imp id And.left⟩
          · exact Or.inr hrest
        · exact Or.inr h
      rcases hcases with ⟨rfl, hbreak⟩ | hrest
      · exact ⟨Nat.lt_succ_self pos, c, by simp, hbreak⟩
      · obtain ⟨hlt, d, hd, hbreak⟩ := ih hrest
        have hindex : n - 1 - pos = n - 1 - (pos + 1) + 1 := by omega
        refine ⟨by omega, d, ?_, hbreak⟩
        rw [hindex, List.getElem?_cons_succ]
        exact hd

theorem takeWhile_lineStartsAfter_eq_nil {s pos : Nat} (h : s ≤ pos) (t : Text) :
    (lineStartsAfter pos t).takeWhile (· ≤ s) = [] := by
  cases hstarts : lineStartsAfter pos t with
  | nil => rfl
  | cons n rest =>
      have hmem : n ∈ lineStartsAfter pos t := by
        rw [hstarts]
        exact List.mem_cons_self
      have hlt := (isLineBreak_of_mem_lineStartsAfter hmem).1
      rw [List.takeWhile_cons, if_neg (by simp; omega)]

/-- The lines that start up to offset `s` can be told from the bytes up to `s`. -/
theorem takeWhile_lineStartsAfter_congr {s : Nat} (v v' : Text) {u : Text} :
    ∀ {pos : Nat}, pos + u.length = s + 1 →
      (lineStartsAfter pos (u ++ v)).takeWhile (· ≤ s)
        = (lineStartsAfter pos (u ++ v')).takeWhile (· ≤ s) := by
  induction u with
  | nil =>
      intro pos h
      rw [List.length_nil] at h
      rw [takeWhile_lineStartsAfter_eq_nil (by omega), takeWhile_lineStartsAfter_eq_nil (by omega)]
  | cons c u ih =>
      intro pos h
      rw [List.length_cons] at h
      cases u with
      | nil =>
          rw [List.length_nil] at h
          rw [takeWhile_lineStartsAfter_eq_nil (by omega),
            takeWhile_lineStartsAfter_eq_nil (by omega)]
      | cons d u =>
          have hrest := @ih (pos + 1) (by omega)
          -- whether `c` ends a line can be told from `d`
          have hstarts : ∀ w : Text, lineStartsAfter pos (c :: d :: u ++ w)
              = if c = Ascii.lf ∨ (c = Ascii.cr ∧ d ≠ Ascii.lf) then
                  (pos + 1) :: lineStartsAfter (pos + 1) (d :: u ++ w)
                else lineStartsAfter (pos + 1) (d :: u ++ w) := by
            intro w
            simp [lineStartsAfter]
          rw [hstarts, hstarts]
          split_ifs
          · rw [List.takeWhile_cons, List.takeWhile_cons, hrest]
          · exact hrest

namespace LineIndex

theorem lineAt_congr {p : Text} {s : Nat} (h : p.length = s + 1) (v v' : Text) :
    (ofText (p ++ v)).lineAt s = (ofText (p ++ v')).lineAt s := by
  simp only [lineAt, ofText]
  rw [List.takeWhile_cons, List.takeWhile_cons,
    takeWhile_lineStartsAfter_congr v v' (by omega)]

/-- The line that holds an offset starts at it or before it. -/
theorem lineAt_snd_le (l : LineIndex) (s : Nat) : (l.lineAt s).2 ≤ s := by
  simp only [lineAt]
  rcases List.eq_nil_or_concat (l.starts.takeWhile (· ≤ s)) with hnil | ⟨a, n, hn⟩
  · rw [hnil]
    exact Nat.zero_le s
  · have hmem : n ∈ l.starts.takeWhile (· ≤ s) := by
      rw [hn]
      simp
    rw [hn, List.concat_eq_append, List.getLastD_concat]
    simpa using List.mem_takeWhile_imp hmem

/-- **The position of an offset depends on the bytes up to it only.** -/
theorem positionAt_congr {p : Text} {s : Nat} (h : p.length = s + 1) (v v' : Text) :
    (ofText (p ++ v)).positionAt s = (ofText (p ++ v')).positionAt s := by
  have hmin : ∀ w : Text, min s (p ++ w).length = s := by
    intro w
    rw [List.length_append]
    omega
  have hstart := lineAt_snd_le (ofText (p ++ v')) s
  have hslice : ∀ w : Text, (p ++ w).slice ((ofText (p ++ v')).lineAt s).2 s
      = p.slice ((ofText (p ++ v')).lineAt s).2 s := by
    intro w
    rw [Text.slice, Text.slice, List.drop_append_of_le_length (by omega),
      List.take_append_of_le_length (by rw [List.length_drop]; omega)]
  simp only [positionAt, Int.toNat_natCast]
  have htext : ∀ w : Text, (ofText (p ++ w)).text = p ++ w := fun w => rfl
  rw [htext, htext, hmin, hmin, lineAt_congr h v v', hslice, hslice]

/-- Texts that agree up to the byte at an offset, and maybe further, have the same position
there. -/
theorem positionAt_append_congr {p : Text} {s : Nat} (h : s < p.length) (v v' : Text) :
    (ofText (p ++ v)).positionAt s = (ofText (p ++ v')).positionAt s := by
  have hlen : (p.take (s + 1)).length = s + 1 := by
    rw [List.length_take]
    omega
  rw [← List.take_append_drop (s + 1) p, List.append_assoc, List.append_assoc]
  exact positionAt_congr hlen _ _

/-- No line begins behind bytes that are no line breaks. -/
theorem lineAt_add {t : Text} {s k : Nat}
    (h : ∀ i, s ≤ i → i < s + k → ∀ c, t[i]? = some c → ¬ IsLineBreak c) :
    (ofText t).lineAt (s + k) = (ofText t).lineAt s := by
  have hsame : ∀ n ∈ (ofText t).starts, decide (n ≤ s + k) = decide (n ≤ s) := by
    intro n hn
    rcases List.mem_cons.mp hn with rfl | hn
    · simp
    · obtain ⟨hpos, c, hc, hbreak⟩ := isLineBreak_of_mem_lineStartsAfter hn
      have hnot : ¬ (s < n ∧ n ≤ s + k) := by
        rintro ⟨hlow, hhigh⟩
        exact h (n - 1) (by omega) (by omega) c hc hbreak
      rw [decide_eq_decide]
      omega
  have htake : ∀ ns : List Nat, (∀ n ∈ ns, decide (n ≤ s + k) = decide (n ≤ s)) →
      ns.takeWhile (· ≤ s + k) = ns.takeWhile (· ≤ s) := by
    intro ns hns
    induction ns with
    | nil => rfl
    | cons n ns ih =>
        rw [List.takeWhile_cons, List.takeWhile_cons, hns n List.mem_cons_self,
          ih fun m hm => hns m (List.mem_cons_of_mem _ hm)]
  rw [lineAt, lineAt, htake _ hsame]

/-- The position of an offset in a text that goes on behind it. -/
theorem positionAt_append (u v : Text) :
    (ofText (u ++ v)).positionAt u.length
      = ⟨((ofText (u ++ v)).lineAt u.length).1,
          Utf8.characterCount (u.drop ((ofText (u ++ v)).lineAt u.length).2)⟩ := by
  have hmin : min u.length (ofText (u ++ v)).text.length = u.length := by
    have : (ofText (u ++ v)).text.length = u.length + v.length := List.length_append
    omega
  have hstart := lineAt_snd_le (ofText (u ++ v)) u.length
  have hslice : (u ++ v).slice ((ofText (u ++ v)).lineAt u.length).2 u.length
      = u.drop ((ofText (u ++ v)).lineAt u.length).2 := by
    rw [Text.slice, List.drop_append_of_le_length hstart, ← List.length_drop, List.take_left]
  simp only [positionAt, Int.toNat_natCast, hmin]
  rw [← hslice]
  rfl

/-- Offsets of positions on the line that holds offset `s`. The next line, if there is one,
starts behind a line break. -/
theorem offsetAt_lineAt (t : Text) (s : Nat) :
    ∃ next? : Option Nat, (∀ n ∈ next?, s < n ∧ ∃ c, t[n - 1]? = some c ∧ IsLineBreak c) ∧
      ∀ k : Nat, (ofText t).offsetAt ⟨((ofText t).lineAt s).1, k⟩
        = ((ofText t).lineAt s).2 + advance k
            ((ofText t).lineEnd ((ofText t).lineAt s).2 next? - ((ofText t).lineAt s).2)
            (t.drop ((ofText t).lineAt s).2) := by
  have hsplit : (ofText t).starts.takeWhile (· ≤ s) ++ (ofText t).starts.dropWhile (· ≤ s)
      = (ofText t).starts := List.takeWhile_append_dropWhile
  have hne : (ofText t).starts.takeWhile (· ≤ s) ≠ [] := by
    simp [ofText]
  obtain ⟨a, start, hstart⟩ := (List.eq_nil_or_concat _).resolve_left hne
  rw [List.concat_eq_append] at hstart
  refine ⟨((ofText t).starts.dropWhile (· ≤ s)).head?, ?_, ?_⟩
  · intro n hn
    have hgt : ¬ n ≤ s := by
      have := List.head?_dropWhile_not (· ≤ s) (ofText t).starts
      rw [Option.mem_def.mp hn] at this
      simpa using this
    have hmem : n ∈ (ofText t).starts := by
      rw [← hsplit]
      exact List.mem_append_right _ (List.mem_of_mem_head? hn)
    have hmem' : n ∈ lineStartsAfter 0 t := by
      rcases List.mem_cons.mp hmem with rfl | h
      · exact absurd (Nat.zero_le s) hgt
      · exact h
    obtain ⟨-, c, hc, hbreak⟩ := isLineBreak_of_mem_lineStartsAfter hmem'
    exact ⟨Nat.lt_of_not_le hgt, c, hc, hbreak⟩
  · intro k
    have hline : (ofText t).lineAt s = (a.length, start) := by
      simp only [lineAt, hstart, List.length_append, List.length_singleton,
        Nat.add_sub_cancel, List.getLastD_concat]
    have hdrop : (ofText t).starts.drop a.length
        = start :: (ofText t).starts.dropWhile (· ≤ s) := by
      calc (ofText t).starts.drop a.length
          = ((a ++ [start]) ++ (ofText t).starts.dropWhile (· ≤ s)).drop a.length := by
            rw [← hstart, hsplit]
        _ = start :: (ofText t).starts.dropWhile (· ≤ s) := by
            rw [List.append_assoc, List.drop_left, List.singleton_append]
    rw [hline]
    simp only [offsetAt, Int.toNat_natCast, hdrop]
    rw [if_neg (by omega)]
    rfl

/-- A line goes on over bytes that are no line breaks. -/
theorem le_lineEnd {t : Text} {start s stop : Nat} {next? : Option Nat} (hs : s < stop)
    (hstop : stop ≤ t.length)
    (hnext : ∀ n ∈ next?, s < n ∧ ∃ c, t[n - 1]? = some c ∧ IsLineBreak c)
    (hplain : ∀ i, s ≤ i → i < stop → ∀ c, t[i]? = some c → ¬ IsLineBreak c) :
    stop ≤ (ofText t).lineEnd start next? := by
  cases next? with
  | none => exact hstop
  | some n =>
      obtain ⟨hlt, c, hc, hbreak⟩ := hnext n rfl
      have hle : stop ≤ n - 1 := by
        by_contra hnot
        exact hplain (n - 1) (by omega) (by omega) c hc hbreak
      simp only [lineEnd]
      split_ifs with hcr
      · -- the carriage return of the line break does not stand in front of `stop` either
        by_contra hnot
        exact hplain (n - 1 - 1) (by omega) (by omega) _ hcr.2.2 (Or.inr rfl)
      · exact hle

end LineIndex

/-! ## Names -/

/-- `name` stands at an offset of `t`, and neither of its ends cuts a character. -/
def NameAt (t : Text) (offset : Nat) (name : Text) : Prop :=
  ∃ front back, t = front ++ (name ++ back) ∧ front.length = offset ∧
    Utf8.IsCut front (name ++ back) ∧ Utf8.IsCut name back

/-- **Position and offset of a name are inverse to each other, at both of its ends.** -/
theorem NameAt.offsetAt {t : Text} {offset : Nat} {name : Text} (h : NameAt t offset name)
    (hname : name ≠ []) (hplain : ∀ c ∈ name, ¬ IsLineBreak c) :
    (LineIndex.ofText t).offsetAt
        (rangeOfName ((LineIndex.ofText t).positionAt offset) name).start = offset ∧
      (LineIndex.ofText t).offsetAt
        (rangeOfName ((LineIndex.ofText t).positionAt offset) name).stop
          = offset + name.length := by
  obtain ⟨front, back, rfl, rfl, hfront, hback⟩ := h
  generalize htext : front ++ (name ++ back) = t
  have hlen : t.length = front.length + (name.length + back.length) := by
    rw [← htext, List.length_append, List.length_append]
  have hpos := List.length_pos_of_ne_nil hname
  obtain ⟨next?, hnext, hoffset⟩ := LineIndex.offsetAt_lineAt t front.length
  have hstart := LineIndex.lineAt_snd_le (LineIndex.ofText t) front.length
  have hposition := LineIndex.positionAt_append front (name ++ back)
  rw [htext] at hposition
  generalize (LineIndex.ofText t).lineAt front.length = line at hoffset hstart hposition
  -- the line reaches beyond the name
  have hend : front.length + name.length ≤ (LineIndex.ofText t).lineEnd line.2 next? := by
    refine LineIndex.le_lineEnd (by omega) (by omega) hnext ?_
    intro i hi hi' c hc
    rw [← htext, List.getElem?_append_right hi, List.getElem?_append_left (by omega)] at hc
    exact hplain c (List.mem_of_getElem? hc)
  -- the part of the line in front of the name, and the rest of the text
  have hdrop : t.drop line.2 = front.drop line.2 ++ (name ++ back) := by
    rw [← htext, List.drop_append_of_le_length hstart]
  have hcut := hfront.drop line.2
  have hlimit : (front.drop line.2).length + name.length
      ≤ (LineIndex.ofText t).lineEnd line.2 next? - line.2 := by
    rw [List.length_drop]
    omega
  rw [hposition]
  constructor
  · show (LineIndex.ofText t).offsetAt ⟨line.1, Utf8.characterCount (front.drop line.2)⟩ = _
    rw [hoffset, hdrop]
    have hadvance := Utf8.advance_append hcut 0
      ((LineIndex.ofText t).lineEnd line.2 next? - line.2) (by omega)
    rw [Nat.add_zero] at hadvance
    rw [hadvance, LineIndex.advance, List.length_drop]
    omega
  · have hstop : (rangeOfName ⟨line.1, Utf8.characterCount (front.drop line.2)⟩ name).stop
        = ⟨line.1, (Utf8.characterCount (front.drop line.2) + Utf8.characterCount name : Nat)⟩ := by
      rw [rangeOfName, Nat.cast_add]
    rw [hstop, hoffset, hdrop, Utf8.advance_append hcut _ _ (by omega)]
    have hadvance := Utf8.advance_append hback 0
      ((LineIndex.ofText t).lineEnd line.2 next? - line.2 - (front.drop line.2).length) (by omega)
    rw [Nat.add_zero] at hadvance
    rw [hadvance, LineIndex.advance, List.length_drop]
    omega

/-- **The range of a name lies between the positions of its ends.** -/
theorem NameAt.rangeOfName_eq {t : Text} {offset : Nat} {name : Text} (h : NameAt t offset name)
    (hplain : ∀ c ∈ name, ¬ IsLineBreak c) :
    rangeOfName ((LineIndex.ofText t).positionAt offset) name
      = ⟨(LineIndex.ofText t).positionAt offset,
          (LineIndex.ofText t).positionAt (offset + name.length : Nat)⟩ := by
  obtain ⟨front, back, rfl, rfl, hfront, -⟩ := h
  have hline : (LineIndex.ofText (front ++ (name ++ back))).lineAt (front.length + name.length)
      = (LineIndex.ofText (front ++ (name ++ back))).lineAt front.length := by
    refine LineIndex.lineAt_add fun i hi hi' c hc => hplain c ?_
    rw [List.getElem?_append_right hi, List.getElem?_append_left (by omega)] at hc
    exact List.mem_of_getElem? hc
  have hstart := LineIndex.lineAt_snd_le (LineIndex.ofText (front ++ (name ++ back))) front.length
  have hstop := LineIndex.positionAt_append (front ++ name) back
  rw [List.append_assoc, List.length_append, hline] at hstop
  have hcut : Utf8.IsCut front name := by
    rcases hfront with hnil | hlast | hfresh
    · exact Or.inl hnil
    · exact Or.inr (Or.inl hlast)
    · refine Or.inr (Or.inr fun c hc => hfresh c ?_)
      rw [Option.mem_def, List.head?_append, Option.mem_def.mp hc]
      rfl
  rw [hstop, LineIndex.positionAt_append, List.drop_append_of_le_length hstart, rangeOfName,
    Utf8.characterCount, Utf8.characterCount, Utf8.characterCount,
    Utf8.characters_append (hcut.drop _), List.length_append, Nat.cast_add]

/-- The range of a name holds the name. -/
theorem NameAt.slice_rangeOfName {t : Text} {offset : Nat} {name : Text} (h : NameAt t offset name)
    (hname : name ≠ []) (hplain : ∀ c ∈ name, ¬ IsLineBreak c) :
    t.slice
        ((LineIndex.ofText t).offsetAt
          (rangeOfName ((LineIndex.ofText t).positionAt offset) name).start)
        ((LineIndex.ofText t).offsetAt
          (rangeOfName ((LineIndex.ofText t).positionAt offset) name).stop) = name := by
  obtain ⟨hstart, hstop⟩ := h.offsetAt hname hplain
  obtain ⟨front, back, rfl, rfl, -, -⟩ := h
  rw [hstart, hstop, Text.slice, List.drop_left, Nat.add_sub_cancel_left, List.take_left]

/-- A name in the common part of two texts stands in both, if it does not run on in the other. -/
theorem NameAt.of_common {p x y : Text} {offset : Nat} {name : Text}
    (h : NameAt (p ++ x) offset name) (hname : name ≠ []) (hle : offset + name.length ≤ p.length)
    (hfresh : offset + name.length = p.length → Utf8.StartsFresh y) :
    NameAt (p ++ y) offset name := by
  obtain ⟨front, back, htext, rfl, hfront, hback⟩ := h
  obtain ⟨c, name, rfl⟩ := List.exists_cons_of_ne_nil hname
  rw [← List.append_assoc] at htext
  obtain ⟨w, rfl⟩ : front ++ c :: name <+: p := by
    refine List.prefix_of_prefix_length_le ⟨back, htext.symm⟩ ⟨x, rfl⟩ ?_
    rwa [List.length_append]
  rw [List.append_assoc, List.append_cancel_left_eq] at htext
  subst htext
  refine ⟨front, w ++ y, by simp, rfl, ?_, ?_⟩
  · -- the first byte of the name decides
    rcases hfront with hnil | hlast | hstart
    · exact Or.inl hnil
    · exact Or.inr (Or.inl hlast)
    · exact Or.inr (Or.inr (Utf8.startsFresh_cons (hstart c rfl) _))
  · rcases hback with hnil | hlast | hstart
    · exact Or.inl hnil
    · exact Or.inr (Or.inl hlast)
    · cases w with
      | nil =>
          refine Or.inr (Or.inr (hfresh ?_))
          rw [List.append_nil, List.length_append]
      | cons d w => exact Or.inr (Or.inr (Utf8.startsFresh_cons (hstart d rfl) _))

end StyleIndex
