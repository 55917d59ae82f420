import Mathlib.Tactic
import StyleIndex.Editor.Reference
import StyleIndex.Proofs.Text.Position
import StyleIndex.Proofs.Text.Search

set_option autoImplicit false

/-! # The name under the cursor

A reference is found from a cursor by going to both ends of the name around it. What is found is
what the text spells at the extent of the reference, and the extent touches the cursor
(`slice_of_referenceAt?`). Since the search goes as far as it can, a reference that ends at the
cursor is not cut short by it (`not_isNameByte_of_take_eq`).
-/

namespace StyleIndex

/-- A name as a reference spells it: bytes of a name, behind a dollar sign for a variable. -/
def IsSymbolName (name : Text) : Prop :=
  ∃ sigil word, name = sigil ++ word ∧ (sigil = [] ∨ sigil = [Ascii.dollar]) ∧ word ≠ [] ∧
    ∀ c ∈ word, isNameByte c = true

namespace IsSymbolName

variable {name : Text}

theorem ne_nil (h : IsSymbolName name) : name ≠ [] := by
  obtain ⟨sigil, word, rfl, -, hword, -⟩ := h
  exact List.append_ne_nil_of_right_ne_nil sigil hword

theorem not_isLineBreak (h : IsSymbolName name) : ∀ c ∈ name, ¬ IsLineBreak c := by
  obtain ⟨sigil, word, rfl, hsigil, -, hword⟩ := h
  intro c hc hbreak
  rcases List.mem_append.mp hc with hc | hc
  · rcases hsigil with rfl | rfl
    · cases hc
    · rw [List.mem_singleton.mp hc] at hbreak
      exact absurd hbreak (by unfold IsLineBreak; decide)
  · have hname := hword c hc
    rcases hbreak with rfl | rfl
    · exact absurd hname (by decide)
    · exact absurd hname (by decide)

/-- A name ends with a byte of a name. -/
theorem getLast (h : IsSymbolName name) : isNameByte (name.getLast h.ne_nil) = true := by
  obtain ⟨sigil, word, rfl, -, hword, hbytes⟩ := id h
  rw [List.getLast_append_of_ne_nil _ hword]
  exact hbytes _ (List.getLast_mem hword)

end IsSymbolName

/-- What the reference around a place is made of: the bytes of a name before the place and those
after it, and for a variable the dollar sign in front. -/
theorem referenceBetween?_eq_some {before after : Text} {ref : SymbolReference}
    (h : referenceBetween? before after = some ref) :
    (before.takeWhile isNameByte).reverse ++ after.takeWhile isNameByte ≠ [] ∧
      ref.stop = ref.start + ref.name.length ∧
      ∃ front sigil, before.reverse = front ++ (sigil ++ (before.takeWhile isNameByte).reverse) ∧
        ref.name
          = sigil ++ ((before.takeWhile isNameByte).reverse ++ after.takeWhile isNameByte) ∧
        ref.start = front.length ∧
        ((sigil = [Ascii.dollar] ∧ ref.kind = .variableSymbol) ∨
          (sigil = [] ∧ ref.kind ≠ .variableSymbol ∧
            front.getLast? ≠ some Ascii.dollar)) := by
  have hsplit : before.reverse
      = (before.dropWhile isNameByte).reverse ++ (before.takeWhile isNameByte).reverse := by
    rw [← List.reverse_append, List.takeWhile_append_dropWhile]
  unfold referenceBetween? at h
  simp only at h
  generalize (before.takeWhile isNameByte).reverse = left at h hsplit ⊢
  generalize after.takeWhile isNameByte = right at h ⊢
  generalize before.dropWhile isNameByte = front at h hsplit
  have hne : ¬ (left ++ right).isEmpty = true := by
    intro hempty
    rw [if_pos hempty] at h
    cases h
  rw [if_neg hne] at h
  refine ⟨by simpa using hne, ?_⟩
  by_cases hdollar : front.head? = some Ascii.dollar
  · rw [if_pos hdollar] at h
    obtain ⟨front, rfl⟩ := eq_cons_of_head? hdollar
    cases h
    refine ⟨?_, front.reverse, [Ascii.dollar], ?_, rfl, ?_, Or.inl ⟨rfl, rfl⟩⟩
    · simp only [List.length_cons]
      omega
    · rw [hsplit]
      simp
    · simp
  · rw [if_neg hdollar] at h
    have hcallable : ∃ kind, kind ≠ .variableSymbol ∧
        ref = ⟨left ++ right, kind, front.length, front.length + (left ++ right).length⟩ := by
      split_ifs at h
      · cases h
        exact ⟨.mixin, by decide, rfl⟩
      · cases h
        exact ⟨.function, by decide, rfl⟩
      · cases h
        exact ⟨.function, by decide, rfl⟩
    obtain ⟨kind, hkind, rfl⟩ := hcallable
    refine ⟨rfl, front.reverse, [], hsplit, rfl, by simp, Or.inr ⟨rfl, hkind, ?_⟩⟩
    rwa [List.getLast?_reverse]

/-- The reference is what the text spells at its extent, which touches the place. -/
theorem slice_of_referenceBetween? {before after : Text} {ref : SymbolReference}
    (h : referenceBetween? before after = some ref) :
    IsSymbolName ref.name ∧
      (ref.kind = .variableSymbol → ref.name.head? = some Ascii.dollar) ∧
      Text.slice (before.reverse ++ after) ref.start ref.stop = ref.name ∧
      ref.start ≤ before.length ∧ before.length ≤ ref.stop := by
  obtain ⟨hne, hstop, front, sigil, hbefore, hname, hstart, hkind⟩ := referenceBetween?_eq_some h
  have hlen := congrArg List.length hbefore
  have hafter := List.takeWhile_append_dropWhile (p := isNameByte) (l := after)
  have hleft : ∀ c ∈ (before.takeWhile isNameByte).reverse, isNameByte c = true := by
    intro c hc
    exact List.mem_takeWhile_imp (List.mem_reverse.mp hc)
  generalize (before.takeWhile isNameByte).reverse = left at *
  have hright : ∀ c ∈ after.takeWhile isNameByte, isNameByte c = true := by
    intro c hc
    exact List.mem_takeWhile_imp hc
  generalize after.takeWhile isNameByte = right at *
  generalize after.dropWhile isNameByte = rest at *
  simp only [List.length_reverse, List.length_append] at hlen
  refine ⟨⟨sigil, left ++ right, hname, ?_, hne, ?_⟩, ?_, ?_, ?_, ?_⟩
  · rcases hkind with ⟨hsigil, -⟩ | ⟨hsigil, -⟩
    · exact Or.inr hsigil
    · exact Or.inl hsigil
  · intro c hc
    exact (List.mem_append.mp hc).elim (hleft c) (hright c)
  · intro hvar
    rcases hkind with ⟨rfl, -⟩ | ⟨-, hnot, -⟩
    · rw [hname]
      rfl
    · exact absurd hvar hnot
  · have htext : before.reverse ++ after = front ++ (ref.name ++ rest) := by
      rw [hbefore, hname, ← hafter]
      simp
    rw [htext, hstop, hstart, Text.slice, List.drop_left, Nat.add_sub_cancel_left,
      List.take_left]
  · omega
  · rw [hstop, hname, hstart]
    simp only [List.length_append]
    omega

/-- **The reference under the cursor is what the text spells there.** -/
theorem slice_of_referenceAt? {t : Text} {offset : Nat} {ref : SymbolReference}
    (ho : offset ≤ t.length) (h : referenceAt? t offset = some ref) :
    IsSymbolName ref.name ∧
      (ref.kind = .variableSymbol → ref.name.head? = some Ascii.dollar) ∧
      t.slice ref.start ref.stop = ref.name ∧ ref.start ≤ offset ∧ offset ≤ ref.stop := by
  have hlen : (t.take offset).reverse.length = offset := by simp [ho]
  unfold referenceAt? at h
  simp only at h
  split_ifs at h with hdollar
  · -- the place is moved behind the dollar sign
    have hhead : (t.drop offset).head? = some Ascii.dollar := by
      simp only [onDollar, Bool.and_eq_true, beq_iff_eq] at hdollar
      exact hdollar.1
    obtain ⟨after, hafter⟩ := eq_cons_of_head? hhead
    rw [hafter, List.tail_cons] at h
    have htext : (Ascii.dollar :: (t.take offset).reverse).reverse ++ after = t := by
      rw [List.reverse_cons, List.reverse_reverse, List.append_assoc, List.singleton_append,
        ← hafter, List.take_append_drop]
    obtain ⟨hname, hvar, hslice, hstart, hstop⟩ := slice_of_referenceBetween? h
    rw [htext] at hslice
    rw [List.length_cons, hlen] at hstart hstop
    refine ⟨hname, hvar, hslice, ?_, by omega⟩
    obtain ⟨-, -, front, sigil, hbefore, -, hstart', hkind⟩ := referenceBetween?_eq_some h
    rw [List.takeWhile_cons, if_neg (by decide), List.reverse_nil, List.append_nil,
      List.reverse_cons, List.reverse_reverse] at hbefore
    rcases hkind with ⟨rfl, -⟩ | ⟨rfl, -, hnot⟩
    · have hlen' := congrArg List.length hbefore
      simp only [List.length_append, List.length_take, List.length_singleton] at hlen'
      omega
    · rw [List.append_nil] at hbefore
      rw [← hbefore, List.getLast?_concat] at hnot
      exact absurd rfl hnot
  · obtain ⟨hname, hvar, hslice, hstart, hstop⟩ := slice_of_referenceBetween? h
    rw [List.reverse_reverse, List.take_append_drop] at hslice
    rw [hlen] at hstart hstop
    exact ⟨hname, hvar, hslice, hstart, hstop⟩

/-- A reference that ends at the cursor does not go on behind it. -/
theorem not_isNameByte_of_take_eq {t front : Text} {offset : Nat} {ref : SymbolReference}
    (h : referenceAt? t offset = some ref) (hcut : t.take offset = front ++ ref.name)
    (hname : IsSymbolName ref.name) : ∀ c ∈ (t.drop offset).head?, isNameByte c = false := by
  have hlast : (t.take offset).reverse.head? = some (ref.name.getLast hname.ne_nil) := by
    rw [List.head?_reverse, hcut, List.getLast?_append, List.getLast?_eq_some_getLast hname.ne_nil]
    rfl
  have hoff : onDollar (t.take offset).reverse (t.drop offset) = false := by
    simp [onDollar, hlast, hname.getLast]
  simp only [referenceAt?, hoff] at h
  obtain ⟨-, -, -, sigil, -, hspelt, -, -⟩ := referenceBetween?_eq_some h
  -- the bytes before the cursor end with all of the name, so none of it stands behind the cursor
  have hbefore : (t.take offset).reverse
      = ((t.drop offset).takeWhile isNameByte).reverse
        ++ ((t.take offset).reverse.takeWhile isNameByte ++ (sigil.reverse ++ front.reverse)) := by
    conv_lhs => rw [hcut, hspelt]
    simp
  have hall : ∀ c ∈ ((t.drop offset).takeWhile isNameByte).reverse
      ++ (t.take offset).reverse.takeWhile isNameByte, isNameByte c = true := by
    intro c hc
    rcases List.mem_append.mp hc with hc | hc
    · exact List.mem_takeWhile_imp (List.mem_reverse.mp hc)
    · exact List.mem_takeWhile_imp hc
  have hlen : ((t.drop offset).takeWhile isNameByte).length = 0 := by
    have htake := congrArg (List.takeWhile isNameByte) hbefore
    rw [← List.append_assoc, List.takeWhile_append_of_pos hall] at htake
    have := congrArg List.length htake
    simp only [List.length_append, List.length_reverse] at this
    omega
  intro c hc
  by_contra hnot
  obtain ⟨rest, hrest⟩ := eq_cons_of_head? hc
  rw [hrest, List.takeWhile_cons, if_pos (by simpa using hnot)] at hlen
  cases hlen

end StyleIndex
