import Mathlib.Tactic
import StyleIndex.Text.Basic

set_option autoImplicit false

/-! # What the searches in a text find

Each search is characterised by the place it finds: the text falls into a part before it, the
thing found, and a part after it.
-/

namespace StyleIndex

/-- A text that begins with the byte that `head?` shows. -/
theorem eq_cons_of_head? {t : Text} {c : UInt8} (h : t.head? = some c) : ∃ u, t = c :: u := by
  cases t with
  | nil => cases h
  | cons d u =>
      cases h
      exact ⟨u, rfl⟩

namespace Text

/-! ## The first byte -/

theorem byteIndex?_eq_none_iff {c : UInt8} {t : Text} : byteIndex? c t = none ↔ c ∉ t := by
  induction t with
  | nil => simp [byteIndex?]
  | cons d t ih =>
      by_cases hd : d = c
      · simp [byteIndex?, hd]
      · simp [byteIndex?, hd, ih, Ne.symm hd]

theorem byteIndex?_append {c : UInt8} {u : Text} (hu : c ∉ u) (after : Text) :
    byteIndex? c (u ++ c :: after) = some u.length := by
  induction u with
  | nil => simp [byteIndex?]
  | cons d u ih =>
      rw [List.mem_cons, not_or] at hu
      rw [List.cons_append, byteIndex?, if_neg (Ne.symm hu.1), ih hu.2]
      rfl

theorem byteIndex?_eq_some {c : UInt8} {t : Text} {i : Nat} (h : byteIndex? c t = some i) :
    ∃ u after, t = u ++ c :: after ∧ c ∉ u ∧ u.length = i := by
  induction t generalizing i with
  | nil => cases h
  | cons d t ih =>
      by_cases hd : d = c
      · rw [byteIndex?, if_pos hd] at h
        cases h
        exact ⟨[], t, by simp [hd], by simp, rfl⟩
      · rw [byteIndex?, if_neg hd] at h
        obtain ⟨j, hj, rfl⟩ := Option.map_eq_some_iff.mp h
        obtain ⟨u, after, rfl, hu, rfl⟩ := ih hj
        exact ⟨d :: u, after, rfl, by simp [hu, Ne.symm hd], rfl⟩

/-! ## The last byte -/

theorem lastByteIndex?_of_not_mem {c : UInt8} {t : Text} (h : c ∉ t) :
    lastByteIndex? c t = none := by
  induction t with
  | nil => rfl
  | cons d t ih =>
      rw [List.mem_cons, not_or] at h
      rw [lastByteIndex?, ih h.2]
      exact if_neg (Ne.symm h.1)

theorem lastByteIndex?_append {c : UInt8} (u : Text) {after : Text} (h : c ∉ after) :
    lastByteIndex? c (u ++ c :: after) = some u.length := by
  induction u with
  | nil =>
      rw [List.nil_append, lastByteIndex?, lastByteIndex?_of_not_mem h]
      exact if_pos rfl
  | cons d u ih =>
      rw [List.cons_append, lastByteIndex?, ih]
      rfl

theorem not_mem_of_lastByteIndex? {c : UInt8} {t : Text} (h : lastByteIndex? c t = none) :
    c ∉ t := by
  induction t with
  | nil => exact List.not_mem_nil
  | cons d t ih =>
      rw [lastByteIndex?] at h
      split at h
      · cases h
      · next hrest =>
        split_ifs at h with hd
        rw [List.mem_cons, not_or]
        exact ⟨Ne.symm hd, ih hrest⟩

theorem lastByteIndex?_eq_some {c : UInt8} {t : Text} {i : Nat}
    (h : lastByteIndex? c t = some i) :
    ∃ u after, t = u ++ c :: after ∧ c ∉ after ∧ u.length = i := by
  induction t generalizing i with
  | nil => cases h
  | cons d t ih =>
      rw [lastByteIndex?] at h
      split at h
      · next j hrest =>
        cases h
        obtain ⟨u, after, rfl, hafter, rfl⟩ := ih hrest
        exact ⟨d :: u, after, rfl, hafter, rfl⟩
      · next hrest =>
        split_ifs at h with hd
        cases h
        exact ⟨[], t, by rw [hd]; rfl, not_mem_of_lastByteIndex? hrest, rfl⟩

/-! ## The first occurrence of a word -/

theorem indexOf?_eq_some {needle t : Text} {i : Nat} (h : indexOf? needle t = some i) :
    ∃ u after, t = u ++ (needle ++ after) ∧ u.length = i ∧
      ∀ j < i, ¬ needle <+: t.drop j := by
  induction t generalizing i with
  | nil =>
      rw [indexOf?] at h
      by_cases hn : needle = []
      · subst hn
        cases h
        exact ⟨[], [], rfl, rfl, fun j hj => absurd hj (Nat.not_lt_zero j)⟩
      · rw [if_neg (by simpa using hn)] at h
        cases h
  | cons c t ih =>
      rw [indexOf?] at h
      by_cases hp : needle.isPrefixOf (c :: t) = true
      · rw [if_pos hp] at h
        cases h
        obtain ⟨after, hafter⟩ := List.isPrefixOf_iff_prefix.mp hp
        exact ⟨[], after, by simp [hafter], rfl, fun j hj => absurd hj (Nat.not_lt_zero j)⟩
      · rw [if_neg hp] at h
        obtain ⟨j, hj, rfl⟩ := Option.map_eq_some_iff.mp h
        obtain ⟨u, after, rfl, rfl, hfirst⟩ := ih hj
        refine ⟨c :: u, after, rfl, rfl, ?_⟩
        intro k hk
        cases k with
        | zero =>
            intro hpre
            exact hp (List.isPrefixOf_iff_prefix.mpr hpre)
        | succ k =>
            rw [List.drop_succ_cons]
            exact hfirst k (by omega)

/-- A search that fails finds the needle nowhere. -/
theorem indexOf?_eq_none {needle t : Text} (h : indexOf? needle t = none) :
    ¬ needle <:+: t := by
  induction t with
  | nil =>
      rw [List.infix_nil]
      rintro rfl
      cases h
  | cons c t ih =>
      rw [indexOf?] at h
      by_cases hp : needle.isPrefixOf (c :: t) = true
      · rw [if_pos hp] at h
        cases h
      · rw [if_neg hp] at h
        rw [List.infix_cons_iff, not_or]
        exact ⟨fun hpre => hp (List.isPrefixOf_iff_prefix.mpr hpre),
          ih (Option.map_eq_none_iff.mp h)⟩

theorem indexOf?_append {needle u after : Text} (hne : needle ≠ [])
    (hfirst : ∀ j < u.length, ¬ needle <+: (u ++ (needle ++ after)).drop j) :
    indexOf? needle (u ++ (needle ++ after)) = some u.length := by
  induction u with
  | nil =>
      obtain ⟨c, rest, rfl⟩ := List.exists_cons_of_ne_nil hne
      have hpre : (c :: rest).isPrefixOf (c :: (rest ++ after)) = true :=
        List.isPrefixOf_iff_prefix.mpr ⟨after, rfl⟩
      rw [List.nil_append, List.cons_append, indexOf?, if_pos hpre]
      rfl
  | cons c u ih =>
      have hhead : ¬ needle.isPrefixOf (c :: (u ++ (needle ++ after))) = true := by
        intro hpre
        exact hfirst 0 (by simp) (List.isPrefixOf_iff_prefix.mp hpre)
      rw [List.cons_append, indexOf?, if_neg hhead, ih]
      · rfl
      · intro j hj
        have := hfirst (j + 1) (by rw [List.length_cons]; omega)
        rwa [List.cons_append, List.drop_succ_cons] at this

/-- The first occurrence of a word is found behind bytes that differ from its first byte. -/
theorem indexOf?_of_head? {needle u after : Text} {c : UInt8} (hhead : needle.head? = some c)
    (hu : c ∉ u) : indexOf? needle (u ++ (needle ++ after)) = some u.length := by
  obtain ⟨needle, rfl⟩ := eq_cons_of_head? hhead
  refine indexOf?_append (List.cons_ne_nil _ _) ?_
  intro j hj hpre
  rw [List.drop_append_of_le_length (Nat.le_of_lt hj), List.drop_eq_getElem_cons hj] at hpre
  obtain ⟨w, hw⟩ := hpre
  have hc : c = u[j] := (List.cons.inj hw).1
  exact hu (hc ▸ List.getElem_mem hj)

/-! ## The last occurrence of a word -/

theorem lastIndexOf?_eq_none {needle t : Text} (h : lastIndexOf? needle t = none) :
    ∀ j, j < t.length → ¬ needle <+: t.drop j := by
  induction t with
  | nil =>
      intro j hj
      exact absurd hj (Nat.not_lt_zero j)
  | cons c t ih =>
      rw [lastIndexOf?] at h
      split at h
      · cases h
      · next hrest =>
        split_ifs at h with hpre
        intro j hj
        cases j with
        | zero => exact fun hfirst => hpre (List.isPrefixOf_iff_prefix.mpr hfirst)
        | succ j => exact ih hrest j (Nat.lt_of_succ_lt_succ hj)

theorem lastIndexOf?_eq_some {needle t : Text} {i : Nat} (hne : needle ≠ [])
    (h : lastIndexOf? needle t = some i) :
    needle <+: t.drop i ∧ ∀ j, j < t.length → needle <+: t.drop j → j ≤ i := by
  induction t generalizing i with
  | nil =>
      rw [lastIndexOf?, if_neg (by simpa using hne)] at h
      cases h
  | cons c t ih =>
      rw [lastIndexOf?] at h
      split at h
      · next k hrest =>
        cases h
        obtain ⟨hpre, hlast⟩ := ih hrest
        refine ⟨hpre, fun j hj hfound => ?_⟩
        cases j with
        | zero => exact Nat.zero_le _
        | succ j =>
            exact Nat.succ_le_succ (hlast j (Nat.lt_of_succ_lt_succ hj) hfound)
      · next hrest =>
        split_ifs at h with hpre
        cases h
        refine ⟨List.isPrefixOf_iff_prefix.mp hpre, fun j hj hfound => ?_⟩
        cases j with
        | zero => exact le_rfl
        | succ j =>
            exact absurd hfound (lastIndexOf?_eq_none hrest j (Nat.lt_of_succ_lt_succ hj))

end Text

end StyleIndex
