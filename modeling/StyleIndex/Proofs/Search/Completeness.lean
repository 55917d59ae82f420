import Mathlib.Tactic
import StyleIndex.Proofs.Path.Below
import StyleIndex.Proofs.Text.Decoding
import StyleIndex.Proofs.Text.Search
import StyleIndex.Search.Basic

set_option autoImplicit false

/-! # What a search finds

A search ranks what it finds by similarity, and a similarity is a floating-point number. Which
symbols it finds does not depend on that: they are those below the directory whose names have the
bytes of the query in order (`matchScore?_isSome_iff`). The ranking only arranges them.

A longer query finds less. For this the lower-case form of a query has to begin with that of its
beginning, which is wrong for texts that are cut inside a character (`toLower_append`).
-/

namespace StyleIndex

/-! ## Letter case -/

namespace Utf8

theorem characters_cons_of_lt {c : UInt8} (hc : c < 0x80) (rest : Text) :
    characters (c :: rest) = .scalar c.toNat :: characters rest := by
  have hstep : step c rest = (.scalar c.toNat, 1) := if_pos hc
  rw [characters, hstep]
  rfl

/-- A well-formed text does not begin within a character. -/
theorem StartsFresh.of_isValid {t : Text} (h : isValid t = true) : StartsFresh t := by
  cases t with
  | nil => exact startsFresh_nil
  | cons c rest =>
      refine startsFresh_cons ?_ rest
      by_contra hcont
      rw [Bool.not_eq_false] at hcont
      rw [isValid, characters, step_of_isContinuation hcont] at h
      cases h

end Utf8

namespace Text

/-- The lower-case form of an ASCII character is the same byte by byte and by its code. -/
theorem encode_lowerCode {c : UInt8} (hc : c < 0x80) :
    Utf8.encode (lowerCode c.toNat) = [Ascii.toLower c] := by
  have hlt : c.toNat < 0x80 := by simpa [UInt8.lt_iff_toNat_lt] using hc
  have hupper : (decide (0x41 ≤ c.toNat) && decide (c.toNat ≤ 0x5a)) = Ascii.isUpper c := by
    simp [Ascii.isUpper, UInt8.le_iff_toNat_le]
  rw [lowerCode, if_pos hlt, hupper, Ascii.toLower]
  split_ifs with h
  · simp only [Ascii.isUpper, Bool.and_eq_true, decide_eq_true_eq, UInt8.le_iff_toNat_le,
      UInt8.reduceToNat] at h
    rw [Utf8.encode, if_pos (by omega)]
    simp
  · rw [Utf8.encode, if_pos hlt]
    simp

/-- A text goes to lower case character by character, plain ASCII or not. -/
theorem toLower_eq (t : Text) :
    toLower t = (Utf8.characters t).flatMap fun r => Utf8.encode (lowerCode (Utf8.code r)) := by
  rw [toLower]
  split_ifs with hascii
  · induction t with
    | nil =>
        rw [Utf8.characters]
        rfl
    | cons c t ih =>
        rw [isAscii, List.all_cons, Bool.and_eq_true, decide_eq_true_eq] at hascii
        rw [Utf8.characters_cons_of_lt hascii.1, List.flatMap_cons, ← ih hascii.2, Utf8.code,
          encode_lowerCode hascii.1]
        rfl
  · rfl

theorem toLower_append (u : Text) {v : Text} (hv : Utf8.isValid v = true) :
    toLower (u ++ v) = toLower u ++ toLower v := by
  have hcut : Utf8.IsCut u v := Or.inr (Or.inr (Utf8.StartsFresh.of_isValid hv))
  rw [toLower_eq, toLower_eq, toLower_eq, Utf8.characters_append hcut, List.flatMap_append]

/-! ## Matching a name -/

/-- Taking each byte of the query where it first occurs misses no subsequence. -/
theorem isSubsequence_iff {q t : Text} : isSubsequence q t = true ↔ q.Sublist t := by
  fun_induction isSubsequence q t with
  | case1 t => simp
  | case2 a q => simp
  | case3 q b t ih => rw [ih, List.cons_sublist_cons]
  | case4 a q b t hne ih =>
      rw [ih]
      refine ⟨fun h => h.cons b, fun h => ?_⟩
      cases h with
      | cons _ h => exact h
      | cons_cons _ h => exact absurd rfl hne

theorem sublist_of_includes {t needle : Text} (h : includes t needle = true) :
    needle.Sublist t := by
  obtain ⟨i, hi⟩ := Option.isSome_iff_exists.mp h
  obtain ⟨u, after, rfl, -, -⟩ := indexOf?_eq_some hi
  exact (List.sublist_append_left needle after).trans (List.sublist_append_right u _)

end Text

/-- A name matches a query if its lower-case form has the bytes of the query in order, whichever of
the two rules finds them. -/
theorem matchScore?_isSome_iff {name lowerQuery : Text} :
    (matchScore? name lowerQuery).isSome = true ↔ lowerQuery.Sublist (Text.toLower name) := by
  simp only [matchScore?]
  split_ifs with hempty hincludes hsub
  · rw [List.isEmpty_iff] at hempty
    simp [hempty]
  · simp [Text.sublist_of_includes hincludes]
  · simp [Text.isSubsequence_iff.mp hsub]
  · rw [Text.isSubsequence_iff] at hsub
    simp [hsub]

/-! ## The symbols below a directory -/

/-- The symbols of a document as a search shows them, each with its offset. -/
def Document.shown (d : Document) : List (SymbolHit × Nat) :=
  d.symbols.map fun (name, kind, offset, position) =>
    (⟨name, kind, ⟨d.path, rangeOfName position name⟩⟩, offset)

/-- The symbols of all documents of a store that lie below a directory. -/
def Store.symbolsBelow (s : Store) (root : Text) : List (SymbolHit × Nat) :=
  ((s.records.toList.map (·.2)).filter fun d => Path.Below (s.key root) d.path).flatMap
    Document.shown

/-- The order of symbols by path, then by offset. -/
def PlacedBefore (a b : SymbolHit × Nat) : Prop :=
  a.1.location.path < b.1.location.path ∨
    a.1.location.path = b.1.location.path ∧ a.2 ≤ b.2

instance (a b : SymbolHit × Nat) : Decidable (PlacedBefore a b) :=
  inferInstanceAs (Decidable (_ ∨ _))

theorem PlacedBefore.trans {a b c : SymbolHit × Nat} (hab : PlacedBefore a b)
    (hbc : PlacedBefore b c) : PlacedBefore a c := by
  rcases hab with hab | ⟨hab, hoff⟩
  · rcases hbc with hbc | ⟨hbc, -⟩
    · exact Or.inl (List.lt_trans hab hbc)
    · exact Or.inl (hbc ▸ hab)
  · rcases hbc with hbc | ⟨hbc, hoff'⟩
    · exact Or.inl (hab ▸ hbc)
    · exact Or.inr ⟨hab.trans hbc, hoff.trans hoff'⟩

theorem placedBefore_total (a b : SymbolHit × Nat) : PlacedBefore a b ∨ PlacedBefore b a := by
  by_cases hpath : a.1.location.path = b.1.location.path
  · exact (Nat.le_total a.2 b.2).imp (fun h => Or.inr ⟨hpath, h⟩) fun h => Or.inr ⟨hpath.symm, h⟩
  · rcases List.le_total a.1.location.path b.1.location.path with h | h
    · exact Or.inl (Or.inl (Std.lt_of_le_of_ne h hpath))
    · exact Or.inr (Or.inl (Std.lt_of_le_of_ne h (Ne.symm hpath)))

/-- With equal scores a hit is ranked by its place. -/
theorem RankedHit.not_before_iff {a b : SymbolHit × Nat} :
    (!(RankedHit.mk b.1 b.2 1.0).before ⟨a.1, a.2, 1.0⟩) = true ↔ PlacedBefore a b := by
  have hscore : ((1.0 : Float) != 1.0) = false := by decide
  rw [before, if_neg (by rw [hscore]; decide), Bool.not_eq_true']
  by_cases hpath : b.1.location.path = a.1.location.path
  · rw [if_neg (not_not_intro hpath), decide_eq_false_iff_not, Nat.not_lt]
    refine ⟨fun h => Or.inr ⟨hpath.symm, h⟩, ?_⟩
    rintro (h | ⟨-, h⟩)
    · exact absurd (hpath ▸ h) (List.lt_irrefl _)
    · exact h
  · rw [if_pos hpath, decide_eq_false_iff_not]
    refine ⟨fun h => Or.inl ?_, ?_⟩
    · exact Std.lt_of_le_of_ne (List.not_lt.mp h) (Ne.symm hpath)
    · rintro (h | ⟨h, -⟩)
      · exact List.not_lt.mpr (Std.le_of_lt h)
      · exact absurd h.symm hpath

/-- The hit of a symbol, if its name matches. -/
def RankedHit.ofShown? (lowerQuery : Text) (x : SymbolHit × Nat) : Option RankedHit :=
  (matchScore? x.1.name lowerQuery).map fun score => ⟨x.1, x.2, score⟩

/-- The score that a symbol is found with does not matter to what is found. -/
theorem map_filterMap_ofShown? (lowerQuery : Text) (xs : List (SymbolHit × Nat)) :
    (xs.filterMap (RankedHit.ofShown? lowerQuery)).map (·.hit)
      = (xs.filter fun x => lowerQuery.Sublist (Text.toLower x.1.name)).map Prod.fst := by
  induction xs with
  | nil => rfl
  | cons x xs ih =>
      have hiff := @matchScore?_isSome_iff x.1.name lowerQuery
      cases hscore : matchScore? x.1.name lowerQuery with
      | none =>
          have hout : ¬ lowerQuery.Sublist (Text.toLower x.1.name) := by simpa [hscore] using hiff
          rw [List.filterMap_cons_none (by rw [RankedHit.ofShown?, hscore]; rfl), ih,
            List.filter_cons_of_neg (by simpa using hout)]
      | some score =>
          have hin : lowerQuery.Sublist (Text.toLower x.1.name) := by simpa [hscore] using hiff
          rw [List.filterMap_cons_some (b := ⟨x.1, x.2, score⟩)
              (by rw [RankedHit.ofShown?, hscore]; rfl),
            List.map_cons, ih, List.filter_cons_of_pos (by simpa using hin), List.map_cons]

theorem Document.hits_eq (lowerQuery : Text) (d : Document) :
    d.hits lowerQuery = d.shown.filterMap (RankedHit.ofShown? lowerQuery) := by
  rw [Document.hits, Document.shown, List.filterMap_map]
  rfl

namespace Store

variable (s : Store) (root : Text)

/-- The symbols below a directory in the order in which a search comes to them. -/
def visited : List (SymbolHit × Nat) :=
  (s.documents.filter fun d => Path.isUnder (s.key root) d.path).flatMap Document.shown

theorem visited_perm : (s.visited root).Perm (s.symbolsBelow root) := by
  refine List.Perm.flatMap_right _ ?_
  have hunder : (fun d : Document => Path.isUnder (s.key root) d.path)
      = fun d => decide (Path.Below (s.key root) d.path) := by
    funext d
    rw [Bool.eq_iff_iff, decide_eq_true_eq, Path.isUnder_iff]
  rw [hunder]
  exact (List.mergeSort_perm _ _).filter _

theorem search_eq (query : Text) :
    s.search root query =
      (((s.visited root).filterMap (RankedHit.ofShown? (Text.toLower query))).mergeSort
        fun a b => !b.before a).map (·.hit) := by
  have hhits : Document.hits (Text.toLower query)
      = fun d => d.shown.filterMap (RankedHit.ofShown? (Text.toLower query)) :=
    funext (Document.hits_eq _)
  rw [search, visited, List.filterMap_flatMap, ← hhits]

/-- What is found is what matches, in some order. -/
theorem search_perm (query : Text) :
    (s.search root query).Perm (((s.symbolsBelow root).filter fun x =>
      (Text.toLower query).Sublist (Text.toLower x.1.name)).map Prod.fst) := by
  rw [search_eq]
  refine ((List.mergeSort_perm _ _).map _).trans ?_
  rw [map_filterMap_ofShown?]
  exact ((s.visited_perm root).filter _).map _

/-- Every symbol matches the empty query, and they are all alike. -/
theorem search_nil : s.search root [] =
    ((s.visited root).mergeSort fun a b => decide (PlacedBefore a b)).map Prod.fst := by
  have hshown : RankedHit.ofShown? (Text.toLower [])
      = some ∘ fun x => RankedHit.mk x.1 x.2 1.0 := rfl
  rw [search_eq, hshown, List.filterMap_eq_map, ← List.map_mergeSort, List.map_map]
  · rfl
  · intro a _ b _
    rw [Bool.eq_iff_iff, decide_eq_true_eq, RankedHit.not_before_iff]

/-- **A search finds exactly the symbols that match, and a longer query finds no others.** The hits
of a search below a directory are, in some order, the symbols of the documents below it whose names
have the bytes of the query in order, case being ignored. The hits of the empty query, which are all
of these symbols, are ordered by path and then by offset. A query that is made longer by well-formed
text finds part of what it found before, each symbol at most as often. -/
theorem search_exact :
    (∀ query, (s.search root query).Perm (((s.symbolsBelow root).filter fun x =>
      (Text.toLower query).Sublist (Text.toLower x.1.name)).map Prod.fst)) ∧
    (∃ row : List (SymbolHit × Nat), row.Perm (s.symbolsBelow root) ∧ row.Pairwise PlacedBefore ∧
      s.search root [] = row.map Prod.fst) ∧
    ∀ q r, Utf8.isValid r = true → (s.search root (q ++ r)).Subperm (s.search root q) := by
  refine ⟨s.search_perm root, ⟨_, ?_, ?_, s.search_nil root⟩, ?_⟩
  · exact (List.mergeSort_perm _ _).trans (s.visited_perm root)
  · refine (List.pairwise_mergeSort ?_ ?_ _).imp of_decide_eq_true
    · intro a b c hab hbc
      exact decide_eq_true ((of_decide_eq_true hab).trans (of_decide_eq_true hbc))
    · intro a b
      rw [Bool.or_eq_true, decide_eq_true_eq, decide_eq_true_eq]
      exact placedBefore_total a b
  · intro q r hr
    rw [(s.search_perm root q).subperm_left, (s.search_perm root (q ++ r)).subperm_right]
    refine ((List.monotone_filter_right _ ?_).map _).subperm
    intro x hx
    rw [decide_eq_true_eq] at hx ⊢
    rw [Text.toLower_append q hr] at hx
    exact (List.sublist_append_left _ _).trans hx

/-- Two documents in directories of which one has the name of the other in front. -/
def siblings : Store :=
  let record := fun path => ⟨path, [⟨text "$bar", text "1", 0, ⟨0, 0⟩⟩], [], [], []⟩
  ((empty (text "/")).insert (record (text "/p/a.scss"))).insert (record (text "/p2/b.scss"))

theorem search_exact_siblings :
    Utf8.isValid (text "R") = true ∧
      (siblings.search (text "/p") (text "b" ++ text "R")).Subperm
        (siblings.search (text "/p") (text "b")) ∧
      (siblings.search (text "/p") (text "b" ++ text "R")).Perm
        [⟨text "$bar", .variableSymbol, ⟨text "/p/a.scss", ⟨⟨0, 0⟩, ⟨0, 4⟩⟩⟩⟩] := by
  obtain ⟨hperm, -, hnarrow⟩ := search_exact siblings (text "/p")
  refine ⟨by decide +kernel, hnarrow _ _ (by decide +kernel), ?_⟩
  refine (hperm _).trans (List.Perm.of_eq ?_)
  decide +kernel

end Store

end StyleIndex
