import Mathlib.Tactic
import StyleIndex.Proofs.Scan.Record

set_option autoImplicit false

/-! # When two scans end with the same records

Which imported file a scan follows depends on the records it finds at that moment, and so on the
order in which files are scanned. Where imports are decided (`Store.Decided`), the order makes no
difference: a file that one scan finds to follow has a record or is followed in the other, too.

`Catches` says when a scan that starts with more, in records and in given files, catches up with
another: what it starts with beyond the other either cannot be read or is scanned by the other as
well.
`Catches.store_eq` then gives equal stores at the end. The two inductions follow the rows of the
scans: each file of one is met by the other (`Catches.met_of_mem`, `Catches.mem_of_isReadable`).

With equal starts this is the independence of a scan from its schedule (`store_eq_of_scans`).
Where an import is not decided it fails: `scans_overtaken` has a partial that is scanned before or
after the file that imports it, with a plain file beside the partial that is followed or not.
-/

namespace StyleIndex

/-! ## Decided imports -/

namespace Store

/-- Two stores with the same records are equal. -/
theorem ext_get? {s s' : Store} (hcwd : s.cwd = s'.cwd) (h : ∀ q, s.get? q = s'.get? q) :
    s = s' := by
  obtain ⟨cwd, records, keyed⟩ := s
  obtain ⟨cwd', records', keyed'⟩ := s'
  simp only at hcwd
  subst hcwd
  -- a key that is no path's key holds no record
  have hsome : ∀ (k : Text) (d : Document), records[k]? = some d ↔ records'[k]? = some d := by
    intro k d
    constructor
    · intro hd
      have hget := h d.path
      simp only [get?, atKey?, key, keyed k d hd] at hget
      rw [← hget, hd]
    · intro hd
      have hget := h d.path
      simp only [get?, atKey?, key, keyed' k d hd] at hget
      rw [hget, hd]
  have hrecords : records = records' := by
    refine Std.ExtTreeMap.ext_getElem? fun k => ?_
    exact Option.ext (hsome k)
  subst hrecords
  rfl

theorem get?_congr {s : Store} {p q : Text} (h : s.key p = s.key q) : s.get? p = s.get? q := by
  rw [get?, get?, h]

/-- Every record of `s` is one that `s₀` or `s₁` has. -/
structure Within (s₀ s s₁ : Store) : Prop where
  key : s.key = s₁.key
  isSome : ∀ p, (s.get? p).isSome = true →
    (s₀.get? p).isSome = true ∨ (s₁.get? p).isSome = true

theorem Between.within {s₀ s s₁ : Store} (h : Between s₀ s s₁) : Within s₀ s s₁ := by
  refine ⟨h.key, fun p hp => ?_⟩
  rcases h.isSome p with heq | heq
  · exact Or.inl (by rwa [← heq])
  · exact Or.inr (by rwa [← heq])

variable {s₀ s s' s₁ : Store} {fs : FileSystem} {target f q : Text}

/-- If one file alone can be taken for an import, it is followed or has a record. -/
theorem Within.onDisk_or_isSome (h : Within s₀ s s₁) (hf : f ∈ importCandidates target)
    (hfile : fs.isFile f = true)
    (hone : ∀ c ∈ importCandidates target, s₀.mayBeTaken s₁ fs c = true → s₁.key c = s₁.key f) :
    s.importedFile fs target = .onDisk (s₁.key f) ∨ (s.atKey? (s₁.key f)).isSome = true := by
  by_cases hstored : ∃ c ∈ importCandidates target, (s.get? c).isSome = true
  · -- a candidate with a record is that file
    obtain ⟨c, hc, hsome⟩ := hstored
    have htaken : s₀.mayBeTaken s₁ fs c = true := by
      rcases h.isSome c hsome with hc' | hc' <;> simp [mayBeTaken, hc']
    rw [get?, h.key, hone c hc htaken] at hsome
    exact Or.inr hsome
  · have hnone : ∀ c ∈ importCandidates target, s.get? c = none := by
      intro c hc
      by_contra hne
      exact hstored ⟨c, hc, Option.isSome_iff_ne_none.mpr hne⟩
    obtain ⟨c, hfind⟩ : ∃ c, (importCandidates target).find? fs.isFile = some c := by
      rw [← Option.isSome_iff_exists, List.find?_isSome]
      exact ⟨f, hf, hfile⟩
    have hc : fs.isFile c = true := List.find?_some hfind
    have hkey := hone c (List.mem_of_find?_eq_some hfind) (by simp [mayBeTaken, hc])
    refine Or.inl (importedFile_eq_onDisk_iff.mpr ⟨hnone, c, hfind, ?_⟩)
    rw [h.key, hkey]

/-- Where one file alone can be taken, it is the one to follow. -/
theorem Within.onDisk_congr (h : Within s₀ s s₁) (h' : Within s₀ s' s₁)
    (hf : f ∈ importCandidates target) (hfile : fs.isFile f = true)
    (hone : ∀ c ∈ importCandidates target, s₀.mayBeTaken s₁ fs c = true → s₁.key c = s₁.key f)
    (hq : s.importedFile fs target = .onDisk q) :
    s'.importedFile fs target = .onDisk q ∨ (s'.atKey? q).isSome = true := by
  obtain ⟨-, c, hfind, hkey⟩ := importedFile_eq_onDisk_iff.mp hq
  have hc : fs.isFile c = true := List.find?_some hfind
  have hcf := hone c (List.mem_of_find?_eq_some hfind) (by simp [mayBeTaken, hc])
  have hqf : s₁.key f = q := by rw [← hcf, ← h.key, hkey]
  rw [← hqf]
  exact h'.onDisk_or_isSome hf hfile hone

/-- **A decided import on the way**: a file that is followed from a store in between is followed
from any other store of such records, or has a record there. -/
theorem Decided.onDisk_of_between (h : Decided s₀ s₁ fs target) (hs : Between s₀ s s₁)
    (hs' : Within s₀ s' s₁) (hq : s.importedFile fs target = .onDisk q) :
    s'.importedFile fs target = .onDisk q ∨ (s'.atKey? q).isSome = true := by
  rcases h with hsame | ⟨f, hf, hfile, hone⟩
  · -- no candidate has a record, here or there
    obtain ⟨hnone, c, hfind, hkey⟩ := importedFile_eq_onDisk_iff.mp hq
    left
    refine importedFile_eq_onDisk_iff.mpr ⟨?_, c, hfind, by rw [hs'.key, ← hs.key, hkey]⟩
    intro b hb
    have hb₁ : (s₁.get? b).isSome = false := by
      rcases hs.isSome b with heq | heq
      · rw [← hsame b hb, ← heq, hnone b hb]
        rfl
      · rw [← heq, hnone b hb]
        rfl
    by_contra hne
    rcases hs'.isSome b (Option.isSome_iff_ne_none.mpr hne) with hb' | hb'
    · rw [hsame b hb, hb₁] at hb'
      cases hb'
    · rw [hb₁] at hb'
      cases hb'
  · exact hs.within.onDisk_congr hs' hf hfile hone hq

/-- The same the other way round, for a file that has a record in the end. -/
theorem Decided.onDisk_of_within (h : Decided s₀ s₁ fs target) (hs : Within s₀ s s₁)
    (hs' : Between s₀ s' s₁) (hq : s.importedFile fs target = .onDisk q)
    (hend : (s₁.atKey? q).isSome = true) :
    s'.importedFile fs target = .onDisk q ∨ (s'.atKey? q).isSome = true := by
  rcases h with hsame | ⟨f, hf, hfile, hone⟩
  · -- the file has a record at the end, and so it has one all the way
    obtain ⟨-, c, hfind, hkey⟩ := importedFile_eq_onDisk_iff.mp hq
    right
    have hend' : (s₁.get? c).isSome = true := by
      rw [get?, ← hs.key, hkey]
      exact hend
    have hc : (s'.get? c).isSome = true := by
      rcases hs'.isSome c with heq | heq
      · rw [heq, hsame c (List.mem_of_find?_eq_some hfind), hend']
      · rw [heq, hend']
    rwa [get?, hs'.key, ← hs.key, hkey] at hc
  · exact hs.onDisk_congr hs'.within hf hfile hone hq

end Store

/-! ## A scan that starts with more -/

namespace Index

/-- Whatever holds of a file if it holds of the files in front of it holds of all files of a
row. -/
theorem forall_mem_of_front {row : List Text} {P : Text → Prop}
    (h : ∀ before q after, row = before ++ q :: after → (∀ r ∈ before, P r) → P q) :
    ∀ q ∈ row, P q := by
  have hfront : ∀ front back, row = front ++ back → ∀ r ∈ front, P r := by
    intro front
    induction front using List.reverseRecOn with
    | nil => simp
    | append_singleton front q ih =>
        intro back hsplit
        have hsplit' : row = front ++ q :: back := by
          rw [hsplit, List.append_assoc, List.singleton_append]
        have hbefore := ih (q :: back) hsplit'
        intro r hr
        rcases List.mem_append.mp hr with hr | hr
        · exact hbefore r hr
        · obtain rfl := List.mem_singleton.mp hr
          exact h front r back hsplit' hbefore
  exact hfront row [] (List.append_nil row).symm

/-- A scan of the files `more` that starts with the index `jx` catches up with the row of a scan
of the files `given` that starts with `ix`. It is given more files and may start with more records;
these are brought up to date as well, and those that can be read are scanned in the row, too. -/
structure Catches (fs : FileSystem) (ix jx : Index) (given more row : List Text) : Prop where
  cwd : jx.store.cwd = ix.store.cwd
  given : given ⊆ more
  stored : ∀ q, (ix.store.get? q).isSome = true → (jx.store.get? q).isSome = true
  rest : ∀ q, (∃ p ∈ more, ix.store.key p = ix.store.key q) ∨ jx.store.get? q = ix.store.get? q
  refreshed : ∀ p ∈ row, jx.refreshed? fs p = ix.refreshed? fs p
  scanned : ∀ p ∈ more, fs.isReadable (ix.store.key p) = true → ix.store.key p ∈ row
  absent : ∀ p ∈ more, fs.isReadable (ix.store.key p) = false →
    (ix.scanAll fs false row).store.get? p = none

/-- All imports of the files of a row are decided on the way from one store to another. -/
def ImportsDecided (ix : Index) (fs : FileSystem) (s : Settings) (s₀ s₁ : Store)
    (row : List Text) : Prop :=
  s.scanImportedFiles = true → ∀ p ∈ row, ∀ d, ix.refreshed? fs p = some d → ∀ i ∈ d.imports,
    i.followable = true → s₀.Decided s₁ fs i.filepath

namespace Catches

variable {fs : FileSystem} {s : Settings} {ix jx : Index} {given more row row' : List Text}

theorem key (hc : Catches fs ix jx given more row) : jx.store.key = ix.store.key :=
  Store.key_congr hc.cwd

theorem key_final (ix : Index) (fs : FileSystem) (row : List Text) :
    (ix.scanAll fs false row).store.key = ix.store.key :=
  ix.key_scanAll fs false row

/-- What is known of a file that both scans have met: if it can be read it is in the row, and if not
it has no record at the end of the row. -/
def Met (fs : FileSystem) (ix : Index) (row : List Text) (q : Text) : Prop :=
  (fs.isReadable q = true → q ∈ row) ∧
    (fs.isReadable q = false → (ix.scanAll fs false row).store.get? q = none)

theorem Met.isSome_get? {q : Text} (hq : Met fs ix row q)
    (h : ix.CompleteRow fs s given row) (hcwd : Path.isAbsolute ix.store.cwd = true) :
    ((ix.scanAll fs false row).store.get? q).isSome = fs.isReadable q := by
  cases hread : fs.isReadable q with
  | true => rw [h.get?_of_mem hcwd (hq.1 hread), isSome_refreshed?, hread]
  | false =>
      rw [hq.2 hread]
      rfl

/-- The store that a file of the other scan looks up its imports in lies on the way to the end of
the row. -/
theorem between_storeAt (hc : Catches fs ix jx given more row) (h : ix.CompleteRow fs s given row)
    (h' : jx.CompleteRow fs s more row') (hcwd : Path.isAbsolute ix.store.cwd = true)
    {before after : List Text} {p : Text} (hsplit : row' = before ++ p :: after)
    (hmet : ∀ q ∈ before ++ [p], Met fs ix row q) :
    Store.Between jx.store (jx.storeAt fs before p) (ix.scanAll fs false row).store := by
  have hcwd' : Path.isAbsolute jx.store.cwd = true := by rwa [hc.cwd]
  have hkey : (jx.storeAt fs before p).key = (ix.scanAll fs false row).store.key := by
    rw [key_storeAt, hc.key, key_final]
  refine ⟨hkey, fun q => ?_⟩
  rw [h'.get?_storeAt hcwd' hsplit]
  by_cases hq : jx.store.key q ∈ before ++ [p]
  · right
    rw [if_pos hq, isSome_refreshed?, ← (hmet _ hq).isSome_get? h hcwd]
    refine congrArg Option.isSome (Store.get?_congr ?_)
    rw [key_final, hc.key]
    exact Path.absolute_absolute hcwd q
  · left
    rw [if_neg hq]

/-- So does the store that a file of the row itself looks up its imports in. -/
theorem within_storeAt (hc : Catches fs ix jx given more row) (h : ix.CompleteRow fs s given row)
    (hcwd : Path.isAbsolute ix.store.cwd = true) {before after : List Text} {p : Text}
    (hsplit : row = before ++ p :: after) :
    Store.Within jx.store (ix.storeAt fs before p) (ix.scanAll fs false row).store := by
  have hkey : (ix.storeAt fs before p).key = (ix.scanAll fs false row).store.key := by
    rw [key_storeAt, key_final]
  refine ⟨hkey, fun q hq => ?_⟩
  rw [h.get?_storeAt hcwd hsplit] at hq
  by_cases hmem : ix.store.key q ∈ before ++ [p]
  · rw [if_pos hmem] at hq
    rw [h.get?_scanAll hcwd, if_pos (CompleteRow.front_subset hsplit hmem)]
    exact Or.inr hq
  · rw [if_neg hmem] at hq
    exact Or.inl (hc.stored q hq)

/-- A file that the larger scan finds to follow, and that has a record from the start of the other,
was scanned by then and lost its record. -/
theorem mem_of_onDisk_of_stored (hc : Catches fs ix jx given more row)
    (h' : jx.CompleteRow fs s more row') (hcwd : Path.isAbsolute jx.store.cwd = true)
    {before after : List Text} {p q target : Text} (hsplit : row' = before ++ p :: after)
    (hq : (jx.storeAt fs before p).importedFile fs target = .onDisk q)
    (hstored : (ix.store.get? q).isSome = true) : q ∈ before ++ [p] := by
  by_contra hmem
  have hnone := Store.atKey?_of_onDisk hq
  rw [h'.atKey?_storeAt hcwd hsplit (key_of_onDisk hcwd hq), if_neg hmem] at hnone
  have hjx := hc.stored q hstored
  rw [hnone] at hjx
  cases hjx

variable (hc : Catches fs ix jx given more row) (h : ix.CompleteRow fs s given row)
  (h' : jx.CompleteRow fs s more row') (hcwd : Path.isAbsolute fs.cwd = true)
  (hstore : ix.store.cwd = fs.cwd) (hlenient : s.showErrors = false)
  (hdecided : ix.ImportsDecided fs s jx.store (ix.scanAll fs false row).store row)

include hc h h' hcwd hstore hlenient hdecided

/-- **Every file of the larger scan is met by the row.** -/
theorem met_of_mem : ∀ q ∈ row', Met fs ix row q := by
  have hcwd₁ : Path.isAbsolute ix.store.cwd = true := by rwa [hstore]
  have hcwd₂ : Path.isAbsolute jx.store.cwd = true := by rwa [hc.cwd]
  refine forall_mem_of_front ?_
  intro before q after hsplit hbefore
  rcases h'.origin hcwd₂ hlenient hsplit with
    ⟨r, hr, hkey⟩ | ⟨hfollow, front, p, back, d, i, hfront, hd, hi, hfollowable, hq⟩
  · -- a given file
    rw [hc.key] at hkey
    subst hkey
    refine ⟨hc.scanned r hr, fun hread => ?_⟩
    rw [← hc.absent r hr hread]
    refine Store.get?_congr ?_
    rw [key_final]
    exact Path.absolute_absolute hcwd₁ r
  · have hsplit' : row' = front ++ p :: (back ++ q :: after) := by
      rw [hsplit, hfront]
      simp
    have hfrontMet : ∀ r ∈ front ++ [p], Met fs ix row r := fun r hr =>
      hbefore r (CompleteRow.front_subset hfront hr)
    have hkey : ix.store.key q = q := by
      rw [← hc.key]
      exact key_of_onDisk hcwd₂ hq
    have hscanned : (ix.store.get? q).isSome = true → q ∈ front ++ [p] :=
      hc.mem_of_onDisk_of_stored h' hcwd₂ hsplit' hq
    constructor
    · intro hread
      -- the file that imports it is in the row, with the same record
      have hp : p ∈ row := by
        refine (hfrontMet p (by simp)).1 ?_
        rw [← isSome_refreshed? jx fs p, hd]
        rfl
      have hd' : ix.refreshed? fs p = some d := by rw [← hc.refreshed p hp, hd]
      obtain ⟨before', after', hrow, -⟩ := h.exists_split hp
      have hbetween := hc.between_storeAt h h' hcwd₁ hsplit' hfrontMet
      have hwithin := hc.within_storeAt h hcwd₁ hrow
      rcases (hdecided hfollow p hp d hd' i hi hfollowable).onDisk_of_between hbetween hwithin hq
        with hdisk | hsome
      · exact h.mem_of_onDisk hcwd₁ hlenient hfollow hrow hd' hi hfollowable hdisk
      · -- it has a record when the row looks it up: it was scanned, or had one from the start
        rw [h.atKey?_storeAt hcwd₁ hrow hkey] at hsome
        by_cases hmem : q ∈ before' ++ [p]
        · exact CompleteRow.front_subset hrow hmem
        · rw [if_neg hmem] at hsome
          exact (hfrontMet q (hscanned hsome)).1 hread
    · -- a file that cannot be read loses its record when it is scanned
      intro hread
      rw [h.get?_scanAll hcwd₁, hkey]
      by_cases hmem : q ∈ row
      · rw [if_pos hmem, refreshed?_eq_none hread]
      · rw [if_neg hmem, ← Option.not_isSome_iff_eq_none]
        intro hstored
        have hnone := (hfrontMet q (hscanned hstored)).2 hread
        rw [h.get?_scanAll hcwd₁, hkey, if_neg hmem] at hnone
        rw [hnone] at hstored
        cases hstored

/-- **Every file of the row is scanned by the larger scan**, if it can be read. -/
theorem mem_of_isReadable : ∀ q ∈ row, fs.isReadable q = true → q ∈ row' := by
  have hcwd₁ : Path.isAbsolute ix.store.cwd = true := by rwa [hstore]
  have hcwd₂ : Path.isAbsolute jx.store.cwd = true := by rwa [hc.cwd]
  have hmet := hc.met_of_mem h h' hcwd hstore hlenient hdecided
  refine forall_mem_of_front ?_
  intro before q after hsplit hbefore hread
  rcases h.origin hcwd₁ hlenient hsplit with
    ⟨r, hr, hkey⟩ | ⟨hfollow, front, p, back, d, i, hfront, hd, hi, hfollowable, hq⟩
  · -- a given file
    rw [← hkey, ← hc.key]
    exact h'.key_mem (hc.given hr)
  · have hsplit' : row = front ++ p :: (back ++ q :: after) := by
      rw [hsplit, hfront]
      simp
    have hp : p ∈ row := by
      rw [hsplit']
      simp
    have hp' : p ∈ row' := by
      refine hbefore p (CompleteRow.front_subset hfront (by simp)) ?_
      rw [← isSome_refreshed? ix fs p, hd]
      rfl
    have hd' : jx.refreshed? fs p = some d := by rw [hc.refreshed p hp, hd]
    obtain ⟨before', after', hrow', -⟩ := h'.exists_split hp'
    have hwithin := hc.within_storeAt h hcwd₁ hsplit'
    have hbetween := hc.between_storeAt h h' hcwd₁ hrow' fun r hr =>
      hmet r (CompleteRow.front_subset hrow' hr)
    have hkey : ix.store.key q = q := key_of_onDisk hcwd₁ hq
    have hend : ((ix.scanAll fs false row).store.atKey? q).isSome = true := by
      have hmem : q ∈ row := by
        rw [hsplit]
        simp
      have hget := h.get?_of_mem hcwd₁ hmem
      rw [Store.get?, key_final, hkey] at hget
      rw [hget, isSome_refreshed?, hread]
    rcases (hdecided hfollow p hp d hd i hi hfollowable).onDisk_of_within hwithin hbetween hq
      hend with hdisk | hsome
    · exact h'.mem_of_onDisk hcwd₂ hlenient hfollow hrow' hd' hi hfollowable hdisk
    · rw [h'.atKey?_storeAt hcwd₂ hrow' (by rw [hc.key]; exact hkey)] at hsome
      by_cases hmem : q ∈ before' ++ [p]
      · exact CompleteRow.front_subset hrow' hmem
      · -- it had a record from the start: it was given, or the row finds this record, too
        rw [if_neg hmem] at hsome
        rcases hc.rest q with ⟨r, hr, hkey'⟩ | heq
        · rw [← hkey, ← hkey', ← hc.key]
          exact h'.key_mem hr
        · have hnone := Store.atKey?_of_onDisk hq
          rw [h.atKey?_storeAt hcwd₁ hsplit' hkey] at hnone
          by_cases hmem' : q ∈ front ++ [p]
          · exact hbefore q (CompleteRow.front_subset hfront hmem') hread
          · rw [if_neg hmem', ← heq] at hnone
            rw [hnone] at hsome
            cases hsome

/-- **Both scans end with the same records.** -/
theorem store_eq : (jx.scanAll fs false row').store = (ix.scanAll fs false row).store := by
  have hcwd₁ : Path.isAbsolute ix.store.cwd = true := by rwa [hstore]
  have hcwd₂ : Path.isAbsolute jx.store.cwd = true := by rwa [hc.cwd]
  have hmet := hc.met_of_mem h h' hcwd hstore hlenient hdecided
  refine Store.ext_get? (by rw [cwd_scanAll, cwd_scanAll, hc.cwd]) fun q => ?_
  rw [h'.get?_scanAll hcwd₂, hc.key]
  by_cases hq' : ix.store.key q ∈ row'
  · rw [if_pos hq']
    cases hread : fs.isReadable (ix.store.key q) with
    | true =>
        have hq := (hmet _ hq').1 hread
        rw [h.get?_scanAll hcwd₁, if_pos hq, hc.refreshed _ hq]
    | false =>
        rw [refreshed?_eq_none hread, ← (hmet _ hq').2 hread]
        refine Store.get?_congr ?_
        rw [key_final]
        exact Path.absolute_absolute hcwd₁ q
  · rw [if_neg hq']
    have hstart : jx.store.get? q = ix.store.get? q := by
      rcases hc.rest q with ⟨r, hr, hkey⟩ | heq
      · refine absurd ?_ hq'
        rw [← hkey, ← hc.key]
        exact h'.key_mem hr
      · exact heq
    rw [hstart, h.get?_scanAll hcwd₁]
    by_cases hq : ix.store.key q ∈ row
    · -- a file of the row alone cannot be read, and the row found no record of it
      rw [if_pos hq]
      have hread : fs.isReadable (ix.store.key q) = false := by
        rw [Bool.eq_false_iff]
        exact fun hread => hq' (hc.mem_of_isReadable h h' hcwd hstore hlenient hdecided _ hq hread)
      rw [refreshed?_eq_none hread, ← Option.not_isSome_iff_eq_none]
      intro hstored
      obtain ⟨r, hr, hkey⟩ := h.given_of_stored hcwd₁ hlenient hq hstored
      refine hq' ?_
      rw [← hkey, ← hc.key]
      exact h'.key_mem (hc.given hr)
    · rw [if_neg hq]

end Catches

/-! ## One scan in two schedules -/

namespace CompleteRow

variable {ix : Index} {fs : FileSystem} {s : Settings} {paths row row' : List Text}

/-- Two schedules agree on the files that are given and on those that had a record before. -/
theorem get?_congr (h : ix.CompleteRow fs s paths row) (h' : ix.CompleteRow fs s paths row')
    (hcwd : Path.isAbsolute ix.store.cwd = true) (hlenient : s.showErrors = false) {q : Text}
    (hq : (∃ r ∈ paths, ix.store.key r = ix.store.key q) ∨ (ix.store.get? q).isSome = true) :
    (ix.scanAll fs false row).store.get? q = (ix.scanAll fs false row').store.get? q := by
  have hmem : ix.store.key q ∈ row ↔ ix.store.key q ∈ row' := by
    rcases hq with ⟨r, hr, hkey⟩ | hstored
    · rw [← hkey]
      exact iff_of_true (h.key_mem hr) (h'.key_mem hr)
    · constructor
      · intro hmem
        obtain ⟨r, hr, hkey⟩ := h.given_of_stored hcwd hlenient hmem hstored
        rw [← hkey]
        exact h'.key_mem hr
      · intro hmem
        obtain ⟨r, hr, hkey⟩ := h'.given_of_stored hcwd hlenient hmem hstored
        rw [← hkey]
        exact h.key_mem hr
  rw [h.get?_scanAll hcwd, h'.get?_scanAll hcwd]
  simp only [hmem]

/-- Two schedules never leave different records for one file. -/
theorem eq_of_get? (h : ix.CompleteRow fs s paths row) (h' : ix.CompleteRow fs s paths row')
    (hcwd : Path.isAbsolute ix.store.cwd = true) (hlenient : s.showErrors = false) {q : Text}
    {d d' : Document} (hd : (ix.scanAll fs false row).store.get? q = some d)
    (hd' : (ix.scanAll fs false row').store.get? q = some d') : d = d' := by
  by_cases hstored : (ix.store.get? q).isSome = true
  · rw [h.get?_congr h' hcwd hlenient (Or.inr hstored), hd'] at hd
    exact (Option.some.inj hd).symm
  · -- a new record is that of the present content
    have hnone : ix.store.get? q = none := by simpa using hstored
    rw [h.get?_scanAll hcwd, hnone] at hd
    rw [h'.get?_scanAll hcwd, hnone] at hd'
    split_ifs at hd hd'
    rw [hd] at hd'
    exact Option.some.inj hd'

/-- A scan catches up with itself in any other schedule. -/
theorem catches (h : ix.CompleteRow fs s paths row)
    (hcwd : Path.isAbsolute ix.store.cwd = true) : Catches fs ix ix paths paths row where
  cwd := rfl
  given := fun _ hp => hp
  stored := fun _ hq => hq
  rest := fun _ => Or.inr rfl
  refreshed := fun _ _ => rfl
  scanned := fun _ hp _ => h.key_mem hp
  absent := by
    intro p hp hread
    rw [h.get?_scanAll hcwd, if_pos (h.key_mem hp), refreshed?_eq_none hread]

end CompleteRow

end Index

/-- **How far a scan depends on its schedule.** Take a lenient scan of any files from any index.
The scan in the order of its waves is one of its schedules. Two schedules leave the same records,
or none, for the given files and for the files that had a record before, and never different
records for one file. If the imports of the files that one schedule scans are decided on the way
from the old store to the new one, every schedule ends with the same store. -/
theorem store_eq_of_scans {ix : Index} {fs : FileSystem} {s : Settings} (paths : List Text)
    (hcwd : Path.isAbsolute fs.cwd = true) (hstore : ix.store.cwd = fs.cwd)
    (hlenient : s.showErrors = false) :
    ix.Scans fs s paths ((ix.scan fs s none paths).reports.map FileReport.path)
        (ix.scan fs s none paths).index ∧
      ∀ row₁ row₂ ix₁ ix₂, ix.Scans fs s paths row₁ ix₁ → ix.Scans fs s paths row₂ ix₂ →
        (∀ q, (∃ r ∈ paths, ix.store.key r = ix.store.key q) ∨ (ix.store.get? q).isSome = true →
          ix₁.store.get? q = ix₂.store.get? q) ∧
        (∀ q d₁ d₂, ix₁.store.get? q = some d₁ → ix₂.store.get? q = some d₂ → d₁ = d₂) ∧
        ((s.scanImportedFiles = true → ∀ p ∈ row₁, ∀ d, ix₁.store.get? p = some d →
          ∀ i ∈ d.imports, i.followable = true → ix.store.Decided ix₁.store fs i.filepath) →
            ix₁.store = ix₂.store) := by
  have hcwd' : Path.isAbsolute ix.store.cwd = true := by rwa [hstore]
  refine ⟨Index.scans_scan s hcwd hstore paths, ?_⟩
  intro row₁ row₂ ix₁ ix₂ hscans₁ hscans₂
  obtain ⟨h₁, hindex₁⟩ := hscans₁.complete
  obtain ⟨h₂, hindex₂⟩ := hscans₂.complete
  rw [hlenient] at hindex₁ hindex₂
  subst hindex₁ hindex₂
  refine ⟨?_, ?_, ?_⟩
  · intro q hq
    exact h₁.get?_congr h₂ hcwd' hlenient hq
  · intro q d₁ d₂ hd₁ hd₂
    exact h₁.eq_of_get? h₂ hcwd' hlenient hd₁ hd₂
  · intro hdecided
    have himports : ix.ImportsDecided fs s ix.store (ix.scanAll fs false row₁).store row₁ := by
      intro hfollow p hp d hd i hi hfollowable
      exact hdecided hfollow p hp d (by rw [h₁.get?_of_mem hcwd' hp, hd]) i hi hfollowable
    exact ((h₁.catches hcwd').store_eq h₁ h₂ hcwd hstore hlenient himports).symm

/-! ## A partial and the file that imports it -/

/-- A scan whose first wave, taken in some order, leaves nothing to follow. -/
theorem Index.scans_of_lastWave {ix : Index} {fs : FileSystem} {s : Settings}
    {paths order : List Text} (hne : (ScanState.start ix paths).wave ≠ [])
    (hperm : order.Perm (ScanState.start ix paths).wave)
    (hlast : ((ScanState.start ix paths).after fs s order).wave = []) :
    ix.Scans fs s paths order ((ScanState.start ix paths).after fs s order).index := by
  have hrun : ScanState.Run fs s (ScanState.start ix paths) (order ++ [])
      ((ScanState.start ix paths).after fs s order) := .wave hne hperm (.refl _)
  rw [List.append_nil] at hrun
  exact ⟨_, hrun, hlast, rfl⟩

/-- A file and the partial that it imports, in the order in which they are given. -/
def importerAndPartial : List Text := [text "/a.scss", text "/_b.scss"]

/-- The same files the other way round. -/
def partialAndImporter : List Text := [text "/_b.scss", text "/a.scss"]

/-- The scan of the two files in the order in which they are given. -/
def givenOrder (fs : FileSystem) : ScanRun :=
  (Index.empty (text "/")).scan fs Settings.default none importerAndPartial

/-- The scan of the two files after a first wave in the other order. -/
def otherOrder (fs : FileSystem) : ScanState :=
  (ScanState.start (Index.empty (text "/")) importerAndPartial).after fs Settings.default
    partialAndImporter

/-- What the two orders show: the first wave, the files of the scan in the given order with the
imports of its records and the candidates that can be taken for the import of `b`, what the other
order leaves to follow, and whether the plain file is stored in each of them. -/
structure OrdersView where
  firstWave : List Text
  row : List Text
  imports : List (List Import)
  candidates : List Text
  left : List Text
  plainStored : Bool × Bool

/-- The view of both orders. -/
def ordersView (fs : FileSystem) : OrdersView where
  firstWave := (ScanState.start (Index.empty (text "/")) importerAndPartial).wave
  row := (givenOrder fs).reports.map FileReport.path
  imports := (givenOrder fs).index.store.documents.map Document.imports
  candidates := (importCandidates importOfB.filepath).filter
    ((Index.empty (text "/")).store.mayBeTaken (givenOrder fs).index.store fs)
  left := (otherOrder fs).wave
  plainStored := (((givenOrder fs).index.store.get? (text "/b.scss")).isSome,
    ((otherOrder fs).index.store.get? (text "/b.scss")).isSome)

/-- With the partial alone, both orders follow nothing. -/
theorem ordersView_partialFiles :
    ordersView partialFiles
      = ⟨importerAndPartial, importerAndPartial, [[], [importOfB]], [text "/_b.scss"], [],
          (false, false)⟩ := by
  cbv

/-- With the plain file beside it, the given order follows the plain file. -/
theorem ordersView_overtakenFiles :
    ordersView overtakenFiles
      = ⟨importerAndPartial, importerAndPartial ++ [text "/b.scss"], [[], [importOfB], []],
          [text "/b.scss", text "/_b.scss"], [], (true, false)⟩ := by
  cbv

/-- Both orders are scans, if the other one leaves nothing to follow. -/
theorem scans_of_ordersView {fs : FileSystem} {row candidates : List Text}
    {imports : List (List Import)} {plainStored : Bool × Bool} (hfs : fs.cwd = text "/")
    (h : ordersView fs = ⟨importerAndPartial, row, imports, candidates, [], plainStored⟩) :
    (Index.empty (text "/")).Scans fs Settings.default importerAndPartial row
        (givenOrder fs).index ∧
      (Index.empty (text "/")).Scans fs Settings.default importerAndPartial partialAndImporter
        (otherOrder fs).index := by
  obtain ⟨hwave, hrow, -, -, hleft, -⟩ := OrdersView.mk.inj h
  constructor
  · have hcwd : Path.isAbsolute fs.cwd = true := by
      rw [hfs]
      rfl
    have hstore : (Index.empty (text "/")).store.cwd = fs.cwd := hfs.symm
    rw [← hrow]
    exact Index.scans_scan Settings.default hcwd hstore importerAndPartial
  · refine Index.scans_of_lastWave ?_ ?_ hleft
    · rw [hwave]
      exact List.cons_ne_nil _ _
    · rw [hwave]
      exact List.Perm.swap _ _ _

/-- With the partial alone, the import is decided, and both orders give the same store. -/
theorem store_eq_of_scans_partialFiles :
    Path.isAbsolute partialFiles.cwd = true ∧
      (Index.empty (text "/")).store.cwd = partialFiles.cwd ∧
      Settings.default.showErrors = false ∧
      ∃ ix₁ ix₂, (Index.empty (text "/")).Scans partialFiles Settings.default importerAndPartial
          importerAndPartial ix₁ ∧
        (Index.empty (text "/")).Scans partialFiles Settings.default importerAndPartial
          partialAndImporter ix₂ ∧
        (∀ p ∈ importerAndPartial, ∀ d, ix₁.store.get? p = some d → ∀ i ∈ d.imports,
          i.followable = true →
            (Index.empty (text "/")).store.Decided ix₁.store partialFiles i.filepath) ∧
        (∃ d ∈ ix₁.store.documents, d.imports = [importOfB]) ∧ ix₁.store = ix₂.store := by
  obtain ⟨hscan₁, hscan₂⟩ := scans_of_ordersView rfl ordersView_partialFiles
  obtain ⟨-, -, himports, hcandidates, -, -⟩ := OrdersView.mk.inj ordersView_partialFiles
  generalize (givenOrder partialFiles).index = ix₁ at *
  generalize (otherOrder partialFiles).index = ix₂ at *
  have hdecided : ∀ p ∈ importerAndPartial, ∀ d, ix₁.store.get? p = some d → ∀ i ∈ d.imports,
      i.followable = true →
        (Index.empty (text "/")).store.Decided ix₁.store partialFiles i.filepath := by
    intro p _ d hd i hi _
    have hlisted : d.imports ∈ ix₁.store.documents.map Document.imports :=
      List.mem_map_of_mem (Store.mem_documents_iff.mpr (Store.get?_path hd).2)
    obtain rfl : i = importOfB := by
      rw [himports] at hlisted
      rcases List.mem_pair.mp hlisted with hnone | hone
      · rw [hnone] at hi
        cases hi
      · rw [hone] at hi
        exact List.mem_singleton.mp hi
    refine Or.inr ⟨text "/_b.scss", by decide +kernel, by decide +kernel, ?_⟩
    intro c hc htaken
    have hmem := List.mem_filter.mpr ⟨hc, htaken⟩
    rw [hcandidates] at hmem
    rw [List.mem_singleton.mp hmem]
  have himporter : ∃ d ∈ ix₁.store.documents, d.imports = [importOfB] := by
    rw [← List.mem_map, himports]
    exact List.mem_cons_of_mem _ List.mem_cons_self
  have hcwd : Path.isAbsolute partialFiles.cwd = true := rfl
  have hstore : (Index.empty (text "/")).store.cwd = partialFiles.cwd := rfl
  have hlenient : Settings.default.showErrors = false := rfl
  obtain ⟨-, hall⟩ := store_eq_of_scans importerAndPartial hcwd hstore hlenient
  exact ⟨hcwd, hstore, hlenient, ix₁, ix₂, hscan₁, hscan₂, hdecided, himporter,
    (hall _ _ _ _ hscan₁ hscan₂).2.2 fun _ => hdecided⟩

/-- **The schedule can decide which files are stored.** The importing file is scanned before the
partial or after it. Before it, the plain file is the first candidate that exists, and it is
followed; after it, the import is served by the record of the partial, and the plain file is never
scanned. -/
theorem scans_overtaken :
    ∃ ix₁ ix₂, (Index.empty (text "/")).Scans overtakenFiles Settings.default importerAndPartial
        (importerAndPartial ++ [text "/b.scss"]) ix₁ ∧
      (Index.empty (text "/")).Scans overtakenFiles Settings.default importerAndPartial
        partialAndImporter ix₂ ∧
      Settings.default.showErrors = false ∧
      (ix₁.store.get? (text "/b.scss")).isSome = true ∧
      ix₂.store.get? (text "/b.scss") = none ∧ ix₁.store ≠ ix₂.store := by
  obtain ⟨hscan₁, hscan₂⟩ := scans_of_ordersView rfl ordersView_overtakenFiles
  obtain ⟨-, -, -, -, -, hplain⟩ := OrdersView.mk.inj ordersView_overtakenFiles
  obtain ⟨hstored, hmissing⟩ := Prod.mk.inj hplain
  refine ⟨_, _, hscan₁, hscan₂, rfl, hstored, by simpa using hmissing, ?_⟩
  intro heq
  rw [heq, hmissing] at hstored
  cases hstored

end StyleIndex
