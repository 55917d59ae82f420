import Mathlib.Tactic
import StyleIndex.Manager
import StyleIndex.Proofs.Path.Below

set_option autoImplicit false

/-! # The workspace that a path belongs to

A manager goes through its roots in some order and keeps the longest text of those that the path
lies below. That this is the deepest root, in whichever order, rests on two facts. Roots are clean
absolute paths, so a root that a path lies below is spelt by the first elements of the path
(`isUnder_iff_prefix`); hence any two such roots lie one below the other, and the deeper one has the
longer text (`length_lt_of_prefix_ne`).

The roots are clean because every workspace stands under its own root, which the calls of a manager
keep (`Keyed.after`). `workspaceOf?_routes` is stated for the manager behind any row of calls.
-/

namespace StyleIndex

namespace Path

/-! ## Clean absolute paths -/

/-- Whether a text is the clean absolute form of some path. -/
def IsClean (p : Text) : Prop := ∃ es : List Text, (∀ e ∈ es, IsName e) ∧ p = ofElements true es

theorem isClean_absolute {cwd : Text} (hcwd : isAbsolute cwd = true) (p : Text) :
    IsClean (absolute cwd p) := by
  obtain ⟨q, hq, heq⟩ := exists_absolute_eq_clean hcwd p
  exact ⟨elements q, fun e he => isName_of_mem_elements hq he, by rw [heq, clean, hq]⟩

theorem IsClean.isAbsolute {p : Text} (h : IsClean p) : isAbsolute p = true := by
  obtain ⟨es, -, rfl⟩ := h
  rfl

theorem IsClean.eq_ofElements {p : Text} (h : IsClean p) : p = ofElements true (elements p) := by
  obtain ⟨es, hes, rfl⟩ := h
  rw [elements_ofElements hes]

theorem IsClean.isName {p e : Text} (h : IsClean p) (he : e ∈ elements p) : IsName e :=
  isName_of_mem_elements h.isAbsolute he

/-- Of two clean paths, one lies below the other if its elements go on from those of the other:
there is no step up in a clean path. -/
theorem isUnder_iff_prefix {root p : Text} (hroot : IsClean root) (hp : IsClean p) :
    isUnder root p = true ↔ elements root <+: elements p := by
  rw [isUnder_iff]
  constructor
  · rintro ⟨-, below, hbelow, -⟩
    exact ⟨below, hbelow.symm⟩
  · rintro ⟨below, hbelow⟩
    refine ⟨hroot.isAbsolute.trans hp.isAbsolute.symm, below, hbelow.symm, fun hparent => ?_⟩
    have hmem : parent ∈ elements p := by
      rw [← hbelow]
      exact List.mem_append_right _ (List.mem_of_mem_head? hparent)
    exact (hp.isName hmem).ne_parent rfl

end Path

/-- A row of texts that goes on spells a longer text. -/
theorem Text.length_join_lt_append {sep : Text} {es fs : List Text} (hfs : fs ≠ [])
    (hne : ∀ f ∈ fs, f ≠ []) : (join sep es).length < (join sep (es ++ fs)).length := by
  obtain ⟨f, fs, rfl⟩ := List.exists_cons_of_ne_nil hfs
  have hf := List.length_pos_of_ne_nil (hne f List.mem_cons_self)
  induction es with
  | nil => cases fs <;> simp [join] <;> omega
  | cons e es ih =>
      cases es with
      | nil => cases fs <;> simp [join] <;> omega
      | cons e' es => simpa [join] using ih

namespace Path

/-- Of two clean paths that lie one below the other, the deeper one has the longer text. -/
theorem length_lt_of_prefix_ne {p q : Text} (hp : IsClean p) (hq : IsClean q)
    (hpre : elements p <+: elements q) (hne : p ≠ q) : p.length < q.length := by
  obtain ⟨below, hbelow⟩ := hpre
  have hnil : below ≠ [] := by
    rintro rfl
    rw [List.append_nil] at hbelow
    exact hne (by rw [hp.eq_ofElements, hbelow, ← hq.eq_ofElements])
  have hnames : ∀ f ∈ below, f ≠ [] := fun f hf =>
    (hq.isName (by rw [← hbelow]; exact List.mem_append_right _ hf)).ne_nil
  rw [hp.eq_ofElements, hq.eq_ofElements, ← hbelow]
  exact Nat.succ_lt_succ (Text.length_join_lt_append hnil hnames)

end Path

/-! ## The longest root -/

namespace Manager

/-- `root` is the better one of `best` and the roots in `order` that the path lies below. -/
structure IsLongest (path : Text) (best : Option Text) (order : List Text) (root : Text) :
    Prop where
  mem : root ∈ order ∧ Path.isUnder root path = true ∨ best = some root
  best_le : ∀ b ∈ best, b.length ≤ root.length
  le : ∀ r ∈ order, Path.isUnder r path = true → r.length ≤ root.length

/-- What one more root does to the search. -/
theorem deeper_cases (path : Text) (best : Option Text) (root : Text) :
    (Path.isUnder root path = false ∧ deeper path best root = best) ∨
      Path.isUnder root path = true ∧
        ((deeper path best root = some root ∧ ∀ b ∈ best, b.length < root.length) ∨
          ∃ b, best = some b ∧ deeper path best root = some b ∧ root.length ≤ b.length) := by
  cases hunder : Path.isUnder root path with
  | false => exact Or.inl ⟨rfl, by simp [deeper, hunder]⟩
  | true =>
      refine Or.inr ⟨rfl, ?_⟩
      cases best with
      | none => exact Or.inl ⟨by simp [deeper, hunder], by simp⟩
      | some b =>
          by_cases hlt : b.length < root.length
          · exact Or.inl ⟨by simp [deeper, hunder, hlt], by simpa using hlt⟩
          · exact Or.inr ⟨b, rfl, by simp [deeper, hunder, hlt], Nat.le_of_not_lt hlt⟩

/-- The search finds nothing only if there is nothing to find, and else a longest root. -/
theorem foldl_deeper (path : Text) (order : List Text) : ∀ best : Option Text,
    (order.foldl (deeper path) best = none →
      best = none ∧ ∀ r ∈ order, Path.isUnder r path = false) ∧
    ∀ root, order.foldl (deeper path) best = some root → IsLongest path best order root := by
  induction order with
  | nil =>
      intro best
      refine ⟨fun h => ⟨h, by simp⟩, fun root h => ?_⟩
      rw [List.foldl_nil] at h
      subst h
      exact ⟨Or.inr rfl, by simp, by simp⟩
  | cons r order ih =>
      intro best
      rw [List.foldl_cons]
      obtain ⟨hnone, hsome⟩ := ih (deeper path best r)
      rcases deeper_cases path best r with ⟨hr, hstep⟩ | ⟨hr, ⟨hstep, hlt⟩ | ⟨b, rfl, hstep, hle⟩⟩
      · -- the path does not lie below this root
        rw [hstep] at hnone hsome ⊢
        refine ⟨fun h => ?_, fun root h => ?_⟩
        · obtain ⟨hbest, hall⟩ := hnone h
          exact ⟨hbest, List.forall_mem_cons.mpr ⟨hr, hall⟩⟩
        · obtain ⟨hmem, hbest, hall⟩ := hsome root h
          refine ⟨hmem.imp_left (And.imp_left (List.mem_cons_of_mem r)), hbest, ?_⟩
          refine List.forall_mem_cons.mpr ⟨fun hr' => ?_, hall⟩
          rw [hr] at hr'
          cases hr'
      · -- this root is longer than the best one so far, and whatever is found is no shorter
        rw [hstep] at hnone hsome ⊢
        refine ⟨fun h => absurd (hnone h).1 (by simp), fun root h => ?_⟩
        obtain ⟨hmem, hbest, hall⟩ := hsome root h
        have hroot := hbest r rfl
        refine ⟨Or.inl ?_, fun b hb => (hlt b hb).le.trans hroot,
          List.forall_mem_cons.mpr ⟨fun _ => hroot, hall⟩⟩
        rcases hmem with ⟨hmem, hunder⟩ | heq
        · exact ⟨List.mem_cons_of_mem r hmem, hunder⟩
        · obtain rfl := Option.some.inj heq
          exact ⟨List.mem_cons_self, hr⟩
      · -- the best root so far stays, and this one is no longer
        rw [hstep] at hnone hsome ⊢
        refine ⟨fun h => absurd (hnone h).1 (by simp), fun root h => ?_⟩
        obtain ⟨hmem, hbest, hall⟩ := hsome root h
        exact ⟨hmem.imp_left (And.imp_left (List.mem_cons_of_mem r)), hbest,
          List.forall_mem_cons.mpr ⟨fun _ => hle.trans (hbest b rfl), hall⟩⟩

/-! ## The calls of a manager -/

/-- A call of a manager, or a change of one of its workspaces. -/
inductive Call (ε : Type) where
  | get (load : Text → Except ε Settings) (root : Text)
  | remove (root : Text)
  | close
  /-- The workspace of a managed root goes on to another state. -/
  | update (w : Workspace)

/-- The manager behind a call. A call that reports an error leaves it as it is. -/
def perform {ε : Type} (m : Manager) : Call ε → Manager
  | .get load root =>
    match m.get load root with
    | .ok (m', _) => m'
    | .error _ => m
  | .remove root =>
    match m.remove root with
    | .ok m' => m'
    | .error (_ : ManagerError ε) => m
  | .close => m.close
  | .update w => if m.workspaces.contains w.root then m.put w else m

/-- The manager behind a row of calls. -/
def after {ε : Type} (m : Manager) (calls : List (Call ε)) : Manager := calls.foldl perform m

/-- Every workspace stands under its own root, which is a clean absolute path. -/
structure Keyed (m : Manager) : Prop where
  isAbsolute_cwd : Path.isAbsolute m.cwd = true
  root_eq : ∀ root w, m.workspaces[root]? = some w → w.root = root ∧ Path.IsClean root

section Calls

variable {ε : Type} {m : Manager}

theorem mem_roots {root : Text} : root ∈ m.roots ↔ ∃ w, m.workspaces[root]? = some w := by
  rw [roots, Std.ExtTreeMap.mem_keys, Std.ExtTreeMap.mem_iff_isSome_getElem?,
    Option.isSome_iff_exists]

theorem keyed_empty {cwd : Text} (hcwd : Path.isAbsolute cwd = true) : (empty cwd).Keyed :=
  ⟨hcwd, by simp [empty]⟩

theorem Keyed.put (h : m.Keyed) {w : Workspace} (hw : Path.IsClean w.root) : (m.put w).Keyed := by
  refine ⟨h.isAbsolute_cwd, fun root v hv => ?_⟩
  have hinsert : (m.workspaces.insert w.root w)[root]? = some v := hv
  rw [Std.ExtTreeMap.getElem?_insert] at hinsert
  split at hinsert
  · next heq =>
    obtain rfl := Std.LawfulEqCmp.eq_of_compare heq
    obtain rfl := Option.some.inj hinsert
    exact ⟨rfl, hw⟩
  · exact h.root_eq root v hinsert

/-- What getting a workspace comes to: it is there, or it is created under the key of the root, or
it cannot be created. -/
theorem get_cases (m : Manager) (load : Text → Except ε Settings) (root : Text) :
    (∃ w, m.get? root = some w ∧ m.get load root = .ok (m, w)) ∨
      m.get? root = none ∧
        ((∃ w, w.root = m.key root ∧ m.get load root = .ok (m.put w, w)) ∨
          ∃ e, m.get load root = .error e) := by
  cases hget : m.get? root with
  | some w => exact Or.inl ⟨w, rfl, by simp only [get, hget]⟩
  | none =>
      refine Or.inr ⟨rfl, ?_⟩
      cases hload : load (m.key root) with
      | error cause => exact Or.inr ⟨.settings (m.key root) cause, by simp only [get, hget, hload]⟩
      | ok s =>
          cases hcreate : Workspace.create m.cwd root s with
          | error faults => exact Or.inr ⟨.invalid faults, by simp only [get, hget, hload, hcreate]⟩
          | ok w =>
              refine Or.inl ⟨w, ?_, by simp only [get, hget, hload, hcreate]⟩
              unfold Workspace.create at hcreate
              split at hcreate
              · cases hcreate
                rfl
              · cases hcreate

theorem Keyed.perform (h : m.Keyed) (call : Call ε) : (m.perform call).Keyed := by
  cases call with
  | get load root =>
      simp only [Manager.perform]
      rcases get_cases m load root with ⟨w, -, hget⟩ | ⟨-, ⟨w, hroot, hget⟩ | ⟨e, hget⟩⟩
      · rwa [hget]
      · rw [hget]
        exact h.put (hroot ▸ Path.isClean_absolute h.isAbsolute_cwd root)
      · rwa [hget]
  | remove root =>
      simp only [Manager.perform, remove]
      split_ifs
      · refine ⟨h.isAbsolute_cwd, fun r w hw => ?_⟩
        have herase : (m.workspaces.erase (m.key root))[r]? = some w := hw
        rw [Std.ExtTreeMap.getElem?_erase] at herase
        split at herase
        · cases herase
        · exact h.root_eq r w herase
      · exact h
  | close => exact keyed_empty h.isAbsolute_cwd
  | update w =>
      simp only [Manager.perform]
      split_ifs with hmanaged
      · rw [← Std.ExtTreeMap.mem_iff_contains, Std.ExtTreeMap.mem_iff_isSome_getElem?,
          Option.isSome_iff_exists] at hmanaged
        obtain ⟨v, hv⟩ := hmanaged
        exact h.put (h.root_eq _ v hv).2
      · exact h

theorem Keyed.after (h : m.Keyed) (calls : List (Call ε)) : (m.after calls).Keyed := by
  induction calls generalizing m with
  | nil => exact h
  | cons call calls ih => exact ih (h.perform call)

/-! ## Routing -/

/-- The path lies below the root of the workspace, and no root that the path lies below is longer
or deeper. -/
structure IsDeepest (m : Manager) (path : Text) (w : Workspace) : Prop where
  managed : m.workspaces[w.root]? = some w
  below : Path.elements w.root <+: Path.elements (m.key path)
  longest : ∀ root ∈ m.roots, Path.elements root <+: Path.elements (m.key path) →
    root.length ≤ w.root.length ∧ Path.elements root <+: Path.elements w.root

/-- Roots that a path lies below are the same if none of them is longer than the other. -/
theorem Keyed.eq_of_length_eq (h : m.Keyed) {r r' p : Text} (hr : r ∈ m.roots) (hr' : r' ∈ m.roots)
    (hp : Path.elements r <+: Path.elements p) (hp' : Path.elements r' <+: Path.elements p)
    (hlength : r.length = r'.length) : r = r' := by
  obtain ⟨w, hw⟩ := mem_roots.mp hr
  obtain ⟨w', hw'⟩ := mem_roots.mp hr'
  by_contra hne
  rcases List.prefix_or_prefix_of_prefix hp hp' with hpre | hpre
  · have := Path.length_lt_of_prefix_ne (h.root_eq r w hw).2 (h.root_eq r' w' hw').2 hpre hne
    omega
  · have := Path.length_lt_of_prefix_ne (h.root_eq r' w' hw').2 (h.root_eq r w hw).2 hpre
      (Ne.symm hne)
    omega

/-- A root that a path lies below begins any root that the path lies below and that is no
shorter. -/
theorem Keyed.prefix_of_length_le (h : m.Keyed) {r r' p : Text} (hr : r ∈ m.roots)
    (hr' : r' ∈ m.roots) (hp : Path.elements r <+: Path.elements p)
    (hp' : Path.elements r' <+: Path.elements p) (hle : r.length ≤ r'.length) :
    Path.elements r <+: Path.elements r' := by
  obtain ⟨w, hw⟩ := mem_roots.mp hr
  obtain ⟨w', hw'⟩ := mem_roots.mp hr'
  rcases List.prefix_or_prefix_of_prefix hp hp' with hpre | hpre
  · exact hpre
  · by_cases heq : r' = r
    · rw [heq]
    · have := Path.length_lt_of_prefix_ne (h.root_eq r' w' hw').2 (h.root_eq r w hw).2 hpre heq
      omega

variable {path : Text} {order : List Text}

theorem Keyed.isUnder_iff (h : m.Keyed) (path : Text) {root : Text} (hroot : root ∈ m.roots) :
    Path.isUnder root (m.key path) = true ↔
      Path.elements root <+: Path.elements (m.key path) := by
  obtain ⟨w, hw⟩ := mem_roots.mp hroot
  exact Path.isUnder_iff_prefix (h.root_eq root w hw).2
    (Path.isClean_absolute h.isAbsolute_cwd path)

/-- The search finds the deepest root in any order. -/
theorem Keyed.foldl_deeper_eq_some_iff (h : m.Keyed) (horder : order.Perm m.roots) {root : Text} :
    order.foldl (deeper (m.key path)) none = some root ↔
      ∃ w, w.root = root ∧ m.IsDeepest path w := by
  have hunder : ∀ r ∈ order, (Path.isUnder r (m.key path) = true ↔
      Path.elements r <+: Path.elements (m.key path)) :=
    fun r hr => h.isUnder_iff path (horder.mem_iff.mp hr)
  -- what is found is a deepest root
  have hfound : ∀ r, order.foldl (deeper (m.key path)) none = some r →
      ∃ w, w.root = r ∧ m.IsDeepest path w := by
    intro r hr
    obtain ⟨⟨hmem, hbelow⟩ | hbest, -, hle⟩ := (foldl_deeper (m.key path) order none).2 r hr
    · have hroots := horder.mem_iff.mp hmem
      obtain ⟨w, hw⟩ := mem_roots.mp hroots
      obtain ⟨rfl, -⟩ := h.root_eq r w hw
      rw [hunder _ hmem] at hbelow
      refine ⟨w, rfl, hw, hbelow, fun s hs hsp => ?_⟩
      have hlength := hle s (horder.mem_iff.mpr hs) ((hunder s (horder.mem_iff.mpr hs)).mpr hsp)
      exact ⟨hlength, h.prefix_of_length_le hs hroots hsp hbelow hlength⟩
    · cases hbest
  refine ⟨hfound root, ?_⟩
  rintro ⟨w, rfl, hw⟩
  have hroots := mem_roots.mpr ⟨w, hw.managed⟩
  have hmem := horder.mem_iff.mpr hroots
  cases hfold : order.foldl (deeper (m.key path)) none with
  | none =>
      have hnot := ((foldl_deeper (m.key path) order none).1 hfold).2 w.root hmem
      rw [(hunder _ hmem).mpr hw.below] at hnot
      cases hnot
  | some r =>
      -- two deepest roots are as long as each other
      obtain ⟨v, rfl, hv⟩ := hfound r hfold
      have hvroots := mem_roots.mpr ⟨v, hv.managed⟩
      have hlength := Nat.le_antisymm (hw.longest _ hvroots hv.below).1
        (hv.longest _ hroots hw.below).1
      rw [h.eq_of_length_eq hvroots hroots hv.below hw.below hlength]

theorem Keyed.foldl_deeper_perm (h : m.Keyed) (path : Text) (horder : order.Perm m.roots) :
    order.foldl (deeper (m.key path)) none = m.rootOf? path := by
  refine Option.ext fun root => ?_
  rw [rootOf?, h.foldl_deeper_eq_some_iff horder, h.foldl_deeper_eq_some_iff (List.Perm.refl _)]

theorem Keyed.workspaceOf?_eq_some_iff (h : m.Keyed) {w : Workspace} :
    m.workspaceOf? path = some w ↔ m.IsDeepest path w := by
  rw [workspaceOf?, Option.bind_eq_some_iff]
  constructor
  · rintro ⟨root, hroot, hw⟩
    obtain ⟨v, rfl, hv⟩ := (h.foldl_deeper_eq_some_iff (List.Perm.refl _)).mp hroot
    rw [hv.managed] at hw
    rwa [← Option.some.inj hw]
  · intro hw
    exact ⟨w.root, (h.foldl_deeper_eq_some_iff (List.Perm.refl _)).mpr ⟨w, rfl, hw⟩, hw.managed⟩

theorem Keyed.workspaceOf?_eq_none_iff (h : m.Keyed) :
    m.workspaceOf? path = none ↔
      ∀ root ∈ m.roots, ¬ Path.elements root <+: Path.elements (m.key path) := by
  constructor
  · intro hnone root hroot hpre
    cases hfold : m.rootOf? path with
    | none =>
        have hnot := ((foldl_deeper (m.key path) m.roots none).1 hfold).2 root hroot
        rw [(h.isUnder_iff path hroot).mpr hpre] at hnot
        cases hnot
    | some r =>
        obtain ⟨w, -, hw⟩ := (h.foldl_deeper_eq_some_iff (List.Perm.refl _)).mp hfold
        rw [h.workspaceOf?_eq_some_iff.mpr hw] at hnone
        cases hnone
  · intro hall
    refine Option.eq_none_iff_forall_ne_some.mpr fun w hw => ?_
    have hdeepest := h.workspaceOf?_eq_some_iff.mp hw
    exact hall w.root (mem_roots.mpr ⟨w, hdeepest.managed⟩) hdeepest.below

/-- A managed root, in any spelling, belongs to its own workspace. -/
theorem Keyed.workspaceOf?_root (h : m.Keyed) {root : Text} {w : Workspace}
    (hw : m.get? root = some w) : m.workspaceOf? root = some w := by
  obtain ⟨hroot, -⟩ := h.root_eq (m.key root) w hw
  refine h.workspaceOf?_eq_some_iff.mpr ⟨by rw [hroot]; exact hw, by rw [hroot], ?_⟩
  intro r hr hpre
  obtain ⟨v, hv⟩ := mem_roots.mp hr
  rw [hroot]
  refine ⟨?_, hpre⟩
  -- a root above this one is shorter, unless it is this one
  by_cases heq : r = m.key root
  · rw [heq]
  · exact (Path.length_lt_of_prefix_ne (h.root_eq r v hv).2
      (Path.isClean_absolute h.isAbsolute_cwd root) hpre heq).le

/-- Removing fails for roots that are not managed, and says so. -/
theorem remove_eq_error_iff {root : Text} {e : ManagerError ε} :
    m.remove root = .error e ↔ m.get? root = none ∧ e = .unknownRoot (m.key root) := by
  have hmanaged : m.workspaces.contains (m.key root) = true ↔ m.get? root ≠ none := by
    rw [← Std.ExtTreeMap.mem_iff_contains, Std.ExtTreeMap.mem_iff_isSome_getElem?,
      Option.isSome_iff_ne_none]
    rfl
  rw [remove]
  split_ifs with h
  · simp [hmanaged.mp h]
  · rw [hmanaged, not_not] at h
    simp [h, eq_comm]

theorem get_error_unmanaged {load : Text → Except ε Settings} {root : Text} {e : ManagerError ε}
    (h : m.get load root = .error e) : m.get? root = none := by
  rcases get_cases m load root with ⟨w, -, hget⟩ | ⟨hnone, -⟩
  · rw [hget] at h
    cases h
  · exact hnone

theorem erase_of_unmanaged {root : Text} (h : m.get? root = none) :
    m.workspaces.erase (m.key root) = m.workspaces := by
  refine Std.ExtTreeMap.ext_getElem? fun k => ?_
  rw [Std.ExtTreeMap.getElem?_erase]
  split_ifs with hk
  · rw [← Std.LawfulEqCmp.eq_of_compare hk]
    exact h.symm
  · rfl

end Calls

/-- **A path belongs to the workspace of the deepest root above it.** Behind any row of calls, the
workspace found for a path is that of the longest root whose elements begin those of the path, in
whichever order the roots are gone through, and there is none only if no root begins the path. A
managed root belongs to its own workspace. A root that cannot be got or removed was not managed, and
nothing changes. -/
theorem workspaceOf?_routes {ε : Type} {cwd : Text} (hcwd : Path.isAbsolute cwd = true)
    (calls : List (Call ε)) {m : Manager} (hm : m = (empty cwd).after calls) :
    (∀ path w, m.workspaceOf? path = some w ↔ m.IsDeepest path w) ∧
      (∀ path, m.workspaceOf? path = none ↔
        ∀ root ∈ m.roots, ¬ Path.elements root <+: Path.elements (m.key path)) ∧
      (∀ path (order : List Text), order.Perm m.roots →
        ((order.foldl (deeper (m.key path)) none).bind fun root => m.workspaces[root]?)
          = m.workspaceOf? path) ∧
      (∀ root w, m.get? root = some w → m.workspaceOf? root = some w) ∧
      (∀ (load : Text → Except ε Settings) root e, m.get load root = .error e →
        m.get? root = none ∧ m.perform (.get load root) = m) ∧
      ∀ root (e : ManagerError ε), m.remove root = .error e →
        m.get? root = none ∧ m.perform (.remove root : Call ε) = m ∧
          m.workspaces.erase (m.key root) = m.workspaces := by
  have h : m.Keyed := hm ▸ (keyed_empty hcwd).after calls
  refine ⟨fun path w => h.workspaceOf?_eq_some_iff, fun path => h.workspaceOf?_eq_none_iff, ?_,
    fun root w hw => h.workspaceOf?_root hw, ?_, ?_⟩
  · intro path order horder
    rw [h.foldl_deeper_perm path horder]
    rfl
  · intro load root e he
    refine ⟨get_error_unmanaged he, ?_⟩
    simp only [perform, he]
  · intro root e he
    obtain ⟨hnone, rfl⟩ := remove_eq_error_iff.mp he
    refine ⟨hnone, ?_, erase_of_unmanaged hnone⟩
    simp only [perform, he]

/-- Roots that lie one below the other, one of whose names begins with two dots, and roots that only
begin with the same bytes. Two are got twice and one is removed again. -/
def nestedCalls : List (Call Unit) :=
  ["/p", "/", "/p/..q", "p/..q/", "/p/..", "/p/..qr", "/x"].map (fun root =>
    .get (fun _ => .ok Settings.default) (text root)) ++ [.remove (text "/x"), .remove (text "/y")]

/-- A file below the third of them belongs to it. -/
theorem workspaceOf?_routes_nestedCalls :
    Path.isAbsolute (text "/") = true ∧
      ∃ w, ((empty (text "/")).after nestedCalls).workspaceOf? (text "/p/..q/a.scss") = some w ∧
        w.root = text "/p/..q" ∧
        ((empty (text "/")).after nestedCalls).IsDeepest (text "/p/..q/a.scss") w := by
  have hcwd : Path.isAbsolute (text "/") = true := by decide
  have hroot : (((empty (text "/")).after nestedCalls).workspaceOf?
      (text "/p/..q/a.scss")).map Workspace.root = some (text "/p/..q") := by decide +kernel
  obtain ⟨w, hw, hwroot⟩ := Option.map_eq_some_iff.mp hroot
  exact ⟨hcwd, w, hw, hwroot, ((workspaceOf?_routes hcwd nestedCalls rfl).1 _ w).mp hw⟩

end Manager

end StyleIndex
