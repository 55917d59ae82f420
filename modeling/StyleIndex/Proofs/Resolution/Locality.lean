import Mathlib.Tactic
import StyleIndex.Editor.Cursor
import StyleIndex.Proofs.Scan.Step

set_option autoImplicit false

/-! # What a document sees depends on the candidates of its imports only

The walk over imports asks the store for nothing but the candidates of the imports it meets, so two
stores that agree there send it the same way (`resolve_local`). The candidates are those met in
*one* of the two stores. This is enough, because the two walks are in the same state until a
candidate is looked up, and every document whose imports are followed is a visited one.

A change of one record away from those candidates therefore changes no answer to an editor: the
answers are read off the symbols that the walk finds.
-/

namespace StyleIndex

/-- The paths at which the files behind the followable imports of a document are looked for. -/
def Document.candidates (d : Document) : List Text :=
  (d.imports.filter Import.followable).flatMap fun i => importCandidates i.filepath

theorem Document.mem_candidates {d : Document} {i : Import} {c : Text} (hi : i ∈ d.imports)
    (hfollowable : i.followable = true) (hc : c ∈ importCandidates i.filepath) :
    c ∈ d.candidates :=
  List.mem_flatMap.mpr ⟨i, List.mem_filter.mpr ⟨hi, hfollowable⟩, hc⟩

/-! ## Two walks in lockstep -/

section Lockstep

variable {s s' : Store}

theorem lookupImport?_congr (hcwd : s'.cwd = s.cwd) {target : Text}
    (h : ∀ c ∈ importCandidates target, s'.get? c = s.get? c) :
    s'.lookupImport? target = s.lookupImport? target := by
  rw [Store.lookupImport?, Store.lookupImport?, Store.key_congr hcwd, ← List.head?_filterMap,
    ← List.head?_filterMap]
  refine congrArg List.head? (List.filterMap_congr fun c hc => ?_)
  rw [h c hc]

namespace Frontier

theorem follow_congr (hcwd : s'.cwd = s.cwd) (depth : Nat) (f : Frontier) {i : Import}
    (h : i.followable = true → ∀ c ∈ importCandidates i.filepath, s'.get? c = s.get? c) :
    follow s' depth f i = follow s depth f i := by
  unfold follow
  by_cases hi : i.followable = true
  · rw [if_pos hi, if_pos hi, lookupImport?_congr hcwd (h hi)]
  · rw [if_neg hi, if_neg hi]

theorem expand_congr (hcwd : s'.cwd = s.cwd) (f : Frontier) {v : Visit}
    (h : ∀ c ∈ v.document.candidates, s'.get? c = s.get? c) :
    expand s' f v = expand s f v := by
  refine List.foldl_ext _ _ _ fun f i hi => ?_
  exact follow_congr hcwd _ f fun hi' c hc => h c (Document.mem_candidates hi hi' hc)

/-- The walks go the same way if the stores agree on the candidates that one of them meets. -/
theorem walk_congr (hcwd : s'.cwd = s.cwd) (f : Frontier)
    (h : ∀ v ∈ walk s f, ∀ c ∈ v.document.candidates, s'.get? c = s.get? c) :
    walk s' f = walk s f := by
  fun_induction walk s f with
  | case1 f hqueue =>
      rw [walk.eq_def, hqueue]
  | case2 f v queue hqueue ih =>
      -- the first document of the queue is expanded to the same state in both stores
      obtain ⟨hv, hrest⟩ := List.forall_mem_cons.mp h
      rw [walk.eq_def, hqueue]
      simp only
      rw [expand_congr hcwd _ hv, ih hrest]

end Frontier

theorem visits_congr (hcwd : s'.cwd = s.cwd) {start : Document}
    (h : ∀ v ∈ s.visits start, ∀ c ∈ v.document.candidates, s'.get? c = s.get? c) :
    s'.visits start = s.visits start := by
  rw [Store.visits, Store.key_congr hcwd]
  exact Frontier.walk_congr hcwd _ h

theorem resolve_of_visits {start : Document} (h : s'.visits start = s.visits start) :
    s'.resolve start = s.resolve start := by
  simp only [Store.resolve, h]

end Lockstep

/-! ## Changes of one record -/

/-- A change of one record of a store. -/
inductive RecordChange where
  /-- A record is stored, in place of any record under its key. -/
  | put (d : Document)
  /-- The record of a path is dropped, if there is one. -/
  | drop (path : Text)

/-- The path whose record is changed. -/
def RecordChange.path : RecordChange → Text
  | .put d => d.path
  | .drop path => path

/-- The store behind a change. -/
def Store.apply (s : Store) : RecordChange → Store
  | .put d => s.insert d
  | .drop path => s.erase path

/-- The record that an editor starts from at an offset of a buffer. -/
def Buffer.recordIn (s : Store) (b : Buffer) (offset : Int) : Document :=
  recordAt s (s.key b.path) b.text (b.clamp offset)

section Change

variable {s : Store} {change : RecordChange}

theorem Store.cwd_apply : (s.apply change).cwd = s.cwd := by
  cases change with
  | put d => rfl
  | drop path => rfl

/-- A change is seen at its own key only. -/
theorem Store.get?_apply {p : Text} (h : s.key p ≠ s.key change.path) :
    (s.apply change).get? p = s.get? p := by
  cases change with
  | put d => exact (s.get?_insert d p).trans (if_neg (Ne.symm h))
  | drop path => exact (s.get?_erase path p).trans (if_neg (Ne.symm h))

/-- The record of a buffer does not depend on the records of other files. -/
theorem Buffer.recordIn_apply {b : Buffer} (h : s.key (s.key b.path) ≠ s.key change.path)
    (offset : Int) : b.recordIn (s.apply change) offset = b.recordIn s offset := by
  simp only [Buffer.recordIn, Store.key_congr s.cwd_apply, recordAt, recoverRecord,
    Store.get?_apply h]

end Change

/-! ## Answers -/

section Answer

variable {s s' : Store} {b : Buffer} {offset : Int}

/-- A request is the same in a store where the buffer has the same record and sees the same. -/
theorem Buffer.request_congr (hcwd : s'.cwd = s.cwd)
    (hrecord : b.recordIn s' offset = b.recordIn s offset)
    (hresolve : s'.resolve (b.recordIn s offset) = s.resolve (b.recordIn s offset)) :
    b.request s' offset = b.request s offset := by
  show Request.mk (s'.key b.path) b.text (b.clamp offset) (s'.resolve (b.recordIn s' offset)) = _
  rw [hrecord, hresolve, Store.key_congr hcwd]
  rfl

/-- A record that is read from the buffer is the one the request starts from. -/
theorem Buffer.recordIn_of_extract {record : Document}
    (h : extractStrict (s.key b.path) b.text (some (b.clamp offset)) = .ok record) :
    b.recordIn s offset = record := by
  rw [Buffer.recordIn, recordAt, h]

theorem Buffer.requestStrict_congr (hcwd : s'.cwd = s.cwd)
    (hresolve : s'.resolve (b.recordIn s offset) = s.resolve (b.recordIn s offset)) :
    b.requestStrict s' offset = b.requestStrict s offset := by
  simp only [Buffer.requestStrict, Store.key_congr hcwd]
  cases hextract : extractStrict (s.key b.path) b.text (some (b.clamp offset)) with
  | error e => rfl
  | ok record =>
      rw [Buffer.recordIn_of_extract hextract] at hresolve
      simp only [Except.map, hresolve]

/-- Every answer is read off the request. -/
theorem Store.answer_congr (hcwd : s'.cwd = s.cwd)
    (hrecord : b.recordIn s' offset = b.recordIn s offset)
    (hresolve : s'.resolve (b.recordIn s offset) = s.resolve (b.recordIn s offset))
    (settings : Settings) (question : CursorQuestion) :
    s'.answer settings b offset question = s.answer settings b offset question := by
  have hrequest := Buffer.request_congr hcwd hrecord hresolve
  cases question with
  | complete =>
      simp only [Store.answer, complete, hrequest, Buffer.requestStrict_congr hcwd hresolve]
  | hover => simp only [Store.answer, hover?, hrequest]
  | signature => simp only [Store.answer, signatureHelp?, hrequest]
  | definition => simp only [Store.answer, definition?, hrequest]

end Answer

/-- **What a document sees depends on the candidates of the imports it meets only.** If another
store, with the same directory for relative paths, has the same records at the candidates of the
documents visited in this one, then the walk visits the same documents at the same depths and finds
the same symbols. So a change of a record that is no such candidate changes nothing that the start
sees, and no answer at a cursor whose record is the start; and the record at a cursor does not
change with the records of other files. -/
theorem resolve_local (s : Store) (start : Document) :
    (∀ s' : Store, s'.cwd = s.cwd →
      (∀ v ∈ s.visits start, ∀ c ∈ v.document.candidates, s'.get? c = s.get? c) →
      s'.visits start = s.visits start ∧ s'.resolve start = s.resolve start) ∧
    ∀ change : RecordChange,
      (∀ v ∈ s.visits start, ∀ c ∈ v.document.candidates, s.key c ≠ s.key change.path) →
      (s.apply change).resolve start = s.resolve start ∧
        ∀ (b : Buffer) (offset : Int), b.recordIn s offset = start →
          (b.recordIn (s.apply change) offset = start →
            ∀ (settings : Settings) (question : CursorQuestion),
              (s.apply change).answer settings b offset question
                = s.answer settings b offset question) ∧
          (s.key (s.key b.path) ≠ s.key change.path →
            b.recordIn (s.apply change) offset = start) := by
  have hlocal : ∀ s' : Store, s'.cwd = s.cwd →
      (∀ v ∈ s.visits start, ∀ c ∈ v.document.candidates, s'.get? c = s.get? c) →
      s'.visits start = s.visits start ∧ s'.resolve start = s.resolve start := by
    intro s' hcwd hagree
    have hvisits := visits_congr hcwd hagree
    exact ⟨hvisits, resolve_of_visits hvisits⟩
  refine ⟨hlocal, fun change hother => ?_⟩
  obtain ⟨-, hresolve⟩ := hlocal (s.apply change) s.cwd_apply fun v hv c hc =>
    Store.get?_apply (hother v hv c hc)
  refine ⟨hresolve, fun b offset hstart => ⟨fun hstart' => ?_, fun hpath => ?_⟩⟩
  · rw [← hstart] at hresolve
    exact Store.answer_congr s.cwd_apply (hstart'.trans hstart.symm) hresolve
  · rw [Buffer.recordIn_apply hpath, hstart]

end StyleIndex
