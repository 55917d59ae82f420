import Std.Data.ExtTreeMap
import StyleIndex.Path
import StyleIndex.Symbol.Basic

set_option autoImplicit false

/-! # The store

The records of a workspace, each under the clean absolute form of its path. A relative path is
taken against the directory the program works in, which is part of the store.

A record always stands under the key of its own path; this is a field of the type, so every
operation keeps it.
-/

namespace StyleIndex

/-- The records of a workspace. -/
structure Store where
  /-- The directory against which relative paths are taken. -/
  cwd : Text
  /-- The records by key. -/
  records : Std.ExtTreeMap Text Document
  /-- A record stands under the key of its path. -/
  keyed : ∀ k d, records[k]? = some d → Path.absolute cwd d.path = k

namespace Store

/-- A store without records. -/
def empty (cwd : Text) : Store := ⟨cwd, ∅, by simp⟩

/-- The key of a path. -/
def key (s : Store) (path : Text) : Text := Path.absolute s.cwd path

/-- The record under a key. -/
def atKey? (s : Store) (k : Text) : Option Document := s.records[k]?

/-- The record of a path. -/
def get? (s : Store) (path : Text) : Option Document := s.atKey? (s.key path)

/-- Stores a record, in place of any record of the same path. -/
def insert (s : Store) (d : Document) : Store where
  cwd := s.cwd
  records := s.records.insert (s.key d.path) d
  keyed k e h := by
    rw [Std.ExtTreeMap.getElem?_insert] at h
    split at h
    · next hk =>
      cases h
      simpa [key] using hk
    · exact s.keyed k e h

/-- Removes the record of a path, if there is one. -/
def erase (s : Store) (path : Text) : Store where
  cwd := s.cwd
  records := s.records.erase (s.key path)
  keyed k e h := by
    rw [Std.ExtTreeMap.getElem?_erase] at h
    split at h
    · cases h
    · exact s.keyed k e h

/-- Removes all records. -/
def clear (s : Store) : Store := empty s.cwd

/-- The number of records. -/
def size (s : Store) : Nat := s.records.size

/-- The keys, in increasing order. -/
def keys (s : Store) : List Text := s.records.keys

/-- All records, ordered by path. -/
def documents (s : Store) : List Document :=
  (s.records.toList.map (·.2)).mergeSort fun a b => decide (a.path ≤ b.path)

end Store

end StyleIndex
