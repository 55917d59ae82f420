import StyleIndex.Workspace

set_option autoImplicit false

/-! # Several workspaces

A manager holds one workspace per root and finds the workspace a file belongs to: of all roots
that the file lies below, the deepest one.
-/

namespace StyleIndex

/-- The workspaces by root. -/
structure Manager where
  /-- The directory against which relative paths are taken. -/
  cwd : Text
  workspaces : Std.ExtTreeMap Text Workspace

/-- Why a root cannot be used; `ε` says why its settings cannot be loaded. -/
inductive ManagerError (ε : Type) where
  | settings (root : Text) (cause : ε)
  | invalid (faults : List SettingsFault)
  | unknownRoot (root : Text)

/-- The wording of an error, given the wording of causes. -/
def ManagerError.message {ε : Type} (wording : ε → Text) : ManagerError ε → Text
  | .settings root cause =>
    text "failed to load settings for " ++ root ++ text ": " ++ wording cause
  | .invalid faults => SettingsFault.messageOfAll faults
  | .unknownRoot root => text "unknown workspace root: " ++ root

namespace Manager

/-- A manager without workspaces. -/
def empty (cwd : Text) : Manager := ⟨cwd, ∅⟩

/-- The clean absolute form of a root. -/
def key (m : Manager) (root : Text) : Text := Path.absolute m.cwd root

/-- The roots, in increasing order. -/
def roots (m : Manager) : List Text := m.workspaces.keys

/-- The workspace of a root. -/
def get? (m : Manager) (root : Text) : Option Workspace := m.workspaces[m.key root]?

/-- Puts a workspace under its root. -/
def put (m : Manager) (w : Workspace) : Manager :=
  { m with workspaces := m.workspaces.insert w.root w }

/-- The workspace of a root, which is created when there is none yet. -/
def get {ε : Type} (m : Manager) (load : Text → Except ε Settings) (root : Text) :
    Except (ManagerError ε) (Manager × Workspace) :=
  match m.get? root with
  | some w => .ok (m, w)
  | none =>
    match load (m.key root) with
    | .error cause => .error (.settings (m.key root) cause)
    | .ok s =>
      match Workspace.create m.cwd root s with
      | .error faults => .error (.invalid faults)
      | .ok w => .ok (m.put w, w)

/-- The better of two roots a path lies below, the first being nothing when there is none yet. -/
def deeper (path : Text) (best : Option Text) (root : Text) : Option Text :=
  if !Path.isUnder root path then best
  else match best with
    | none => some root
    | some other => if other.length < root.length then some root else some other

/-- The deepest root that a path lies below. -/
def rootOf? (m : Manager) (path : Text) : Option Text :=
  m.roots.foldl (deeper (m.key path)) none

/-- The workspace that a path belongs to. -/
def workspaceOf? (m : Manager) (path : Text) : Option Workspace :=
  (m.rootOf? path).bind fun root => m.workspaces[root]?

/-- Closes and drops the workspace of a root. -/
def remove {ε : Type} (m : Manager) (root : Text) : Except (ManagerError ε) Manager :=
  if m.workspaces.contains (m.key root) then
    .ok { m with workspaces := m.workspaces.erase (m.key root) }
  else .error (.unknownRoot (m.key root))

/-- Closes and drops all workspaces. -/
def close (m : Manager) : Manager := empty m.cwd

end Manager

end StyleIndex
