import StyleIndex.Path

set_option autoImplicit false

/-! # Files

The files a workspace is read from, as a value: directories that hold files and directories, and
the directory that relative paths are taken against. Reading a file system that does not change
is then a function, and two readings can be compared.

Not everything that is found can be used. A file may be found and not be readable, and a directory
may refuse to be listed, or to let paths through it (`FileContent`, `Access`).

A path is followed element by element. Every element but the last must lead to a directory, also
an element that only stays there or goes up again.
-/

namespace StyleIndex

/-! ## Faults -/

/-- Why a path cannot be read. -/
inductive FileFault where
  | missing
  | notDirectory
  | isDirectory
  /-- It is not permitted to read the file, or to go through a directory on the way to it. -/
  | denied
  /-- It is not permitted to list the directory. -/
  | unlisted
  | tooLong
  deriving DecidableEq

/-- The wording of a fault. -/
def FileFault.message : FileFault → Text
  | .missing => text "no such file or directory"
  | .notDirectory => text "not a directory"
  | .isDirectory => text "is a directory"
  | .denied | .unlisted => text "permission denied"
  | .tooLong => text "file name too long"

/-! ## Directories -/

/-- What a file holds, or why it cannot be read. A file that cannot be read may still be known to
be a regular one; a link that leads nowhere is not. -/
inductive FileContent where
  | readable (content : Text)
  | unreadable (regular : Bool) (fault : FileFault)

/-- Whether a file is a regular one. -/
def FileContent.isRegular : FileContent → Bool
  | .readable _ => true
  | .unreadable regular _ => regular

/-- The content of a file. -/
def FileContent.read : FileContent → Except FileFault Text
  | .readable content => .ok content
  | .unreadable _ fault => .error fault

/-- What is permitted with a directory. -/
structure Access where
  /-- Whether its names can be listed. -/
  listed : Bool
  /-- Whether paths may lead through it. -/
  entered : Bool
  deriving DecidableEq

/-- Everything is permitted. -/
def Access.full : Access := ⟨true, true⟩

/-- What a directory holds, in order of the names. -/
inductive Directory where
  | empty
  | file (name : Text) (content : FileContent) (rest : Directory)
  | folder (name : Text) (access : Access) (inside rest : Directory)

/-- A file with its content, or a directory. -/
inductive FileNode where
  | file (content : FileContent)
  | folder (access : Access) (inside : Directory)

namespace Directory

/-- What stands under a name. -/
def get? (name : Text) : Directory → Option FileNode
  | .empty => none
  | .file n content rest => if n = name then some (.file content) else get? name rest
  | .folder n access inside rest =>
    if n = name then some (.folder access inside) else get? name rest

/-- Puts a file or a directory in front. -/
def cons (name : Text) : FileNode → Directory → Directory
  | .file content, rest => .file name content rest
  | .folder access inside, rest => .folder name access inside rest

/-- Puts a file or a directory under a name, in place of what stands there. -/
def insert (name : Text) (node : FileNode) : Directory → Directory
  | .empty => cons name node .empty
  | .file n content rest =>
    if name = n then cons name node rest
    else if name < n then cons name node (.file n content rest)
    else .file n content (insert name node rest)
  | .folder n access inside rest =>
    if name = n then cons name node rest
    else if name < n then cons name node (.folder n access inside rest)
    else .folder n access inside (insert name node rest)

/-- Removes what stands under a name. -/
def erase (name : Text) : Directory → Directory
  | .empty => .empty
  | .file n content rest => if n = name then rest else .file n content (erase name rest)
  | .folder n access inside rest =>
    if n = name then rest else .folder n access inside (erase name rest)

/-- The number of files in a directory and below. -/
def fileCount : Directory → Nat
  | .empty => 0
  | .file _ _ rest => 1 + fileCount rest
  | .folder _ _ inside rest => fileCount inside + fileCount rest

/-- Puts a file or a directory at the end of a path, creating the directories on the way. Where a
file stands in the way, nothing changes. -/
def write (name : Text) (node : FileNode) : (way : List Text) → Directory → Directory
  | [], d => d.insert name node
  | step :: way, d =>
    match d.get? step with
    | some (.file _) => d
    | some (.folder access inside) => d.insert step (.folder access (write name node way inside))
    | none => d.insert step (.folder .full (write name node way .empty))

/-- Removes what stands at the end of a path, if there is anything. -/
def remove (name : Text) : (way : List Text) → Directory → Directory
  | [], d => d.erase name
  | step :: way, d =>
    match d.get? step with
    | some (.folder access inside) => d.insert step (.folder access (remove name way inside))
    | _ => d

end Directory

/-! ## Following paths -/

/-- Follows the elements of a path. `above` are the directories around the present one, from the
inside out; the topmost directory is its own parent. -/
def Directory.follow (above : List FileNode) (here : FileNode) :
    List Text → Except FileFault FileNode
  | [] => .ok here
  | e :: rest =>
    match here with
    | .file _ => .error .notDirectory
    | .folder access d =>
      if e = [] then follow above here rest
      else if access.entered = false then .error .denied
      else if e = Path.here then follow above here rest
      else if e = Path.parent then
        match above with
        | [] => follow [] here rest
        | up :: above => follow above up rest
      else match d.get? e with
        | none => .error .missing
        | some node => follow (here :: above) node rest

/-- A file system: its topmost directory, and the directory relative paths are taken against. -/
structure FileSystem where
  top : Directory
  cwd : Text

namespace FileSystem

/-- The topmost directory as a node. Everything is permitted there. -/
def root (fs : FileSystem) : FileNode := .folder .full fs.top

/-- The clean absolute form of a path. -/
def absolute (fs : FileSystem) (path : Text) : Text := Path.absolute fs.cwd path

/-- The greatest length of a path that is followed. -/
def longestPath : Nat := 4095

/-- What a path leads to. -/
def find (fs : FileSystem) (path : Text) : Except FileFault FileNode :=
  if path.isEmpty then .error .missing
  else if longestPath < (fs.absolute path).length then .error .tooLong
  else
    let full := if Path.isAbsolute path then path else fs.cwd ++ [Ascii.slash] ++ path
    Directory.follow [] fs.root (Text.splitOn Ascii.slash full)

/-- The content of a file. -/
def read (fs : FileSystem) (path : Text) : Except FileFault Text :=
  match fs.find path with
  | .error e => .error e
  | .ok (.folder _ _) => .error .isDirectory
  | .ok (.file content) => content.read

/-- Whether a path leads to a regular file, which need not be readable. -/
def isFile (fs : FileSystem) (path : Text) : Bool :=
  match fs.find path with
  | .ok (.file content) => content.isRegular
  | _ => false

/-- Whether a path leads to a file that can be read. -/
def isReadable (fs : FileSystem) (path : Text) : Bool :=
  match fs.read path with
  | .ok _ => true
  | .error _ => false

/-- Whether a path leads to a directory. -/
def isDirectory (fs : FileSystem) (path : Text) : Bool :=
  match fs.find path with
  | .ok (.folder _ _) => true
  | _ => false

/-- Whether a path leads to a directory that can be listed. -/
def lists (fs : FileSystem) (path : Text) : Bool :=
  match fs.find path with
  | .ok (.folder access _) => access.listed
  | _ => false

/-- Puts a file or a directory at a path. -/
def put (fs : FileSystem) (path : Text) (node : FileNode) : FileSystem :=
  match (Path.elements (fs.absolute path)).reverse with
  | [] => fs
  | name :: way => { fs with top := fs.top.write name node way.reverse }

/-- Writes a file, creating the directories on the way. A directory is not written over. -/
def writeFile (fs : FileSystem) (path content : Text) : FileSystem :=
  if fs.isDirectory (fs.absolute path) then fs else fs.put path (.file (.readable content))

/-- Creates a directory, unless something stands there already. -/
def createDirectory (fs : FileSystem) (path : Text) : FileSystem :=
  match fs.find (fs.absolute path) with
  | .error .missing => fs.put path (.folder .full .empty)
  | _ => fs

/-- Removes a file, or a directory with everything in it. -/
def remove (fs : FileSystem) (path : Text) : FileSystem :=
  match (Path.elements (fs.absolute path)).reverse with
  | [] => fs
  | name :: way => { fs with top := fs.top.remove name way.reverse }

end FileSystem

/-- The wording of a failed attempt to read a file: the file is opened first, then read. -/
def FileFault.readMessage (path : Text) (fault : FileFault) : Text :=
  (match fault with
  | .isDirectory => text "read "
  | _ => text "open ") ++ path ++ text ": " ++ fault.message

/-- The wording of a failed attempt to walk over a directory: it is looked at first, then opened to
be listed. -/
def FileFault.lookMessage (path : Text) (fault : FileFault) : Text :=
  (match fault with
  | .unlisted => text "open "
  | _ => text "lstat ") ++ path ++ text ": " ++ fault.message

end StyleIndex
