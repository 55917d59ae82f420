import StyleIndex.Discovery.Basic
import StyleIndex.FileSystem
import StyleIndex.Text.Case

set_option autoImplicit false

/-! # Discovery

Finding the stylesheets below a root. A directory that is excluded, or that lies too deep, is not
entered, so nothing below it is looked at. Neither is anything below a directory that cannot be
listed: the walk passes it over and goes on. Only a root that cannot be listed is an error.

A file is found by its name alone; whether it can be read does not matter here.
-/

namespace StyleIndex

namespace Directory

/-- The files below a directory that `accept` takes, where only directories that `enter` lets in
are entered. Each file is given by the names that lead to it, `way` being those of the directory
itself. -/
def files (enter accept : List Text → Bool) (way : List Text) : Directory → List (List Text)
  | .empty => []
  | .file name _ rest =>
    (if accept (way ++ [name]) then [way ++ [name]] else []) ++ files enter accept way rest
  | .folder name _ inside rest =>
    (if enter (way ++ [name]) then files enter accept (way ++ [name]) inside else []) ++
      files enter accept way rest

/-- The directories below a directory that `enter` lets in, none of them inside another that it
does not. -/
def folders (enter : List Text → Bool) (way : List Text) : Directory → List (List Text)
  | .empty => []
  | .file _ _ rest => folders enter way rest
  | .folder name _ inside rest =>
    (if enter (way ++ [name]) then (way ++ [name]) :: folders enter (way ++ [name]) inside
      else []) ++ folders enter way rest

end Directory

/-- The path that leads from an absolute directory over the given names. -/
def Path.extend (directory : Text) (names : List Text) : Text :=
  Path.ofElements true (Path.elements directory ++ names)

/-- The relative path over the given names. -/
def Path.ofNames (names : List Text) : Text := Text.join [Ascii.slash] names

/-- Why discovery has no result. -/
inductive DiscoveryError where
  | badPattern (error : GlobError)
  | unreadable (root : Text) (fault : FileFault)
  | canceled
  deriving DecidableEq

/-- The wording of the error. -/
def DiscoveryError.message : DiscoveryError → Text
  | .badPattern error => error.message
  | .unreadable root fault => fault.lookMessage root
  | .canceled => text "context canceled"

namespace Discovery

/-- The extension of the files that are looked for. -/
def extension : Text := text ".scss"

/-- Whether the walk goes into a directory, as far as the settings are concerned. -/
def enters (d : Discovery) (names : List Text) : Bool :=
  !d.excludes (Path.ofNames names) && decide ((names.length : Int) ≤ d.maxDepth)

/-- Whether the walk goes into a directory and can list it. -/
def walksInto (d : Discovery) (fs : FileSystem) (names : List Text) : Bool :=
  d.enters names && fs.lists (Path.extend d.root names)

/-- Whether the walk takes a file. -/
def accepts (d : Discovery) (names : List Text) : Bool :=
  Text.equalsIgnoringCase (Path.extension (Path.ofNames names)) extension &&
    !d.excludes (Path.ofNames names)

/-- The stylesheets of a directory that is the root, in increasing order. -/
def filesIn (d : Discovery) (fs : FileSystem) (top : Directory) : List Text :=
  Text.sort ((top.files (d.walksInto fs) d.accepts []).map (Path.extend d.root))

/-- The stylesheets below the root, in increasing order. A root that is a file has none. -/
def files (d : Discovery) (fs : FileSystem) (canceled : Bool) : Except DiscoveryError (List Text) :=
  match fs.find d.root with
  | .error fault => .error (.unreadable d.root fault)
  | .ok node =>
    if canceled then .error .canceled
    else match node with
      | .file _ => .ok []
      | .folder access top =>
        if access.listed then .ok (d.filesIn fs top) else .error (.unreadable d.root .unlisted)

end Discovery

/-- The stylesheets that the settings select below a root. -/
def discover (fs : FileSystem) (root : Text) (s : Settings) (canceled : Bool) :
    Except DiscoveryError (List Text) :=
  match Discovery.ofSettings (fs.absolute root) s with
  | .error e => .error (.badPattern e)
  | .ok d => d.files fs canceled

end StyleIndex
