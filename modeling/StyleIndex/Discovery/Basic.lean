import StyleIndex.Glob.Basic
import StyleIndex.Path
import StyleIndex.Settings.Basic

set_option autoImplicit false

/-! # Which paths are ignored

A path below the root is ignored when a pattern matches it or one of the directories it lies in,
or when it lies too deep. The configuration directory is always ignored, and so is everything
outside the root.

A pattern matches a directory also when it matches all paths below it, and a pattern that starts
with `**/` matches in the root itself, too.
-/

namespace StyleIndex

/-- The name of the configuration directory. -/
def configDirectory : Text := text ".scss-index"

/-- An exclude pattern and its glob. -/
structure ExcludePattern where
  pattern : Text
  glob : Glob

/-- What decides which paths are ignored: the root, the depth and the patterns. -/
structure Discovery where
  root : Text
  maxDepth : Int
  patterns : List ExcludePattern

namespace Discovery

/-- Prepares the discovery below a root, which is an absolute path. -/
def ofSettings (root : Text) (s : Settings) : Except GlobError Discovery :=
  (s.scannerExclude.mapM fun p => (Glob.ofPattern p).map (⟨p, ·⟩)).map
    fun patterns => ⟨root, s.scannerDepth, patterns⟩

/-- The end of a pattern for everything below a directory. -/
def below : Text := text "/**"

/-- The beginning of a pattern for every depth. -/
def anywhere : Text := text "**/"

/-- Whether a pattern matches a relative path. -/
def matchesPattern (path : Text) (p : ExcludePattern) : Bool := p.glob.matchesPath path

/-- Whether a pattern for every depth matches a path that lies in the root. -/
def matchesInRoot (path : Text) (p : ExcludePattern) : Bool :=
  Text.startsWith p.pattern anywhere &&
    match Glob.ofPattern (p.pattern.drop anywhere.length) with
    | .ok g => g.matchesPath path
    | .error _ => false

/-- Whether some pattern matches a relative path. -/
def matchesAny (d : Discovery) (path : Text) : Bool :=
  d.patterns.any (matchesPattern path) ||
    (!(Text.dropEnd path below).contains Ascii.slash && d.patterns.any (matchesInRoot path))

/-- Whether a relative path is excluded by itself, the directories around it aside. -/
def excludes (d : Discovery) (path : Text) : Bool :=
  path == configDirectory || Text.startsWith path (configDirectory ++ [Ascii.slash]) ||
    d.matchesAny path || d.matchesAny (path ++ below)

/-- The directories around a relative path, outermost first, each as a relative path. -/
def directoriesOf (path : Text) : List Text :=
  let names := (Text.splitOn Ascii.slash path).dropLast
  (List.range names.length).map fun i => Text.join [Ascii.slash] (names.take (i + 1))

/-- Whether an absolute path is ignored. The root itself is not. -/
def ignored (d : Discovery) (path : Text) : Bool :=
  match Path.relative? d.root path with
  | none => true
  | some rel =>
    if Path.leadsOut rel then true
    else if rel = Path.here then false
    else
      let dirs := directoriesOf rel
      decide (d.maxDepth < dirs.length) || dirs.any d.excludes || d.excludes rel

end Discovery

end StyleIndex
