import StyleIndex.Text.Basic

set_option autoImplicit false

/-! # Paths

A path is a text whose elements are separated by slashes; one that starts with a slash is
absolute. All operations are lexical: they look at the text only, never at a file system.

A *clean* path has no empty element, no element `.`, and `..` only in front of a relative path.
-/

namespace StyleIndex

namespace Path

/-- The element that stands for the directory itself. -/
def here : Text := [Ascii.dot]

/-- The element that stands for the parent directory. -/
def parent : Text := [Ascii.dot, Ascii.dot]

/-- Whether a path is absolute. -/
def isAbsolute (p : Text) : Bool := p.head? == some Ascii.slash

/-- Adds one element to the elements of a clean path, last first. -/
def addElement (rooted : Bool) (elements : List Text) (e : Text) : List Text :=
  if e = [] ∨ e = here then elements
  else if e = parent then
    match elements with
    | [] => if rooted then [] else [parent]
    | last :: before => if last = parent then parent :: elements else before
  else e :: elements

/-- The elements of the clean form of a path. -/
def elements (p : Text) : List Text :=
  ((Text.splitOn Ascii.slash p).foldl (addElement (isAbsolute p)) []).reverse

/-- The path with the given elements. -/
def ofElements (rooted : Bool) (es : List Text) : Text :=
  if rooted then Ascii.slash :: Text.join [Ascii.slash] es
  else if es.isEmpty then here
  else Text.join [Ascii.slash] es

/-- The clean form of a path. -/
def clean (p : Text) : Text := ofElements (isAbsolute p) (elements p)

/-- The elements joined by slashes and made clean; empty elements in front are dropped, and
nothing but empty elements gives the empty path. -/
def join (es : List Text) : Text :=
  match es.dropWhile List.isEmpty with
  | [] => []
  | rest => clean (Text.join [Ascii.slash] rest)

/-- Cuts a path just after its last slash: the directory part and the last element. -/
def split (p : Text) : Text × Text :=
  match Text.lastByteIndex? Ascii.slash p with
  | some i => (p.take (i + 1), p.drop (i + 1))
  | none => ([], p)

/-- The directory of a path, in clean form. -/
def directory (p : Text) : Text := clean (split p).1

/-- The last element of a path, trailing slashes aside. -/
def base (p : Text) : Text :=
  if p.isEmpty then here
  else
    let trimmed := Text.trimEndWhile (· == Ascii.slash) p
    if trimmed.isEmpty then [Ascii.slash] else (split trimmed).2

/-- The extension of a path: its last element from the last dot on, or nothing. -/
def extension (p : Text) : Text :=
  let last := (split p).2
  match Text.lastByteIndex? Ascii.dot last with
  | some i => last.drop i
  | none => []

/-- The clean absolute form of a path, a relative one being taken against the directory
`cwd`. -/
def absolute (cwd p : Text) : Text := if isAbsolute p then clean p else join [cwd, p]

/-- Removes the longest common beginning of two lists of elements. -/
def dropCommon : List Text → List Text → List Text × List Text
  | a :: as, b :: bs => if a = b then dropCommon as bs else (a :: as, b :: bs)
  | as, bs => (as, bs)

/-- The path that leads from `start` to `target`. There is none between a relative and an
absolute path, nor when `start` has to be left through an unknown parent directory. -/
def relative? (start target : Text) : Option Text :=
  if clean start = clean target then some here
  else if isAbsolute start != isAbsolute target then none
  else
    let goal := if clean target = here then [here] else elements target
    let (up, down) := dropCommon (elements start) goal
    if up.head? = some parent ∧ ¬ down.isEmpty then none
    else some (Text.join [Ascii.slash] (up.map (fun _ => parent) ++ down))

/-- Whether a relative path leads out of the directory it starts from. -/
def leadsOut (rel : Text) : Bool :=
  rel == parent || Text.startsWith rel (parent ++ [Ascii.slash])

/-- Whether `p` is the directory `root` or lies below it. -/
def isUnder (root p : Text) : Bool :=
  match relative? root p with
  | some rel => !leadsOut rel
  | none => false

end Path

end StyleIndex
