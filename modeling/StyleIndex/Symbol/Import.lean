import StyleIndex.Path
import StyleIndex.Stylesheet.Node
import StyleIndex.Symbol.Basic
import StyleIndex.Text.Case

set_option autoImplicit false

/-! # Imports

How the text of an import becomes an import edge. Plain CSS and addresses of other machines are
marked as CSS, texts with an interpolation or a wildcard as dynamic; neither is followed. Every
other import names a stylesheet relative to the directory of the importing file.

An import names a *target*; the file behind it is one of several candidates, tried in order.
-/

namespace StyleIndex

/-- The extensions of stylesheets. -/
def isStylesheetExtension (ext : Text) : Bool :=
  Text.toLower ext == text ".scss" || Text.toLower ext == text ".sass"

namespace Import

/-- The import that a text asks for, before its path is resolved. -/
def ofText (raw : Text) : Import :=
  let lower := Text.toLower raw
  { filepath := raw
    css := Text.endsWith lower (text ".css") || Text.startsWith lower (text "http://") ||
      Text.startsWith lower (text "https://") || Text.startsWith raw (text "//")
    dynamic := Text.includes raw [Ascii.hash, Ascii.lbrace] || Text.includes raw [Ascii.star]
    reference := false }

/-- Whether a text is the address of another machine. -/
def isRemote (p : Text) : Bool := Text.startsWith p (text "//") || Text.includes p (text "://")

/-- Makes the path of a local import absolute, given the directory of the importing file, and
adds the extension of a stylesheet where it is missing. -/
def resolveIn (directory : Text) (i : Import) : Import :=
  if i.dynamic || isRemote i.filepath then i
  else
    let target :=
      if Path.isAbsolute i.filepath then i.filepath else Path.join [directory, i.filepath]
    if i.css || isStylesheetExtension (Path.extension target) then { i with filepath := target }
    else { i with filepath := target ++ text ".scss" }

end Import

/-- The import that one target of an import statement asks for. A module that is built into the
language is none, unless it is named by `@import`. -/
def ImportTarget.toImport? (keyword : ImportKeyword) (t : ImportTarget) : Option Import :=
  if keyword ≠ .importRule ∧ Text.startsWith t.path (text "sass:") then none
  else
    let i := Import.ofText t.path
    some { i with css := i.css || t.url }

/-- The files a target may refer to, in the order in which they are tried: the target itself,
its partial, and the two index files of the directory of that name. -/
def importCandidates (target : Text) : List Text :=
  let (dir, base) := Path.split target
  let ext := Path.extension base
  let stem := Text.dropEnd base ext
  let partialFile :=
    if base.head? = some Ascii.underscore then []
    else [Path.join [dir, Ascii.underscore :: base]]
  [target] ++ partialFile ++
    [Path.join [dir, stem, text "_index" ++ ext], Path.join [dir, stem, text "index" ++ ext]]

end StyleIndex
