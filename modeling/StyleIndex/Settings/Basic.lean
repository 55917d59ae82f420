import StyleIndex.Text.Basic

set_option autoImplicit false

/-! # Settings

The configuration of a workspace. Depth is measured in directories below the root; exclude
patterns are globs.
-/

namespace StyleIndex

/-- The settings of one workspace. -/
structure Settings where
  /-- How many directories below the root are searched. -/
  scannerDepth : Int
  /-- Globs of the paths that are skipped. -/
  scannerExclude : List Text
  /-- Whether a scan goes on to the files that a file imports. -/
  scanImportedFiles : Bool
  /-- The mark of imported suggestions; nothing when they carry none. -/
  implicitlyLabel : Option Text
  /-- Whether a file that does not parse is an error. -/
  showErrors : Bool
  suggestVariables : Bool
  suggestMixins : Bool
  suggestFunctions : Bool
  /-- The bytes after which functions are suggested inside an interpolation in a string. -/
  suggestFunctionsInStringContextAfterSymbols : Text
  deriving DecidableEq

/-- The settings of a workspace that configures nothing. -/
def Settings.default : Settings where
  scannerDepth := 30
  scannerExclude := [text "**/.git", text "**/node_modules", text "**/bower_components"]
  scanImportedFiles := true
  implicitlyLabel := some (text "(implicitly)")
  showErrors := false
  suggestVariables := true
  suggestMixins := true
  suggestFunctions := true
  suggestFunctionsInStringContextAfterSymbols := text " (+-*%"

end StyleIndex
