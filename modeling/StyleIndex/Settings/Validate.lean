import StyleIndex.Glob.Basic
import StyleIndex.Settings.Basic
import StyleIndex.Text.Blank
import StyleIndex.Text.Quoted

set_option autoImplicit false

/-! # Validity of settings

Settings are usable when the depth is not negative and every exclude pattern is a glob that is
not blank. All faults are reported together, the depth first and the patterns in their order.
-/

namespace StyleIndex

/-- One reason why settings are not usable. -/
inductive SettingsFault where
  | negativeDepth (depth : Int)
  | emptyPattern
  | badPattern (pattern : Text) (error : GlobError)
  deriving DecidableEq

namespace SettingsFault

/-- The wording of a fault. -/
def message : SettingsFault → Text
  | .negativeDepth depth =>
    text "invalid scanner depth: scanner_depth cannot be negative, got " ++ Text.ofInt depth
  | .emptyPattern => text "invalid exclude pattern: empty pattern"
  | .badPattern pattern error =>
    text "invalid exclude pattern: " ++ pattern.quoted ++ text ": " ++ error.message

/-- Whether the fault is the depth's. -/
def isDepth : SettingsFault → Bool
  | .negativeDepth _ => true
  | _ => false

/-- The wording of several faults. -/
def messageOfAll : List SettingsFault → Text
  | [fault] => fault.message
  | faults => text "validation failed: " ++ Text.join [Ascii.lf] (faults.map message)

end SettingsFault

namespace Settings

/-- The fault of one exclude pattern. -/
def patternFault? (pattern : Text) : Option SettingsFault :=
  if (Text.trimBlank pattern).isEmpty then some .emptyPattern
  else match Glob.ofPattern pattern with
    | .error e => some (.badPattern pattern e)
    | .ok _ => none

/-- All faults of the settings. -/
def faults (s : Settings) : List SettingsFault :=
  (if s.scannerDepth < 0 then [.negativeDepth s.scannerDepth] else []) ++
    s.scannerExclude.filterMap patternFault?

end Settings

end StyleIndex
