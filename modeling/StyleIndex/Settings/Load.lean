import StyleIndex.Data.Coerce
import StyleIndex.Data.Json
import StyleIndex.Data.Yaml.Block
import StyleIndex.Discovery.Basic
import StyleIndex.FileSystem
import StyleIndex.Settings.Validate
import StyleIndex.Text.Case

set_option autoImplicit false

/-! # Loading settings

Settings come from three places. A variable of the environment wins over the configuration file,
and the file wins over the default. An empty variable and an empty value count as missing.

The configuration file is either named, and then has to exist, or looked for in the configuration
directory of the root.
-/

namespace StyleIndex

/-- The variables of the environment. -/
abbrev Environment := List (Text × Text)

/-- The value of a variable, unless it is missing or empty. -/
def Environment.get? (env : Environment) (name : Text) : Option Text :=
  ((env.find? fun v => v.1 = name).map (·.2)).filter fun value => !value.isEmpty

/-- What every variable of the program starts with. -/
def variableStart : Text := text "SCSS_INDEX_"

/-- Where settings come from. -/
inductive SettingsSource where
  /-- A configuration file that has to exist. -/
  | file (path : Text)
  /-- The configuration directory of a root. -/
  | root (path : Text)

/-- Why settings cannot be loaded. -/
inductive LoadError where
  | unreadable (path : Text) (fault : FileFault)
  /-- The extension of the file is that of no known format. -/
  | unsupported (path : Text)
  | malformed (path : Text)
  /-- The value of a setting has the wrong type. -/
  | undecodable (key : Text)
  | invalid (faults : List SettingsFault)
  deriving DecidableEq

/-- The wording of the error. -/
def LoadError.message : LoadError → Text
  | .unreadable path fault => text "failed to read config file: " ++ fault.readMessage path
  | .unsupported path => text "failed to read config file: unsupported type of " ++ path
  | .malformed path => text "failed to read config file: malformed content of " ++ path
  | .undecodable key => text "failed to unmarshal config: wrong type of value for " ++ key
  | .invalid faults => text "invalid configuration: " ++ SettingsFault.messageOfAll faults

/-! ## The configuration file -/

/-- The extensions of configuration files, in the order in which they are looked for. -/
def configExtensions : List Text :=
  ["json", "toml", "yaml", "yml", "properties", "props", "prop", "hcl", "tfvars", "dotenv", "env",
    "ini"].map text

/-- The names under which the configuration file is looked for. -/
def configNames : List Text :=
  configExtensions.map (fun ext => text "config." ++ ext) ++ [text "config"]

/-- The configuration file of a root. -/
def configFile? (fs : FileSystem) (root : Text) : Option Text :=
  (configNames.map fun name => Path.join [root, configDirectory, name]).find? fs.isFile

/-- The fields of a configuration file; an empty file has none. -/
def configFields (path : Text) (v? : Option Value) : Except LoadError (List (Text × Value)) :=
  match v? with
  | some (.object fields) => .ok fields
  | some .null => .ok []
  | _ => .error (.malformed path)

/-- The fields of a named configuration file, whose extension says which format it has. -/
def namedFields (fs : FileSystem) (path : Text) : Except LoadError (List (Text × Value)) :=
  let ext := (Path.extension path).drop 1
  if !configExtensions.contains ext then .error (.unsupported path)
  else match fs.read path with
    | .error fault => .error (.unreadable path fault)
    | .ok content =>
      if ext = text "json" then configFields path (Value.ofJson? content)
      else if ext = text "yaml" ∨ ext = text "yml" then configFields path (Value.ofYaml? content)
      else .error (.malformed path)

/-- The fields of the configuration file of a root; there are none when it has no file. -/
def foundFields (fs : FileSystem) (root : Text) : Except LoadError (List (Text × Value)) :=
  match configFile? fs root with
  | none => .ok []
  | some path =>
    match fs.read path with
    | .error fault => .error (.unreadable path fault)
    | .ok content => configFields path (Value.ofYaml? content)

/-- The fields that a source provides. -/
def SettingsSource.fields (fs : FileSystem) :
    SettingsSource → Except LoadError (List (Text × Value))
  | .file path => namedFields fs path
  | .root path => foundFields fs path

/-! ## Decoding

The case of names does not matter, neither for settings nor inside their values.
-/

mutual

/-- The value with all names of fields in lower case. -/
def Value.lowerNames : Value → Value
  | .list items => .list (Value.lowerItems items)
  | .object fields => .object (Value.lowerFields fields)
  | v => v

/-- The items of a list with all names of fields in lower case. -/
def Value.lowerItems : List Value → List Value
  | [] => []
  | v :: rest => v.lowerNames :: Value.lowerItems rest

/-- The fields of an object with all names in lower case. -/
def Value.lowerFields : List (Text × Value) → List (Text × Value)
  | [] => []
  | f :: rest => Value.lowerField f :: Value.lowerFields rest

/-- One field of an object with all names in lower case. -/
def Value.lowerField : Text × Value → Text × Value
  | (name, v) => (Text.toLower name, v.lowerNames)

end

/-- What is configured under a key: the variable, or else the last field of that name. The names
of the fields are in lower case. -/
def configured? (env : Environment) (fields : List (Text × Value)) (key : Text) : Option Value :=
  match env.get? (variableStart ++ key.map Ascii.toUpper) with
  | some value => some (.str value)
  | none =>
    match fields.reverse.find? fun f => f.1 == key with
    | some (_, .null) => none
    | some (_, v) => some v
    | none => none

/-- The label that a value asks for. The empty string and `false` ask for none. -/
def labelOf : Value → Option Text
  | .null => Settings.default.implicitlyLabel
  | .bool b => if b then Settings.default.implicitlyLabel else none
  | .str t => if t.isEmpty || Text.equalsIgnoringCase t (text "false") then none else some t
  | v => some v.display

/-- The value of a setting: the configured one, or else the default. -/
def setting {α : Type} (lookup : Text → Option Value) (key : String) (decode : Value → Option α)
    (default : α) : Except LoadError α :=
  match lookup (text key) with
  | none => .ok default
  | some v =>
    match decode v with
    | some a => .ok a
    | none => .error (.undecodable (text key))

/-- The settings that a look-up of configured values describes. -/
def Settings.decode (lookup : Text → Option Value) : Except LoadError Settings := do
  let d := Settings.default
  return {
    scannerDepth := ← setting lookup "scanner_depth" Value.toInt? d.scannerDepth
    scannerExclude := ← setting lookup "scanner_exclude" Value.toTexts? d.scannerExclude
    scanImportedFiles := ← setting lookup "scan_imported_files" Value.toBool? d.scanImportedFiles
    implicitlyLabel :=
      ← setting lookup "implicitly_label" (fun v => some (labelOf v)) d.implicitlyLabel
    showErrors := ← setting lookup "show_errors" Value.toBool? d.showErrors
    suggestVariables := ← setting lookup "suggest_variables" Value.toBool? d.suggestVariables
    suggestMixins := ← setting lookup "suggest_mixins" Value.toBool? d.suggestMixins
    suggestFunctions := ← setting lookup "suggest_functions" Value.toBool? d.suggestFunctions
    suggestFunctionsInStringContextAfterSymbols :=
      ← setting lookup "suggest_functions_in_string_context_after_symbols" Value.toText?
        d.suggestFunctionsInStringContextAfterSymbols }

/-- The settings of a source, with the environment applied. -/
def loadSettings (fs : FileSystem) (env : Environment) (source : SettingsSource) :
    Except LoadError Settings := do
  let fields ← source.fields fs
  let s ← Settings.decode (configured? env (Value.lowerFields fields))
  match s.faults with
  | [] => return s
  | faults => throw (.invalid faults)

end StyleIndex
