import StyleIndex.Command.Run
import StyleIndex.Symbol.Extract

set_option autoImplicit false

/-! # The program

Reads the files, the variables and the input that a command may look at, runs the command on
them, and prints what it answers. All decisions are those of `runCommand`; this file only moves
bytes.
-/

namespace StyleIndex

/-! ## Reading -/

/-- The variables that commands look at, without their common start. -/
def variableNames : List String :=
  ["ROOT", "CONFIG", "SCANNER_DEPTH", "SCANNER_EXCLUDE", "SCAN_IMPORTED_FILES",
    "IMPLICITLY_LABEL", "SHOW_ERRORS", "SUGGEST_VARIABLES", "SUGGEST_MIXINS",
    "SUGGEST_FUNCTIONS", "SUGGEST_FUNCTIONS_IN_STRING_CONTEXT_AFTER_SYMBOLS"]

/-- The variables of the environment. -/
def readVariables : IO Environment :=
  variableNames.filterMapM fun name => do
    let name := variableStart ++ text name
    return (← IO.getEnv name.toDisplay).map fun value => (name, text value)

/-- Why something cannot be read. -/
def FileFault.ofError : IO.Error → FileFault
  | .noFileOrDirectory .. => .missing
  | .inappropriateType .. => .isDirectory
  | _ => .denied

/-- What a file holds, or why it cannot be read. A link is followed. -/
def readContent (path : Text) : IO FileContent := do
  try
    match (← (← IO.FS.realPath path.toDisplay).metadata).type with
    | .file =>
      try return .readable (← IO.FS.readBinFile path.toDisplay).data.toList
      catch e => return .unreadable true (FileFault.ofError e)
    | .dir => return .unreadable false .isDirectory
    | _ => return .unreadable false .denied
  catch e => return .unreadable false (FileFault.ofError e)

/-- Adds a file that exists to a file system. -/
def readFile (fs : FileSystem) (path : Text) : IO FileSystem := do
  match ← readContent path with
  | .unreadable false .missing | .unreadable false .isDirectory => return fs
  | content => return fs.put path (.file content)

/-- Whether the content of a file can matter to a command that does not name it. -/
def isOfInterest (path : Text) : Bool :=
  isStylesheetExtension (Path.extension path) || configNames.contains (Path.base path)

/-- Adds a directory and everything below it to a file system. Links are not followed to
directories. One that cannot be listed is added with nothing in it; what a path through it leads to
is added when the path is read. -/
partial def readTree (fs : FileSystem) (directory : Text) : IO FileSystem := do
  let place ← try IO.FS.realPath directory.toDisplay catch _ => return fs
  if !(← place.isDir) then return fs
  let entries ← try place.readDir
    catch _ => return fs.put directory (.folder ⟨false, true⟩ .empty)
  let mut fs := fs.createDirectory directory
  for entry in entries do
    let path := Path.join [directory, text entry.fileName]
    match ← try pure (← entry.path.symlinkMetadata).type catch _ => pure .other with
    | .dir => fs ← readTree fs path
    | .file =>
      if isOfInterest path then fs := fs.put path (.file (← readContent path))
      else fs := fs.writeFile path []
    | _ => if isOfInterest path then fs := fs.put path (.file (← readContent path))
  return fs

/-- Adds the stylesheets that the given ones import, and those that these import. -/
partial def readImports (fs : FileSystem) : List Text → IO FileSystem
  | [] => return fs
  | path :: rest => do
    let mut fs := fs
    let mut fresh := []
    for i in (extractLenient path ((fs.read path).toOption.getD []) none).imports do
      for candidate in importCandidates i.filepath do
        if i.followable && !fs.isFile candidate then
          fs ← readFile fs candidate
          if fs.isFile candidate then fresh := candidate :: fresh
    readImports fs (fresh ++ rest)

/-- Reads the files that a command may look at: the working directory, the directories and files
that the command line names, and the files that stylesheets import. -/
def readFiles (words : List Text) (environment : Environment) : IO FileSystem := do
  let cwd := text (← IO.currentDir).toString
  let values := words.map fun w => ((Text.cut? Ascii.equals w).map (·.2)).getD w
  let mut fs ← readTree ⟨.empty, cwd⟩ cwd
  for path in (values ++ environment.map (·.2)).map fs.absolute do
    if !fs.isDirectory path then fs ← readTree (← readFile fs path) path
  let all := (fs.top.files (fun _ => true) (fun _ => true) []).map (Path.extend [Ascii.slash])
  readImports fs (all.filter fun path => isStylesheetExtension (Path.extension path))

/-- Whether a command reads the standard input. -/
def wantsInput (words : List Text) : Bool :=
  match Invocation.parse words with
  | .ok (.run _ line) => line.isOn "stdin"
  | _ => false

/-- Everything a command can read. -/
def readContext (words : List Text) : IO CommandContext := do
  let environment ← readVariables
  let files ← readFiles words environment
  let input ← if wantsInput words then (← IO.getStdin).readBinToEnd else pure ByteArray.empty
  return ⟨files, environment, input.data.toList, false⟩

/-! ## Printing -/

/-- Writes a text to a stream. -/
def writeText (stream : IO.FS.Stream) (t : Text) : IO Unit := do
  stream.write ⟨t.toArray⟩
  stream.flush

/-- Keeps a workspace up to date by looking at the files again and again. -/
partial def keepCurrent (words : List Text) (environment : Environment) (w : Workspace) :
    IO Unit := do
  IO.sleep 500
  let (w, _) := w.reindex (← readFiles words environment) none
  keepCurrent words environment w

/-- Runs the command that the arguments ask for, and tells the status to exit with. -/
def runProgram (arguments : List String) : IO UInt32 := do
  let words := arguments.map text
  let ctx ← readContext words
  let result := runCommand ctx words
  writeText (← IO.getStdout) result.output
  writeText (← IO.getStderr) result.errors
  match result.failure, result.sequel with
  | some e, _ =>
    writeText (← IO.getStderr) (Text.line e.message)
    return 1
  | none, .watch w =>
    keepCurrent words ctx.environment w
    return 0
  | none, .serve _ =>
    let _ ← (← IO.getStdin).readBinToEnd
    return 0
  | none, .none => return 0

end StyleIndex

/-- The program. -/
def main (arguments : List String) : IO UInt32 := StyleIndex.runProgram arguments
