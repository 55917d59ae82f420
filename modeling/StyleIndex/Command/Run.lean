import StyleIndex.Command.Result
import StyleIndex.Data.Answer
import StyleIndex.Data.JsonText

set_option autoImplicit false

/-! # Running commands

What each command does. Commands that ask something index the workspace first; a file that does
not parse does not stop them, since the other files can still be asked about.
-/

namespace StyleIndex

/-- What a command can read. -/
structure CommandContext where
  files : FileSystem
  environment : Environment
  input : Text
  /-- Whether the caller has given up before the command began. -/
  canceled : Bool

/-- How many more files the caller waits for. -/
def CommandContext.patience (ctx : CommandContext) : Patience :=
  if ctx.canceled then some 0 else none

namespace CommandLine

/-! ## Workspaces -/

/-- The text given to a shared flag, or else the variable that stands in for it. -/
def wordOr (c : CommandLine) (env : Environment) (name : String) (variableName : String) : Text :=
  match c.word? name with
  | some t => t
  | none => (env.get? (variableStart ++ text variableName)).getD []

/-- The root of the workspace: the given one, or the working directory. -/
def root (c : CommandLine) (ctx : CommandContext) : Text :=
  let given := c.wordOr ctx.environment "root" "ROOT"
  if given.isEmpty then ctx.files.cwd else ctx.files.absolute given

/-- The settings for a root: those of the given file, or those of the root. -/
def settingsFor (c : CommandLine) (ctx : CommandContext) (root : Text) :
    Except LoadError Settings :=
  let file := c.wordOr ctx.environment "config" "CONFIG"
  loadSettings ctx.files ctx.environment (if file.isEmpty then .root root else .file file)

/-- An empty workspace. -/
def newWorkspace (c : CommandLine) (ctx : CommandContext) : Except CommandError Workspace := do
  let root := c.root ctx
  let s ← (c.settingsFor ctx root).mapError .settings
  (Workspace.create ctx.files.cwd root s).mapError .faults

/-- An indexed workspace. -/
def openWorkspace (c : CommandLine) (ctx : CommandContext) : Except CommandError Workspace := do
  let (w, summary) := (← c.newWorkspace ctx).reindex ctx.files ctx.patience
  if summary.failure.isSome && ctx.canceled then .error .canceled else .ok w

/-- An answer in the form that was asked for. -/
def reply (c : CommandLine) (value : Value) (plain : Text) : CommandResult :=
  .print (if c.isOn "json" then value.toJson else plain)

/-! ## Questions about a cursor -/

/-- A positive number. -/
def positive? (t : Text) : Option Int :=
  match Text.readDecimal t with
  | .ok n => if 0 < n then some n else none
  | .error _ => none

/-- Reads a position that is written as line and column, both counted from one. -/
def position (argument : Text) : Except CommandError Position :=
  match Text.cut? Ascii.colon argument with
  | none => .error (.position argument .noColon)
  | some (line, column) =>
    match positive? line, positive? column with
    | none, _ => .error (.position argument .badLine)
    | some _, none => .error (.position argument .badColumn)
    | some l, some c => .ok ⟨l - 1, c - 1⟩

/-- The buffer a question is about: a file, or the standard input in its place. -/
def buffer (c : CommandLine) (ctx : CommandContext) (path : Text) : Except CommandError Buffer :=
  if c.isOn "stdin" then .ok ⟨ctx.files.absolute path, ctx.input⟩
  else (Buffer.ofFile ctx.files path).mapError .unopenable

/-- Answers a question about a cursor. -/
def runCursor (c : CommandLine) (ctx : CommandContext) (question : CursorQuestion) :
    Except CommandError CommandResult := do
  let p ← position (c.arguments.getD 1 [])
  let b ← c.buffer ctx (c.arguments.getD 0 [])
  let w ← c.openWorkspace ctx
  let answer ←
    (w.answer b ((LineIndex.ofText b.text).offsetAt p) question).mapError .unparsable
  return c.reply answer.toValue (answer.print w.root)

/-! ## Questions about the workspace -/

/-- Lists the symbols that match a query; a positive limit cuts the list off. -/
def runSymbols (c : CommandLine) (ctx : CommandContext) : Except CommandError CommandResult := do
  let w ← c.openWorkspace ctx
  let hits := w.symbols (c.arguments.headD [])
  let limit := c.number "limit" 0
  let hits := if 0 < limit then hits.take limit.toNat else hits
  return c.reply (.list (hits.map SymbolHit.toValue)) (hits.flatMap (SymbolHit.print w.root))

/-- Lists what a file imports, what imports a file, or the groups of files that import each
other. -/
def runDeps (c : CommandLine) (ctx : CommandContext) : Except CommandError CommandResult :=
  if c.isOn "cycles" then do
    let w ← c.openWorkspace ctx
    return c.reply (cyclesValue w.cycles) (printCycles w.root w.cycles)
  else match c.arguments with
    | [] => .error .fileRequired
    | file :: _ => do
      let w ← c.openWorkspace ctx
      let direction : Direction := if c.isOn "dependents" then .dependents else .dependencies
      let answer ← (w.query ctx.canceled
        ⟨direction.name, file, c.number "depth" 1, c.number "max-results" 100⟩).mapError .query
      return c.reply answer.toValue (answer.print w.root)

/-! ## Indexing and serving -/

/-- Scans the workspace and reports the counts. The report for a reader goes to the error stream
when the counts are asked for as data. -/
def runIndex (c : CommandLine) (ctx : CommandContext) : Except CommandError CommandResult := do
  let (w, summary) := (← c.newWorkspace ctx).reindex ctx.files ctx.patience
  let report :=
    if !c.isOn "quiet" && summary.isComplete then summary.stats.print else []
  let r : CommandResult :=
    if c.isOn "json" then ⟨summary.stats.toValue.toJson, report, none, .none⟩ else .print report
  if !c.isOn "watch" then return { r with failure := summary.failure.map .indexing }
  let warning :=
    match summary.failure with
    | none => []
    | some f => text "Warning: " ++ Text.line f.message
  let r := { r with diagnostics := r.diagnostics ++ warning }
  match w.watch ctx.files with
  | .error e => return { r with failure := some (.watching e) }
  | .ok w =>
    let note := if c.isOn "quiet" then [] else text "Watching for changes... (Ctrl+C to stop)\n"
    return { r with output := r.output ++ note, sequel := .watch w }

/-- Indexes one more root. -/
def addRoot (c : CommandLine) (ctx : CommandContext) (m : Manager) (root : Text) :
    Except CommandError Manager := do
  let (m, w) ← (m.get (c.settingsFor ctx) root).mapError .root
  return m.put (w.reindex ctx.files ctx.patience).1

/-- Indexes the given roots, to serve them from then on. -/
def runServe (c : CommandLine) (ctx : CommandContext) : Except CommandError CommandResult := do
  let roots := if c.arguments.isEmpty then [c.root ctx] else c.arguments
  let m ← roots.foldlM (c.addRoot ctx) (Manager.empty ctx.files.cwd)
  return { CommandResult.print [] with sequel := .serve m }

end CommandLine

/-! ## Commands -/

/-- The version of the program. -/
def versionText : Text :=
  programName ++ text " dev\nGit commit: none\nBuild date: unknown\n"

/-- How to call the program or one of its commands. -/
def usageText (command : Option Command) : Text :=
  text "Usage:\n  " ++ programName ++
    match command with
    | some c => Text.line ([Ascii.space] ++ c.name ++ text " [flags]")
    | none =>
      text " [command]\n\nAvailable Commands:\n" ++
        Command.all.flatMap fun c => text "  " ++ Text.line c.name

/-- Runs one command. -/
def Command.run (command : Command) (c : CommandLine) (ctx : CommandContext) : CommandResult :=
  match command with
  | .index => .ofExcept (c.runIndex ctx)
  | .cursor question => .ofExcept (c.runCursor ctx question)
  | .symbols => .ofExcept (c.runSymbols ctx)
  | .deps => .ofExcept (c.runDeps ctx)
  | .serve => .ofExcept (c.runServe ctx)
  | .version => .print versionText
  | .help => .print (usageText (c.arguments.head?.bind Command.ofName?))
  | .completion => .print (usageText (some .completion))

/-- Runs the program on the words of a command line. -/
def runCommand (ctx : CommandContext) (words : List Text) : CommandResult :=
  match Invocation.parse words with
  | .error e => .fail (.usage e)
  | .ok (.help command) => .print (usageText command)
  | .ok (.run command line) => command.run line ctx

end StyleIndex
