import StyleIndex.Command.Basic
import StyleIndex.Command.Print
import StyleIndex.Manager
import StyleIndex.Settings.Load

set_option autoImplicit false

/-! # Results of commands

A command prints a text, or fails. What it prints is a function of the command line and of
everything the command can read: the files, the environment and the standard input.
-/

namespace StyleIndex

/-- What is wrong with a position on the command line. -/
inductive PositionFault where
  | noColon
  | badLine
  | badColumn
  deriving DecidableEq

/-- Why a command failed. -/
inductive CommandError where
  | usage (error : UsageError)
  | position (argument : Text) (fault : PositionFault)
  | unopenable (error : OpenError)
  | settings (error : LoadError)
  | faults (faults : List SettingsFault)
  | root (error : ManagerError LoadError)
  | canceled
  | unparsable (error : ParseError)
  | indexing (failure : ScanFailure)
  | watching (error : WatchError)
  | fileRequired
  | query (error : QueryError)

/-- The wording of an error. -/
def CommandError.message : CommandError → Text
  | .usage e => e.message
  | .position argument fault =>
    text "invalid position " ++ argument.quoted ++ text ": " ++
      text (match fault with
        | .noColon => "expected LINE:COL"
        | .badLine => "line must be a positive number"
        | .badColumn => "column must be a positive number")
  | .unopenable e => e.message
  | .settings e => text "failed to load settings: " ++ e.message
  | .faults fs => SettingsFault.messageOfAll fs
  | .root e => e.message LoadError.message
  | .canceled => text "context canceled"
  | .unparsable e => e.message
  | .indexing f => text "indexing finished with errors: " ++ f.message
  | .watching e => e.message
  | .fileRequired => text "FILE is required unless --cycles is set"
  | .query e => text "graph query failed: " ++ e.message

/-- What remains to be done once a command has printed its output. -/
inductive Sequel where
  | none
  /-- Keeps a workspace up to date as files change. -/
  | watch (workspace : Workspace)
  /-- Answers the calls of a client. -/
  | serve (manager : Manager)

/-- What a command prints, and how it ends. -/
structure CommandResult where
  output : Text
  /-- What goes to the error stream, the failure itself aside. -/
  diagnostics : Text
  failure : Option CommandError
  sequel : Sequel

namespace CommandResult

/-- A command that prints a text. -/
def print (output : Text) : CommandResult := ⟨output, [], none, .none⟩

/-- A command that fails. -/
def fail (e : CommandError) : CommandResult := ⟨[], [], some e, .none⟩

/-- The result of a computation that may fail. -/
def ofExcept : Except CommandError CommandResult → CommandResult
  | .ok r => r
  | .error e => fail e

/-- What goes to the error stream. An unknown command is followed by a hint. -/
def errors (r : CommandResult) : Text :=
  r.diagnostics ++
    match r.failure with
    | none => []
    | some e =>
      text "Error: " ++ Text.line e.message ++
        match e with
        | .usage (.unknownCommand _) => text "Run '" ++ programName ++ text " --help' for usage.\n"
        | _ => []

end CommandResult

end StyleIndex
