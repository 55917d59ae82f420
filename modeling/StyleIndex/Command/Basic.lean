import StyleIndex.Command.Flag
import StyleIndex.Editor.Cursor
import StyleIndex.Text.Case

set_option autoImplicit false

/-! # Commands

The commands of the program, their flags, and how the command is found among the words of a
command line. Flags that all commands share may stand in front of the command.
-/

namespace StyleIndex

/-- A command. -/
inductive Command where
  | index
  | cursor (question : CursorQuestion)
  | symbols
  | deps
  | serve
  | version
  /-- Prints how to use the program. -/
  | help
  /-- Prints a completion script for a shell. -/
  | completion
  deriving DecidableEq

/-- The name of the program. -/
def programName : Text := text "scss-index"

namespace Command

/-- The name of a command. -/
def name : Command → Text
  | .index => text "index"
  | .cursor .complete => text "complete"
  | .cursor .hover => text "hover"
  | .cursor .signature => text "signature"
  | .cursor .definition => text "definition"
  | .symbols => text "symbols"
  | .deps => text "deps"
  | .serve => text "mcp"
  | .version => text "version"
  | .help => text "help"
  | .completion => text "completion"

/-- The commands in the order in which they are listed. -/
def all : List Command :=
  [.index, .cursor .complete, .cursor .hover, .cursor .signature, .cursor .definition, .symbols,
    .deps, .serve, .version, .help, .completion]

/-- The command with the given name. -/
def ofName? (name : Text) : Option Command := all.find? (·.name = name)

/-- The flags that all commands share. -/
def sharedFlags : List CommandFlag :=
  [⟨text "config", none, .word⟩, ⟨text "verbose", some 0x76, .switch⟩,
    ⟨text "root", some 0x72, .word⟩, ⟨text "json", none, .switch⟩]

/-- The flag that asks for help. -/
def helpFlag : CommandFlag := ⟨text "help", some 0x68, .switch⟩

/-- The flags of one command. -/
def ownFlags : Command → List CommandFlag
  | .index => [⟨text "quiet", some 0x71, .switch⟩, ⟨text "watch", some 0x77, .switch⟩]
  | .cursor _ => [⟨text "stdin", none, .switch⟩]
  | .symbols => [⟨text "limit", some 0x6e, .number⟩]
  | .deps =>
    [⟨text "dependents", none, .switch⟩, ⟨text "cycles", none, .switch⟩,
      ⟨text "depth", some 0x64, .number⟩, ⟨text "max-results", none, .number⟩]
  | .serve => [⟨text "watch", some 0x77, .switch⟩]
  | _ => []

/-- All flags that a command takes. -/
def flags (c : Command) : List CommandFlag := c.ownFlags ++ sharedFlags ++ [helpFlag]

/-! ## The number of arguments -/

/-- How many arguments a command takes. -/
inductive Arity where
  | none
  | exactly (n : Nat)
  | atMost (n : Nat)
  | any
  deriving DecidableEq

/-- How many arguments a command takes. -/
def arity : Command → Arity
  | .index => .none
  | .version => .none
  | .cursor _ => .exactly 2
  | .symbols => .atMost 1
  | .deps => .atMost 1
  | _ => .any

end Command

/-! ## Suggestions -/

/-- The next row of the table of edit distances, for the letter `c`; `left` is the entry in front
of it. -/
def nextDistances (c : UInt8) : (left : Nat) → List Nat → Text → List Nat
  | left, diagonal :: above :: row, d :: rest =>
    let entry := if c = d then diagonal else min (min above left) diagonal + 1
    entry :: nextDistances c entry (above :: row) rest
  | _, _, _ => []

/-- The number of letters that have to be inserted, removed or replaced to turn one word into the
other. -/
def editDistance (a b : Text) : Nat :=
  let row := a.foldl
    (fun row c => (row.headD 0 + 1) :: nextDistances c (row.headD 0 + 1) row b)
    (List.range (b.length + 1))
  row.getLastD 0

/-- The commands that may have been meant by an unknown name: those it is the beginning of, and
those at most two letters away. -/
def suggestionsFor (name : Text) : List Text :=
  let lower := Text.toLower name
  ((Command.all.filter (· ≠ .help)).map Command.name).filter fun candidate =>
    editDistance lower candidate ≤ 2 || Text.startsWith candidate lower

/-! ## Finding the command -/

/-- Why a command line names no command that can be run. -/
inductive UsageError where
  | unknownCommand (name : Text)
  | flag (error : FlagError)
  /-- A command without arguments was given one. -/
  | unexpectedArgument (command : Command) (argument : Text)
  | wantsExactly (expected received : Nat)
  | wantsAtMost (limit received : Nat)
  deriving DecidableEq

/-- The wording of an error. -/
def UsageError.message : UsageError → Text
  | .unknownCommand name =>
    let suggestions := suggestionsFor name
    text "unknown command " ++ name.quoted ++ text " for " ++ programName.quoted ++
      if suggestions.isEmpty then []
      else text "\n\nDid you mean this?\n" ++
        suggestions.flatMap fun s => [Ascii.tab] ++ s ++ [Ascii.lf]
  | .flag e => e.message
  | .unexpectedArgument command argument =>
    text "unknown command " ++ argument.quoted ++ text " for " ++
      (programName ++ [Ascii.space] ++ command.name).quoted
  | .wantsExactly expected received =>
    text "accepts " ++ Text.ofNat expected ++ text " arg(s), received " ++ Text.ofNat received
  | .wantsAtMost limit received =>
    text "accepts at most " ++ Text.ofNat limit ++ text " arg(s), received " ++
      Text.ofNat received

/-- Whether a word is a flag that takes the next word as its value. A flag that is not known is
taken to do so. -/
def takesNext (flags : List CommandFlag) (word : Text) : Bool :=
  !word.contains Ascii.equals &&
    match word with
    | Ascii.hyphen :: Ascii.hyphen :: name =>
      !(CommandFlag.named? flags name).any fun f => f.kind = .switch
    | [Ascii.hyphen, letter] => !(CommandFlag.lettered? flags letter).any fun f => f.kind = .switch
    | _ => false

/-- The words before the first one that is neither a flag nor the value of one, that word, and the
words after it. `skip` says that the next word is a value. -/
def splitCommand? (flags : List CommandFlag) : (skip : Bool) → List Text →
    Option (List Text × Text × List Text)
  | _, [] => none
  | true, word :: rest => (splitCommand? flags false rest).map fun (b, c, a) => (word :: b, c, a)
  | false, word :: rest =>
    if word = text "--" then none
    else if takesNext flags word then
      if rest.length ≤ 1 then none
      else (splitCommand? flags true rest).map fun (b, c, a) => (word :: b, c, a)
    else if word.isEmpty ∨ word.head? = some Ascii.hyphen then
      (splitCommand? flags false rest).map fun (b, c, a) => (word :: b, c, a)
    else some ([], word, rest)

/-- Checks the number of arguments. -/
def Command.checkArity (c : Command) (arguments : List Text) : Except UsageError Unit :=
  let received := arguments.length
  match c.arity with
  | .any => .ok ()
  | .none =>
    match arguments with
    | [] => .ok ()
    | argument :: _ => .error (.unexpectedArgument c argument)
  | .exactly n => if received = n then .ok () else .error (.wantsExactly n received)
  | .atMost n => if received ≤ n then .ok () else .error (.wantsAtMost n received)

/-- What a command line asks for. -/
inductive Invocation where
  | run (command : Command) (line : CommandLine)
  /-- How to use a command, or the program. -/
  | help (command : Option Command)

/-- Reads the words of a command line. -/
def Invocation.parse (words : List Text) : Except UsageError Invocation :=
  match splitCommand? Command.sharedFlags false words with
  | none =>
    match CommandLine.parse (Command.sharedFlags ++ [Command.helpFlag]) words with
    | .error e => .error (.flag e)
    | .ok _ => .ok (.help none)
  | some (before, name, after) =>
    match Command.ofName? name with
    | none => .error (.unknownCommand name)
    | some command =>
      match CommandLine.parse command.flags (before ++ after) with
      | .error e => .error (.flag e)
      | .ok line =>
        if line.isOn "help" then .ok (.help (some command))
        else match command.checkArity line.arguments with
          | .error e => .error e
          | .ok () => .ok (.run command line)

end StyleIndex
