import StyleIndex.Text.Numeral
import StyleIndex.Text.Quoted

set_option autoImplicit false

/-! # Flags

A command line mixes flags and arguments. A flag is written with its name, as in `--limit 5` or
`--limit=5`, or with a single letter, as in `-n 5`, `-n=5` or `-n5`; letters of switches may be
joined. Everything after a lone `--` is an argument.
-/

namespace StyleIndex

/-- What a flag takes: nothing, a text or a whole number. -/
inductive FlagKind where
  | switch
  | word
  | number
  deriving DecidableEq

/-- A flag. -/
structure CommandFlag where
  name : Text
  letter : Option UInt8
  kind : FlagKind
  deriving DecidableEq

/-- The value of a flag. -/
inductive FlagValue where
  | switch (on : Bool)
  | word (t : Text)
  | number (i : Int)
  deriving DecidableEq

/-- What is wrong with a flag. -/
inductive FlagError where
  | malformed (argument : Text)
  | unknownName (name : Text)
  /-- An unknown letter, and the letters it stands in front of. -/
  | unknownLetter (letter : UInt8) (letters : Text)
  | missingValue (name : Text)
  | missingLetterValue (letter : UInt8) (letters : Text)
  | notSwitch (flag : CommandFlag) (value : Text)
  | notNumber (flag : CommandFlag) (value : Text) (fault : NumeralFault)
  deriving DecidableEq

/-- A character between single quotes. -/
def quotedLetter (c : UInt8) : Text :=
  let inside :=
    if c = Ascii.apostrophe then [Ascii.backslash, c]
    else if c = Ascii.quote then [c]
    else Quoted.escape (.scalar c.toNat)
  [Ascii.apostrophe] ++ inside ++ [Ascii.apostrophe]

/-- How a flag is named in a message. -/
def CommandFlag.title (f : CommandFlag) : Text :=
  match f.letter with
  | some c => [Ascii.hyphen, c] ++ text ", --" ++ f.name
  | none => text "--" ++ f.name

/-- The wording of an error. -/
def FlagError.message : FlagError → Text
  | .malformed argument => text "bad flag syntax: " ++ argument
  | .unknownName name => text "unknown flag: --" ++ name
  | .unknownLetter letter letters =>
    text "unknown shorthand flag: " ++ quotedLetter letter ++ text " in -" ++ letters
  | .missingValue name => text "flag needs an argument: --" ++ name
  | .missingLetterValue letter letters =>
    text "flag needs an argument: " ++ quotedLetter letter ++ text " in -" ++ letters
  | .notSwitch flag value =>
    refused flag value ++ text "strconv.ParseBool: parsing " ++ value.quoted ++
      text ": invalid syntax"
  | .notNumber flag value fault =>
    refused flag value ++ text "strconv.ParseInt: parsing " ++ value.quoted ++
      text (match fault with
        | .malformed => ": invalid syntax"
        | .outOfRange => ": value out of range")
where
  /-- The beginning of a message about a refused value. -/
  refused (flag : CommandFlag) (value : Text) : Text :=
    text "invalid argument " ++ value.quoted ++ text " for " ++ flag.title.quoted ++ text " flag: "

/-- The value that a text gives a flag. -/
def CommandFlag.value (f : CommandFlag) (t : Text) : Except FlagError FlagValue :=
  match f.kind with
  | .word => .ok (.word t)
  | .switch =>
    match t.readBool? with
    | some b => .ok (.switch b)
    | none => .error (.notSwitch f t)
  | .number =>
    match t.readInt with
    | .ok i => .ok (.number i)
    | .error fault => .error (.notNumber f t fault)

/-- A parsed command line: the flags that were given, latest first, and the arguments. -/
structure CommandLine where
  flags : List (Text × FlagValue)
  arguments : List Text

namespace CommandLine

/-- The value given to a flag. -/
def get? (c : CommandLine) (name : String) : Option FlagValue :=
  (c.flags.find? fun f => f.1 = text name).map (·.2)

/-- Whether a switch is on. -/
def isOn (c : CommandLine) (name : String) : Bool := c.get? name = some (.switch true)

/-- The text given to a flag. -/
def word? (c : CommandLine) (name : String) : Option Text :=
  match c.get? name with
  | some (.word t) => some t
  | _ => none

/-- The number given to a flag, or a default. -/
def number (c : CommandLine) (name : String) (default : Int) : Int :=
  match c.get? name with
  | some (.number i) => i
  | _ => default

/-- Adds a flag. -/
def addFlag (c : CommandLine) (f : CommandFlag) (v : FlagValue) : CommandLine :=
  { c with flags := (f.name, v) :: c.flags }

end CommandLine

namespace CommandFlag

/-- The flag with the given name. -/
def named? (flags : List CommandFlag) (name : Text) : Option CommandFlag :=
  flags.find? (·.name = name)

/-- The flag with the given letter. -/
def lettered? (flags : List CommandFlag) (letter : UInt8) : Option CommandFlag :=
  flags.find? (·.letter = some letter)

/-- The text that stands for a switch without a value. -/
def onText : Text := text "true"

/-- Reads a flag that is written with its name. The result tells how many of the arguments that
follow belong to it: none or one. -/
def readNamed (flags : List CommandFlag) (argument : Text) (next? : Option Text) :
    Except FlagError (CommandFlag × FlagValue × Nat) :=
  let body := argument.drop 2
  if body.head? = some Ascii.hyphen ∨ body.head? = some Ascii.equals then
    .error (.malformed argument)
  else
    let (name, given) :=
      match Text.cut? Ascii.equals body with
      | some (name, value) => (name, some value)
      | none => (body, none)
    match named? flags name with
    | none => .error (.unknownName name)
    | some f =>
      match given, f.kind, next? with
      | some value, _, _ => (f.value value).map (f, ·, 0)
      | none, .switch, _ => (f.value onText).map (f, ·, 0)
      | none, _, some value => (f.value value).map (f, ·, 1)
      | none, _, none => .error (.missingValue name)

/-- Reads flags that are written with letters. The result tells how many of the arguments that
follow belong to them: none or one. -/
def readLetters (flags : List CommandFlag) (next? : Option Text) :
    Text → Except FlagError (List (CommandFlag × FlagValue) × Nat)
  | [] => .ok ([], 0)
  | c :: rest =>
    match lettered? flags c with
    | none => .error (.unknownLetter c (c :: rest))
    | some f =>
      if rest.head? = some Ascii.equals ∧ 1 < rest.length then
        (f.value (rest.drop 1)).map fun v => ([(f, v)], 0)
      else if f.kind = .switch then
        match f.value onText, readLetters flags next? rest with
        | .error e, _ => .error e
        | _, .error e => .error e
        | .ok v, .ok (others, used) => .ok ((f, v) :: others, used)
      else if !rest.isEmpty then (f.value rest).map fun v => ([(f, v)], 0)
      else match next? with
        | some value => (f.value value).map fun v => ([(f, v)], 1)
        | none => .error (.missingLetterValue c (c :: rest))

end CommandFlag

/-- Parses the words of a command line. `skip` is the number of words at the front that a flag
before them has taken. -/
def parseWords (flags : List CommandFlag) (parsed : CommandLine) : (skip : Nat) → List Text →
    Except FlagError CommandLine
  | _, [] => .ok { parsed with arguments := parsed.arguments.reverse }
  | skip + 1, _ :: rest => parseWords flags parsed skip rest
  | 0, word :: rest =>
    match word with
    | Ascii.hyphen :: Ascii.hyphen :: body =>
      if body.isEmpty then .ok { parsed with arguments := parsed.arguments.reverse ++ rest }
      else match CommandFlag.readNamed flags word rest.head? with
        | .error e => .error e
        | .ok (f, v, used) => parseWords flags (parsed.addFlag f v) used rest
    | Ascii.hyphen :: letter :: letters =>
      match CommandFlag.readLetters flags rest.head? (letter :: letters) with
      | .error e => .error e
      | .ok (given, used) =>
        parseWords flags (given.foldl (fun p f => p.addFlag f.1 f.2) parsed) used rest
    | _ => parseWords flags { parsed with arguments := word :: parsed.arguments } 0 rest

/-- Parses a command line for a command with the given flags. -/
def CommandLine.parse (flags : List CommandFlag) (words : List Text) :
    Except FlagError CommandLine :=
  parseWords flags ⟨[], []⟩ 0 words

end StyleIndex
