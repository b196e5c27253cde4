import Scriptlet.Text.Quoted

/-!
# Flags

A flag is given by its name behind two dashes or by its letter behind one. Switches take a value
only behind an equals sign; all other flags take one there or from the next argument, and letters
may have it right behind them. Letters of switches can be joined with others behind one dash. Two
dashes alone end the flags, and one dash alone is no flag.

## Contents

- §1 flags
- §2 commands
- §3 errors
- §4 options
- §5 reading arguments
- §6 which command is meant
-/

namespace Scriptlet

/-! ## §1 Flags -/

/-- The flags. -/
inductive Flag where
  | config
  | verbose
  | strategy
  | format
  | output
  deriving DecidableEq, Repr

namespace Flag

/-- The name of a flag. -/
def name : Flag → Text
  | .config => "config"
  | .verbose => "verbose"
  | .strategy => "strategy"
  | .format => "format"
  | .output => "output"

/-- The letter of a flag. -/
def letter? : Flag → Option Char
  | .config => none
  | .verbose => some 'v'
  | .strategy => some 's'
  | .format => some 'f'
  | .output => some 'o'

/-- The flag needs no value. -/
def isSwitch : Flag → Bool
  | .verbose => true
  | _ => false

/-- The flag as errors name it. -/
def shown (f : Flag) : Text :=
  match f.letter? with
  | some c => "-" ++ Text.ofChar c ++ ", --" ++ f.name
  | none => "--" ++ f.name

end Flag

/-! ## §2 Commands -/

/-- What can be done with a program. -/
inductive Command where
  /-- Runs a program, or starts the shell without one. -/
  | root
  | run
  | ast
  | asm
  | tree
  | tokens
  | version
  deriving DecidableEq, Repr

namespace Command

/-- The commands that have a word. -/
def named : List (Text × Command) :=
  [ ("run", .run), ("ast", .ast), ("asm", .asm), ("tree", .tree), ("tokens", .tokens),
    ("version", .version) ]

/-- The command that a word stands for. -/
def ofWord? (t : Text) : Option Command := named.lookup t

/-- The flags of a command. -/
def flags : Command → List Flag
  | .ast => [.config, .verbose, .strategy, .format, .output]
  | .asm => [.config, .verbose, .strategy, .output]
  | _ => [.config, .verbose, .strategy]

/-- The flag of the command with a name. -/
def flagNamed? (c : Command) (name : Text) : Option Flag := c.flags.find? fun f => f.name == name

/-- The flag of the command with a letter. -/
def flagLettered? (c : Command) (letter : UInt8) : Option Flag :=
  c.flags.find? fun f => f.letter?.any fun l => l.toNat == letter.toNat

end Command

/-! ## §3 Errors -/

/-- Why arguments make no sense. -/
inductive UsageError where
  /-- Two dashes without a name. -/
  | badFlag (arg : Text)
  | unknownFlag (name : Text)
  /-- A letter, and the letters from it on. -/
  | unknownLetter (letter : UInt8) (group : Text)
  | missingValue (arg : Text)
  | letterMissingValue (letter : UInt8) (group : Text)
  /-- A switch is neither on nor off. -/
  | badSwitch (flag : Flag) (value : Text)
  | tooManyArguments (received : Nat)
  /-- An argument of the command that takes none. -/
  | unexpectedArgument (arg : Text)
  | unknownFormat (name : Text)
  deriving DecidableEq, Repr

/-- A byte as a character between single quotes. -/
def quotedByte (b : UInt8) : Text := Text.quotedAlone (Char.ofNat b.toNat)

/-- The wording of an error. -/
def UsageError.message : UsageError → Text
  | .badFlag arg => "bad flag syntax: " ++ arg
  | .unknownFlag name => "unknown flag: --" ++ name
  | .unknownLetter letter group =>
    "unknown shorthand flag: " ++ quotedByte letter ++ " in -" ++ group
  | .missingValue arg => "flag needs an argument: " ++ arg
  | .letterMissingValue letter group =>
    "flag needs an argument: " ++ quotedByte letter ++ " in -" ++ group
  | .badSwitch flag value =>
    "invalid argument " ++ value.quoted ++ " for " ++ Text.quoted flag.shown
      ++ " flag: strconv.ParseBool: parsing " ++ value.quoted ++ ": invalid syntax"
  | .tooManyArguments received =>
    "accepts at most 1 arg(s), received " ++ Text.ofNat received
  | .unexpectedArgument arg => "unknown command " ++ arg.quoted ++ " for \"pivot version\""
  | .unknownFormat name => "unknown format " ++ name.quoted

/-! ## §4 Options -/

/-- What the flags say, and the arguments that are no flags. -/
structure Options where
  config : Text := []
  verbose : Bool := false
  strategy : Text := []
  format : Text := "sexpr"
  output : Text := []
  args : List Text := []
  deriving DecidableEq, Repr

/-- Whether a switch is on. -/
def switchValue? (t : Text) : Option Bool :=
  if (["1", "t", "T", "true", "TRUE", "True"] : List Text).contains t then some true
  else if (["0", "f", "F", "false", "FALSE", "False"] : List Text).contains t then some false
  else none

/-- Takes the value of a flag. -/
def Options.set (o : Options) (f : Flag) (value : Text) : Except UsageError Options :=
  match f with
  | .config => .ok { o with config := value }
  | .strategy => .ok { o with strategy := value }
  | .format => .ok { o with format := value }
  | .output => .ok { o with output := value }
  | .verbose =>
    match switchValue? value with
    | some b => .ok { o with verbose := b }
    | none => .error (.badSwitch f value)

/-! ## §5 Reading arguments -/

/-- The byte of a dash. -/
def dash : UInt8 := 45

/-- The byte of an equals sign. -/
def equalsSign : UInt8 := 61

/-- What an argument asks for. -/
inductive Demand where
  /-- Nothing more. -/
  | nothing (o : Options)
  /-- The next argument is the value of the flag; without one there is the error. -/
  | value (o : Options) (f : Flag) (e : UsageError)

/-- Reads a flag by name; `body` is the argument behind its two dashes. -/
def readNamed (c : Command) (o : Options) (arg body : Text) : Except UsageError Demand :=
  if body.head? == some dash || body.head? == some equalsSign then .error (.badFlag arg)
  else
    let name := body.takeWhile (· != equalsSign)
    match c.flagNamed? name with
    | none => .error (.unknownFlag name)
    | some f =>
      if name.length < body.length then return .nothing (← o.set f (body.drop (name.length + 1)))
      else if f.isSwitch then return .nothing (← o.set f "true")
      else return .value o f (.missingValue arg)

/-- Reads flags by letter. -/
def readLetters (c : Command) (o : Options) : Text → Except UsageError Demand
  | [] => .ok (.nothing o)
  | letter :: rest =>
    match c.flagLettered? letter with
    | none => .error (.unknownLetter letter (letter :: rest))
    | some f =>
      if rest.head? == some equalsSign && rest.length > 1 then do
        return .nothing (← o.set f (rest.drop 1))
      else if f.isSwitch then do readLetters c (← o.set f "true") rest
      else if rest.isEmpty then return .value o f (.letterMissingValue letter [letter])
      else return .nothing (← o.set f rest)

/-- Reads one argument in front of which no two dashes stood alone. -/
def readArgument (c : Command) (o : Options) (arg : Text) : Except UsageError Demand :=
  match arg with
  | 45 :: 45 :: body => readNamed c o arg body
  | 45 :: b :: body => readLetters c o (b :: body)
  | _ => .ok (.nothing { o with args := o.args ++ [arg] })

/-- Reads the arguments of a command. -/
def readArguments (c : Command) (o : Options) : List Text → Except UsageError Options
  | [] => .ok o
  | arg :: rest =>
    if arg = "--" then .ok { o with args := o.args ++ rest }
    else
      match readArgument c o arg with
      | .error e => .error e
      | .ok (.nothing o) => readArguments c o rest
      | .ok (.value o f e) =>
        match rest with
        | [] => .error e
        | value :: rest' =>
          match o.set f value with
          | .error e => .error e
          | .ok o => readArguments c o rest'

/-! ## §6 Which command is meant -/

/-- The argument is a flag that takes the argument behind it, whether there is such a
flag or not. -/
def takesNext (arg : Text) : Bool :=
  if arg.contains equalsSign then false
  else
    match arg with
    | 45 :: 45 :: name => !(Command.root.flagNamed? name).any Flag.isSwitch
    | [45, letter] => !(Command.root.flagLettered? letter).any Flag.isSwitch
    | _ => false

/-- The first argument that is no flag and no value of one. A flag in front of the very last
argument hides it. -/
def firstWord? : List Text → Option Text
  | [] => none
  | arg :: rest =>
    if arg = "--" then none
    else if takesNext arg then
      match rest with
      | _ :: next :: rest' => firstWord? (next :: rest')
      | _ => none
    else if arg.isEmpty || arg.head? == some dash then firstWord? rest
    else some arg

/-- The arguments without the word. -/
def withoutWord (word : Text) : List Text → List Text
  | [] => []
  | arg :: rest =>
    if arg = "--" then arg :: rest
    else if takesNext arg then
      match rest with
      | [] => [arg]
      | value :: rest' => arg :: value :: withoutWord word rest'
    else if arg = word then rest
    else arg :: withoutWord word rest

/-- A command with its options. -/
structure Invocation where
  command : Command
  options : Options
  deriving DecidableEq, Repr

namespace Invocation

/-- The command that arguments name, and the arguments without its word. -/
def commandOf (args : List Text) : Command × List Text :=
  match firstWord? args with
  | none => (.root, args)
  | some word =>
    match Command.ofWord? word with
    | some c => (c, withoutWord word args)
    | none => (.root, args)

/-- Checks the number of arguments that are no flags. -/
def check (i : Invocation) : Except UsageError Invocation :=
  match i.command, i.options.args with
  | .version, arg :: _ => .error (.unexpectedArgument arg)
  | _, _ :: _ :: _ => .error (.tooManyArguments i.options.args.length)
  | _, _ => .ok i

/-- The command and options that arguments ask for. -/
def ofArguments (args : List Text) : Except UsageError Invocation := do
  let (c, rest) := commandOf args
  let o ← readArguments c {} rest
  check ⟨c, o⟩

end Invocation

end Scriptlet
