import Oberlet.Console.Level

/-!
# Command line arguments

A command line leads through commands to one that can be executed. Words that begin with a hyphen
set named arguments, of the command reached so far or of one around it. Without a value they would
be flags, and no command has any.
-/

namespace Oberlet

/-- The commands, with those around them. -/
inductive Command
  | main
  | build
  | check
  | emit
  | mod
  | modInit
  | repl
  | version
deriving DecidableEq, Repr

namespace Command

def name : Command → String
  | main => "beblang"
  | build => "build"
  | check => "check"
  | emit => "emit"
  | mod => "mod"
  | modInit => "init"
  | repl => "repl"
  | version => "version"

def below : Command → List Command
  | main => [build, check, emit, mod, repl, version]
  | mod => [modInit]
  | _ => []

/-- The name of the primary argument that a command needs. -/
def primary? : Command → Option String
  | build => some "path"
  | check => some "path"
  | emit => some "file"
  | modInit => some "name"
  | _ => none

end Command

inductive Setting
  | level
  | profile
deriving DecidableEq, Repr

namespace Setting

def name : Setting → String
  | level => "loglevel"
  | profile => "profile"

def short : Setting → String
  | level => "ll"
  | profile => "p"

/-- The named arguments of a command. -/
def ofCommand : Command → List Setting
  | .main => [level]
  | .build => [profile]
  | _ => []

/-- The values that a named argument can have. -/
def accepts : Setting → String → Bool
  | level, value => value ∈ ["silent", "error", "warn", "verbose"]
  | profile, _ => true

end Setting

inductive UsageError
  | unknownFlag (name : String)
  | unknownArgument (name : String)
  | unknownShortFlag (name : String)
  | unknownShortArgument (name : String)
  | setTwice (name : String)
  | badValue (name value : String)
  | primaryTwice (command : String)
  | unknownCommand (name : String)
  | unexpectedCommand (name : String)
  | commandRequired (command : String)
  | primaryRequired (command argument : String)
deriving DecidableEq, Repr

def UsageError.message : UsageError → String
  | unknownFlag name => s!"unknown flag: `{name}`"
  | unknownArgument name => s!"unknown argument: `{name}`"
  | unknownShortFlag name => s!"unknown flag by short name: `{name}`"
  | unknownShortArgument name => s!"unknown argument by short name: `{name}`"
  | setTwice name => s!"argument `{name}` set multiple times"
  | badValue name value => s!"`{value}` is not a valid value for argument [{name}]"
  | primaryTwice command => s!"multiple primary arguments specified for command `{command}`"
  | unknownCommand name => s!"unknown subcommand: `{name}`"
  | unexpectedCommand name => s!"unexpected subcommand: `{name}`"
  | commandRequired command => s!"`{command}` requires a subcommand"
  | primaryRequired command argument =>
    s!"missing required primary argument `{command}` for subcommand `{argument}`"

/-- What has been read of a command line: the command reached and those around it from the inside
out, its primary argument, the named arguments, and whether a further command may follow. -/
structure CommandLine where
  command : Command
  around : List Command
  primary : String
  options : List (Setting × String)
  isOpen : Bool
deriving DecidableEq, Repr

namespace CommandLine

def initial : CommandLine := ⟨.main, [], "", [], true⟩

def value? (line : CommandLine) (option : Setting) : Option String :=
  List.lookup option line.options

def known (line : CommandLine) : List Setting :=
  (line.command :: line.around).flatMap Setting.ofCommand

/-- Sets a named argument, once. No further command may follow. -/
def set (line : CommandLine) (option : Setting) (value : String) :
    Except UsageError CommandLine :=
  if (line.value? option).isSome then throw (.setTwice option.name)
  else if !option.accepts value then throw (.badValue option.name value)
  else return { line with options := (option, value) :: line.options, isOpen := false }

/-- The text before an equals sign and the text behind it. -/
def sides (cs : List Char) : String × String :=
  (String.ofList (cs.takeWhile (· != '=')), String.ofList (cs.dropWhile (· != '=')).tail)

/-- `--name=value` -/
def readNamed (line : CommandLine) (word : List Char) : Except UsageError CommandLine :=
  let (name, value) := sides word
  if value == "" then throw (.unknownFlag name)
  else match line.known.find? (·.name == name) with
    | some option => line.set option value
    | none => throw (.unknownArgument name)

/-- `-short=value` -/
def readShort (line : CommandLine) (word : List Char) : Except UsageError CommandLine :=
  let (name, value) := sides word
  if value == "" then throw (.unknownShortFlag name)
  else match line.known.find? (·.short == name) with
    | some option => line.set option value
    | none => throw (.unknownShortArgument name)

/-- The primary argument of the command reached so far if it has one, and else the name of a command
below it. -/
def readWord (line : CommandLine) (word : String) : Except UsageError CommandLine :=
  if line.command.primary?.isSome then
    if line.primary == "" then return { line with primary := word }
    else throw (.primaryTwice line.command.name)
  else if !line.isOpen then throw (.unexpectedCommand word)
  else match line.command.below.find? (·.name == word) with
    | some command => return { line with command, around := line.command :: line.around }
    | none => throw (.unknownCommand word)

def read (line : CommandLine) (word : String) : Except UsageError CommandLine :=
  match word.toList with
  | '-' :: '-' :: rest => line.readNamed rest
  | '-' :: rest => line.readShort rest
  | _ => line.readWord word

/-- A command line is complete when it has reached a command that can be executed, with its
primary argument. -/
def finish (line : CommandLine) : Except UsageError CommandLine :=
  if !line.command.below.isEmpty then throw (.commandRequired line.command.name)
  else match line.command.primary? with
    | some argument =>
      if line.primary == "" then throw (.primaryRequired line.command.name argument)
      else return line
    | none => return line

/-- Reads a whole command line. -/
def ofArgs (args : List String) : Except UsageError CommandLine := do
  (← args.foldlM read initial).finish

def level (line : CommandLine) : String := (line.value? .level).getD "verbose"

def profile (line : CommandLine) : String := (line.value? .profile).getD ""

end CommandLine

end Oberlet
