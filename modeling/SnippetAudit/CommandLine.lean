import SnippetAudit.Check

/-!
# Command line

The command `check ROOT` with the options `--format FORMAT`, `--config FILE` and `-v`, of which
the last two may also stand before the command. An option gives its value behind `=` or as the next
word. Behind `--` every word is an operand.

Words are read from left to right; the first that is wrong, or that asks for the version or for
help, decides.

Results:
* `words_escape`: behind `--` every word is an operand.
-/

namespace SnippetAudit.CommandLine

open Report

/-! ## Words -/

/-- A part of a command line. -/
inductive Word where
  /-- A single letter behind a dash. -/
  | flag (letter : Char)
  /-- A name behind two dashes, and its value. -/
  | option (name : String) (value : Option String)
  /-- Anything else. Behind `--` it is no command. -/
  | operand (text : String) (escaped : Bool)
  /-- The sign `--`. -/
  | escape
  deriving DecidableEq, Repr

/-- The names of the options that have a value. -/
def valued : List String := ["config", "format"]

/-- Whether an argument is no flag and no option. A single dash is none. -/
def isOperand (argument : String) : Bool :=
  match argument.toList with
  | '-' :: _ :: _ => false
  | _ => true

/-- The name of an option and the value behind `=`. -/
def splitOption (text : List Char) : String × Option String :=
  let name := text.takeWhile (· != '=')
  let value := match text.drop name.length with
    | _ :: value => some (String.ofList value)
    | [] => none
  (String.ofList name, value)

/-- The words of a command line. -/
def words : List String → List Word
  | [] => []
  | argument :: rest =>
    match argument.toList with
    | ['-', '-'] => .escape :: rest.map (.operand · true)
    | '-' :: '-' :: text =>
      let (name, value) := splitOption text
      if value.isNone ∧ name ∈ valued then
        match rest with
        | next :: others =>
          if isOperand next then .option name (some next) :: words others
          else .option name none :: words (next :: others)
        | [] => [.option name none]
      else .option name value :: words rest
    | '-' :: letter :: letters => (letter :: letters).map .flag ++ words rest
    | _ => .operand argument false :: words rest

/-! ## Requests -/

/-- Why a command line is wrong. -/
inductive Misuse where
  | unknownFlag (letter : Char)
  | unknownOption (name : String)
  | unknownCommand (name : String)
  | unknownTopic
  | unknownFormat (name : String)
  | missingCommand
  | missingRoot
  | missingValue (option : String)
  | needlessValue (option : String)
  | repeated (option : String)
  | emptyPath
  | furtherOperand (text : String)
  deriving DecidableEq, Repr

/-- Why no check is made. -/
inductive Stop where
  | misuse (cause : Misuse)
  | version
  | help
  deriving DecidableEq, Repr

/-- What the words before the command, or those behind it, have set (`Cli`). -/
structure Settings where
  verbosity : Nat
  configFile : Option Path
  format : Option Format
  root : Option Path
  deriving DecidableEq, Repr

/-- Nothing is set. -/
def Settings.empty : Settings := ⟨0, none, none, none⟩

/-- The path that is written as a value or an operand. -/
def path (text : String) : Except Stop Path :=
  if text.isEmpty then .error (.misuse .emptyPath) else .ok (.ofString text)

/-- The format with a name. -/
def format (name : String) : Except Stop Format :=
  if name == "text" then .ok .text
  else if name == "json" then .ok .json
  else .error (.misuse (.unknownFormat name))

namespace Settings

/-- Sets what may be set but once. -/
def once {α : Type} (before : Option α) (option : String) (value : Except Stop α) :
    Except Stop (Option α) :=
  if before.isSome then .error (.misuse (.repeated option)) else value.map some

/-- Takes one word, before the command or behind it. -/
def take (s : Settings) (behind : Bool) : Word → Except Stop Settings
  | .flag letter =>
    if letter = 'v' then .ok { s with verbosity := s.verbosity + 1 }
    else if letter = 'h' then .error .help
    else if letter = 'V' ∧ !behind then .error .version
    else .error (.misuse (.unknownFlag letter))
  | .option name value =>
    match name, value with
    | "verbose", none => .ok { s with verbosity := s.verbosity + 1 }
    | "help", none => .error .help
    | "version", none => .error (if behind then .misuse (.unknownOption name) else .version)
    | "config", some value =>
      (once s.configFile name (path value)).map fun configFile => { s with configFile }
    | "format", some value =>
      if behind then
        (once s.format name (CommandLine.format value)).map fun format => { s with format }
      else .error (.misuse (.unknownOption name))
    | "config", none | "format", none => .error (.misuse (.missingValue name))
    | "verbose", some _ | "help", some _ | "version", some _ => .error (.misuse (.needlessValue name))
    | _, _ => .error (.misuse (.unknownOption name))
  | .operand text _ =>
    if !behind then .error (.misuse (.unknownCommand text))
    else if s.root.isSome then .error (.misuse (.furtherOperand text))
    else (path text).map fun root => { s with root := some root }
  | .escape => .ok s

end Settings

/-- The check that words behind the command ask for. What they do not set may be set before it. -/
def readCheck (outer : Settings) (s : Settings) : List Word → Except Stop Check
  | [] =>
    match s.root with
    | some root => .ok ⟨root, s.format.getD .text, s.configFile.or outer.configFile⟩
    | none => .error (.misuse .missingRoot)
  | word :: rest => s.take true word >>= (readCheck outer · rest)

/-- Why no check is made behind the command `help`, which is followed by no more than a command. -/
def helpStop : List Word → Stop
  | [] | [.operand "check" false] | [.operand "help" false] => .help
  | _ => .misuse .unknownTopic

/-- The check that words ask for. -/
def readWords (s : Settings) : List Word → Except Stop Check
  | [] => .error (.misuse .missingCommand)
  | .operand "check" false :: rest => readCheck s .empty rest
  | .operand "help" false :: rest => .error (helpStop rest)
  | word :: rest => s.take false word >>= (readWords · rest)

/-- The check that a command line asks for. -/
def read (arguments : List String) : Except Stop Check := readWords .empty (words arguments)

/-! ## Running -/

/-- The name and version of the program. -/
def versionText : String := "snipcheck 0.1.0\n"

/-- How the command is called. -/
def helpText : String := "Usage: snipcheck [OPTIONS] check [--format text|json] ROOT\n"

/-- What the reader of YAML says is not modelled: where a command is run, a sign stands in its place. -/
instance : Yaml.Wording := ⟨fun _ => "<yaml>", fun _ => "<yaml>"⟩

/-- How a run ends: its exit status, what it wrote, and the message of a fatal error. -/
structure Exit where
  code : Nat
  output : List UInt8
  message : Option String
  deriving DecidableEq, Repr

/-- The end of a run that makes no check. -/
def Stop.exit : Stop → Exit
  | .misuse _ => ⟨2, [], some helpText⟩
  | .version => ⟨0, Text.Utf8.encode versionText.toList, none⟩
  | .help => ⟨0, Text.Utf8.encode helpText.toList, none⟩

/-- The exit status of a fatal error (`FATAL_EXIT_CODE`). -/
def fatalCode : Nat := 1

/-- Runs a check to its end (`main`). -/
def runCheck (fs : FileSystem) (depth : Nat) (c : Check) : Exit :=
  match c.run fs depth (.empty none false) with
  | (.ok code, sink) => ⟨code, sink.written, none⟩
  | (.error fatal, sink) => ⟨fatalCode, sink.written, some fatal.message⟩

/-- Runs a command line. -/
def run (fs : FileSystem) (depth : Nat) (arguments : List String) : Exit :=
  match read arguments with
  | .ok c => runCheck fs depth c
  | .error stop => stop.exit

/-! ## Lemmas -/

theorem words_escape (rest : List String) :
    words ("--" :: rest) = .escape :: rest.map (.operand · true) := by
  rw [words]
  rfl

end SnippetAudit.CommandLine
