import Asm6502.Assemble

/-!
# Arguments

The command line takes one FILE, `-o DIR`, `-v`, `-h` and any number of `--verbose`. Short options
may be joined, and the value of `-o` may follow directly, after an equals sign, or as the next
argument unless that looks like an option. After `--` everything is a FILE. Only `--verbose` may
be repeated, no name may be empty, and FILE may be left out only to ask for the version.
-/

namespace Asm6502

/-- Why arguments make no sense. -/
inductive UsageError where
  | unknownOption (option : String)
  | unexpectedValue (option : String)
  | missingValue (option : String)
  | emptyValue (name : String)
  | repeated (option : String)
  | unexpectedArgument (text : String)
  | missingFile
  deriving DecidableEq, Repr

def UsageError.message : UsageError → String
  | unknownOption option => s!"unknown option: {option}"
  | unexpectedValue option => s!"{option} takes no value"
  | missingValue option => s!"{option} needs a value"
  | emptyValue name => s!"{name} must not be empty"
  | repeated option => s!"{option} may be given only once"
  | unexpectedArgument text => s!"unexpected argument: {text}"
  | missingFile => "FILE is missing"

/-- What the arguments have said so far. -/
structure Arguments where
  file : Option String := none
  output : Option String := none
  version : Bool := false
  verbose : Nat := 0
  help : Bool := false
  deriving DecidableEq, Repr

/-- What the arguments ask for. -/
inductive Request where
  | help
  | version
  | assemble (job : Job) (verbosity : Verbosity)
  deriving DecidableEq, Repr

namespace Arguments

def addFile (text : String) (a : Arguments) : Except UsageError Arguments :=
  if a.file.isSome then .error (.unexpectedArgument text)
  else if text = "" then .error (.emptyValue "FILE")
  else .ok { a with file := some text }

def addOutput (text : String) (a : Arguments) : Except UsageError Arguments :=
  if a.output.isSome then .error (.repeated "--output")
  else if text = "" then .error (.emptyValue "DIR")
  else .ok { a with output := some text }

def addVersion (a : Arguments) : Except UsageError Arguments :=
  if a.version then .error (.repeated "--version") else .ok { a with version := true }

/-- The state after an argument, and whether its value is still to come. -/
abbrev Step := Except UsageError (Arguments × Bool)

/-- The argument is complete. -/
def settled (a : Except UsageError Arguments) : Step := a.map fun a => (a, false)

/-- Joined short options. -/
def addShort : List Char → Arguments → Step
  | [], a => .ok (a, false)
  | 'h' :: _, a => .ok ({ a with help := true }, false)
  | 'v' :: rest, a =>
    match a.addVersion with
    | .ok a => addShort rest a
    | .error e => .error e
  | ['o'], a => .ok (a, true)
  | 'o' :: '=' :: value, a => settled (a.addOutput (String.ofList value))
  | 'o' :: value, a => settled (a.addOutput (String.ofList value))
  | c :: _, _ => .error (.unknownOption (String.ofList ['-', c]))

/-- A long option and the value after its equals sign. -/
def addLong (name : String) (value : Option String) (a : Arguments) : Step :=
  match name, value with
  | "output", some text => settled (a.addOutput text)
  | "output", none => .ok (a, true)
  | "version", none => settled a.addVersion
  | "verbose", none => .ok ({ a with verbose := a.verbose + 1 }, false)
  | "help", none => .ok ({ a with help := true }, false)
  | "version", some _ | "verbose", some _ | "help", some _ => .error (.unexpectedValue name)
  | _, _ => .error (.unknownOption name)

/-- The value after the equals sign of a long option, if it has one. -/
def valueAfterEquals (text : List Char) : Option String :=
  match text.dropWhile (· != '=') with
  | [] => none
  | _ :: value => some (String.ofList value)

/-- One argument before any `--`, where no value is due. -/
def add (text : String) (a : Arguments) : Step :=
  match text.toList with
  | '-' :: '-' :: long =>
    addLong (String.ofList (long.takeWhile (· != '='))) (valueAfterEquals long) a
  | '-' :: c :: short => addShort (c :: short) a
  | _ => settled (a.addFile text)

/-- Whether an argument cannot be the value of the option before it. -/
def looksLikeOption (text : String) : Bool :=
  match text.toList with
  | '-' :: _ :: _ => true
  | _ => false

/-- Reads arguments after `--`. -/
def addFiles : List String → Arguments → Except UsageError Arguments
  | [], a => .ok a
  | text :: rest, a =>
    match a.addFile text with
    | .ok a => addFiles rest a
    | .error e => .error e

/-- Reads arguments; `due` if the next one is the value of an option. A call for help ends the
reading. -/
def addAll (due : Bool) : List String → Arguments → Except UsageError Arguments
  | [], a => if due then .error (.missingValue "--output") else .ok a
  | text :: rest, a =>
    if due then
      if looksLikeOption text then .error (.missingValue "--output")
      else
        match a.addOutput text with
        | .ok a => addAll false rest a
        | .error e => .error e
    else if text = "--" then addFiles rest a
    else
      match a.add text with
      | .ok (a, due) => if a.help then .ok a else addAll due rest a
      | .error e => .error e

/-- What complete arguments ask for. -/
def request (a : Arguments) : Except UsageError Request :=
  if a.help then .ok .help
  else if a.version then .ok .version
  else
    match a.file with
    | some file => .ok (.assemble ⟨⟨file⟩, a.output.map Path.mk⟩ ⟨a.verbose⟩)
    | none => .error .missingFile

def parse (args : List String) : Except UsageError Request :=
  match addAll false args {} with
  | .ok a => a.request
  | .error e => .error e

end Arguments

end Asm6502
