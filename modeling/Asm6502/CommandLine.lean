import Asm6502.Arguments
import Asm6502.Diagnostic
import Asm6502.Version

/-!
# The command

`CommandLine.run` is the whole program on any host. It ends with code 0 after success, 1 if the
source could not be assembled, and 2 if the arguments make no sense. A failure is reported in red,
and a failure at a place in the source also over the line that it is about.
-/

namespace Asm6502.CommandLine

def help : String :=
  "Usage: nesla [OPTIONS] [FILE]\n\n" ++
  "  FILE                source file to assemble\n" ++
  "  -o, --output DIR    output directory\n" ++
  "  -v, --version       show version information\n" ++
  "      --verbose       log more details; repeat for even more\n" ++
  "  -h, --help          show this help\n"

/-- A failure as the command reports it. -/
def complaint (e : Error) : String := s!"\x1b[91mnesla: {e.display}\x1b[0m\n"

variable {m : Type → Type} [Monad m] [Host m]

/-- Logs an event if the verbosity asks for it. -/
def report (verbosity : Verbosity) (event : Event) : m Unit :=
  if verbosity.shows event.level then Host.log event else pure ()

/-- The text of a file; empty if it cannot be read or is not well-formed. -/
def readText (path : Path) : m String := do
  match ← Host.openFile path with
  | .ok { node := .file data, .. } => return (Utf8.decode? data.toList).getD ""
  | _ => return ""

/-- Does what is asked for and gives the exit code. -/
def perform : Request → m UInt32
  | .help => do
    let _ ← Host.print (Utf8.encode help).toArray
    return 0
  | .version => do
    let _ ← Host.print (Utf8.encode s!"{version}\n").toArray
    return 0
  | .assemble job verbosity => do
    match ← (assemble (report verbosity) job).run with
    | .ok () => return 0
    | .error e =>
      Host.complain (complaint e)
      if e.place.isSome then
        Host.complain (Diagnostic.render [e] (← readText job.input))
      return 1

/-- Runs the command with its arguments. -/
def run (args : List String) : m UInt32 := do
  match Arguments.parse args with
  | .ok request => perform request
  | .error e =>
    Host.complain s!"error: {e.message}\n\n{help}"
    return 2

end Asm6502.CommandLine
