import Asm6502.Disk
import Asm6502.Listing

/-!
# Assembling

Assembling a source means scanning all of it and then writing its listing, to a file in an output
directory or to standard output. Nothing is written before the whole source has been scanned. The
work is stated over any `Host`, so that it runs on a real machine and on a `World` alike.
-/

namespace Asm6502

/-- The machine that the assembler runs on. -/
class Host (m : Type → Type) where
  openFile : Path → m (Except OsError OpenFile)
  makeDirectory : Path → m (Except OsError Unit)
  isDirectory : Path → m Bool
  /-- Makes an empty file, or empties an existing one. -/
  createFile : Path → m (Except OsError Unit)
  appendFile : Path → Array UInt8 → m (Except OsError Unit)
  print : Array UInt8 → m (Except OsError Unit)
  /-- Writes to the error output. -/
  complain : String → m Unit
  log : Event → m Unit

/-- What to assemble, and the directory for the listing. -/
structure Job where
  input : Path := ⟨""⟩
  output : Option Path := none
  deriving DecidableEq, Repr

/-- The file for the listing, named after the input. Without an output directory there is none. -/
def Job.listingPath (job : Job) : Option Path :=
  job.output.map fun directory =>
    directory.join (job.input.stem?.getD job.input.text ++ ".tokens")

namespace Host

variable {m : Type → Type} [Monad m] [Host m]

/-- The outcome of making a directory: one that could not be made will do if it is there. -/
def settle (path : Path) : Except OsError Unit → m (Except OsError Unit)
  | .ok () => return .ok ()
  | .error reason => do
    if ← isDirectory path then return .ok () else return .error reason

/-- Makes the first of some paths a directory; the others are those above it, nearest first. -/
def makeDirectories : List Path → m (Except OsError Unit)
  | [] => pure (.error (.other "failed to create whole tree"))
  | path :: above => do
    if path.text = "" then return .ok ()
    match ← makeDirectory path with
    | .ok () => return .ok ()
    | .error .notFound =>
      match ← makeDirectories above with
      | .error reason => return .error reason
      | .ok () => settle path (← makeDirectory path)
    | .error reason => settle path (.error reason)

/-- An action of the host, its refusal turned into an error. -/
def require {α : Type} (cause : OsError → Cause) (action : m (Except OsError α)) :
    ExceptT Error m α :=
  ExceptT.mk do
    match ← action with
    | .ok a => return .ok a
    | .error reason => return .error (.ofCause (cause reason))

end Host

/-- The whole listing of a lexer, from its cursor on. -/
def Lexer.listing {ρ : Type} (l : Lexer ρ) : Except Error (Array UInt8) :=
  match l.dump ({} : Sink) with
  | ((.ok (), _), sink) => .ok sink.received
  | ((.error e, _), _) => .error e

variable {m : Type → Type} [Monad m] [Host m]

/-- Opens a source file. -/
def openSource (report : Event → m Unit) (path : Path) : ExceptT Error m FileReader := do
  let file ← Host.require (.openFailed path) (Host.openFile path)
  report (.opened path)
  return { path, handle := some file }

/-- Opens and scans a source file, reporting what happens. -/
def scanFile (report : Event → m Unit) (path : Path) : ExceptT Error m (Lexer FileReader) := do
  let (lexer, events) := Lexer.ofReader (← openSource report path)
  events.forM fun event => (report event : ExceptT Error m Unit)
  ExceptT.mk (pure lexer)

/-- Scans the input and writes its listing. -/
def assemble (report : Event → m Unit) (job : Job) : ExceptT Error m Unit := do
  let lexer ← scanFile report job.input
  match job.listingPath with
  | some path =>
    if let some directory := path.parent? then
      Host.require (.createDirectoryFailed directory) (Host.makeDirectories directory.ancestors)
    Host.require (.openFailed path) (Host.createFile path)
    let listing ← ExceptT.mk (pure lexer.listing)
    Host.require (fun reason => .writeFailed reason.message) (Host.appendFile path listing)
    report (.wrote path)
  | none =>
    let listing ← ExceptT.mk (pure lexer.listing)
    Host.require (fun reason => .writeFailed reason.message) (Host.print listing)

end Asm6502
