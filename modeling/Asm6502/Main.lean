import Asm6502.CommandLine

/-!
# The program

The command on the machine that it is started on. Files are read when they are opened.
-/

namespace Asm6502

/-- The refusal behind an error of the machine. -/
def OsError.ofError : IO.Error → OsError
  | .noFileOrDirectory .. | .noSuchThing .. => .notFound
  | .alreadyExists .. => .alreadyExists
  | e@(.inappropriateType _ code _) =>
    if code = 20 ∨ code = -20 then .notDirectory
    else if code = 21 ∨ code = -21 then .isDirectory
    else .other (toString e)
  | e => .other (toString e)

/-- The result of an action, its refusal kept as a value. -/
def attempt {α : Type} (action : IO α) : IO (Except OsError α) := do
  match ← action.toBaseIO with
  | .ok a => return .ok a
  | .error e => return .error (.ofError e)

instance : Host IO where
  openFile path := do
    match ← attempt (IO.FS.readBinFile path.text) with
    | .ok bytes => return .ok { node := .file bytes.data }
    | .error .isDirectory => return .ok { node := .directory }
    | .error reason => return .error reason
  makeDirectory path := attempt (IO.FS.createDir path.text)
  isDirectory path := do
    match ← attempt (IO.FS.realPath path.text) with
    | .ok real => real.isDir
    | .error _ => return false
  createFile path := attempt (IO.FS.writeBinFile path.text .empty)
  appendFile path bytes := attempt do
    let file ← IO.FS.Handle.mk path.text .append
    file.write ⟨bytes⟩
  print bytes := attempt do
    let out ← IO.getStdout
    out.write ⟨bytes⟩
    out.flush
  complain text := IO.eprint text
  log event := IO.eprintln s!"{event.level.name} {event.logged}"

end Asm6502

def main (args : List String) : IO UInt32 := Asm6502.CommandLine.run args
