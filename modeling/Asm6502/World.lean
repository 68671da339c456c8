import Asm6502.Assemble

/-!
# Worlds

A world is all that the assembler can see and change: a disk, the two outputs, and the log. A
computation on a world is a host in which only the disk can refuse anything.
-/

namespace Asm6502

structure World where
  disk : Disk
  output : Array UInt8 := #[]
  complaints : String := ""
  log : Array Event := #[]

namespace World

/-- Runs an operation of the disk. -/
def onDisk {α : Type} (f : Disk → α × Disk) : StateM World α :=
  modifyGet fun w =>
    let (a, disk) := f w.disk
    (a, { w with disk })

instance : Host (StateM World) where
  openFile path := return (← get).disk.openFile path
  makeDirectory path := onDisk (Disk.makeDirectory path)
  isDirectory path := return (← get).disk.isDirectory path
  createFile path := onDisk (Disk.createFile path)
  appendFile path bytes := onDisk (Disk.appendFile path bytes)
  print bytes := do
    modify fun w => { w with output := w.output ++ bytes }
    return .ok ()
  complain text := modify fun w => { w with complaints := w.complaints ++ text }
  log event := modify fun w => { w with log := w.log.push event }

/-- Assembles on a world, with every event in its log. -/
def assemble (job : Job) (w : World) : Attempt Unit World :=
  let report : Event → StateM World Unit := Host.log
  (Asm6502.assemble report job).run.run w

/-- Puts a file in place, with the directories above it. -/
def placeFile (path : Path) (bytes : Array UInt8) : StateM World Unit := do
  if let some directory := path.parent? then
    let _ ← Host.makeDirectories directory.ancestors
  let _ ← Host.createFile path
  let _ ← Host.appendFile path bytes

/-- Puts a directory in place, with the directories above it. -/
def placeDirectory (path : Path) : StateM World Unit := do
  let _ ← Host.makeDirectories path.ancestors

/-- What the working directory holds, with names relative to it. -/
def files (w : World) : List (Location × Node) :=
  w.disk.nodes.filterMap fun (location, node) =>
    let depth := w.disk.working.length
    if location.take depth = w.disk.working ∧ depth < location.length then
      some (location.drop depth, node)
    else none

end World

end Asm6502
