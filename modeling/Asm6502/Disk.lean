import Asm6502.Path
import Asm6502.Reader.File

/-!
# Disks

A disk is a tree of directories and files with a working directory, kept as a table from locations
to nodes. A path is looked up name by name: `.` and empty names stay, `..` goes up, every other
name has to be there, and only directories can be searched. Links and permissions are left out.
-/

namespace Asm6502

/-- The names from the root down to a node. -/
abbrev Location := List String

structure Disk where
  /-- The location that relative paths start from. -/
  working : Location
  nodes : List (Location × Node)
  deriving DecidableEq, Repr

namespace Disk

/-- A disk with nothing but the working directory and the directories above it. -/
def empty (working : Location) : Disk :=
  { working
    nodes := (List.range (working.length + 1)).map fun n => (working.take n, .directory) }

def node? (d : Disk) (location : Location) : Option Node := d.nodes.lookup location

/-- The disk with a node put in place, or replaced. -/
def put (location : Location) (node : Node) (d : Disk) : Disk :=
  { d with nodes := d.nodes.filter (·.1 ≠ location) ++ [(location, node)] }

/-! ## Looking up -/

/-- The most bytes that a name may have. -/
def maxName : Nat := 255

/-- The most bytes that a path may have. -/
def maxPath : Nat := 4095

/-- The location that names lead to. -/
def walk (d : Disk) : Location → List String → Except OsError Location
  | location, [] => .ok location
  | location, name :: rest =>
    match d.node? location with
    | some .directory =>
      if name = "" ∨ name = "." then walk d location rest
      else if name = ".." then walk d location.dropLast rest
      else if maxName < name.utf8ByteSize then .error .nameTooLong
      else if (d.node? (location ++ [name])).isSome then walk d (location ++ [name]) rest
      else .error .notFound
    | _ => .error .notDirectory

/-- The names in a path; a path that no look-up can take is refused. -/
def names (path : Path) : Except OsError (List String) :=
  if path.text.toList.contains '\x00' then .error .interiorNul
  else if path.text = "" then .error .notFound
  else if maxPath < path.text.utf8ByteSize then .error .nameTooLong
  else .ok (path.pieces.map String.ofList)

/-- Where the look-up of a path starts. -/
def base (d : Disk) (path : Path) : Location := if path.isAbsolute then [] else d.working

/-- The location of an existing node. -/
def locate (d : Disk) (path : Path) : Except OsError Location := do
  d.walk (d.base path) (← names path)

/-- The last name of a path and the location of the directory that it is looked up in. -/
def locateLast (d : Disk) (path : Path) : Except OsError (Location × String) := do
  let names ← names path
  let location ← d.walk (d.base path) names.dropLast
  if d.node? location = some .directory then .ok (location, names.getLastD "")
  else .error .notDirectory

/-- Whether a last name stands for a directory whatever the disk holds. -/
def isDirectoryName (name : String) : Bool := name == "" || name == "." || name == ".."

/-! ## Operations -/

/-- Opens a file or directory for reading. -/
def openFile (d : Disk) (path : Path) : Except OsError OpenFile := do
  match d.node? (← d.locate path) with
  | some node => .ok { node }
  | none => .error .notFound

def isDirectory (d : Disk) (path : Path) : Bool :=
  match d.locate path with
  | .ok location => d.node? location = some .directory
  | .error _ => false

/-- A text without the slashes at its end; the root keeps one. -/
def dropSlashes (text : List Char) : List Char :=
  match (text.reverse.dropWhile (· == '/')).reverse with
  | [] => text.take 1
  | kept => kept

/-- Makes a directory in an existing one. Slashes at the end of its path do not count. -/
def makeDirectory (path : Path) (d : Disk) : Except OsError Unit × Disk :=
  let path := { path with text := String.ofList (dropSlashes path.text.toList) }
  match d.locateLast path with
  | .error reason => (.error reason, d)
  | .ok (location, name) =>
    if isDirectoryName name then (.error .alreadyExists, d)
    else if maxName < name.utf8ByteSize then (.error .nameTooLong, d)
    else if (d.node? (location ++ [name])).isSome then (.error .alreadyExists, d)
    else (.ok (), d.put (location ++ [name]) .directory)

/-- Makes an empty file, or empties an existing one. -/
def createFile (path : Path) (d : Disk) : Except OsError Unit × Disk :=
  match d.locateLast path with
  | .error reason => (.error reason, d)
  | .ok (location, name) =>
    if isDirectoryName name then (.error .isDirectory, d)
    else if maxName < name.utf8ByteSize then (.error .nameTooLong, d)
    else if d.node? (location ++ [name]) = some .directory then (.error .isDirectory, d)
    else (.ok (), d.put (location ++ [name]) (.file #[]))

/-- Adds bytes at the end of an existing file. -/
def appendFile (path : Path) (bytes : Array UInt8) (d : Disk) : Except OsError Unit × Disk :=
  match d.locate path with
  | .error reason => (.error reason, d)
  | .ok location =>
    match d.node? location with
    | some (.file data) => (.ok (), d.put location (.file (data ++ bytes)))
    | some .directory => (.error .isDirectory, d)
    | none => (.error .notFound, d)

end Disk

end Asm6502
