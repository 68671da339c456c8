/-!
# Paths

A path is kept as it was written. Its components are the names between its slashes; empty names
and `.` do not count, except a `.` at the very start of a relative path. Nothing is looked up and
`..` is never resolved here.
-/

namespace Asm6502

/-- The name of a place in the file system, as written. -/
structure Path where
  text : String
  deriving DecidableEq, Repr

/-- A step of a path. -/
inductive Component where
  | root
  | current
  | parent
  | normal (name : String)
  deriving DecidableEq, Repr

namespace Path

def isAbsolute (p : Path) : Bool := p.text.toList.head? == some '/'

/-- The texts between the slashes of a path, the slash of the root left out. -/
def pieces (p : Path) : List (List Char) :=
  if p.isAbsolute then p.text.toList.tail.splitOn '/' else p.text.toList.splitOn '/'

/-- The component that a piece stands for, away from the start of a path. -/
def componentOf? : List Char → Option Component
  | [] => none
  | ['.'] => none
  | ['.', '.'] => some .parent
  | name => some (.normal (String.ofList name))

def components (p : Path) : List Component :=
  if p.isAbsolute then .root :: p.pieces.filterMap componentOf?
  else
    match p.pieces with
    | ['.'] :: rest => .current :: rest.filterMap componentOf?
    | pieces => pieces.filterMap componentOf?

/-- Two spellings with the same components name the same place. -/
def same (p q : Path) : Bool := p.components == q.components

/-- The last component, if it is a name of its own. -/
def fileName? (p : Path) : Option String :=
  match p.components.getLast? with
  | some (.normal name) => some name
  | _ => none

/-- A file name before its last dot; the whole name if it has no dot or only one at its start. -/
def beforeLastDot (name : String) : String :=
  match name.toList.reverse.dropWhile (· != '.') with
  | _ :: c :: before => String.ofList (c :: before).reverse
  | _ => name

/-- The file name without its extension. -/
def stem? (p : Path) : Option String := p.fileName?.map beforeLastDot

/-- The path `name` as seen from `p`: an absolute name stands for itself. -/
def join (p : Path) (name : String) : Path :=
  if (Path.mk name).isAbsolute then ⟨name⟩
  else if p.text.toList.getLast?.all (· == '/') then ⟨p.text ++ name⟩
  else ⟨p.text ++ "/" ++ name⟩

/-- Pieces without those at the end that name no component. -/
def dropIdle (pieces : List (List Char)) : List (List Char) :=
  (pieces.reverse.dropWhile fun piece => (componentOf? piece).isNone).reverse

/-- Pieces up to the last one that names a component; at the start of a relative path a dot
does. -/
def upToLast (p : Path) (pieces : List (List Char)) : List (List Char) :=
  match p.isAbsolute, pieces with
  | false, ['.'] :: rest => ['.'] :: dropIdle rest
  | _, pieces => dropIdle pieces

/-- The path without its last component. The root and the empty path have none. -/
def parent? (p : Path) : Option Path :=
  match p.upToLast p.pieces with
  | [] => none
  | pieces =>
    let body := ['/'].intercalate (p.upToLast pieces.dropLast)
    some ⟨String.ofList (if p.isAbsolute then '/' :: body else body)⟩

/-- The path, its parent, the parent of that, and so on for at most `n` steps. -/
def upward : Nat → Path → List Path
  | 0, p => [p]
  | n + 1, p => p :: p.parent?.elim [] (upward n)

/-- The path and everything above it, nearest first. -/
def ancestors (p : Path) : List Path := p.upward p.pieces.length

end Path

end Asm6502
