import Asm6502.Ascii
import Asm6502.Path
import Asm6502.Position

/-!
# Errors

An error is a cause, and for lexical errors the place in the source that it is about. The cause
determines the code and the message. A failure that reaches the library from outside brings its
code and message along (`Cause.reported`).
-/

namespace Asm6502

/-- Why the operating system refused an operation. -/
inductive OsError where
  | notFound
  | alreadyExists
  | notDirectory
  | isDirectory
  | nameTooLong
  | interiorNul
  | other (text : String)
  deriving DecidableEq, Repr

def OsError.message : OsError → String
  | notFound => "No such file or directory (os error 2)"
  | alreadyExists => "File exists (os error 17)"
  | notDirectory => "Not a directory (os error 20)"
  | isDirectory => "Is a directory (os error 21)"
  | nameTooLong => "File name too long (os error 36)"
  | interiorNul => "file name contained an unexpected NUL byte"
  | other text => text

/-- The kinds of errors that callers tell apart. -/
inductive ErrorCode where
  | io
  | emptyFile
  | endOfFile
  | allocationFailure
  | unsupportedDirective
  | unsupportedSymbol
  | invalidCharacter
  | invalidScalar
  | scalarOverflow
  | unterminatedLiteral
  | indexOutOfRange
  | invalidEntry
  | emptyList
  | noNextToken
  deriving DecidableEq, Repr

/-- The part of the job that an error belongs to. -/
inductive ErrorCategory where
  | io
  | allocation
  | lexical
  | navigation
  deriving DecidableEq, Repr

def ErrorCategory.name : ErrorCategory → String
  | io => "I/O error"
  | allocation => "allocation error"
  | lexical => "lexical error"
  | navigation => "navigation error"

def ErrorCode.category : ErrorCode → ErrorCategory
  | io | emptyFile | endOfFile => .io
  | allocationFailure => .allocation
  | unsupportedDirective | unsupportedSymbol | invalidCharacter | invalidScalar | scalarOverflow
  | unterminatedLiteral => .lexical
  | indexOutOfRange | invalidEntry | emptyList | noNextToken => .navigation

/-- What went wrong. -/
inductive Cause where
  | openFailed (path : Path) (reason : OsError)
  | fileClosed (path : Path)
  | endOfFile (path : Path)
  | readFailed (path : Path) (reason : OsError)
  | deliveryFailed (path : Path) (reason : String)
  | emptyFile (path : Path)
  | unsupportedDirective (name : String)
  | unsupportedSymbol (byte : UInt8)
  | invalidCharacter (byte : UInt8)
  | invalidScalar (text : String)
  | scalarOverflow (text : String)
  | unterminatedLiteral
  | indexOutOfRange (index : Nat)
  | invalidEntry (slot : Nat)
  | emptyList
  | noNextToken (index : Nat)
  | writeFailed (reason : String)
  | flushFailed (reason : String)
  | createDirectoryFailed (path : Path) (reason : OsError)
  | reported (code : ErrorCode) (message : String)
  deriving DecidableEq, Repr

namespace Cause

def code : Cause → ErrorCode
  | openFailed .. | fileClosed .. | readFailed .. | deliveryFailed .. | writeFailed ..
  | flushFailed .. | createDirectoryFailed .. => .io
  | endOfFile _ => .endOfFile
  | emptyFile _ => .emptyFile
  | unsupportedDirective _ => .unsupportedDirective
  | unsupportedSymbol _ => .unsupportedSymbol
  | invalidCharacter _ => .invalidCharacter
  | invalidScalar _ => .invalidScalar
  | scalarOverflow _ => .scalarOverflow
  | unterminatedLiteral => .unterminatedLiteral
  | indexOutOfRange _ => .indexOutOfRange
  | invalidEntry _ => .invalidEntry
  | emptyList => .emptyList
  | noNextToken _ => .noNextToken
  | reported code _ => code

def message : Cause → String
  | openFailed path reason => s!"Failed to open file: {path.text}: {reason.message}"
  | fileClosed path => s!"File is closed: {path.text}"
  | endOfFile path => s!"Failed to read file: {path.text}"
  | readFailed path reason => s!"Failed to read file: {path.text}: {reason.message}"
  | deliveryFailed path reason => s!"Failed to read source: {path.text}: {reason}"
  | emptyFile path => s!"Empty file: {path.text}"
  | unsupportedDirective name => s!"Unsupported directive: .{name}"
  | unsupportedSymbol byte => s!"Unsupported symbol: '{Ascii.toChar byte}'"
  | invalidCharacter byte => s!"Invalid character: 0x{Ascii.hex 2 byte.toNat}"
  | invalidScalar text => s!"Invalid scalar: {text}"
  | scalarOverflow text => s!"Scalar out of range: {text}"
  | unterminatedLiteral => "Unterminated literal"
  | indexOutOfRange index => s!"Invalid index: {index}"
  | invalidEntry slot => s!"Invalid entry: {slot}"
  | emptyList => "Empty list"
  | noNextToken index => s!"No next token: {index}"
  | writeFailed reason => s!"Failed to write token: {reason}"
  | flushFailed reason => s!"Failed to flush output: {reason}"
  | createDirectoryFailed path reason =>
    s!"Failed to create directory: {path.text}: {reason.message}"
  | reported _ message => message

end Cause

/-- A position in a named source. -/
structure Place where
  path : Path
  position : Position
  deriving DecidableEq, Repr

/-- The function that raised an error, for those who debug the caller. -/
structure Origin where
  function : String
  file : String
  line : UInt32
  deriving DecidableEq, Repr

def Origin.text (o : Origin) : String := s!"{o.function}:{o.file}@{o.line}"

structure Error where
  cause : Cause
  place : Option Place := none
  origin : Option Origin := none
  deriving DecidableEq, Repr

namespace Error

/-- An error that is about no place in a source. -/
def ofCause (cause : Cause) : Error := { cause }

/-- The error, now about a place in a source. -/
def locate (e : Error) (path : Path) (position : Position) : Error :=
  { e with place := some ⟨path, position⟩ }

def code (e : Error) : ErrorCode := e.cause.code

def message (e : Error) : String := e.cause.message

def category (e : Error) : ErrorCategory := e.code.category

/-- The error on one line: message, place, origin. -/
def display (e : Error) : String :=
  let place := e.place.elim "" fun p => s!" ({p.path.text}@{p.position.line})"
  let origin := e.origin.elim "" fun o => s!" ({o.text})"
  e.message ++ place ++ origin

/-- Equality of all that an error says, paths compared by their components. -/
def same (e f : Error) : Bool :=
  e.code == f.code && e.message == f.message && e.origin == f.origin &&
    match e.place, f.place with
    | some p, some q => p.path.same q.path && p.position == q.position
    | none, none => true
    | _, _ => false

end Error

/-- What an operation on a state answers, beside the state that it leaves. -/
abbrev Attempt (α σ : Type) := Except Error α × σ

end Asm6502
