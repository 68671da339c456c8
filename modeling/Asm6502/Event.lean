import Asm6502.Text.Terminal
import Asm6502.Token

/-!
# Events

What the assembler reports while it works. Each token is a trace, everything else is for
debugging; a verbosity decides which of the two are shown.
-/

namespace Asm6502

inductive Level where
  | debug
  | trace
  deriving DecidableEq, Repr

def Level.name : Level → String
  | debug => "DEBUG"
  | trace => "TRACE"

inductive Event where
  | opened (path : Path)
  | emitted (t : Token)
  | tokenized (path : Path) (count : Nat)
  | rewound (path : Path)
  | wrote (path : Path)
  deriving DecidableEq, Repr

namespace Event

def level : Event → Level
  | emitted _ => .trace
  | _ => .debug

def message : Event → String
  | opened path => s!"opened {path.text}"
  | emitted t => t.listing
  | tokenized path count => s!"tokenized {path.text}: {count} tokens"
  | rewound path => s!"rewound {path.text}"
  | wrote path => s!"wrote {path.text}"

/-- The message as the log of the command shows it. -/
def logged (e : Event) : String := Terminal.encode e.message

end Event

/-- How many times more details were asked for. -/
structure Verbosity where
  count : Nat
  deriving DecidableEq, Repr

def Verbosity.shows (v : Verbosity) : Level → Bool
  | .debug => 1 ≤ v.count
  | .trace => 2 ≤ v.count

end Asm6502
