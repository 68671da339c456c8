import Asm6502.Buffer
import Asm6502.Main
import Asm6502.Reader.Faulty
import Asm6502.Reader.Memory
import Asm6502.Text.Quoted
import Asm6502.World
import Asm6502.Proofs.Arena.Slots
import Asm6502.Proofs.Arena.Contents
import Asm6502.Proofs.Arena.Sequence
import Asm6502.Proofs.Delivery
import Asm6502.Proofs.Grammar
import Asm6502.Proofs.Numerals
import Asm6502.Proofs.Classes
import Asm6502.Proofs.Lexemes
import Asm6502.Proofs.Acceptance
import Asm6502.Proofs.Spelling
import Asm6502.Proofs.Joining
import Asm6502.Proofs.Cursor
import Asm6502.Proofs.Continuation
import Asm6502.Proofs.FirstFault
import Asm6502.Proofs.Interruption
import Asm6502.Proofs.Arena.Staleness
import Asm6502.Proofs.Moves
import Asm6502.Proofs.Text.Encoded
import Asm6502.Proofs.Texts
import Asm6502.Proofs.Listings
import Asm6502.Proofs.Returns
import Asm6502.Proofs.Caret
import Asm6502.Proofs.Comments
import Asm6502.Proofs.Interchange
import Asm6502.Proofs.Paths
import Asm6502.Proofs.Disks
import Asm6502.Proofs.Assembly
import Asm6502.Proofs.Overwriting
import Asm6502.Proofs.Arena.Iteration
import Asm6502.Proofs.Boundaries
import Asm6502.Proofs.Scalars
import Asm6502.Proofs.Literals
import Asm6502.Proofs.Shortage
import Asm6502.Proofs.Arena.Vacancy
import Asm6502.Proofs.Buffers
import Asm6502.Proofs.ListingPaths
import Asm6502.Proofs.Excerpt
import Asm6502.Proofs.Scanner
import Asm6502.Proofs.Turns
import Asm6502.Proofs.Progress
