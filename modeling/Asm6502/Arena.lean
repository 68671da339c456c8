import Asm6502.Error

/-!
# Arenas

An arena is a sequence whose entries are linked both ways and live in numbered slots. A handle
names the slot of its entry and the generation that the slot had when it was filled. Freeing a
slot starts its next generation, so that old handles to it no longer fit. Freed slots are filled
again before new ones are made, the last freed first.

Every operation that follows a handle checks it first; `insert` and `erase` relink the neighbours
through such checks too.
-/

namespace Asm6502

/-- A reference to an entry. -/
structure Handle where
  slot : Nat
  generation : UInt32
  deriving DecidableEq, Repr

namespace Arena

structure Entry (α : Type) where
  value : α
  next : Option Handle
  previous : Option Handle
  deriving DecidableEq, Repr

structure Slot (α : Type) where
  generation : UInt32
  entry : Option (Entry α)
  deriving DecidableEq, Repr

/-- A slot without its entry. Only an occupied slot changes its generation. -/
def Slot.freed {α : Type} (s : Slot α) : Slot α :=
  if s.entry.isSome then ⟨s.generation + 1, none⟩ else s

end Arena

structure Arena (α : Type) where
  slots : Array (Arena.Slot α) := #[]
  /-- The free slots, the last freed first. -/
  vacant : List Nat := []
  head : Option Handle := none
  tail : Option Handle := none
  size : Nat := 0
  deriving DecidableEq, Repr

namespace Arena

variable {α : Type}

instance : EmptyCollection (Arena α) := ⟨{}⟩

def isEmpty (a : Arena α) : Bool := a.size == 0

/-! ## Looking up -/

def entry? (a : Arena α) (h : Handle) : Option (Entry α) :=
  (a.slots[h.slot]?.filter (·.generation = h.generation)).bind (·.entry)

def contains (a : Arena α) (h : Handle) : Bool := (a.entry? h).isSome

def value? (a : Arena α) (h : Handle) : Option α := (a.entry? h).map (·.value)

def next? (a : Arena α) (h : Handle) : Option Handle := (a.entry? h).bind (·.next)

def previous? (a : Arena α) (h : Handle) : Option Handle := (a.entry? h).bind (·.previous)

/-- The handle that lies `n` steps after another. -/
def stepsAfter (a : Arena α) : Nat → Option Handle → Option Handle
  | 0, h => h
  | n + 1, h => a.stepsAfter n (h.bind a.next?)

/-- The handle of the entry at `index`, counted from the head. -/
def handleAt (a : Arena α) (index : Nat) : Except Error Handle :=
  match if index < a.size then a.stepsAfter index a.head else none with
  | some h => .ok h
  | none => .error (.ofCause (.indexOutOfRange index))

/-! ## Changing entries -/

/-- The arena with the entry of `h` changed. -/
def modify (f : Entry α → Entry α) (h : Handle) (a : Arena α) : Attempt Unit (Arena α) :=
  if a.contains h then
    (.ok (), { a with slots := a.slots.modify h.slot fun s => { s with entry := s.entry.map f } })
  else (.error (.ofCause (.invalidEntry h.slot)), a)

/-- Replaces the value of an entry and gives the old one. -/
def replace (h : Handle) (v : α) (a : Arena α) : Option α × Arena α :=
  (a.value? h, (a.modify (fun e => { e with value := v }) h).2)

/-- Makes `target` the successor of `h`; what comes after nothing is the head. -/
def setNext (h target : Option Handle) (a : Arena α) : Attempt Unit (Arena α) :=
  match h with
  | some h => a.modify (fun e => { e with next := target }) h
  | none => (.ok (), { a with head := target })

/-- Makes `target` the predecessor of `h`; what comes before nothing is the tail. -/
def setPrevious (h target : Option Handle) (a : Arena α) : Attempt Unit (Arena α) :=
  match h with
  | some h => a.modify (fun e => { e with previous := target }) h
  | none => (.ok (), { a with tail := target })

/-! ## Inserting and erasing -/

/-- Fills a free slot, or a new one of generation zero. -/
def allocate (e : Entry α) (a : Arena α) : Handle × Arena α :=
  match a.vacant with
  | [] => (⟨a.slots.size, 0⟩, { a with slots := a.slots.push ⟨0, some e⟩ })
  | i :: vacant =>
    let generation := a.slots[i]?.elim 0 (·.generation)
    (⟨i, generation⟩, { a with slots := a.slots.setIfInBounds i ⟨generation, some e⟩, vacant })

/-- Adds an entry between two neighbours. -/
def insertBetween (previous next : Option Handle) (v : α) (a : Arena α) :
    Attempt Handle (Arena α) :=
  let (h, a) := a.allocate ⟨v, next, previous⟩
  match a.setNext previous (some h) with
  | (.error e, a) => (.error e, a)
  | (.ok (), a) =>
    match a.setPrevious next (some h) with
    | (.error e, a) => (.error e, a)
    | (.ok (), a) => (.ok h, { a with size := a.size + 1 })

/-- Adds an entry right after another, or at the head. -/
def insert (after : Option Handle) (v : α) (a : Arena α) : Attempt Handle (Arena α) :=
  match after with
  | none => a.insertBetween none a.head v
  | some h =>
    match a.entry? h with
    | none => (.error (.ofCause (.invalidEntry h.slot)), a)
    | some e => a.insertBetween (some h) e.next v

/-- Adds an entry after the tail. -/
def push (v : α) (a : Arena α) : Attempt Handle (Arena α) := a.insert a.tail v

/-- Takes an entry out of its slot and leaves the links to it. -/
def free (slot : Nat) (a : Arena α) : Arena α :=
  { a with slots := a.slots.modify slot Slot.freed, vacant := slot :: a.vacant }

/-- Removes an entry and gives its value. -/
def erase (h : Handle) (a : Arena α) : Attempt α (Arena α) :=
  if a.size = 0 then (.error (.ofCause .emptyList), a)
  else
    match a.entry? h with
    | none => (.error (.ofCause (.invalidEntry h.slot)), a)
    | some entry =>
      match (a.free h.slot).setNext entry.previous entry.next with
      | (.error e, a) => (.error e, a)
      | (.ok (), a) =>
        match a.setPrevious entry.next entry.previous with
        | (.error e, a) => (.error e, a)
        | (.ok (), a) => (.ok entry.value, { a with size := a.size - 1 })

/-- The slots that hold an entry, in ascending order. -/
def occupied (a : Arena α) : List Nat :=
  (List.range a.slots.size).filter fun i => (a.slots[i]?.bind (·.entry)).isSome

/-- Removes all entries, slot by slot in ascending order. -/
def clear (a : Arena α) : Arena α :=
  { slots := a.slots.map Slot.freed, vacant := a.occupied.reverse ++ a.vacant }

/-- An arena that holds the given values in order. -/
def ofList (vs : List α) : Arena α := vs.foldl (fun a v => (a.push v).2) ∅

/-! ## Iterating -/

/-- A walk over an arena from both ends; `remaining` keeps the ends from crossing. -/
structure Iter (α : Type) where
  arena : Arena α
  front : Option Handle
  back : Option Handle
  remaining : Nat

def iter (a : Arena α) : Iter α := ⟨a, a.head, a.tail, a.size⟩

namespace Iter

/-- The next value from the front. -/
def next (it : Iter α) : Option α × Iter α :=
  match it.remaining, it.front.bind it.arena.entry? with
  | n + 1, some e => (some e.value, { it with front := e.next, remaining := n })
  | _, _ => (none, it)

/-- The next value from the back. -/
def nextBack (it : Iter α) : Option α × Iter α :=
  match it.remaining, it.back.bind it.arena.entry? with
  | n + 1, some e => (some e.value, { it with back := e.previous, remaining := n })
  | _, _ => (none, it)

/-- At most `n` values, taken by `step`. -/
def collect (step : Iter α → Option α × Iter α) : Nat → Iter α → List α
  | 0, _ => []
  | n + 1, it =>
    match step it with
    | (some v, it) => v :: collect step n it
    | (none, _) => []

end Iter

/-- The values from head to tail. -/
def toList (a : Arena α) : List α := a.iter.collect Iter.next a.size

/-- The values from tail to head. -/
def toListReversed (a : Arena α) : List α := a.iter.collect Iter.nextBack a.size

end Arena

end Asm6502
