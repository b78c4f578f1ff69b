import Overdub.Arena
/-!
# Vacant slots in a chain

An `Arena` lists its vacant slots. In a `LinkedArena` they are a chain: the arena
knows the first of them and each shows the next one, so that there is nothing
beside the slots that has to grow. A slot that is stored into by a key from
elsewhere is taken out of the chain wherever it is.

An operation that follows the chain has no result where the chain leads to a slot
that is taken or that does not exist, or goes round in a circle.
-/

namespace Overdub

/-- A place for one value, or a vacant place with the next one of the chain. -/
inductive LinkedSlot (α : Type) where
  | taken (generation : UInt32) (value : α)
  | vacant (generation : UInt32) (next : Option Nat)

namespace LinkedSlot

variable {α β : Type}

def next? : LinkedSlot α → Option Nat
  | taken .. => none
  | vacant _ next => next

def isTaken : LinkedSlot α → Bool
  | taken .. => true
  | vacant .. => false

/-- The value in a slot, if the slot is of the given generation. -/
def valueAt (generation : UInt32) : LinkedSlot α → Option α
  | taken own value => if own = generation then some value else none
  | vacant .. => none

/-- A vacant slot shows another one as the next. -/
def relink (next : Option Nat) : LinkedSlot α → LinkedSlot α
  | taken generation value => taken generation value
  | vacant generation _ => vacant generation next

def map (f : α → β) : LinkedSlot α → LinkedSlot β
  | taken generation value => taken generation (f value)
  | vacant generation next => vacant generation next

end LinkedSlot

/-- Values under keys of one kind, with the vacant slots in a chain. -/
structure LinkedArena (kind : ObjectKind) (α : Type) where
  slots : List (LinkedSlot α) := []
  /-- The first vacant slot, the one to be used next. -/
  first : Option Nat := none
  /-- The number of values. -/
  size : Nat := 0

namespace LinkedArena

variable {kind : ObjectKind} {α β : Type}

def empty : LinkedArena kind α := {}

instance : Inhabited (LinkedArena kind α) := ⟨empty⟩

def get? (a : LinkedArena kind α) (k : Key kind) : Option α :=
  a.slots[k.index]?.bind (·.valueAt k.generation)

/-- The key leads to a value. -/
def contains (a : LinkedArena kind α) (k : Key kind) : Bool := (a.get? k).isSome

/-- Stores a value under a fresh key. A key names its slot by 32 bits. -/
def insert (a : LinkedArena kind α) (value : α) : Option (Key kind × LinkedArena kind α) :=
  match a.first with
  | some index =>
    match a.slots[index]? with
    | some (.vacant generation next) =>
      some (⟨index, generation⟩,
        { slots := a.slots.set index (.taken generation value), first := next, size := a.size + 1 })
    | _ => none
  | none =>
    some (⟨a.slots.length % UInt32.size, 0⟩,
      { a with slots := a.slots ++ [.taken 0 value], size := a.size + 1 })

/-- Adds vacant slots one by one, each in front of the chain. -/
def extend (a : LinkedArena kind α) : Nat → LinkedArena kind α
  | 0 => a
  | n + 1 => extend { a with slots := a.slots ++ [.vacant 0 a.first], first := some a.slots.length } n

/-- Adds vacant slots up to and including the given index. -/
def grow (a : LinkedArena kind α) (index : Nat) : LinkedArena kind α := a.extend (index + 1 - a.slots.length)

/-- Leads the chain on to `next` behind a slot, or from the start. -/
def bypass (a : LinkedArena kind α) (before next : Option Nat) : LinkedArena kind α :=
  match before with
  | none => { a with first := next }
  | some index => { a with slots := a.slots.modify index (·.relink next) }

/-- Follows the chain to a slot and takes that out of it. `before` is the slot
last seen; a chain is no longer than there are slots. -/
def unlinkFrom (a : LinkedArena kind α) (index : Nat) : Nat → Option Nat → Option Nat → Option (LinkedArena kind α)
  | _, _, none => some a
  | 0, _, some _ => none
  | left + 1, before, some current =>
    a.slots[current]?.bind fun s =>
      if current = index then some (a.bypass before s.next?) else a.unlinkFrom index left (some current) s.next?

/-- Takes a slot out of the chain. -/
def unlink (a : LinkedArena kind α) (index : Nat) : Option (LinkedArena kind α) :=
  a.unlinkFrom index a.slots.length none a.first

/-- Stores a value under a key issued elsewhere and hands out the value that was
in its slot, of whatever generation. -/
def insertAt (a : LinkedArena kind α) (k : Key kind) (value : α) : Option (Option α × LinkedArena kind α) :=
  let a := a.grow k.index
  let store (a : LinkedArena kind α) := { a with slots := a.slots.set k.index (.taken k.generation value) }
  match a.slots[k.index]? with
  | some (.taken _ old) => some (some old, store a)
  | _ => (a.unlink k.index).map fun a => (none, { store a with size := a.size + 1 })

/-- Removes the value under a key and hands it out. -/
def remove (a : LinkedArena kind α) (k : Key kind) : Option α × LinkedArena kind α :=
  match a.get? k with
  | none => (none, a)
  | some value =>
    let slots := a.slots.set k.index (.vacant (k.generation + 1) a.first)
    (some value, { slots, first := some k.index, size := a.size - 1 })

/-- Changes the value under a key, if there is one. -/
def modify (a : LinkedArena kind α) (k : Key kind) (f : α → α) : LinkedArena kind α :=
  match a.get? k with
  | none => a
  | some value => { a with slots := a.slots.set k.index (.taken k.generation (f value)) }

/-- Changes two values at once and hands out the new ones. Two keys of one slot
reach only the first value. -/
def modify₂ (a : LinkedArena kind α) (k₁ k₂ : Key kind) (f₁ f₂ : α → α) :
    (Option α × Option α) × LinkedArena kind α :=
  let first := a.modify k₁ f₁
  if k₁.index = k₂.index then ((first.get? k₁, none), first)
  else
    let second := first.modify k₂ f₂
    ((second.get? k₁, second.get? k₂), second)

/-- The values with their keys, in the order of the slots. -/
def toList (a : LinkedArena kind α) : List (Key kind × α) :=
  a.slots.zipIdx.filterMap fun (s, index) => match s with
    | .taken generation value => some (⟨index, generation⟩, value)
    | .vacant .. => none

/-- The keys, in the order of the slots. -/
def keys (a : LinkedArena kind α) : List (Key kind) := a.toList.map (·.1)

def map (a : LinkedArena kind α) (f : α → β) : LinkedArena kind β :=
  { slots := a.slots.map (·.map f), first := a.first, size := a.size }

end LinkedArena

end Overdub
