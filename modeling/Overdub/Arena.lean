import Overdub.Key
/-!
# Storage under generation-checked keys

An `Arena` stores values in slots. Removing a value raises the generation of its
slot, so the removed key never resolves again. Vacant slots are reused last in,
first out. One arena can follow another by storing values under the keys the
other one issued.
-/

namespace Overdub

/-- A place for one value. A vacant slot shows the generation its next value
will get. -/
structure Slot (α : Type) where
  generation : UInt32
  value : Option α

/-- Values under keys of one kind. -/
structure Arena (kind : ObjectKind) (α : Type) where
  slots : List (Slot α) := []
  /-- The vacant slots, the next one to be used first. -/
  free : List Nat := []
  /-- The number of values. -/
  size : Nat := 0

namespace Arena

variable {kind : ObjectKind} {α β : Type}

def empty : Arena kind α := {}

instance : Inhabited (Arena kind α) := ⟨empty⟩

/-- The value in a slot, if the slot is of the given generation. -/
def Slot.valueAt (generation : UInt32) (s : Slot α) : Option α :=
  if s.generation = generation then s.value else none

def get? (a : Arena kind α) (k : Key kind) : Option α := a.slots[k.index]?.bind (Slot.valueAt k.generation)

/-- The key leads to a value. -/
def contains (a : Arena kind α) (k : Key kind) : Bool := (a.get? k).isSome

/-- Stores a value under a fresh key. -/
def insert (a : Arena kind α) (value : α) : Key kind × Arena kind α :=
  match a.free with
  | index :: free =>
    let generation := (a.slots[index]?.map (·.generation)).getD 0
    (⟨index, generation⟩,
      { slots := a.slots.set index ⟨generation, some value⟩, free, size := a.size + 1 })
  | [] =>
    (⟨a.slots.length, 0⟩, { a with slots := a.slots ++ [⟨0, some value⟩], size := a.size + 1 })

/-- Adds vacant slots up to and including the given index. -/
def grow (a : Arena kind α) (index : Nat) : Arena kind α :=
  let missing := index + 1 - a.slots.length
  { a with
    slots := a.slots ++ List.replicate missing ⟨0, none⟩
    free := ((List.range missing).map (a.slots.length + ·)).reverse ++ a.free }

/-- Stores a value under a key issued elsewhere and hands out the value that was
in its slot, of whatever generation. -/
def insertAt (a : Arena kind α) (k : Key kind) (value : α) : Option α × Arena kind α :=
  let a := a.grow k.index
  let slots := a.slots.set k.index ⟨k.generation, some value⟩
  match a.slots[k.index]?.bind (·.value) with
  | some old => (some old, { a with slots })
  | none => (none, { slots, free := a.free.erase k.index, size := a.size + 1 })

/-- Removes the value under a key and hands it out. -/
def remove (a : Arena kind α) (k : Key kind) : Option α × Arena kind α :=
  match a.get? k with
  | none => (none, a)
  | some value =>
    let slots := a.slots.set k.index ⟨k.generation + 1, none⟩
    (some value, { slots, free := k.index :: a.free, size := a.size - 1 })

def erase (a : Arena kind α) (k : Key kind) : Arena kind α := (a.remove k).2

/-- Changes the value under a key, if there is one. -/
def modify (a : Arena kind α) (k : Key kind) (f : α → α) : Arena kind α :=
  match a.get? k with
  | none => a
  | some value => { a with slots := a.slots.set k.index ⟨k.generation, some (f value)⟩ }

/-- Replaces the value under a key, if there is one. -/
def set (a : Arena kind α) (k : Key kind) (value : α) : Arena kind α := a.modify k fun _ => value

/-- Changes two values at once and hands out the new ones. Two keys of one slot
reach only the first value. -/
def modify₂ (a : Arena kind α) (k₁ k₂ : Key kind) (f₁ f₂ : α → α) : (Option α × Option α) × Arena kind α :=
  let first := a.modify k₁ f₁
  if k₁.index = k₂.index then ((first.get? k₁, none), first)
  else
    let second := first.modify k₂ f₂
    ((second.get? k₁, second.get? k₂), second)

/-- The values with their keys, in the order of the slots. -/
def toList (a : Arena kind α) : List (Key kind × α) :=
  a.slots.zipIdx.filterMap fun (slot, index) => slot.value.map fun value => (⟨index, slot.generation⟩, value)

/-- The keys, in the order of the slots. -/
def keys (a : Arena kind α) : List (Key kind) := a.toList.map (·.1)

def map (a : Arena kind α) (f : α → β) : Arena kind β :=
  { slots := a.slots.map fun slot => ⟨slot.generation, slot.value.map f⟩, free := a.free, size := a.size }

end Arena

end Overdub
