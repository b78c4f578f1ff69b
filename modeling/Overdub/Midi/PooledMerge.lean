import Overdub.Midi.MergeBuffer
/-!
# Merging in reserved room

A `MergeBuffer` holds its messages in one list. A `PooledMerge` holds an entry for
each of them, either the message itself, which belongs to someone else, or a place in
a pool that it was copied to. Sorting moves the entries only: it notes where the
ordered runs start, and merges neighbouring runs from one list into another, which
then change places, until one run is left. All lists get their room at the start.

An operation has no result where it would read at an index that does not exist.
-/

namespace Overdub.Midi

/-- A growing list, with the room it has reserved. -/
structure Shelf (α : Type) where
  items : List α
  room : Nat

namespace Shelf

variable {α : Type}

/-- Nothing, and room for `room` items. -/
def withRoom (room : Nat) : Shelf α := ⟨[], room⟩

/-- Puts items behind the others. What does not fit makes the room at least twice as
large, and never less than four. -/
def extend (s : Shelf α) (more : List α) : Shelf α :=
  let needed := s.items.length + more.length
  ⟨s.items ++ more, if needed ≤ s.room then s.room else max (max (2 * s.room) needed) 4⟩

def push (s : Shelf α) (x : α) : Shelf α := s.extend [x]

/-- Drops all items and keeps the room. -/
def clear (s : Shelf α) : Shelf α := { s with items := [] }

/-- Overwrites an item that is there. -/
def set? (s : Shelf α) (i : Nat) (x : α) : Option (Shelf α) :=
  if i < s.items.length then some { s with items := s.items.set i x } else none

end Shelf

/-- The items from index `start` up to `stop`. -/
def slice? {α : Type} (l : List α) (start stop : Nat) : Option (List α) :=
  if start ≤ stop ∧ stop ≤ l.length then some ((l.drop start).take (stop - start)) else none

/-- A message of a buffer. -/
inductive MergeEntry where
  /-- A place in the pool. -/
  | owned (index : Nat)
  | borrowed (m : Message)

def MergeEntry.message? (pool : List Message) : MergeEntry → Option Message
  | owned index => pool[index]?
  | borrowed m => some m

/-- Messages of one cycle, copied or borrowed. -/
structure PooledMerge where
  pool : Shelf Message
  entries : Shelf MergeEntry
  /-- Where entries are merged into. It changes places with `entries` after each pass. -/
  scratch : Shelf MergeEntry
  /-- Where the ordered runs of the entries start. -/
  runs : Shelf Nat
  sorted : Bool

namespace PooledMerge

/-- No messages, and room for `capacity`. An empty buffer is in order. -/
def withRoom (capacity : Nat) : PooledMerge :=
  ⟨.withRoom capacity, .withRoom capacity, .withRoom capacity, .withRoom capacity, true⟩

def capacity (b : PooledMerge) : Nat := b.entries.room

def size (b : PooledMerge) : Nat := b.entries.items.length

/-- Copies a message into the buffer. -/
def writeValue (b : PooledMerge) (m : Message) : PooledMerge × Except Error Unit :=
  if b.pool.items.length = b.pool.room ∨ b.entries.items.length = b.entries.room then
    (b, .error (.mergeBufferFull b.entries.room))
  else
    let pool := b.pool.push m
    ({ b with pool, entries := b.entries.push (.owned (pool.items.length - 1)), sorted := false }, .ok ())

/-- Borrows a message. -/
def writeRef (b : PooledMerge) (m : Message) : PooledMerge × Except Error Unit :=
  if b.entries.items.length = b.entries.room then (b, .error (.mergeBufferFull b.entries.room))
  else ({ b with entries := b.entries.push (.borrowed m), sorted := false }, .ok ())

/-! ## Sorting -/

section Sorting
variable (pool : List Message)

/-- The time of the entry at an index. -/
def timeAt (entries : List MergeEntry) (i : Nat) : Option UInt32 :=
  entries[i]?.bind fun e => (e.message? pool).map (·.time)

/-- Notes each of the next entries that is older than the one in front of it. -/
def markRuns (entries : List MergeEntry) (runs : Shelf Nat) (i : Nat) : Nat → Option (Shelf Nat)
  | 0 => some runs
  | left + 1 =>
    (timeAt pool entries (i - 1)).bind fun before => (timeAt pool entries i).bind fun time =>
      markRuns entries (if time < before then runs.push i else runs) (i + 1) left

/-- Merges the entries `i` to `mid` with the entries `j` to `stop`. Equal times are
taken from the left. -/
def mergeRange (entries : List MergeEntry) (i mid j stop : Nat) (out : Shelf MergeEntry) :
    Option (Shelf MergeEntry) :=
  if i < mid ∧ j < stop then
    (timeAt pool entries j).bind fun right => (timeAt pool entries i).bind fun left =>
      if right < left then
        entries[j]?.bind fun e => mergeRange entries i mid (j + 1) stop (out.push e)
      else entries[i]?.bind fun e => mergeRange entries (i + 1) mid j stop (out.push e)
  else
    (slice? entries i mid).bind fun lefts => (slice? entries j stop).map fun rights =>
      (out.extend lefts).extend rights
termination_by (mid - i) + (stop - j)

/-- Where a run starts. The first one that there is not starts where the entries end. -/
def startOf (entries : List MergeEntry) (runs : Shelf Nat) (count run : Nat) : Option Nat :=
  if run < count then runs.items[run]? else some entries.length

/-- Merges neighbouring runs in pairs, from run `r` of `count` on. The starts of the
`merged` new runs take the place of the old ones, which have been read by then. -/
def mergePass (entries : List MergeEntry) (count r merged : Nat) (runs : Shelf Nat) (out : Shelf MergeEntry) :
    Option (Nat × Shelf Nat × Shelf MergeEntry) :=
  if r < count then
    (startOf entries runs count r).bind fun start => (startOf entries runs count (r + 1)).bind fun mid =>
      (startOf entries runs count (r + 2)).bind fun stop => (runs.set? merged start).bind fun runs =>
        (mergeRange pool entries start mid mid stop out).bind fun out =>
          mergePass entries count (r + 2) (merged + 1) runs out
  else some (merged, runs, out)
termination_by count - r

/-- A pass leaves half as many runs, and the odd one. -/
theorem mergePass_count {entries : List MergeEntry} {count r merged : Nat} {runs : Shelf Nat} {out : Shelf MergeEntry}
    {result : Nat × Shelf Nat × Shelf MergeEntry} (h : mergePass pool entries count r merged runs out = some result) :
    result.1 = merged + (count - r + 1) / 2 := by
  fun_induction mergePass pool entries count r merged runs out with
  | case1 r merged runs out hlt ih =>
    obtain ⟨start, -, h⟩ := Option.bind_eq_some_iff.mp h
    obtain ⟨mid, -, h⟩ := Option.bind_eq_some_iff.mp h
    obtain ⟨stop, -, h⟩ := Option.bind_eq_some_iff.mp h
    obtain ⟨runs, -, h⟩ := Option.bind_eq_some_iff.mp h
    obtain ⟨out, -, h⟩ := Option.bind_eq_some_iff.mp h
    have hrest := ih _ _ h
    omega
  | case2 r merged runs out hge =>
    cases h
    dsimp only
    omega

/-- Merges in passes until one run is left. -/
def mergeRounds (count : Nat) (runs : Shelf Nat) (entries scratch : Shelf MergeEntry) :
    Option (Shelf Nat × Shelf MergeEntry × Shelf MergeEntry) :=
  if 1 < count then
    match _h : mergePass pool entries.items count 0 0 runs scratch.clear with
    | none => none
    | some (merged, runs, out) => mergeRounds merged runs out entries
  else some (runs, entries, scratch)
termination_by count
decreasing_by have := mergePass_count pool _h; omega

end Sorting

/-- Orders the messages by time, in the room that is there. -/
def sort (b : PooledMerge) : Option PooledMerge :=
  if b.entries.items.length < 2 then some { b with sorted := true }
  else
    (markRuns b.pool.items b.entries.items (b.runs.clear.push 0) 1 (b.entries.items.length - 1)).bind fun runs =>
      (mergeRounds b.pool.items runs.items.length runs b.entries b.scratch).map fun (runs, entries, scratch) =>
        { b with runs, entries, scratch, sorted := true }

/-- The messages in time order, refused when some were written since the last
sort. -/
def messages (b : PooledMerge) : Option (Except Error (List Message)) :=
  if b.sorted then (b.entries.items.mapM (MergeEntry.message? b.pool.items)).map .ok else some (.error .notSorted)

/-- Drops all messages and keeps the room. -/
def clear (b : PooledMerge) : PooledMerge :=
  { b with pool := b.pool.clear, entries := b.entries.clear, scratch := b.scratch.clear, sorted := true }

/-- Drops all messages and all that was borrowed, and keeps the room. -/
def recycle (b : PooledMerge) : PooledMerge :=
  ⟨b.pool.clear, b.entries.clear, b.scratch.clear, b.runs.clear, true⟩

end PooledMerge

end Overdub.Midi
