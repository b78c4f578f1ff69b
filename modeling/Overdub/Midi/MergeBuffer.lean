import Overdub.Midi.Message
/-!
# Merging messages of several sources

Several sources write into one `MergeBuffer` in whatever order they run. Sorting
then orders everything by time, equal times in the order they were written, and
only a sorted buffer may be read. The sort merges the ordered runs that the
sources left behind, pair by pair, until one is left.
-/

namespace Overdub.Midi

/-- Splits a list where the key falls, so that each part is in order. -/
def orderedRuns {α : Type} (key : α → Nat) : List α → List (List α)
  | [] => []
  | x :: rest =>
    match orderedRuns key rest with
    | (y :: run) :: runs => if key y < key x then [x] :: (y :: run) :: runs else (x :: y :: run) :: runs
    | runs => [x] :: runs

/-- Merges two ordered lists. Equal keys are taken from the left. -/
def mergeOrdered {α : Type} (key : α → Nat) : List α → List α → List α
  | [], right => right
  | left, [] => left
  | x :: left, y :: right =>
    if key y < key x then y :: mergeOrdered key (x :: left) right
    else x :: mergeOrdered key left (y :: right)

/-- Merges neighbouring runs in pairs. -/
def mergePairs {α : Type} (key : α → Nat) : List (List α) → List (List α)
  | first :: second :: rest => mergeOrdered key first second :: mergePairs key rest
  | runs => runs

theorem length_mergePairs_le {α : Type} (key : α → Nat) :
    (runs : List (List α)) → (mergePairs key runs).length ≤ runs.length
  | [] | [_] => by simp [mergePairs]
  | _ :: _ :: rest => by have := length_mergePairs_le key rest; simp [mergePairs]; omega

/-- Merges runs until one is left. -/
def mergeRuns {α : Type} (key : α → Nat) : List (List α) → List α
  | [] => []
  | [run] => run
  | first :: second :: rest => mergeRuns key (mergePairs key (first :: second :: rest))
termination_by runs => runs.length
decreasing_by have := length_mergePairs_le key rest; simp [mergePairs]; omega

/-- Messages of one cycle, in the order written until they are sorted. -/
structure MergeBuffer where
  capacity : Nat
  entries : List Message
  sorted : Bool
  deriving DecidableEq

namespace MergeBuffer

/-- No messages, and room for `capacity`. An empty buffer is in order. -/
def empty (capacity : Nat) : MergeBuffer := ⟨capacity, [], true⟩

def size (b : MergeBuffer) : Nat := b.entries.length

/-- Adds a message, refused when the buffer is full. -/
def write (b : MergeBuffer) (m : Message) : Except Error MergeBuffer :=
  if b.entries.length = b.capacity then .error (.mergeBufferFull b.capacity)
  else .ok { b with entries := b.entries ++ [m], sorted := false }

/-- Orders the messages by time. -/
def sort (b : MergeBuffer) : MergeBuffer :=
  let key (m : Message) := m.time.toNat
  { b with entries := mergeRuns key (orderedRuns key b.entries), sorted := true }

/-- The messages in time order, refused when some were written since the last
sort. -/
def messages (b : MergeBuffer) : Except Error (List Message) :=
  if b.sorted then .ok b.entries else .error .notSorted

/-- Drops all messages and keeps the room. -/
def clear (b : MergeBuffer) : MergeBuffer := empty b.capacity

end MergeBuffer

end Overdub.Midi
