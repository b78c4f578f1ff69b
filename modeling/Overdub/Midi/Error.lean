/-!
# Why a MIDI container refuses an operation

Every container has a fixed size and keeps its events in time order. An
operation that would break either is refused with one of these causes, and
`Error.message` is the text shown for it.
-/

namespace Overdub.Midi

/-- The cause of a refused MIDI operation. -/
inductive Error where
  /-- A payload of `size` bytes where at most `max` fit. -/
  | messageTooLarge (size max : Nat)
  /-- A payload without a status byte. -/
  | emptyMessage
  /-- A storage that already holds as many events as it has room for. -/
  | storageFull (capacity : Nat)
  /-- An event older than the last one stored. -/
  | outOfOrder (time last : UInt32)
  /-- A merge buffer that already holds as many messages as it has room for. -/
  | mergeBufferFull (capacity : Nat)
  /-- A merge buffer read before it was sorted. -/
  | notSorted
  deriving DecidableEq, Repr

/-- The name of a cause. -/
def Error.kind : Error → String
  | .messageTooLarge .. => "MessageTooLarge"
  | .emptyMessage => "EmptyMessage"
  | .storageFull _ => "StorageFull"
  | .outOfOrder .. => "OutOfOrder"
  | .mergeBufferFull _ => "MergeBufferFull"
  | .notSorted => "NotSorted"

/-- The text shown for a cause. -/
def Error.message : Error → String
  | .messageTooLarge size max => s!"MIDI message of {size} bytes exceeds the inline limit of {max} bytes"
  | .emptyMessage => "Empty MIDI message"
  | .storageFull capacity => s!"MIDI storage is full ({capacity} events)"
  | .outOfOrder time last => s!"MIDI event at {time} is earlier than the last stored event at {last}"
  | .mergeBufferFull capacity => s!"MIDI merge buffer is full ({capacity} events)"
  | .notSorted => "MIDI merge buffer read before it was sorted"

end Overdub.Midi
