import Overdub.Midi.Message
/-!
# Stored MIDI events

A `Storage` keeps a bounded number of events in time order: events are appended
in order only and dropped from either end. A `Cursor` is a read position that
lives outside the storage, so that playing leaves the storage untouched.
-/

namespace Overdub.Midi

/-- At most `capacity` messages, in time order. -/
structure Storage where
  capacity : Nat
  events : List Message
  deriving DecidableEq

namespace Storage

/-- No events, and room for `capacity`. -/
def empty (capacity : Nat) : Storage := ⟨capacity, []⟩

def size (s : Storage) : Nat := s.events.length

def lastTime (s : Storage) : Option UInt32 := s.events.getLast?.map (·.time)

/-- Appends one event, refused when the storage is full or the event is older
than the last one. -/
def append (s : Storage) (m : Message) : Except Error Storage :=
  if s.events.length = s.capacity then .error (.storageFull s.capacity)
  else match s.lastTime with
    | some last =>
      if m.time < last then .error (.outOfOrder m.time last)
      else .ok { s with events := s.events ++ [m] }
    | none => .ok { s with events := s.events ++ [m] }

/-- Appends one event of raw bytes. -/
def appendBytes (s : Storage) (time : UInt32) (bytes : List UInt8) : Except Error Storage :=
  (Message.ofBytes time bytes).bind s.append

/-- Appends events in turn up to the first that is refused. The events in front
of it stay. -/
def appendAll (s : Storage) : List Message → Storage × Except Error Unit
  | [] => (s, .ok ())
  | m :: rest =>
    match s.append m with
    | .ok s => s.appendAll rest
    | .error e => (s, .error e)

/-- The same room without events. -/
def clear (s : Storage) : Storage := { s with events := [] }

/-- The index of the first event at or after `time`. -/
def firstIndexFrom (s : Storage) (time : UInt32) : Nat := (s.events.takeWhile (·.time < time)).length

/-- Drops every event at or after `time`. -/
def truncateFrom (s : Storage) (time : UInt32) : Storage :=
  { s with events := s.events.takeWhile (·.time < time) }

/-- Drops every event before `time` and hands them out. The times of the others
stay as they are. -/
def dropBefore (s : Storage) (time : UInt32) : Storage × List Message :=
  ({ s with events := s.events.dropWhile (·.time < time) }, s.events.takeWhile (·.time < time))

/-- Takes over the events of another storage, refused when they do not fit. -/
def copyFrom (s other : Storage) : Except Error Storage :=
  if s.capacity < other.events.length then .error (.storageFull s.capacity)
  else .ok { s with events := other.events }

end Storage

/-- A read position in a storage: the number of events already passed. It has to
be reset when the storage is cut short or replaced. -/
structure Cursor where
  index : Nat
  deriving DecidableEq, Repr

namespace Cursor

/-- In front of the first event. -/
def start : Cursor := ⟨0⟩

def peek (c : Cursor) (s : Storage) : Option Message := s.events[c.index]?

/-- Moves past the current event. -/
def advance (c : Cursor) (s : Storage) : Cursor := if c.index < s.events.length then ⟨c.index + 1⟩ else c

/-- Moves to the first event at or after `time`, never backwards, and hands out
the events passed over. -/
def seek (c : Cursor) (s : Storage) (time : UInt32) : Cursor × List Message :=
  let skipped := (s.events.drop c.index).takeWhile (·.time < time)
  (⟨c.index + skipped.length⟩, skipped)

end Cursor

end Overdub.Midi
