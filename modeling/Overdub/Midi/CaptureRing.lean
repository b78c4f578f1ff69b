import Overdub.Midi.Storage
import Overdub.Midi.Tracker
/-!
# The MIDI input of the last few samples

A `CaptureRing` keeps the messages of the last `depth` samples. Each message is
stored with its time on a free-running 32-bit sample count that starts over
after about a day, so every comparison is of an age: the distance, modulo
`2 ^ 32`, from the message to the end of the current cycle. A `Capture` adds the
state of all that has left the ring.
-/

namespace Overdub.Midi

/-- The messages of the last `depth` samples, at most `capacity` of them. -/
structure CaptureRing where
  /-- Oldest first, with their time on the sample count. -/
  events : List Message
  capacity : Nat
  depth : UInt32
  /-- The sample count at the start of the current cycle. -/
  start : UInt32
  /-- The length of the current cycle. -/
  length : UInt32
  deriving DecidableEq

namespace CaptureRing

/-- A ring without messages, before its first cycle. -/
def empty (depth : UInt32) (capacity : Nat) : CaptureRing := ⟨[], capacity, depth, 0, 0⟩

/-- Another depth, which counts from the next cycle on. -/
def setDepth (r : CaptureRing) (depth : UInt32) : CaptureRing := { r with depth }

def size (r : CaptureRing) : Nat := r.events.length

/-- The sample count one past the end of the current cycle. -/
def stop (r : CaptureRing) : UInt32 := r.start + r.length

/-- How long ago a message was captured, counted from the end of the current
cycle. -/
def age (r : CaptureRing) (m : Message) : UInt32 := r.stop - m.time

/-- Begins a cycle of `frames` frames. The messages at the front that are older
than the depth leave the ring and are handed out, oldest first. -/
def nextCycle (r : CaptureRing) (frames : UInt32) : CaptureRing × List Message :=
  let r := { r with start := r.stop, length := frames }
  let tooOld (m : Message) : Bool := r.depth < r.age m
  ({ r with events := r.events.dropWhile tooOld }, r.events.takeWhile tooOld)

/-- Stores a message captured at a frame of the current cycle. A full ring gives
up its oldest message for it. -/
def put (r : CaptureRing) (m : Message) : CaptureRing × Option Message :=
  let full := r.capacity ≤ r.events.length
  let kept := if full then r.events.tail else r.events
  let evicted := if full then r.events.head? else none
  let stored := if r.capacity = 0 then kept else kept ++ [m.withTime (r.start + m.time)]
  ({ r with events := stored }, evicted)

/-- The messages inside the window, with times counted from its start, which lies
`depth` samples before the end of the current cycle. -/
def window (r : CaptureRing) : List Message :=
  (r.events.filter fun m => r.age m ≤ r.depth).map fun m => m.withTime (m.time - (r.stop - r.depth))

/-- The window as a storage of the given room. The messages in front of one that
is refused stay in it. -/
def snapshot (r : CaptureRing) (capacity : Nat) : Storage × Except Error Unit :=
  (Storage.empty capacity).appendAll r.window

def clear (r : CaptureRing) : CaptureRing := { r with events := [] }

end CaptureRing

/-- A ring together with the state of all that has left it, so that nothing that
was ever captured is without effect. -/
structure Capture where
  ring : CaptureRing
  tail : Tracker

namespace Capture

def empty (depth : UInt32) (capacity : Nat) : Capture := ⟨.empty depth capacity, .fresh⟩

def nextCycle (c : Capture) (frames : UInt32) : Capture :=
  let (ring, dropped) := c.ring.nextCycle frames
  ⟨ring, dropped.foldl Tracker.feedMessage c.tail⟩

/-- Captures a message at a frame of the current cycle. -/
def put (c : Capture) (m : Message) : Capture :=
  let (ring, evicted) := c.ring.put m
  ⟨ring, evicted.elim c.tail c.tail.feedMessage⟩

end Capture

end Overdub.Midi
