import Overdub.Midi.CaptureRing
import Overdub.Midi.MergeBuffer
import Overdub.Midi.Outbox
import Overdub.Mode
import Overdub.Port.Status
/-!
# MIDI ports

All that produces messages for a port writes them in whatever order it runs. At
the end of the cycle they are sorted once, and an input port follows them with
its trackers: the input state has seen every message, the tail of the capture
those that the ring has already given up.
-/

namespace Overdub.Midi

/-- A MIDI port with the messages of the current cycle. -/
structure Port where
  direction : Direction
  muted : Bool := false
  /-- What was written so far. -/
  merge : MergeBuffer
  /-- What channels play, which is written last. -/
  pending : Outbox
  /-- The messages of the cycle in time order, known at its end. -/
  messages : List Message := []
  capture : Capture
  inputState : Tracker := .fresh
  status : PortStatus := {}

namespace Port

/-- A port for `mergeCapacity` messages a cycle, which can capture
`ringCapacity`. -/
def new (direction : Direction) (mergeCapacity ringCapacity : Nat) : Port :=
  { direction
    merge := .empty mergeCapacity
    pending := { capacity := mergeCapacity }
    capture := .empty 0 ringCapacity }

/-- Shows the settings to control threads. -/
def publish (p : Port) : Port := { p with status := p.status.publish 1 p.muted p.capture.ring.depth.toNat }

def setMuted (p : Port) (muted : Bool) : Port := { p with muted }.publish

/-- Changes for how many frames input is kept. -/
def setCaptured (p : Port) (frames : UInt32) : Port :=
  { p with capture := { p.capture with ring := p.capture.ring.setDepth frames } }.publish

/-- Begins a cycle without messages. -/
def prepare (p : Port) (frames : Nat) : Port :=
  { p with
    merge := p.merge.clear
    pending := { p.pending with messages := [] }
    messages := []
    capture := p.capture.nextCycle (.ofNat frames) }

/-- Writes a message of the cycle; it is lost when there is no room. -/
def write (p : Port) (m : Message) : Port := { p with merge := (p.merge.write m).toOption.getD p.merge }

/-- Writes several messages in turn. -/
def writeAll (p : Port) (messages : List Message) : Port := messages.foldl write p

/-- What an input port does with one message of the cycle. -/
def hear (p : Port) (m : Message) : Port :=
  { p with inputState := p.inputState.feedMessage m, capture := p.capture.put m }

/-- Ends the cycle: sorts what was written, of which a muted port lets nothing
pass. What an earlier end of the same cycle has let pass comes first and counts
again. -/
def finish (p : Port) : Port :=
  let p := p.writeAll p.pending.messages
  let merge := p.merge.sort
  let messages := p.messages ++ if p.muted then [] else merge.entries
  let p := { p with merge, messages, pending := { p.pending with messages := [] } }
  match p.direction with
  | .input => { messages.foldl hear p with status := p.status.countEvents messages.length 0 }
  | .output => { p with status := p.status.countEvents 0 messages.length }

end Port

end Overdub.Midi
