import Overdub.Audio.Sample
import Overdub.Loop.Transport
/-!
# What every channel keeps

A channel records and plays one stream of a loop. `Track` is the part of its
state that does not depend on whether the stream is audio or MIDI: the mode, the
extent of the recorded data and the progress through the current cycle.

`ChannelStatus` is what control threads see of a channel. It is brought up to
date at the end of a cycle and after each command that touches the channel, not
in between.
-/

namespace Overdub

/-- The part of a channel's state that all channels have. -/
structure Track where
  mode : ChannelMode
  /-- How many frames of data are recorded. -/
  dataLength : Nat := 0
  /-- Where in the data loop position zero lies. -/
  startOffset : Int := 0
  /-- How much of the data in front of the start may be played. -/
  prePlay : Nat := 0
  /-- The data position played last, if something is playing. -/
  playedBack : Option Nat := none
  /-- Counts the changes of the data. -/
  version : Nat := 0
  /-- How many frames have been kept aside, ahead of a recording. -/
  preRecordLength : Nat := 0
  /-- What the last chunk was for. -/
  lastActivity : Activity := {}
  cycleFrames : Nat := 0
  framesDone : Nat := 0
  /-- The port recorded from takes part in this cycle. -/
  hasInput : Bool := false
  /-- The port played into takes part in this cycle. -/
  hasOutput : Bool := false
  deriving DecidableEq, Repr

namespace Track

def prepare (t : Track) (frames : Nat) (hasInput hasOutput : Bool) : Track :=
  { t with cycleFrames := frames, framesDone := 0, hasInput, hasOutput }

/-- What is left of an activity with the ports of this cycle. -/
def permit (t : Track) (a : Activity) : Activity :=
  ⟨a.playback && t.hasOutput, a.record && t.hasInput, a.replace && t.hasInput, a.preRecord && t.hasInput⟩

def task (t : Track) (mode : LoopMode) (next : Upcoming) (position : Nat) : ChunkTask :=
  .of mode next position t.startOffset t.mode

/-- The frames after which the channel has used up the buffers of the cycle, if
it is using them. -/
def nextPoi (t : Track) (q : PoiQuery) : Option Nat :=
  if t.mode = .disabled then none
  else
    let a := t.permit (t.task q.mode q.next q.position).activity
    let remaining := t.cycleFrames - t.framesDone
    if (a.playback || a.record || a.preRecord) && 0 < remaining then some remaining else none

/-- A chunk of `n` frames goes past the end of the cycle. -/
def overruns (t : Track) (n : Nat) : Bool := t.cycleFrames < t.framesDone + n

/-- Ends a chunk of `n` frames. -/
def endChunk (t : Track) (a : Activity) (n : Nat) : Track :=
  { t with lastActivity := a, framesDone := t.framesDone + n }

/-- Data kept aside for a recording is at its end, because that recording begins
or because it does not come. -/
def endsPreRecord (t : Track) (a : Activity) : Bool := t.lastActivity.preRecord && !a.preRecord

/-- The recording begins with what was kept aside. -/
def promotePreRecord (t : Track) : Track :=
  { t with dataLength := t.preRecordLength, startOffset := t.preRecordLength, preRecordLength := 0 }

/-- What was kept aside is dropped. -/
def discardPreRecord (t : Track) : Track := { t with preRecordLength := 0 }

/-- The first data position that may be played. -/
def firstPlayable (t : Track) : Nat := (t.startOffset - t.prePlay).toNat

/-- The data position of the next recorded frame of a loop of the given length. -/
def recordFrom (t : Track) (loopLength : Nat) : Nat := (loopLength + t.startOffset).toNat

/-- Records `n` frames from a data position on. -/
def record (t : Track) (position n : Nat) : Track :=
  { t with dataLength := position + n, version := t.version + 1 }

/-- New content of the given extent. -/
def replaceData (t : Track) (length : Nat) (startOffset : Int) : Track :=
  { t with dataLength := length, startOffset, version := t.version + 1 }

end Track

/-- A channel's state as control threads see it. -/
structure ChannelStatus where
  mode : ChannelMode
  length : Nat := 0
  startOffset : Int := 0
  prePlay : Nat := 0
  playedBack : Option Nat := none
  version : Nat := 0
  /-- One for MIDI. -/
  gain : Audio.Sample := 1
  /-- The loudest sample played since the peak was last taken. -/
  peak : Audio.Sample := 0
  /-- The MIDI events played since their number was last taken. -/
  triggered : Nat := 0
  /-- The MIDI notes held at the output. -/
  notes : Nat := 0

namespace ChannelStatus

def publish (s : ChannelStatus) (t : Track) (gain : Audio.Sample) (notes : Nat) : ChannelStatus :=
  ⟨t.mode, t.dataLength, t.startOffset, t.prePlay, t.playedBack, t.version, gain, s.peak, s.triggered, notes⟩

def raisePeak (s : ChannelStatus) (peak : Audio.Sample) : ChannelStatus :=
  if s.peak < peak then { s with peak } else s

/-- Hands out the peak and starts over. -/
def takePeak (s : ChannelStatus) : Audio.Sample × ChannelStatus := (s.peak, { s with peak := 0 })

/-- Hands out the number of events played and starts over. -/
def takeTriggered (s : ChannelStatus) : Nat × ChannelStatus := (s.triggered, { s with triggered := 0 })

end ChannelStatus

end Overdub
