import Overdub.Audio.Channel
import Overdub.Key
import Overdub.Midi.Channel
/-!
# Channels in a loop

A `LoopChannel` is an audio or MIDI channel together with the ports it records
from and plays into.
-/

namespace Overdub

/-- A channel of either kind. -/
inductive ChannelBody where
  | audio (channel : Audio.Channel)
  | midi (channel : Midi.Channel)

namespace ChannelBody

def track : ChannelBody → Track
  | .audio c => c.track
  | .midi c => c.track

def status : ChannelBody → ChannelStatus
  | .audio c => c.status
  | .midi c => c.status

def dataType : ChannelBody → DataType
  | .audio _ => .audio
  | .midi _ => .midi

def modifyTrack (f : Track → Track) : ChannelBody → ChannelBody
  | .audio c => .audio (c.modifyTrack f)
  | .midi c => .midi (c.modifyTrack f)

def setDataLength (length : Nat) : ChannelBody → ChannelBody
  | .audio c => .audio (c.setDataLength length)
  | .midi c => .midi (c.setDataLength length)

/-- Changes what control threads see. -/
def modifyStatus (f : ChannelStatus → ChannelStatus) : ChannelBody → ChannelBody
  | .audio c => .audio { c with status := f c.status }
  | .midi c => .midi { c with status := f c.status }

def prepare (frames : Nat) (hasInput hasOutput : Bool) : ChannelBody → ChannelBody
  | .audio c => .audio (c.prepare frames hasInput hasOutput)
  | .midi c => .midi (c.prepare frames hasInput hasOutput)

/-- Decides what to do with the next chunk of the cycle. -/
def process (context : ChunkContext) : ChannelBody → ChannelBody × Except Error Unit
  | .audio c => let (c, result) := c.process context; (.audio c, result)
  | .midi c => let (c, result) := c.process context; (.midi c, result)

/-- Drops the content, which leaves `length` silent frames. -/
def clear (length : Nat) (pool : Audio.Pool) : ChannelBody → ChannelBody × Audio.Pool
  | .audio c => let (c, pool) := c.clear length pool; (.audio c, pool)
  | .midi c => (.midi (c.clear length), pool)

end ChannelBody

/-- A channel and its connections. -/
structure LoopChannel where
  key : ChannelKey
  /-- The port recorded from. -/
  input : Option PortKey := none
  /-- The port played into. -/
  output : Option PortKey := none
  body : ChannelBody

namespace LoopChannel

/-- Begins a cycle in which the ports that are `live` take part. -/
def prepare (c : LoopChannel) (frames : Nat) (live : PortKey → Bool) : LoopChannel :=
  { c with body := c.body.prepare frames (c.input.any live) (c.output.any live) }

/-- The earliest frame at which any of some channels needs its loop to stop. -/
def nextPoi (channels : List LoopChannel) (q : PoiQuery) : Option Nat :=
  channels.foldl (fun poi c => minOffset poi (c.body.track.nextPoi q)) none

/-- Lets every channel decide what to do with the next chunk. The last error is
the one reported. -/
def processAll (context : ChunkContext) : List LoopChannel → List LoopChannel × Except Error Unit
  | [] => ([], .ok ())
  | c :: rest =>
    let (body, first) := c.body.process context
    let (rest, later) := processAll context rest
    ({ c with body } :: rest, later.bind fun _ => first)

end LoopChannel

end Overdub
