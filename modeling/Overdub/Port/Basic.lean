import Overdub.Audio.Port
import Overdub.Midi.Port
/-!
# Ports of either kind

A port is where data enters or leaves the engine: a port of the driver, or one
side of an effect chain.
-/

namespace Overdub

/-- A port of either kind. -/
inductive Port where
  | audio (port : Audio.Port)
  | midi (port : Midi.Port)

namespace Port

def audio? : Port → Option Audio.Port
  | .audio p => some p
  | .midi _ => none

def midi? : Port → Option Midi.Port
  | .audio _ => none
  | .midi p => some p

def dataType : Port → DataType
  | .audio _ => .audio
  | .midi _ => .midi

def direction : Port → Direction
  | .audio p => p.direction
  | .midi p => p.direction

def status : Port → PortStatus
  | .audio p => p.status
  | .midi p => p.status

/-- Changes what control threads see. -/
def modifyStatus (f : PortStatus → PortStatus) : Port → Port
  | .audio p => .audio { p with status := f p.status }
  | .midi p => .midi { p with status := f p.status }

/-- Changes an audio port and leaves a MIDI port alone. -/
def mapAudio (f : Audio.Port → Audio.Port) : Port → Port
  | .audio p => .audio (f p)
  | .midi p => .midi p

/-- Changes a MIDI port and leaves an audio port alone. -/
def mapMidi (f : Midi.Port → Midi.Port) : Port → Port
  | .audio p => .audio p
  | .midi p => .midi (f p)

def prepare (p : Port) (frames : Nat) : Port := (p.mapAudio (·.prepare frames)).mapMidi (·.prepare frames)

def finish (p : Port) : Port := (p.mapAudio (·.finish)).mapMidi (·.finish)

/-- Changes the gain, which only audio has. -/
def setGain (p : Port) (gain : Audio.Sample) : Port := p.mapAudio (·.setGain gain)

def setMuted (p : Port) (muted : Bool) : Port := (p.mapAudio (·.setMuted muted)).mapMidi (·.setMuted muted)

/-- Lets the data of `source` pass into a port of the same kind. -/
def mix (p source : Port) : Port :=
  match p, source with
  | .audio p, .audio source => .audio (p.mix source.buffer)
  | .midi p, .midi source => .midi (p.writeAll source.messages)
  | p, _ => p

end Port

end Overdub
