import Overdub.Audio.Sample
/-!
# What control threads see of a port
-/

namespace Overdub

/-- The settings of a port, with peaks and counts gathered since they were last
taken. -/
structure PortStatus where
  gain : Audio.Sample := 1
  muted : Bool := false
  /-- The loudest sample in front of gain and mute. -/
  inputPeak : Audio.Sample := 0
  /-- The loudest sample behind gain and mute. -/
  outputPeak : Audio.Sample := 0
  eventsIn : Nat := 0
  eventsOut : Nat := 0
  /-- How much input the port keeps, zero for none. -/
  captured : Nat := 0

namespace PortStatus

def publish (s : PortStatus) (gain : Audio.Sample) (muted : Bool) (captured : Nat) : PortStatus :=
  { s with gain, muted, captured }

/-- Raises the peaks to those of a cycle. -/
def raisePeaks (s : PortStatus) (input output : Audio.Sample) : PortStatus :=
  { s with inputPeak := Audio.raisePeak s.inputPeak input, outputPeak := Audio.raisePeak s.outputPeak output }

/-- Counts messages that came in and went out. -/
def countEvents (s : PortStatus) (incoming outgoing : Nat) : PortStatus :=
  { s with eventsIn := s.eventsIn + incoming, eventsOut := s.eventsOut + outgoing }

/-- Hands out both peaks and starts over. -/
def takePeaks (s : PortStatus) : (Audio.Sample × Audio.Sample) × PortStatus :=
  ((s.inputPeak, s.outputPeak), { s with inputPeak := 0, outputPeak := 0 })

/-- Hands out both counts and starts over. -/
def takeCounts (s : PortStatus) : (Nat × Nat) × PortStatus :=
  ((s.eventsIn, s.eventsOut), { s with eventsIn := 0, eventsOut := 0 })

end PortStatus

end Overdub
