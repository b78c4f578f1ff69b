import Overdub.Audio.CaptureRing
import Overdub.Mode
import Overdub.Poi
import Overdub.Port.Status
/-!
# Audio ports

A port carries one signal. Its buffer holds exactly the frames of the current
cycle: an input port has it filled, an output port starts a cycle silent and is
mixed into. At the end of the cycle gain and mute are applied once, and an input
port lets its capture ring have the result.
-/

namespace Overdub.Audio

/-- The most frames that a cycle buffer has. -/
def maxCycleFrames : Nat := 8192

def cycleSilence (frames : Nat) : Buffer := silence (min frames maxCycleFrames)

/-- An audio port with the buffer of the current cycle. -/
structure Port where
  direction : Direction
  gain : Sample := 1
  muted : Bool := false
  buffer : Buffer := []
  ring : Option CaptureRing := none
  status : PortStatus := {}

namespace Port

/-- A port without capture ring. -/
def new (direction : Direction) : Port := { direction }

/-- How many samples the ring keeps. -/
def captured (p : Port) : Nat := p.ring.elim 0 (clampFrames ·.depth)

/-- Shows the settings to control threads. -/
def publish (p : Port) : Port := { p with status := p.status.publish p.gain p.muted p.captured }

def setGain (p : Port) (gain : Sample) : Port := { p with gain }.publish

def setMuted (p : Port) (muted : Bool) : Port := { p with muted }.publish

/-- Exchanges the ring and hands out the old one. -/
def replaceRing (p : Port) (ring : Option CaptureRing) : Option CaptureRing × Port := (p.ring, { p with ring }.publish)

/-- Exchanges the ring for a new one, or for none, and hands out the old one. The
old buffers go back to the pool only when the new ring has its own. -/
def resizeRing (p : Port) (depth : Option Nat) (pool : Pool) : Option CaptureRing × Port × Pool :=
  let (ring, pool) : Option CaptureRing × Pool := match depth with
    | none => (none, pool)
    | some n => let (ring, pool) := CaptureRing.new n pool; (some ring, pool)
  let (old, p) := p.replaceRing ring
  (old, p, old.elim pool (·.release pool))

def prepare (p : Port) (frames : Nat) : Port := { p with buffer := cycleSilence frames }

/-- Replaces the whole buffer; missing samples are silent. -/
def fill (p : Port) (source : Buffer) : Port := { p with buffer := Buffer.fit p.buffer.length source }

/-- Replaces the first samples of the buffer. -/
def overwrite (p : Port) (source : Buffer) : Port := { p with buffer := Buffer.overwrite p.buffer 0 source }

/-- Adds samples to the buffer; missing ones count as silence. -/
def mix (p : Port) (source : Buffer) : Port :=
  { p with buffer := List.zipWith (· + ·) p.buffer source ++ p.buffer.drop source.length }

/-- The factor that gain and mute amount to. -/
def level (p : Port) : Sample := if p.muted then 0 else p.gain

/-- Ends the cycle: measures the peaks, applies gain and mute, and captures
input. -/
def finish (p : Port) : Port :=
  let peak := p.buffer.foldl raisePeak 0
  let buffer := if p.level == 1 then p.buffer else p.buffer.map (· * p.level)
  let status := p.status.raisePeaks peak (peak * p.level.abs)
  let ring := match p.direction with
    | .input => p.ring.map (·.put buffer)
    | .output => p.ring
  { p with buffer, status, ring }

end Port

end Overdub.Audio
