import Overdub.Effect.Buffers
import Overdub.Error
/-!
# Effect chains

A chain is anything that turns the inputs of a cycle into its outputs. It runs
only while it is ready and active; otherwise its outputs stay silent.
-/

namespace Overdub.Effect

/-- An effect chain. -/
structure Chain where
  layout : Layout
  /-- All that the chain needs is there. -/
  ready : Bool := true
  /-- The chain is switched on. -/
  active : Bool := true
  /-- What the chain makes of one cycle. -/
  process : Buffers → Buffers × Except Error Unit

namespace Chain

/-- Runs one cycle, if the chain is ready and active. -/
def run (c : Chain) (b : Buffers) : Buffers × Except Error Unit :=
  if c.ready && c.active then c.process b else (b, .ok ())

def scale (gain : Audio.Sample) (input output : Audio.Buffer) : Audio.Buffer :=
  Audio.Buffer.overwrite output 0 (input.map (· * gain))

/-- Multiplies each of `channels` inputs by a constant into the output of the
same number. -/
def constantGain (gain : Audio.Sample) (channels : Nat) : Chain where
  layout := { audioInputs := channels, audioOutputs := channels }
  process b :=
    let scaled := List.zipWith (scale gain) (b.audioIn.take channels) (b.audioOut.take channels)
    ({ b with audioOut := scaled ++ b.audioOut.drop scaled.length }, .ok ())

/-- Turns each message into a click: at the message's frame, the value of its last
byte is added to the output. -/
def click : Chain where
  layout := { audioOutputs := 1, midiInputs := 1 }
  process b :=
    let strike (out : Audio.Buffer) (m : Midi.Message) : Audio.Buffer :=
      out.modify m.time.toNat (· + (m.bytes.getLastD 0).toNat.toFloat32)
    let played := ((b.messages? 0).getD []).foldl strike (b.audioOut.headD [])
    ({ b with audioOut := b.audioOut.set 0 played }, .ok ())

end Chain

end Overdub.Effect
