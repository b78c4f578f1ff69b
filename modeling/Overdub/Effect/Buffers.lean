import Overdub.Audio.Port
import Overdub.Midi.Outbox
/-!
# What a chain works on

A chain reads audio and MIDI inputs and writes audio outputs. Every buffer is as
long as the cycle and starts out silent.
-/

namespace Overdub.Effect

/-- How many ports a chain has. -/
structure Layout where
  audioInputs : Nat := 0
  audioOutputs : Nat := 0
  midiInputs : Nat := 0
  deriving DecidableEq, Repr

/-- The inputs and outputs of one cycle. -/
structure Buffers where
  audioIn : List Audio.Buffer
  audioOut : List Audio.Buffer
  midiIn : List Midi.Outbox

namespace Buffers

/-- Buffers of no length, with room for `midiCapacity` messages per MIDI input. -/
def new (layout : Layout) (midiCapacity : Nat) : Buffers :=
  ⟨.replicate layout.audioInputs [], .replicate layout.audioOutputs [],
    .replicate layout.midiInputs { capacity := midiCapacity }⟩

def prepare (b : Buffers) (frames : Nat) : Buffers :=
  let silent (_ : Audio.Buffer) := Audio.cycleSilence frames
  ⟨b.audioIn.map silent, b.audioOut.map silent, b.midiIn.map ({ · with messages := [] })⟩

/-- Replaces the first samples of an input. -/
def setInput (b : Buffers) (index : Nat) (source : Audio.Buffer) : Buffers :=
  { b with audioIn := b.audioIn.modify index (Audio.Buffer.overwrite · 0 source) }

/-- Replaces the first samples of an output. -/
def setOutput (b : Buffers) (index : Nat) (source : Audio.Buffer) : Buffers :=
  { b with audioOut := b.audioOut.modify index (Audio.Buffer.overwrite · 0 source) }

/-- An input together with an output, if there are both. -/
def pair? (b : Buffers) (input output : Nat) : Option (Audio.Buffer × Audio.Buffer) := do
  return (← b.audioIn[input]?, ← b.audioOut[output]?)

def messages? (b : Buffers) (index : Nat) : Option (List Midi.Message) := b.midiIn[index]?.map (·.messages)

/-- Appends a message to a MIDI input, and says whether there was room. -/
def pushMidi (b : Buffers) (index : Nat) (m : Midi.Message) : Buffers × Bool :=
  match b.midiIn[index]? with
  | none => (b, false)
  | some box =>
    let (box, sent) := box.push m
    ({ b with midiIn := b.midiIn.set index box }, sent)

end Buffers

end Overdub.Effect
