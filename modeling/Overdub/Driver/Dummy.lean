import Overdub.Audio.Sample
import Overdub.Config.Basic
import Overdub.Error
import Overdub.Midi.Message
import Overdub.Mode
/-!
# The driver without hardware

Input is queued ahead of time and output is kept until somebody takes it. The
driver cuts what it is asked to run into cycles of at most one buffer; queued
samples are used up frame by frame, and a queued message arrives at the frame it
was queued for, counted from when it was queued.
-/

namespace Overdub

/-- A port of the driver. -/
structure DriverPort where
  name : String
  dataType : DataType
  direction : Direction
  /-- The samples of the current cycle. -/
  buffer : Audio.Buffer := []
  queuedAudio : Audio.Buffer := []
  playedAudio : Audio.Buffer := []
  /-- Times count from the start of the next cycle. -/
  queuedMidi : List Midi.Message := []
  /-- The messages of the current cycle. -/
  cycleMidi : List Midi.Message := []
  /-- Times count from when the driver was made. -/
  playedMidi : List Midi.Message := []

namespace DriverPort

/-- Begins a cycle: what is queued for it arrives. -/
def begin (p : DriverPort) (frames : Nat) : DriverPort :=
  let p := { p with buffer := Audio.silence frames, cycleMidi := [] }
  let n := UInt32.ofNat frames
  match p.direction, p.dataType with
  | .output, _ => p
  | .input, .audio =>
    { p with buffer := Audio.Buffer.fit frames p.queuedAudio, queuedAudio := p.queuedAudio.drop frames }
  | .input, .midi =>
    { p with
      cycleMidi := p.queuedMidi.takeWhile (·.time < n)
      queuedMidi := (p.queuedMidi.dropWhile (·.time < n)).map fun m => m.withTime (m.time - n) }

/-- Ends a cycle: what is in the buffer of an output has been played. -/
def finish (p : DriverPort) : DriverPort :=
  if p.direction = .output ∧ p.dataType = .audio then { p with playedAudio := p.playedAudio ++ p.buffer } else p

end DriverPort

/-- The ports of a driver, each under the number it was opened with. A port that
was closed leaves its place empty. -/
abbrev DriverPorts := List (Option DriverPort)

/-- One cycle, as the process side sees it. -/
structure DriverCycle where
  frames : Nat
  /-- The frames processed before. -/
  start : Nat
  ports : DriverPorts

namespace DriverCycle

/-- A port by its number. -/
def port? (c : DriverCycle) (id : Nat) : Option DriverPort := c.ports[id]?.join

def modifyPort (c : DriverCycle) (id : Nat) (f : DriverPort → DriverPort) : DriverCycle :=
  { c with ports := c.ports.modify id (·.map f) }

/-- The samples that came in. -/
def audioInput? (c : DriverCycle) (id : Nat) : Option Audio.Buffer :=
  ((c.port? id).filter fun p => p.dataType = .audio ∧ p.direction = .input).map (·.buffer)

/-- The samples to go out. -/
def audioOutput? (c : DriverCycle) (id : Nat) : Option Audio.Buffer :=
  ((c.port? id).filter fun p => p.dataType = .audio ∧ p.direction = .output).map (·.buffer)

/-- Sends samples out, filled up with silence. -/
def playAudio (c : DriverCycle) (id : Nat) (samples : Audio.Buffer) : DriverCycle :=
  if (c.audioOutput? id).isSome then
    c.modifyPort id fun p => { p with buffer := Audio.Buffer.fit p.buffer.length samples }
  else c

/-- The messages that came in, in time order. -/
def midiInput (c : DriverCycle) (id : Nat) : List Midi.Message := (c.port? id).elim [] (·.cycleMidi)

/-- A message with its time counted from when the driver was made, as far as
times reach. -/
def stamp (c : DriverCycle) (m : Midi.Message) : Midi.Message :=
  m.withTime (.ofNat (min (c.start + m.time.toNat) (UInt32.size - 1)))

def playMidi (c : DriverCycle) (id : Nat) (messages : List Midi.Message) : DriverCycle :=
  c.modifyPort id fun p =>
    if p.direction = .output then { p with playedMidi := p.playedMidi ++ messages.map c.stamp } else p

/-- Passes what came in at one port on to another. -/
def passThrough (c : DriverCycle) (source target : Nat) : DriverCycle :=
  ((c.audioInput? source).elim c (c.playAudio target ·)).playMidi target (c.midiInput source)

end DriverCycle

/-- The driver without hardware. -/
structure DummyDriver where
  sampleRate : Nat
  /-- The most frames of a cycle. -/
  bufferSize : Nat
  ports : DriverPorts := []
  /-- The frames asked for and not processed yet. -/
  requested : Nat := 0
  processed : Nat := 0
  running : Bool := false

namespace DummyDriver

/-- A driver of the given settings. A cycle has at least one frame. -/
def new (config : DriverConfig) : DummyDriver :=
  { sampleRate := config.sampleRate, bufferSize := max 1 config.bufferSize }

/-- A driver that runs only the frames it is asked for. -/
def controlled (bufferSize : Nat) : DummyDriver := new { bufferSize, dummyMode := .controlled }

def named (name : String) : Option DriverPort → Bool
  | some p => p.name = name
  | none => false

def port? (d : DummyDriver) (name : String) : Option DriverPort := (d.ports.find? (named name)).join

def modifyPort (d : DummyDriver) (name : String) (f : DriverPort → DriverPort) : DummyDriver :=
  { d with ports := d.ports.modify (d.ports.findIdx (named name)) (·.map f) }

/-- Opens a port under a name that no open port has. -/
def openPort (d : DummyDriver) (name : String) (dataType : DataType) (direction : Direction) :
    Except DriverError (Nat × DummyDriver) :=
  if (d.port? name).isSome then .error (.portError s!"Port '{name}' already exists")
  else .ok (d.ports.length, { d with ports := d.ports ++ [some { name, dataType, direction }] })

def closePort (d : DummyDriver) (id : Nat) : Except DriverError DummyDriver :=
  match d.ports[id]?.join with
  | some _ => .ok { d with ports := d.ports.set id none }
  | none => .error (.portError s!"No port {id}")

def start (d : DummyDriver) : Except DriverError DummyDriver :=
  if d.running then .error (.startFailed "Dummy driver is already running") else .ok { d with running := true }

def close (d : DummyDriver) : DummyDriver := { d with running := false }

/-! ## Queues -/

/-- Queues samples behind those at an input. -/
def queueAudio (d : DummyDriver) (name : String) (samples : Audio.Buffer) : DummyDriver :=
  d.modifyPort name fun p => { p with queuedAudio := p.queuedAudio ++ samples }

/-- Queues messages at an input. Those of one time arrive in the order queued. -/
def queueMidi (d : DummyDriver) (name : String) (messages : List Midi.Message) : DummyDriver :=
  d.modifyPort name fun p =>
    { p with queuedMidi := (p.queuedMidi ++ messages).mergeSort fun a b => decide (a.time ≤ b.time) }

/-- Takes what was played since the last time. -/
def takeAudio (d : DummyDriver) (name : String) : Audio.Buffer × DummyDriver :=
  ((d.port? name).elim [] (·.playedAudio), d.modifyPort name ({ · with playedAudio := [] }))

/-- Takes the messages that were sent since the last time. -/
def takeMidi (d : DummyDriver) (name : String) : List Midi.Message × DummyDriver :=
  ((d.port? name).elim [] (·.playedMidi), d.modifyPort name ({ · with playedMidi := [] }))

/-! ## Time -/

/-- One cycle of `frames` frames, in which `process` turns input into output. -/
def cycle {σ : Type} (d : DummyDriver) (process : σ → DriverCycle → σ × DriverCycle) (state : σ) (frames : Nat) :
    σ × DummyDriver :=
  let (state, c) := process state ⟨frames, d.processed, d.ports.map (·.map (·.begin frames))⟩
  (state, { d with
    ports := c.ports.map (·.map (·.finish)), processed := d.processed + frames, requested := d.requested - frames })

theorem requested_cycle {σ : Type} (d : DummyDriver) (process : σ → DriverCycle → σ × DriverCycle) (state : σ)
    (frames : Nat) : (d.cycle process state frames).2.requested = d.requested - frames := rfl

/-- Runs all frames that were asked for. -/
def cycles {σ : Type} (process : σ → DriverCycle → σ × DriverCycle) (state : σ) (d : DummyDriver) : σ × DummyDriver :=
  if _ : d.requested = 0 then (state, d)
  else
    let next := d.cycle process state (min d.requested (max 1 d.bufferSize))
    cycles process next.1 next.2
termination_by d.requested
decreasing_by rw [requested_cycle]; omega

/-- Runs `frames` more frames, and says whether all are processed. A driver that
was not started keeps them for later. -/
def run {σ : Type} (d : DummyDriver) (process : σ → DriverCycle → σ × DriverCycle) (state : σ) (frames : Nat) :
    Bool × σ × DummyDriver :=
  let d := { d with requested := d.requested + frames }
  if d.running then (true, d.cycles process state) else (d.requested = 0, state, d)

end DummyDriver

end Overdub
