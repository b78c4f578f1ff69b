import Overdub.Midi.Event
/-!
# The state a MIDI listener is in

A `Tracker` follows a message stream and remembers which notes are held and the
last value of every controller, program, channel pressure and pitch wheel.
`Tracker.diff` lists the messages that lead a listener from one such state to
another, and `Tracker.catchUp` those that lead a fresh listener there.
-/

namespace Overdub.Midi

/-- What is known of one of the sixteen channels. -/
structure Voice where
  program : Option UInt8
  controls : Vector (Option UInt8) 128
  pressure : Option UInt8
  wheel : Option UInt16
  /-- The velocity of each held note, zero when released. -/
  notes : Vector UInt8 128
  deriving DecidableEq

/-- Nothing known and nothing held. -/
def Voice.fresh : Voice := ⟨none, .replicate 128 none, none, none, .replicate 128 0⟩

namespace Voice

/-- The messages on `channel` that lead a listener from `old` to `new`. The
program, the controllers, the pressure and the wheel come before the notes, so
that notes start with the right settings. Values known only in `old` are left
alone. -/
def diff (channel : UInt8) (old new : Voice) : List (List UInt8) :=
  let changed {α : Type} [DecidableEq α] (before after : Option α) (bytes : α → List UInt8) :=
    match after with
    | some value => if before = some value then [] else [bytes value]
    | none => []
  changed old.program new.program (fun v => [0xC0 ||| channel, v])
    ++ (List.finRange 128).flatMap (fun cc =>
      changed (old.controls.get cc) (new.controls.get cc) (fun v => [0xB0 ||| channel, .ofNat cc.val, v]))
    ++ changed old.pressure new.pressure (fun v => [0xD0 ||| channel, v])
    ++ changed old.wheel new.wheel (fun v =>
      [0xE0 ||| channel, (v &&& 0x7F).toUInt8, ((v >>> (7 : UInt16)) &&& 0x7F).toUInt8])
    ++ (List.finRange 128).flatMap (fun note =>
      let before := old.notes.get note
      let after := new.notes.get note
      if after = before then []
      else (if before = 0 then [] else [[0x80 ||| channel, .ofNat note.val, 0x40]])
        ++ (if after = 0 then [] else [[0x90 ||| channel, .ofNat note.val, after]]))

end Voice

/-- Note, controller and channel state gathered from a message stream. -/
structure Tracker where
  voices : Vector Voice 16
  /-- The number of held notes over all channels. -/
  notesActive : Nat
  deriving DecidableEq

namespace Tracker

/-- The state before any message. -/
def fresh : Tracker := ⟨.replicate 16 .fresh, 0⟩

instance : Inhabited Tracker := ⟨fresh⟩

/-- The index a channel number selects. -/
def voiceIndex (channel : UInt8) : Fin 16 := .ofNat 16 channel.toNat

/-- The index a seven-bit number selects. -/
def dataIndex (number : UInt8) : Fin 128 := .ofNat 128 number.toNat

/-- What is known of a channel. -/
def voice (t : Tracker) (channel : UInt8) : Voice := t.voices.get (voiceIndex channel)

def mapVoice (t : Tracker) (channel : UInt8) (f : Voice → Voice) : Tracker :=
  { t with voices := t.voices.set (voiceIndex channel) (f (t.voice channel)) }

/-- Starts a note, or releases it when the velocity is zero. -/
def setNote (t : Tracker) (channel note velocity : UInt8) : Tracker :=
  let index := dataIndex note
  let held := (t.voice channel).notes.get index != 0
  let t := t.mapVoice channel fun v => { v with notes := v.notes.set index velocity }
  match held, velocity != 0 with
  | false, true => { t with notesActive := t.notesActive + 1 }
  | true, false => { t with notesActive := t.notesActive - 1 }
  | _, _ => t

def releaseChannel (t : Tracker) (channel : UInt8) : Tracker :=
  (List.range 128).foldl (fun t note => t.setNote channel (.ofNat note) 0) t

/-- The state after one event. -/
def apply (t : Tracker) : Event → Tracker
  | .noteOn channel note velocity => t.setNote channel note velocity
  | .noteOff channel note _ => t.setNote channel note 0
  | .controlChange channel cc value =>
    if cc = Event.allNotesOff ∨ cc = Event.allSoundOff then t.releaseChannel channel
    else if cc < 128 then
      t.mapVoice channel fun v => { v with controls := v.controls.set (dataIndex cc) (some (value &&& 0x7F)) }
    else t
  | .programChange channel program => t.mapVoice channel fun v => { v with program := some (program &&& 0x7F) }
  | .channelPressure channel value => t.mapVoice channel fun v => { v with pressure := some (value &&& 0x7F) }
  | .pitchWheel channel value => t.mapVoice channel fun v => { v with wheel := some value }
  | .polyPressure .. => t

/-- The state after some bytes; bytes that carry no state change nothing. -/
def feed (t : Tracker) (bytes : List UInt8) : Tracker := (Event.parse bytes).elim t t.apply

/-- The state after several messages in turn. -/
def feedAll (t : Tracker) (messages : List (List UInt8)) : Tracker := messages.foldl feed t

def noteVelocity (t : Tracker) (channel note : UInt8) : Option UInt8 :=
  let velocity := (t.voice channel).notes.get (dataIndex note)
  if velocity = 0 then none else some velocity

/-- The last value of a controller. -/
def control (t : Tracker) (channel cc : UInt8) : Option UInt8 := (t.voice channel).controls.get (dataIndex cc)

def program (t : Tracker) (channel : UInt8) : Option UInt8 := (t.voice channel).program

def pressure (t : Tracker) (channel : UInt8) : Option UInt8 := (t.voice channel).pressure

/-- The last pitch wheel value of a channel. -/
def wheel (t : Tracker) (channel : UInt8) : Option UInt16 := (t.voice channel).wheel

/-- The messages that lead a listener from `old` to `t`, channel by channel. -/
def diff (t old : Tracker) : List (List UInt8) :=
  (List.finRange 16).flatMap fun channel =>
    Voice.diff (.ofNat channel.val) (old.voices.get channel) (t.voices.get channel)

/-- The messages that lead a fresh listener to `t`. -/
def catchUp (t : Tracker) : List (List UInt8) := t.diff fresh

end Tracker

/-- The state after one message. -/
def Tracker.feedMessage (t : Tracker) (m : Message) : Tracker := t.feed m.bytes

end Overdub.Midi
