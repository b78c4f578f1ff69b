import Overdub.Midi.Outbox
import Overdub.Midi.Storage
import Overdub.Midi.Tracker
import Overdub.Report.Basic
/-!
# Reports of MIDI data

A message is shown as its time followed by its bytes, an event by its fields.
-/

namespace Overdub.Report

instance : Reported Midi.Error := ⟨fun e => failure e.kind e.message⟩
instance : Reported Midi.Message := ⟨fun m => list (report m.time :: m.bytes.map report)⟩
instance : Reported Midi.SequenceEvent := ⟨fun e => list (report e.time :: e.data.map report)⟩

instance : Reported Midi.Outbox := ⟨fun o => report o.messages⟩

def trackerLine (t : Midi.Tracker) : String := s!"MidiStateTracker \x7b n_notes_active: {t.notesActive}, .. \x7d"

/-- An event by its kind, its channel and what is special to the kind. -/
def event (kind : String) (channel : UInt8) (fields : List (String × Report)) : Report :=
  record ([("kind", text kind), ("channel", channel)] ++ fields)

instance : Reported Midi.Event where
  report
    | .noteOff c note velocity => event "NoteOff" c [("note", note), ("velocity", velocity)]
    | .noteOn c note velocity => event "NoteOn" c [("note", note), ("velocity", velocity)]
    | .polyPressure c note value => event "PolyPressure" c [("note", note), ("value", value)]
    | .controlChange c cc value => event "ControlChange" c [("cc", cc), ("value", value)]
    | .programChange c program => event "ProgramChange" c [("program", program)]
    | .channelPressure c value => event "ChannelPressure" c [("value", value)]
    | .pitchWheel c value => event "PitchWheel" c [("value", value)]

/-- The bytes of an event, once without and once with padding. -/
def encoded (e : Midi.Event) : Report :=
  record [("encoded", e.encode), ("raw", e.rawBytes), ("channel", e.channel)]

/-- What bytes were parsed to. -/
def parsed (e : Option Midi.Event) : Report := record [("event", e)] ++ e.elim (record []) encoded

end Overdub.Report
