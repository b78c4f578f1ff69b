import Overdub.Audio.Decimal
import Overdub.Loop.Basic
import Overdub.Report.Midi
/-!
# Reports of loops and channels
-/

namespace Overdub.Report

instance {kind : ObjectKind} : Reported (Key kind) := ⟨fun key => text key.text⟩
instance : Reported LoopMode := ⟨fun mode => text mode.name⟩
instance : Reported ChannelMode := ⟨fun mode => text mode.name⟩
instance : Reported DataType := ⟨fun dataType => text dataType.name⟩
instance : Reported Direction := ⟨fun direction => text direction.name⟩
instance : Reported DriverError := ⟨fun e => failure (Error.driver e).kind e.message⟩
instance : Reported Error := ⟨fun e => failure e.kind e.message⟩
instance : Reported Activity := ⟨fun a => report a.names⟩

def activityLine (a : Activity) : String := "\x7b" ++ ", ".intercalate a.names ++ "\x7d"

instance : Reported Poi.Reasons where
  report r := report ((if r.loopEnd then ["LOOP_END"] else []) ++ if r.channel then ["CHANNEL"] else [])

instance : Reported Poi where
  report p := record [("when", p.offset), ("flags", p.reasons), ("empty", p.reasons.isEmpty)]

/-! ## Transport -/

instance : Reported Upcoming where
  report u := record [("mode", u.mode), ("delay", u.delay), ("eta", u.eta)]

instance : Reported PoiQuery where
  report q := record [("mode", q.mode), ("next", q.next), ("position", q.position), ("length", q.length)]

instance : Reported ChunkContext where
  report c := record
    [("mode", c.mode), ("next", c.next), ("n", c.frames), ("pos_before", c.posBefore), ("pos_after", c.posAfter),
      ("len_before", c.lenBefore), ("len_after", c.lenAfter)]

instance : Reported SyncView where
  report v := record
    [("mode", v.mode), ("position", v.position), ("length", v.length), ("next_trigger", v.nextTrigger)]

instance : Reported PlannedTransition := ⟨fun p => list [report p.mode, report p.countdown]⟩

instance : Reported LoopStatus where
  report s := record
    [("mode", s.mode), ("length", s.length), ("position", s.position), ("next_mode", s.nextMode),
      ("next_delay", s.nextDelay)]

instance : Reported Transport where
  report t := record
    [("mode", t.mode), ("position", t.position), ("length", t.length), ("next_poi", t.nextPoi.map (·.offset)),
      ("next_trigger", t.nextTrigger), ("triggering", t.triggeringNow), ("planned", t.planned),
      ("planned_view", t.upcoming), ("snapshot", t.published)]

/-! ## Channels -/

instance : Reported ChannelStatus where
  report s := record
    [("mode", s.mode), ("length", s.length), ("start_offset", s.startOffset), ("pre_play", s.prePlay),
      ("played_back", s.playedBack), ("seq_nr", s.version), ("gain", s.gain), ("peak", s.peak),
      ("triggered", s.triggered), ("notes", s.notes)]

def storeName : Audio.StoreTarget → String
  | .main => "Main"
  | .preRecord => "PreRecord"

instance : Reported Audio.Command where
  report
    | .copy target frame position n =>
      list [text "Copy", text (storeName target), report frame, report position, report n]
    | .playback frame position n gain => list [text "Playback", report frame, report position, report n, report gain]
    | .promotePreRecord => list [text "PromotePreRecord"]
    | .discardPreRecord => list [text "DiscardPreRecord"]

def channelLine (c : ChannelBody) : String :=
  let t := c.track
  let extent := s!"data_length: {t.dataLength}, start_offset: {t.startOffset}"
  match c with
  | .audio a => s!"AudioChannel \x7b mode: {t.mode.name}, {extent}, gain: {Audio.sampleText a.gain} \x7d"
  | .midi m => s!"MidiChannel \x7b mode: {t.mode.name}, events: {m.storage.size}, {extent} \x7d"

def content : ChannelBody → Report
  | .audio a => report a.data
  | .midi m => report m.data

instance : Reported LoopChannel where
  report c := record
    [("key", c.key), ("mode", c.body.track.mode), ("length", c.body.track.dataLength), ("state", c.body.status)]

def withContent (c : LoopChannel) : Report := report c ++ record [("data", content c.body)]

instance : Reported Loop where
  report l := record [("transport", l.transport), ("sync", l.syncSource), ("channels", l.channels)]

/-- How many buffers are ready, and how many were ever made, made in a hurry and
dropped. -/
instance : Reported Audio.Pool := ⟨fun p => report [p.available.length, p.created, p.overflowed, p.dropped]⟩

end Overdub.Report
