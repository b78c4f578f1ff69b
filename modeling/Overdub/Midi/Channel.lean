import Overdub.Loop.Track
import Overdub.Midi.CaptureRing
import Overdub.Midi.Outbox
/-!
# MIDI channels

As for audio, a cycle has two halves: `Channel.process` queues commands while the
loop advances, and `Channel.finalize` carries them out against the messages of
the cycle.

Trackers follow the streams. The input state follows everything that arrives,
recorded or not. The start state is the input state at the start of the recorded
data: what a listener must be in before the first event replays. The output
state follows what is sent out, so that restarting playback sends only the
difference.
-/

namespace Overdub.Midi

/-- Which of a channel's storages a command writes. -/
inductive RecordTarget where
  | main
  | preRecord
  deriving DecidableEq, Repr

/-- A queued operation of a channel. -/
inductive Command where
  /-- Silences what the last playback left sounding. -/
  | allSoundOff (frame : Nat)
  /-- Sends the stored events at `position` to `position + n`. A restart first
  brings the listener to the start state. -/
  | playback (frame n : Nat) (position : Int) (restart : Bool)
  /-- Stores the input of the frames `frame` to `frame + n` from a data position
  on. -/
  | record (target : RecordTarget) (frame n position : Nat)
  /-- What was kept aside becomes the recorded data. -/
  | promotePreRecord
  | discardPreRecord
  deriving DecidableEq, Repr

/-- A MIDI track of a loop. -/
structure Channel where
  track : Track
  storage : Storage
  preRecord : Storage
  cursor : Cursor := .start
  /-- The data position at which playback left off, while it is not interrupted. -/
  playedUntil : Option Int := none
  /-- The loop position after the last chunk. -/
  lastPosition : Nat := 0
  inputState : Tracker := .fresh
  startState : Tracker := .fresh
  preRecordStartState : Tracker := .fresh
  outputState : Tracker := .fresh
  /-- The state a restarted playback has still to bring the listener to. -/
  restore : Option Tracker := none
  commands : List Command := []
  status : ChannelStatus

namespace Channel

/-! ## Settings -/

/-- Shows the current state to control threads. -/
def publish (c : Channel) : Channel := { c with status := c.status.publish c.track 1 c.outputState.notesActive }

/-- A channel without data that stores up to `capacity` events. -/
def new (capacity : Nat) (mode : ChannelMode) : Channel :=
  { track := { mode }, storage := .empty capacity, preRecord := .empty capacity, status := { mode } }

def modifyTrack (c : Channel) (f : Track → Track) : Channel := { c with track := f c.track }.publish

def prepare (c : Channel) (frames : Nat) (hasInput hasOutput : Bool) : Channel :=
  { c with track := c.track.prepare frames hasInput hasOutput, commands := [] }

/-! ## While the loop advances -/

def queue (c : Channel) (command : Command) : Channel := { c with commands := c.commands ++ [command] }

/-- Silences the output when playback ends or jumps. A loop that went past its
end goes on at its start without a jump. -/
def interrupt (c : Channel) (activity : Activity) (context : ChunkContext) : Channel :=
  let wrapped := context.posBefore == 0 && decide (context.lenBefore ≤ c.lastPosition)
  let jumped := context.posBefore != c.lastPosition && !wrapped
  if c.track.lastActivity.playback && (!activity.playback || jumped) then
    { c with playedUntil := none }.queue (.allSoundOff c.track.framesDone)
  else c

/-- Ends keeping input aside when `next` no longer does. -/
def endPreRecord (c : Channel) (next : Activity) : Channel :=
  if c.track.endsPreRecord next then
    if next.record then { c with track := c.track.promotePreRecord }.queue .promotePreRecord
    else { c with track := c.track.discardPreRecord }.queue .discardPreRecord
  else c

/-- Queues playback of `n` frames from a data position on. It is a restart unless
it goes on where the last one left off, or behind that. -/
def queuePlayback (c : Channel) (position : Int) (n : Nat) : Channel :=
  let restart := c.playedUntil.all fun until_ => position < until_
  let skip := min n (clampFrames (c.track.firstPlayable - position).toNat)
  { c with playedUntil := some (position + n) }.queue
    (.playback (c.track.framesDone + skip) (n - skip) (position + skip) restart)

/-- Queues recording of `n` frames behind `loopLength` recorded ones. -/
def queueRecord (c : Channel) (loopLength n : Nat) : Channel :=
  let position := c.track.recordFrom loopLength
  { c with track := c.track.record position n }.queue (.record .main c.track.framesDone n position)

/-- Queues keeping `n` frames aside. -/
def queuePreRecord (c : Channel) (n : Nat) : Channel :=
  let position := c.track.preRecordLength
  { c with track := { c.track with preRecordLength := position + n } }.queue
    (.record .preRecord c.track.framesDone n position)

/-- Decides what to do with the next chunk of the cycle. Events cannot be
overwritten in place, so replacing does nothing. -/
def process (c : Channel) (context : ChunkContext) : Channel × Except Overdub.Error Unit :=
  let n := context.frames
  if c.track.overruns n then
    (c, .error (.outOfBounds "MIDI channel cycle" (c.track.framesDone + n) c.track.cycleFrames))
  else
    let task := c.track.task context.mode context.next context.posBefore
    let activity := { c.track.permit task.activity with replace := false }
    let played := if activity.playback then task.position.toNat? else none
    let c := (c.interrupt activity context).endPreRecord activity
    let c := { c with track := { c.track with playedBack := played } }
    let c := if activity.playback then c.queuePlayback task.position n else { c with playedUntil := none }
    let c := if activity.record then c.queueRecord context.lenBefore n else c
    let c := if activity.preRecord then c.queuePreRecord n else c
    ({ c with track := c.track.endChunk activity n, lastPosition := context.posAfter }, .ok ())

/-! ## At the end of the cycle -/

def hear (c : Channel) (messages : List Message) : Channel :=
  { c with inputState := messages.foldl Tracker.feedMessage c.inputState }

/-- Sends one message, which the output state follows whether or not there is
room for it. -/
def send (c : Channel) (out : Outbox) (m : Message) : Channel × Outbox × Bool :=
  let (out, sent) := out.push m
  ({ c with outputState := c.outputState.feedMessage m }, out, sent)

/-- Sends stored events at a frame of the cycle, and counts those there was room
for. -/
def sendEvents (c : Channel) (out : Outbox) (shift : UInt32) : List Message → Channel × Outbox × Nat
  | [] => (c, out, 0)
  | m :: rest =>
    let (c, out, sent) := c.send out (m.withTime (shift + m.time))
    let (c, out, count) := c.sendEvents out shift rest
    (c, out, count + sent.toNat)

/-- Brings the listener to the state that a restart waits for. -/
def sendRestore (c : Channel) (out : Outbox) (frame : UInt32) : Channel × Outbox :=
  match c.restore with
  | none => (c, out)
  | some state =>
    let messages := (state.diff c.outputState).filterMap fun bytes => (Message.ofBytes frame bytes).toOption
    ({ c with restore := none, outputState := state }, messages.foldl (fun out m => (out.push m).1) out)

/-- Plays `n` frames from a data position on, and counts the events sent. What
lies in front of the data takes its time in silence. The events passed over
after a restart count towards the state to be restored. -/
def runPlayback (c : Channel) (out : Outbox) (frame n : Nat) (position : Int) (restart : Bool) :
    Channel × Outbox × Nat :=
  let c := if restart then { c with cursor := .start, restore := some c.startState } else c
  let skip := min n (clampFrames (-position).toNat)
  let frame := UInt32.ofNat (frame + skip)
  let position := position + skip
  if n = skip ∨ position < 0 then (c, out, 0)
  else
    let start := clampFrames position.toNat
    let stop := min (clampFrames (start + (n - skip))) (clampFrames (max c.track.dataLength position.toNat))
    let (cursor, skipped) := c.cursor.seek c.storage (.ofNat start)
    let c := { c with cursor, restore := c.restore.map fun state => skipped.foldl Tracker.feedMessage state }
    let (c, out) := c.sendRestore out frame
    let (cursor, played) := c.cursor.seek c.storage (.ofNat stop)
    { c with cursor }.sendEvents out (frame - UInt32.ofNat start) played

/-- Stores input messages from a data position on. -/
def storeEvents (c : Channel) (target : RecordTarget) (shift : UInt32) :
    List Message → Channel × Except Overdub.Error Unit
  | [] => (c, .ok ())
  | m :: rest =>
    let c := c.hear [m]
    let storage := match target with
      | .main => c.storage
      | .preRecord => c.preRecord
    match storage.append (m.withTime (shift + m.time)) with
    | .error e =>
      let (c, result) := c.storeEvents target shift rest
      (c, result.bind fun _ => .error (.midi e))
    | .ok storage =>
      let c := match target with
        | .main => { c with storage }
        | .preRecord => { c with preRecord := storage }
      c.storeEvents target shift rest

/-- Records the frames `frame` to `frame + n` of the cycle from a data position
on, and hands out the input that is left. The input in front of them only counts
towards the input state, and the state reached there is the start state of data
that begins here. -/
def runRecord (c : Channel) (input : List Message) (target : RecordTarget) (frame n position : Nat) :
    Channel × List Message × Except Overdub.Error Unit :=
  let before (limit : Nat) (m : Message) : Bool := m.time < UInt32.ofNat limit
  let c := c.hear (input.takeWhile (before frame))
  let input := input.dropWhile (before frame)
  let position := UInt32.ofNat (clampFrames position)
  let c := match target with
    | .main =>
      let startState := if position = 0 then c.inputState else c.startState
      { c with storage := c.storage.truncateFrom position, startState, cursor := .start }
    | .preRecord =>
      let preRecordStartState := if position = 0 then c.inputState else c.preRecordStartState
      { c with preRecord := c.preRecord.truncateFrom position, preRecordStartState }
  let (c, result) := c.storeEvents target (position - UInt32.ofNat frame) (input.takeWhile (before (frame + n)))
  (c, input.dropWhile (before (frame + n)), result)

/-- The end of a cycle while its commands are carried out. -/
structure Finish where
  channel : Channel
  /-- The messages that have not arrived yet. -/
  input : Option (List Message)
  output : Option Outbox
  /-- The events played. -/
  triggered : Nat
  result : Except Overdub.Error Unit

namespace Finish

def fail (s : Finish) (e : Overdub.Error) : Finish := { s with result := .error e }

/-- Notes the result of a command that may have failed. -/
def note (s : Finish) : Except Overdub.Error Unit → Finish
  | .ok () => s
  | .error e => s.fail e

def run (s : Finish) : Command → Finish
  | .allSoundOff frame =>
    match s.output with
    | none => s.fail (.missingBuffer "MIDI channel playback target")
    | some out =>
      let (channel, out, _) := s.channel.send out (.short (.ofNat frame) 0xB0 Event.allSoundOff 0)
      { s with channel, output := some out }
  | .playback frame n position restart =>
    match s.output with
    | none => s.fail (.missingBuffer "MIDI channel playback target")
    | some out =>
      let (channel, out, count) := s.channel.runPlayback out frame n position restart
      { s with channel, output := some out, triggered := s.triggered + count }
  | .record target frame n position =>
    match s.input with
    | none => s.fail (.missingBuffer "MIDI channel recording source")
    | some input =>
      let (channel, input, result) := s.channel.runRecord input target frame n position
      { s with channel, input := some input }.note result
  | .promotePreRecord =>
    let c := s.channel
    { s with channel := { c with
      storage := c.preRecord, preRecord := c.storage.clear, startState := c.preRecordStartState, cursor := .start } }
  | .discardPreRecord => { s with channel := { s.channel with preRecord := s.channel.preRecord.clear } }

end Finish

/-- Carries out the queued commands. `input` holds the messages of the cycle in
time order, and playback is appended to `output`. A command that fails does not
keep the others from running, and the last error is the one reported. -/
def finalize (c : Channel) (input : Option (List Message)) (output : Option Outbox) :
    Channel × Option Outbox × Except Overdub.Error Unit :=
  let s := c.commands.foldl Finish.run ⟨c, input, output, 0, .ok ()⟩
  let c := s.channel.hear (s.input.getD [])
  let status := { c.status with triggered := c.status.triggered + s.triggered }
  ({ c with commands := [], status }.publish, s.output, s.result)

/-! ## Content -/

def setDataLength (c : Channel) (length : Nat) : Channel :=
  if length = c.track.dataLength then c
  else c.modifyTrack fun t => t.replaceData length t.startOffset

/-- Reads a sequence into a storage and a start state. Events of negative time
count towards the state instead of being stored. -/
def readSequence (storage : Storage) (state : Tracker) : List SequenceEvent → Except Overdub.Error (Storage × Tracker)
  | [] => .ok (storage, state)
  | e :: rest =>
    if e.isStateRestore then readSequence storage (state.feed e.data) rest
    else
      match frames32? e.time with
      | none => .error (.invalidArgument "MIDI event time out of range")
      | some time =>
        match storage.appendBytes (.ofNat time) e.data with
        | .error e => .error (.midi e)
        | .ok storage => readSequence storage state rest

/-- Replaces the content by a sequence. -/
def load (c : Channel) (events : List SequenceEvent) (length : Nat) : Except Overdub.Error Channel :=
  (readSequence c.storage.clear .fresh events).map fun (storage, startState) =>
    { c with storage, startState, cursor := .start }.modifyTrack (·.replaceData length 0)

/-- The content as a sequence: the messages that restore the start state, then
the stored events. -/
def data (c : Channel) : List SequenceEvent :=
  c.startState.catchUp.map (⟨SequenceEvent.stateRestoreTime, ·⟩)
    ++ c.storage.events.map fun m => ⟨m.time.toNat, m.bytes⟩

/-- Drops all events, which leaves `length` silent frames. -/
def clear (c : Channel) (length : Nat) : Channel :=
  let reset (t : Track) : Track := { t.replaceData length 0 with preRecordLength := 0, playedBack := none }
  { c with
    storage := c.storage.clear, preRecord := c.preRecord.clear, startState := .fresh, cursor := .start
    playedUntil := none }.modifyTrack reset

/-- Replaces the content by what was captured. `reverseStart` counts back from
the newest frame to where the loop starts. Events more than `keepBefore` frames
ahead of the start count towards the start state. -/
def adopt (c : Channel) (capture : Capture) (reverseStart keepBefore : Option Nat) :
    Channel × Except Overdub.Error Unit :=
  match capture.ring.snapshot c.storage.capacity with
  | (storage, .error e) => ({ c with storage }, .error (.midi e))
  | (storage, .ok ()) =>
    let depth := capture.ring.depth.toNat
    let start := reverseStart.elim 0 (depth - ·)
    let (storage, dropped) := storage.dropBefore (.ofNat (clampFrames (keepBefore.elim 0 (start - ·))))
    let startState := dropped.foldl Tracker.feedMessage capture.tail
    ({ c with storage, startState, cursor := .start }.modifyTrack (·.replaceData depth start), .ok ())

end Channel

end Overdub.Midi
