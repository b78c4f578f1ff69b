import Overdub.Audio.CaptureRing
import Overdub.Loop.Track
/-!
# Audio channels

A cycle of a channel has two halves. While the loop advances chunk by chunk,
`Channel.process` decides what to do and queues commands that name frames of the
cycle. When the loop is done, `Channel.finalize` carries them out against the
buffers of that cycle. The output of a dry channel can so pass through an effect
chain into a wet channel of the same loop within one cycle.
-/

namespace Overdub.Audio

/-- Which of a channel's stores a command writes. -/
inductive StoreTarget where
  | main
  | preRecord
  deriving DecidableEq, Repr

/-- A queued operation on a channel's stores. -/
inductive Command where
  /-- Stores `n` input samples from frame `frame` on. -/
  | copy (target : StoreTarget) (frame position n : Nat)
  /-- Adds `n` stored samples to the output from frame `frame` on. -/
  | playback (frame position n : Nat) (gain : Sample)
  /-- What was kept aside becomes the recorded data. -/
  | promotePreRecord
  | discardPreRecord
  deriving Repr

/-- An audio track of a loop. -/
structure Channel where
  track : Track
  store : Store
  preRecord : Store
  gain : Sample
  commands : List Command
  status : ChannelStatus

namespace Channel

/-! ## Settings -/

/-- Shows the current state to control threads. -/
def publish (c : Channel) : Channel := { c with status := c.status.publish c.track c.gain 0 }

/-- A channel without data, with room for `reserved` samples per take; by
default for 256 buffers. -/
def new (bufferSize : Nat) (mode : ChannelMode) (reserved : Option Nat) : Channel :=
  let store := reserved.elim (Store.new bufferSize) (Store.withRoom bufferSize)
  { track := { mode }, store, preRecord := store, gain := 1, commands := [], status := { mode } }

def modifyTrack (c : Channel) (f : Track → Track) : Channel := { c with track := f c.track }.publish

/-- Changes the gain of later playback. -/
def setGain (c : Channel) (gain : Sample) : Channel := { c with gain }.publish

/-- The first samples of the data, filled up with silence. -/
def data (c : Channel) : Buffer := c.store.toBuffer c.track.dataLength

def prepare (c : Channel) (frames : Nat) (hasInput hasOutput : Bool) : Channel :=
  { c with track := c.track.prepare frames hasInput hasOutput, commands := [] }

/-! ## While the loop advances -/

def queue (c : Channel) (command : Command) : Channel := { c with commands := c.commands ++ [command] }

/-- Ends keeping input aside when `next` no longer does. -/
def endPreRecord (c : Channel) (next : Activity) : Channel :=
  if c.track.endsPreRecord next then
    if next.record then { c with track := c.track.promotePreRecord }.queue .promotePreRecord
    else { c with track := c.track.discardPreRecord }.queue .discardPreRecord
  else c

/-- Queues playback of `n` frames from a data position on, as far as there is
data that may be played. -/
def queuePlayback (c : Channel) (position : Int) (n : Nat) : Channel :=
  let skip := min n (clampFrames (c.track.firstPlayable - position).toNat)
  let start := position + skip
  if n = skip ∨ start < 0 ∨ c.track.dataLength ≤ start then c
  else
    let length := min (n - skip) (clampFrames (c.track.dataLength - start.toNat))
    c.queue (.playback (c.track.framesDone + skip) start.toNat length c.gain)

/-- Queues recording of `n` frames behind `loopLength` recorded ones. -/
def queueRecord (c : Channel) (loopLength n : Nat) : Channel :=
  let position := c.track.recordFrom loopLength
  { c with track := c.track.record position n }.queue (.copy .main c.track.framesDone position n)

/-- Queues overwriting `n` frames from a data position on. Frames in front of the
data are left out, frames behind it are an error. -/
def queueReplace (c : Channel) (position : Int) (n : Nat) : Channel × Except Error Unit :=
  let skip := min n (clampFrames (-position).toNat)
  let n := n - skip
  let start := position.toNat
  let inside := min n (c.track.dataLength - start)
  let replaced :=
    if inside = 0 then c
    else
      { c with track := { c.track with version := c.track.version + 1 } }.queue
        (.copy .main (c.track.framesDone + skip) start inside)
  if inside < n then (replaced, .error (.outOfBounds "replace" (start + inside) c.track.dataLength))
  else (replaced, .ok ())

/-- Queues keeping `n` frames aside. -/
def queuePreRecord (c : Channel) (n : Nat) : Channel :=
  let position := c.track.preRecordLength
  { c with track := { c.track with preRecordLength := position + n } }.queue
    (.copy .preRecord c.track.framesDone position n)

/-- Decides what to do with the next chunk of the cycle. -/
def process (c : Channel) (context : ChunkContext) : Channel × Except Error Unit :=
  let n := context.frames
  if c.track.overruns n then
    (c, .error (.outOfBounds "audio channel cycle buffer" (c.track.framesDone + n) c.track.cycleFrames))
  else
    let task := c.track.task context.mode context.next context.posBefore
    let activity := c.track.permit task.activity
    let played := if activity.playback then task.position.toNat? else none
    let c := c.endPreRecord activity
    let c := { c with track := { c.track with playedBack := played } }
    let c := if activity.playback then c.queuePlayback task.position n else c
    let c := if activity.record then c.queueRecord context.lenBefore n else c
    let (c, result) := if activity.replace then c.queueReplace task.position n else (c, .ok ())
    let c := if activity.preRecord then c.queuePreRecord n else c
    ({ c with track := c.track.endChunk activity n }, result)

/-! ## At the end of the cycle -/

/-- The frames of a cycle buffer that a command names. -/
def cycleSlice (what : String) (b : Buffer) (frame n : Nat) : Except Error Buffer :=
  match Buffer.slice? b frame n with
  | some part => .ok part
  | none => .error (.outOfBounds what (frame + n) b.length)

/-- The end of a cycle while its commands are carried out. -/
structure Finish where
  store : Store
  preRecord : Store
  pool : Pool
  output : Option Buffer
  /-- The loudest sample played. -/
  peak : Sample
  result : Except Error Unit

namespace Finish

def fail (s : Finish) (e : Error) : Finish := { s with result := .error e }

def copy (s : Finish) (input : Option Buffer) (target : StoreTarget) (frame position n : Nat) : Finish :=
  match input with
  | none => s.fail (.missingBuffer "audio channel recording source")
  | some input =>
    match cycleSlice "recording source" input frame n with
    | .error e => s.fail e
    | .ok samples =>
      match target with
      | .main =>
        let (_, store, pool) := s.store.writeWithinReserve position samples s.pool
        { s with store, pool }
      | .preRecord =>
        let (_, preRecord, pool) := s.preRecord.writeWithinReserve position samples s.pool
        { s with preRecord, pool }

/-- Adds stored samples to the output, as far as there are buffers of them. -/
def play (s : Finish) (frame position n : Nat) (gain : Sample) : Finish :=
  match s.output with
  | none => s.fail (.missingBuffer "audio channel playback target")
  | some output =>
    match cycleSlice "playback target" output frame n with
    | .error e => s.fail e
    | .ok target =>
      let stored := s.store.read position (min n (s.store.capacity - position))
      let mixed := List.zipWith (fun out x => out + x * gain) target stored
      { s with output := some (Buffer.overwrite output frame mixed), peak := mixed.foldl raisePeak s.peak }

def run (input : Option Buffer) (s : Finish) : Command → Finish
  | .copy target frame position n => s.copy input target frame position n
  | .playback frame position n gain => s.play frame position n gain
  | .promotePreRecord =>
    let (emptied, pool) := s.store.release s.pool
    { s with store := s.preRecord, preRecord := emptied, pool }
  | .discardPreRecord =>
    let (preRecord, pool) := s.preRecord.release s.pool
    { s with preRecord, pool }

end Finish

/-- Carries out the queued commands. `input` is what is recorded, `output` what
playback is added to; both cover the whole cycle. A command that fails does not
keep the others from running, and the last error is the one reported. -/
def finalize (c : Channel) (input output : Option Buffer) (pool : Pool) :
    Channel × Option Buffer × Pool × Except Error Unit :=
  let s := c.commands.foldl (Finish.run input) ⟨c.store, c.preRecord, pool, output, 0, .ok ()⟩
  let status := c.status.raisePeak s.peak
  ({ c with store := s.store, preRecord := s.preRecord, commands := [], status }.publish, s.output, s.pool, s.result)

/-! ## Content -/

def setDataLength (c : Channel) (length : Nat) : Channel :=
  if length = c.track.dataLength then c
  else c.modifyTrack fun t => t.replaceData length t.startOffset

/-- Replaces the content by samples. -/
def load (c : Channel) (samples : Buffer) (pool : Pool) : Channel × Pool :=
  let (store, pool) := c.store.release pool
  let (store, pool) := store.write 0 samples pool
  ({ c with store }.modifyTrack (·.replaceData samples.length 0), pool)

/-- Replaces the content by a prepared store and hands out the old one, whose
buffers go back to the pool. -/
def replaceStore (c : Channel) (store : Store) (length : Nat) (startOffset : Int) (pool : Pool) :
    Store × Channel × Pool :=
  let (old, pool) := c.store.release pool
  (old, { c with store }.modifyTrack (·.replaceData length startOffset), pool)

/-- Replaces the content by `length` silent samples. -/
def clear (c : Channel) (length : Nat) (pool : Pool) : Channel × Pool :=
  let (store, pool) := c.store.release pool
  let (preRecord, pool) := c.preRecord.release pool
  let (store, pool) := store.growWithinReserve length pool
  let reset (t : Track) : Track := { t.replaceData length 0 with preRecordLength := 0, playedBack := none }
  ({ c with store, preRecord }.modifyTrack reset, pool)

/-- Replaces the content by that of a capture ring. `reverseStart` counts back
from the newest sample to where the loop starts; without it the loop starts at
the oldest one. Whole buffers are dropped in front while more than `keepBefore`
samples and one buffer would come before the start. -/
def adopt (c : Channel) (ring : CaptureRing) (reverseStart keepBefore : Option Nat) (pool : Pool) : Channel × Pool :=
  let size := ring.bufferSize
  let start := reverseStart.elim 0 (ring.depth - ·)
  let skip := keepBefore.elim 0 fun keep => blocksFor (start - (keep + size)) size * size
  let length := ring.depth - skip
  let (store, pool) := c.store.release pool
  let (store, pool) := store.growWithinReserve length pool
  let store := store.putAt 0 (ring.read skip (min length store.capacity))
  ({ c with store }.modifyTrack (·.replaceData length (start - skip : Nat)), pool)

/-- Gives all buffers back to the pool. -/
def release (c : Channel) (pool : Pool) : Channel × Pool :=
  let (store, pool) := c.store.release pool
  let (preRecord, pool) := c.preRecord.release pool
  ({ c with store, preRecord }, pool)

end Channel

end Overdub.Audio
