import Overdub.Activity
import Overdub.Error
import Overdub.Poi
/-!
# The clock of a loop

A `Transport` holds a loop's mode, position, length and planned transitions, and
advances them chunk by chunk. It does not know the loop's channels: when it has
to ask them something, or to let them act on a chunk, the caller passes that in.

A trigger wraps a playing loop at its end and counts the planned transitions
down; a plan with countdown `d` fires on the `d + 1`-st trigger. A loop without a
playing sync source triggers itself when it reaches its end, any other one when
its sync source does.

The point of interest and the trigger prediction are derived: every change only
invalidates them, and `Transport.refresh` computes them anew. The state that
control threads see is `Transport.published`, brought up to date by
`Transport.publish`.
-/

namespace Overdub

/-- What channels are told of their loop when they are asked for a point of
interest. -/
structure PoiQuery where
  mode : LoopMode
  next : Upcoming
  position : Nat
  length : Nat
  deriving DecidableEq, Repr

/-- What channels are told of their loop when they act on a chunk. -/
structure ChunkContext where
  /-- The mode to act on: stopped when a playing loop is stuck at its end. -/
  mode : LoopMode
  next : Upcoming
  frames : Nat
  posBefore : Nat
  posAfter : Nat
  lenBefore : Nat
  lenAfter : Nat
  deriving DecidableEq, Repr

/-- What a loop knows of its sync source. -/
structure SyncView where
  mode : LoopMode
  position : Nat
  length : Nat
  nextTrigger : Option Nat
  deriving DecidableEq, Repr

/-- A mode change that waits for triggers. -/
structure PlannedTransition where
  mode : LoopMode
  /-- The triggers to let pass. -/
  countdown : Int
  deriving DecidableEq, Repr

namespace PlannedTransition

/-- The plan after one more trigger. -/
def countDown (p : PlannedTransition) : PlannedTransition := { p with countdown := p.countdown - 1 }

/-- All the triggers have passed. -/
def isDue (p : PlannedTransition) : Bool := p.countdown < 0

end PlannedTransition

/-- A loop's state as control threads see it. -/
structure LoopStatus where
  mode : LoopMode
  length : Nat
  position : Nat
  nextMode : Option LoopMode
  nextDelay : Option Nat
  deriving DecidableEq, Repr

/-- A frame count that fits the counters of a cycle. -/
def frames32? (n : Int) : Option Nat := if 0 ≤ n ∧ n ≤ maxFrames then some n.toNat else none

/-- Mode, position, length and plans of a loop. -/
structure Transport where
  mode : LoopMode
  position : Nat
  length : Nat
  /-- First to fire first. -/
  planned : List PlannedTransition
  nextPoi : Option Poi
  /-- The predicted samples until the loop, or its sync source, triggers. -/
  nextTrigger : Option Nat
  /-- The loop triggered during the last chunk. -/
  triggeringNow : Bool
  /-- The trigger of the current chunk has been dealt with. -/
  alreadyTriggered : Bool
  /-- The scheduling round in which the loop was last refreshed. -/
  round : Nat
  published : LoopStatus
  deriving DecidableEq, Repr

namespace Transport

/-- The state control threads should see. -/
def status (t : Transport) : LoopStatus :=
  let first := t.planned.head?
  let nextMode := first.bind fun p => if p.mode = .unknown ∨ p.countdown < 0 then none else some p.mode
  ⟨t.mode, t.length, t.position, nextMode, first.bind fun p => frames32? p.countdown⟩

/-- Shows the current state to control threads. -/
def publish (t : Transport) : Transport := { t with published := t.status }

/-- A stopped loop without content. -/
def new : Transport :=
  ⟨.stopped, 0, 0, [], none, none, false, false, 0, ⟨.stopped, 0, 0, none, none⟩⟩

instance : Inhabited Transport := ⟨new⟩

/-- What a follower sees of this loop. -/
def syncView (t : Transport) : SyncView := ⟨t.mode, t.position, t.length, t.nextTrigger⟩

/-- The first plan, with the time of the next trigger when that one fires it. -/
def upcoming (t : Transport) : Upcoming :=
  let delay := t.planned.head?.bind fun p => frames32? p.countdown
  ⟨t.planned.head?.map (·.mode), delay, if delay = some 0 then t.nextTrigger else none⟩

/-! ## Changes of mode, length and position -/

def setPosition (t : Transport) (position : Nat) : Transport :=
  if position = t.position then t
  else { t with position, nextPoi := none, nextTrigger := none }.publish

/-- Changes the length; a position past it moves to the last sample. -/
def setLength (t : Transport) (length : Nat) : Transport :=
  if length = t.length then t
  else
    let t := { t with length }
    let t := if length ≤ t.position then t.setPosition (length - 1) else t
    { t with nextPoi := none, nextTrigger := none }.publish

/-- Goes back to the start, except between playing modes. -/
def rewindFor (t : Transport) (mode : LoopMode) : Transport :=
  if t.mode.isPlaying && mode.isPlaying then t else t.setPosition 0

/-- Takes the length away ahead of a recording. -/
def clearFor (t : Transport) (mode : LoopMode) : Transport := if mode = .recording then t.setLength 0 else t

/-- Is in a mode from now on. A loop that is now playing from its start triggers. -/
def enter (t : Transport) (mode : LoopMode) : Transport :=
  let t := { t with mode, position := if mode = LoopMode.stopped then 0 else t.position, nextPoi := none }
  (if mode.isPlaying && t.position = 0 then { t with triggeringNow := true } else t).publish

/-- Changes the mode at once. The position is kept between playing modes, and a
recording starts without length. -/
def transition (t : Transport) (mode : LoopMode) : Transport :=
  if t.mode = mode then t else ((t.rewindFor mode).clearFor mode).enter mode

/-- Goes back to the start if a playing loop is at its end. -/
def wrap (t : Transport) : Transport :=
  if t.mode.isPlaying && t.length ≤ t.position then { t with position := 0 } else t

/-- Handles one trigger, at most once per chunk: wraps a playing loop at its end
and carries out the plans that are due. -/
def trigger (t : Transport) : Transport :=
  if t.alreadyTriggered then t
  else
    let planned := t.planned.map (·.countDown)
    let t := { t with alreadyTriggered := true, triggeringNow := true }.wrap
    let t := (planned.takeWhile (·.isDue)).foldl (fun t p => t.transition p.mode) t
    { t with planned := planned.dropWhile (·.isDue) }.publish

/-- Puts a plan in front of all plans that would fire with it or after it, which
are dropped. -/
def insertPlan (plan : PlannedTransition) (plans : List PlannedTransition) : List PlannedTransition :=
  plans.takeWhile (·.countdown < plan.countdown) ++ [plan]

/-- Plans a change of mode after `delay` more triggers. It is carried out at once
when it need not wait, or when no trigger is to come: the loop has no sync
source and is not playing. -/
def plan (t : Transport) (mode : LoopMode) (delay : Nat) (waitForSync hasSyncSource : Bool) : Transport :=
  if !waitForSync || (!hasSyncSource && t.mode != LoopMode.playing) then
    { t.transition mode with planned := [] }.publish
  else { t with planned := insertPlan ⟨mode, delay⟩ t.planned }.publish

def clearPlans (t : Transport) : Transport := { t with planned := [] }.publish

/-! ## Points of interest -/

/-- The samples until a playing loop reaches its end. -/
def untilEnd (t : Transport) : Option Nat :=
  if t.mode.isPlaying && t.position < t.length then some (clampFrames (t.length - t.position)) else none

/-- A playing loop without content stops. -/
def settled (t : Transport) : Transport :=
  if t.mode.isPlaying && t.length = 0 then t.transition .stopped else t

/-- What the channels are told when they are asked for a point of interest. -/
def poiQuery (t : Transport) : PoiQuery :=
  ⟨t.mode, { t.upcoming with eta := t.nextTrigger }, t.position, t.length⟩

/-- The loop's own point of interest, its end, and an earlier one of its
channels in place of it. -/
def pointOfInterest (t : Transport) (channelPoi : Option Nat) : Option Poi :=
  let own := t.untilEnd.map fun offset => ⟨offset, { loopEnd := true }⟩
  match channelPoi, own with
  | some offset, some poi => if offset < poi.offset then some ⟨offset, { channel := true }⟩ else own
  | some offset, none => some ⟨offset, { channel := true }⟩
  | none, _ => own

/-- Computes point of interest and trigger prediction anew. `channelPoi` answers
for the channels, `syncTrigger` is the prediction of the sync source. -/
def refresh (t : Transport) (channelPoi : PoiQuery → Option Nat) (syncTrigger : Option Nat) : Transport :=
  let t := t.settled
  let t := { t with nextPoi := t.pointOfInterest (channelPoi t.poiQuery) }
  { t with nextTrigger := minOffset t.untilEnd syncTrigger }

/-- Acts on a point of interest that has been reached exactly: at its end, a
loop without a playing sync source triggers itself. -/
def handlePoi (t : Transport) (sync : Option SyncView) : Transport :=
  match t.nextPoi with
  | some ⟨0, reasons⟩ =>
    let ownClock := sync.all fun s => !s.mode.isPlaying
    let t := if reasons.loopEnd && ownClock then t.trigger else t
    { t with nextPoi := none }
  | _ => t

/-! ## Chunks -/

/-- Position and length after `n` frames. -/
def advanced (t : Transport) (n : Nat) : Nat × Nat :=
  match t.mode with
  | .recording => (t.position, t.length + n)
  | .replacing => (t.position + n, max t.length (t.position + n))
  | .playing | .playingDryThroughWet | .recordingDryIntoWet => (min (t.position + n) t.length, t.length)
  | .stopped | .unknown => (t.position, t.length)

/-- What the channels are told of the next `n` frames. -/
def chunkContext (t : Transport) (n : Nat) : ChunkContext :=
  let (position, length) := t.advanced n
  let stuck := match t.mode with
    | .playing | .playingDryThroughWet | .recordingDryIntoWet => position == t.position
    | _ => false
  ⟨if stuck then .stopped else t.mode, t.upcoming, n, t.position, position, t.length, length⟩

/-- Advances by `n` frames, which the channels have acted on. -/
def advance (t : Transport) (n : Nat) (sync : Option SyncView) : Transport :=
  let (position, length) := t.advanced n
  let nextPoi := t.nextPoi.map fun p => { p with offset := p.offset - n }
  let nextTrigger := (t.nextTrigger.map (· - n)).filter (0 < ·)
  ({ t with position, length, nextPoi, nextTrigger }.handlePoi sync).publish

def beginChunk (t : Transport) : Transport := { t with triggeringNow := false, alreadyTriggered := false }

/-- Processes a chunk of `n` frames, which must not be empty or go past the point
of interest. `act` lets the channels act on the chunk; when they fail, the loop
stays where it is. -/
def process {σ : Type} (t : Transport) (n : Nat) (sync : Option SyncView)
    (act : ChunkContext → σ → σ × Except Error Unit) (channels : σ) : Transport × σ × Except Error Unit :=
  if n = 0 then (t, channels, .error (.internal "zero-length processing chunk"))
  else if t.nextPoi.any fun p => p.offset < n then
    (t, channels, .error (.internal "chunk exceeds point of interest"))
  else
    let t := t.beginChunk
    match act (t.chunkContext n) channels with
    | (channels, .ok ()) => (t.advance n sync, channels, .ok ())
    | (channels, .error e) => (t, channels, .error e)

end Transport

end Overdub
