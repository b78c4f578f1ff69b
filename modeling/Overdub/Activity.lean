import Overdub.Mode
/-!
# What a channel does with a chunk

A channel has no clock of its own. For each chunk it looks at the mode of its
loop, at its own mode and at the loop's next planned transition, and derives
which of four activities the chunk is for and where in its data the chunk lies.
-/

namespace Overdub

/-- What a channel does with the samples of one chunk. -/
structure Activity where
  /-- Adds stored data to the output. -/
  playback : Bool := false
  /-- Appends the input to the stored data. -/
  record : Bool := false
  /-- Overwrites stored data with the input at the play position. -/
  replace : Bool := false
  /-- Keeps the input aside, ahead of a planned recording. -/
  preRecord : Bool := false
  deriving DecidableEq, Repr

namespace Activity

def idle : Activity := {}

def isIdle (a : Activity) : Bool := !(a.playback || a.record || a.replace || a.preRecord)

/-- What is done in one or the other. -/
def union (a b : Activity) : Activity :=
  ⟨a.playback || b.playback, a.record || b.record, a.replace || b.replace, a.preRecord || b.preRecord⟩

/-- What is done in both. -/
def inter (a b : Activity) : Activity :=
  ⟨a.playback && b.playback, a.record && b.record, a.replace && b.replace, a.preRecord && b.preRecord⟩

/-- What is done in the first and not in the second. -/
def diff (a b : Activity) : Activity :=
  ⟨a.playback && !b.playback, a.record && !b.record, a.replace && !b.replace, a.preRecord && !b.preRecord⟩

/-- All that the second does, the first does too. -/
def contains (a b : Activity) : Bool := (b.diff a).isIdle

/-- Something is done in both. -/
def meets (a b : Activity) : Bool := !(a.inter b).isIdle

/-- The names of what is done. -/
def names (a : Activity) : List String :=
  [(a.playback, "PLAYBACK"), (a.record, "RECORD"), (a.replace, "REPLACE"), (a.preRecord, "PRERECORD")].filterMap
    fun (done, name) => if done then some name else none

/-- What a channel of the given mode does while its loop is in `loopMode`. The
wet signal already carries a plain playback, so a dry channel plays only into
the effect chain; and while it does, the live output of the chain stands in for
the wet signal. -/
def ofModes (loopMode : LoopMode) (channelMode : ChannelMode) : Activity :=
  match channelMode, loopMode with
  | .disabled, _ => idle
  | .dry, .playing => idle
  | .dry, .playingDryThroughWet | .dry, .recordingDryIntoWet => { playback := true }
  | .wet, .playingDryThroughWet => idle
  | .wet, .recordingDryIntoWet | .direct, .recordingDryIntoWet => { replace := true }
  | .direct, .playingDryThroughWet => { playback := true }
  | _, .playing => { playback := true }
  | _, .recording => { record := true }
  | _, .replacing => { replace := true }
  | _, .stopped | _, .unknown => idle

end Activity

/-- A loop's next planned transition, as far as it is known. -/
structure Upcoming where
  mode : Option LoopMode := none
  /-- The sync triggers to let pass before the transition fires. -/
  delay : Option Nat := none
  /-- The samples until the next trigger. -/
  eta : Option Nat := none
  deriving DecidableEq, Repr

/-- The next mode and the samples until it begins, if the very next trigger
brings it and that trigger is foreseen. -/
def Upcoming.imminent? : Upcoming → Option (LoopMode × Nat)
  | ⟨some mode, some 0, some eta⟩ => some (mode, eta)
  | _ => none

/-- What a channel does with a chunk, and where in its data. -/
structure ChunkTask where
  activity : Activity
  /-- Negative in front of the data, while playback is still ahead. -/
  position : Int
  deriving DecidableEq, Repr

/-- The task of a channel for a chunk at loop position `position`. The start
offset places loop position zero in the channel's data. A channel that is about
to play already plays what leads up to its start, and one that is about to
record already keeps its input aside. -/
def ChunkTask.of (loopMode : LoopMode) (next : Upcoming) (position : Nat) (startOffset : Int)
    (channelMode : ChannelMode) : ChunkTask :=
  let now := Activity.ofModes loopMode channelMode
  let task : ChunkTask := ⟨now, position + startOffset⟩
  match next.imminent? with
  | none => task
  | some (nextMode, eta) =>
    let soon := Activity.ofModes nextMode channelMode
    if now.isIdle && soon.playback then ⟨{ now with playback := true }, startOffset - eta⟩
    else if !now.record && soon.record then { task with activity := { now with preRecord := true } }
    else task

end Overdub
