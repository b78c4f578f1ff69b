/-!
# Modes of loops and channels

A loop is in one `LoopMode` at a time, and each of its channels takes part in it
according to its own `ChannelMode`.
-/

namespace Overdub

/-- What a loop is doing. -/
inductive LoopMode where
  /-- No mode at all, which no plan can lead to. -/
  | unknown
  | stopped
  | playing
  | recording
  | replacing
  /-- Dry channels play into the effect chain, wet channels let its output pass. -/
  | playingDryThroughWet
  /-- Dry channels play into the effect chain, wet channels record its output anew. -/
  | recordingDryIntoWet
  deriving DecidableEq, Repr

namespace LoopMode

/-- The modes in which the position advances. -/
def isPlaying : LoopMode → Bool
  | .playing | .replacing | .playingDryThroughWet | .recordingDryIntoWet => true
  | .unknown | .stopped | .recording => false

/-- The number of a mode. -/
def toCode : LoopMode → Nat
  | .unknown => 0
  | .stopped => 1
  | .playing => 2
  | .recording => 3
  | .replacing => 4
  | .playingDryThroughWet => 5
  | .recordingDryIntoWet => 6

/-- The mode of a number; a number without one is unknown. -/
def ofCode : Nat → LoopMode
  | 1 => .stopped
  | 2 => .playing
  | 3 => .recording
  | 4 => .replacing
  | 5 => .playingDryThroughWet
  | 6 => .recordingDryIntoWet
  | _ => .unknown

@[simp] theorem ofCode_toCode (m : LoopMode) : ofCode m.toCode = m := by cases m <;> rfl

def name : LoopMode → String
  | .unknown => "Unknown"
  | .stopped => "Stopped"
  | .playing => "Playing"
  | .recording => "Recording"
  | .replacing => "Replacing"
  | .playingDryThroughWet => "PlayingDryThroughWet"
  | .recordingDryIntoWet => "RecordingDryIntoWet"

def ofName? (name : String) : Option LoopMode := ((List.range 7).map ofCode).find? (·.name = name)

end LoopMode

/-- How a channel takes part in the mode of its loop. -/
inductive ChannelMode where
  | disabled
  /-- Does what the loop does. -/
  | direct
  /-- Carries the signal in front of the effect chain. -/
  | dry
  /-- Carries the signal behind the effect chain. -/
  | wet
  deriving DecidableEq, Repr

namespace ChannelMode

/-- The number of a mode. -/
def toCode : ChannelMode → Nat
  | .disabled => 0
  | .direct => 1
  | .dry => 2
  | .wet => 3

/-- The mode of a number; a number without one is disabled. -/
def ofCode : Nat → ChannelMode
  | 1 => .direct
  | 2 => .dry
  | 3 => .wet
  | _ => .disabled

@[simp] theorem ofCode_toCode (m : ChannelMode) : ofCode m.toCode = m := by cases m <;> rfl

def name : ChannelMode → String
  | .disabled => "Disabled"
  | .direct => "Direct"
  | .dry => "Dry"
  | .wet => "Wet"

def ofName? (name : String) : Option ChannelMode := ((List.range 4).map ofCode).find? (·.name = name)

end ChannelMode

/-- The two kinds of data that flow through ports and channels. -/
inductive DataType where
  | audio
  | midi
  deriving DecidableEq, Repr

def DataType.name : DataType → String
  | .audio => "Audio"
  | .midi => "Midi"

/-- The direction of a port as the engine sees it. -/
inductive Direction where
  /-- Data enters the engine. -/
  | input
  /-- Data leaves the engine. -/
  | output
  deriving DecidableEq, Repr

def Direction.name : Direction → String
  | .input => "Input"
  | .output => "Output"

end Overdub
