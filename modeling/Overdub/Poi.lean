/-!
# Points of interest

A point of interest is the offset, counted from the start of the next chunk, at
which a loop has to stop and look again: its end is reached, or one of its
channels has used up the buffers of the cycle. No loop is processed past it.
-/

namespace Overdub

/-- The largest frame count a cycle or a prediction can state. -/
def maxFrames : Nat := UInt32.size - 1

/-- A count cut off at the largest frame count. -/
def clampFrames (n : Nat) : Nat := min n maxFrames

/-- Why a loop has to stop. -/
structure Poi.Reasons where
  /-- The loop reaches its length. -/
  loopEnd : Bool := false
  /-- A channel reaches the end of the buffers it works on. -/
  channel : Bool := false
  deriving DecidableEq, Repr

def Poi.Reasons.isEmpty (r : Poi.Reasons) : Bool := !(r.loopEnd || r.channel)

/-- A point of interest `offset` samples from now. -/
structure Poi where
  offset : Nat
  reasons : Poi.Reasons
  deriving DecidableEq, Repr

/-- The earlier of two points; two on the same sample are one with the reasons
of both. -/
def Poi.earlier (a b : Poi) : Poi :=
  if a.offset = b.offset then
    ⟨a.offset, ⟨a.reasons.loopEnd || b.reasons.loopEnd, a.reasons.channel || b.reasons.channel⟩⟩
  else if a.offset < b.offset then a else b

/-- The earlier of two points that may be absent. -/
def Poi.dominant : Option Poi → Option Poi → Option Poi := Option.merge Poi.earlier

/-- The smaller of two offsets that may be absent. -/
def minOffset : Option Nat → Option Nat → Option Nat := Option.merge min

end Overdub
