import Overdub.Audio.Store
/-!
# The audio of the last few samples

A `CaptureRing` keeps the last `depth` samples that passed through a port in a
rotating list of pool buffers. It starts out full of silence, so its window is
always `depth` samples long. When the newest buffer is full the oldest one is
silenced and becomes the newest.
-/

namespace Overdub.Audio

/-- The last `depth` samples. -/
structure CaptureRing where
  /-- Oldest first. -/
  buffers : List Buffer
  bufferSize : Nat
  depth : Nat
  /-- How much of the newest buffer is in use. -/
  fill : Nat

namespace CaptureRing

/-- A silent ring made of pool buffers. -/
def new (depth : Nat) (pool : Pool) : CaptureRing × Pool :=
  let (buffers, pool) := pool.acquireMany (blocksFor depth pool.bufferSize + 1)
  (⟨buffers, pool.bufferSize, depth, pool.bufferSize⟩, pool)

/-- The samples the ring holds, of which the last `depth` are its window. -/
def stored (r : CaptureRing) : Nat := (r.buffers.length - 1) * r.bufferSize + r.fill

/-- Makes the oldest buffer the newest one when that is full. -/
def rotate (r : CaptureRing) : CaptureRing :=
  if r.fill = r.bufferSize then
    match r.buffers with
    | oldest :: rest => { r with buffers := rest ++ [silence oldest.length], fill := 0 }
    | [] => { r with fill := 0 }
  else r

def putSample (r : CaptureRing) (x : Sample) : CaptureRing :=
  let r := r.rotate
  { r with
    buffers := r.buffers.modify (r.buffers.length - 1) fun b => b.set r.fill x
    fill := r.fill + 1 }

/-- Appends samples, giving up the oldest ones. -/
def put (r : CaptureRing) (data : Buffer) : CaptureRing := data.foldl putSample r

/-- The window, oldest sample first. -/
def window (r : CaptureRing) : Buffer := (r.buffers.flatten.drop (r.stored - r.depth)).take r.depth

/-- The samples of the window at `offset` to `offset + n`; what lies past the
window is silence. -/
def read (r : CaptureRing) (offset n : Nat) : Buffer := Buffer.fit n (r.window.drop offset)

/-- Gives every buffer back to the pool. -/
def release (r : CaptureRing) (pool : Pool) : Pool := pool.releaseAll r.buffers

end CaptureRing

end Overdub.Audio
