import Overdub.Audio.Sample
/-!
# The pool of audio buffers

Recorded audio grows by whole buffers of one size. A `Pool` keeps such buffers
ready: taking one when none is left makes a new one, and a buffer that comes
back is silenced first. At most twice the target is kept; a buffer beyond that,
or of another size, is dropped. The counters account for every buffer.
-/

namespace Overdub.Audio

/-- Silent buffers of one size, and the count of those made and dropped. -/
structure Pool where
  bufferSize : Nat
  /-- How many buffers a refill brings it back to. -/
  target : Nat
  /-- The buffers at hand, the next one to be taken first. -/
  available : List Buffer
  created : Nat
  /-- How many were made because none was at hand. -/
  overflowed : Nat
  dropped : Nat

namespace Pool

/-- The most buffers a pool keeps. -/
def capacity (p : Pool) : Nat := max 1 (2 * p.target)

/-- Fills the pool up to its target and hands out the number of buffers added. -/
def refill (p : Pool) : Nat × Pool :=
  let added := p.target - p.available.length
  (added, { p with
    available := p.available ++ List.replicate added (silence p.bufferSize), created := p.created + added })

/-- A pool filled up to its target. A buffer has at least one sample. -/
def new (bufferSize target : Nat) : Pool := (refill ⟨max 1 bufferSize, target, [], 0, 0, 0⟩).2

def acquire (p : Pool) : Buffer × Pool :=
  match p.available with
  | b :: rest => (b, { p with available := rest })
  | [] => (silence p.bufferSize, { p with created := p.created + 1, overflowed := p.overflowed + 1 })

def acquireMany (p : Pool) : Nat → List Buffer × Pool
  | 0 => ([], p)
  | n + 1 =>
    let (b, p) := p.acquire
    let (rest, p) := p.acquireMany n
    (b :: rest, p)

def release (p : Pool) (b : Buffer) : Pool :=
  if b.length = p.bufferSize ∧ p.available.length < p.capacity then
    { p with available := p.available ++ [silence p.bufferSize] }
  else { p with dropped := p.dropped + 1 }

/-- Takes several buffers back in turn. -/
def releaseAll (p : Pool) (buffers : List Buffer) : Pool := buffers.foldl release p

end Pool

end Overdub.Audio
