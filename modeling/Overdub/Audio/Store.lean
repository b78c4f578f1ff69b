import Overdub.Audio.Pool
/-!
# Recorded audio in buffers of the pool

A `Store` is a list of buffers of one size: sample `i` is sample
`i % bufferSize` of buffer `i / bufferSize`. It grows by whole buffers only. The
list has room for a number of buffers that is reserved up front; the operations
named `WithinReserve` stop there instead of enlarging it. Reading past the
buffers gives silence.
-/

namespace Overdub.Audio

/-- The room a list of buffers has after being enlarged to hold `needed`: at
least twice as much as before, and at least four. -/
def enlargedRoom (room needed : Nat) : Nat := if needed ≤ room then room else max (max (2 * room) needed) 4

/-- The number of blocks of `size` that hold `n` samples. -/
def blocksFor (n size : Nat) : Nat := (n + size - 1) / size

/-- Audio in buffers of one size. -/
structure Store where
  bufferSize : Nat
  /-- How many buffers the list has room for. -/
  room : Nat
  buffers : List Buffer

namespace Store

/-- An empty store with room for `samples` samples, and at least one buffer. -/
def withRoom (bufferSize samples : Nat) : Store :=
  let size := max 1 bufferSize
  ⟨size, max 1 (blocksFor samples size), []⟩

def new (bufferSize : Nat) : Store := withRoom bufferSize (256 * max 1 bufferSize)

/-- The samples that fit without growing. -/
def capacity (s : Store) : Nat := s.buffers.length * s.bufferSize

/-- `samples` samples fit without growing. -/
def fits (s : Store) (samples : Nat) : Bool := samples ≤ s.capacity

/-- The samples that fit into the reserved room. -/
def reserved (s : Store) : Nat := s.room * s.bufferSize

/-- Appends buffers, enlarging the room where it is needed. -/
def appendBuffers (s : Store) (added : List Buffer) : Store :=
  { s with buffers := s.buffers ++ added, room := enlargedRoom s.room (s.buffers.length + added.length) }

/-- How many buffers are missing to hold `samples` samples. -/
def missing (s : Store) (samples : Nat) : Nat := blocksFor samples s.bufferSize - s.buffers.length

/-- Appends `n` buffers of the pool one by one. -/
def push (s : Store) (pool : Pool) : Nat → Store × Pool
  | 0 => (s, pool)
  | n + 1 =>
    let (b, pool) := pool.acquire
    (s.appendBuffers [b]).push pool n

/-- Grows until `samples` samples fit. -/
def ensure (s : Store) (samples : Nat) (pool : Pool) : Store × Pool := s.push pool (s.missing samples)

/-- Grows towards `samples` samples, as far as the room goes. -/
def growWithinReserve (s : Store) (samples : Nat) (pool : Pool) : Store × Pool :=
  s.push pool (min (s.missing samples) (s.room - s.buffers.length))

/-- The samples from `position` to the end of the buffer that holds it. -/
def spaceInBuffer (s : Store) (position : Nat) : Nat := s.bufferSize - position % s.bufferSize

/-- The samples at `position` to `position + n`, if one buffer holds them all. -/
def slice? (s : Store) (position n : Nat) : Option Buffer :=
  s.buffers[position / s.bufferSize]?.bind fun b => Buffer.slice? b (position % s.bufferSize) n

/-- Applies `f` to the samples at `position` to `position + n`, if one buffer
holds them all. -/
def modifySlice (s : Store) (position n : Nat) (f : Sample → Sample) : Store :=
  match s.slice? position n with
  | none => s
  | some old =>
    let update (b : Buffer) := Buffer.overwrite b (position % s.bufferSize) (old.map f)
    { s with buffers := s.buffers.modify (position / s.bufferSize) update }

def at? (s : Store) (position : Nat) : Option Sample := (s.slice? position 1).bind (·.head?)

/-- Puts `source` into consecutive buffers from `position` on; what lies past
the last buffer is left out. -/
def spread : List Buffer → Nat → Buffer → List Buffer
  | [], _, _ => []
  | b :: rest, position, source =>
    if b.length ≤ position then b :: spread rest (position - b.length) source
    else if source.isEmpty then b :: rest
    else Buffer.overwrite b position source :: spread rest 0 (source.drop (b.length - position))

/-- Takes `n` samples out of consecutive buffers from `position` on; what lies
past the last buffer is silence. -/
def gather : List Buffer → Nat → Nat → Buffer
  | [], _, n => silence n
  | b :: rest, position, n =>
    if n = 0 then []
    else if b.length ≤ position then gather rest (position - b.length) n
    else
      let part := (b.drop position).take n
      part ++ gather rest 0 (n - part.length)

def putAt (s : Store) (position : Nat) (source : Buffer) : Store :=
  { s with buffers := spread s.buffers position source }

def write (s : Store) (position : Nat) (source : Buffer) (pool : Pool) : Store × Pool :=
  let (s, pool) := s.ensure (position + source.length) pool
  (s.putAt position source, pool)

/-- Writes as much of `source` at `position` as the reserved room holds, and
hands out how many samples that was. -/
def writeWithinReserve (s : Store) (position : Nat) (source : Buffer) (pool : Pool) : Nat × Store × Pool :=
  let (s, pool) := s.growWithinReserve (position + source.length) pool
  let n := min (s.capacity - position) source.length
  (n, s.putAt position (source.take n), pool)

/-- The samples at `position` to `position + n`. -/
def read (s : Store) (position n : Nat) : Buffer := gather s.buffers position n

def toBuffer (s : Store) (n : Nat) : Buffer := s.read 0 n

/-- The store without its buffers, which keep their room. -/
def clear (s : Store) : Store := { s with buffers := [] }

/-- Gives every buffer back to the pool. -/
def release (s : Store) (pool : Pool) : Store × Pool := (s.clear, pool.releaseAll s.buffers)

/-- Gives every buffer back to the pool and takes over others. -/
def replaceBuffers (s : Store) (buffers : List Buffer) (pool : Pool) : Store × Pool :=
  let (s, pool) := s.release pool
  (s.appendBuffers buffers, pool)

/-- A store that holds a copy of `samples`, with room for at least `reserved`
samples. -/
def ofBuffer (samples : Buffer) (reserved : Nat) (pool : Pool) : Store × Pool :=
  (withRoom pool.bufferSize (max reserved samples.length)).write 0 samples pool

end Store

end Overdub.Audio
