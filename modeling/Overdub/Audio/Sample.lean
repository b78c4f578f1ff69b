/-!
# Samples and buffers

Audio is single-precision. A `Buffer` is a run of samples; what lies outside of
a buffer counts as silence.
-/

namespace Overdub.Audio

abbrev Sample := Float32

abbrev Buffer := List Sample

/-- A run of `n` silent samples. -/
def silence (n : Nat) : Buffer := List.replicate n 0

namespace Buffer

/-- The same run with `source` in place of what was at `position`; what does not
fit is left out. -/
def overwrite (b : Buffer) (position : Nat) (source : Buffer) : Buffer :=
  b.take position ++ source.take (b.length - position) ++ b.drop (position + source.length)

/-- The run cut or filled up with silence to `n` samples. -/
def fit (n : Nat) (b : Buffer) : Buffer := b.take n ++ silence (n - b.length)

/-- The samples at `position` to `position + n`, if all of them exist. -/
def slice? (b : Buffer) (position n : Nat) : Option Buffer :=
  if position + n ≤ b.length then some ((b.drop position).take n) else none

theorem length_overwrite (b : Buffer) (position : Nat) (source : Buffer) :
    (overwrite b position source).length = b.length := by
  simp [overwrite]; omega

theorem length_fit (n : Nat) (b : Buffer) : (fit n b).length = n := by
  simp [fit, silence]; omega

end Buffer

/-- The louder of a peak so far and a sample; a sample that is no number counts
for nothing. -/
def raisePeak (peak sample : Sample) : Sample :=
  let level := sample.abs
  if peak < level then level else peak

end Overdub.Audio
