import Mathlib.Data.List.Induction
import Mathlib.Tactic.SplitIfs
import Overdub.Audio.Store
/-!
# Stores as tapes

A store is a list of buffers, and nothing that is recorded or played depends on
where one buffer ends and the next begins. A `Tape` is the run of samples the
buffers of a store hold together. A write to the store is a write to its tape,
sample by sample, and a read is a piece of the tape; the buffers show only in the
length of the tape, which grows by whole blocks.

`Store.Sound` is what every operation on a store keeps: its buffers have its
size, and their list has room for them.
-/

namespace Overdub.Audio

/-! ## Writing into a run of samples -/

namespace Buffer

theorem getElem?_overwrite (b : Buffer) (position : Nat) (source : Buffer) (i : Nat) :
    (overwrite b position source)[i]? =
      if position ≤ i ∧ i < position + source.length ∧ i < b.length then source[i - position]? else b[i]? := by
  have hfront : (b.take position).length = min position b.length := List.length_take
  have hmiddle : (source.take (b.length - position)).length = min (b.length - position) source.length :=
    List.length_take
  unfold overwrite
  rw [List.append_assoc]
  by_cases hi : i < min position b.length
  · rw [List.getElem?_append_left (by omega), List.getElem?_take_of_lt (by omega), if_neg (by omega)]
  rw [List.getElem?_append_right (by omega), hfront]
  by_cases hwritten : position ≤ i ∧ i < position + source.length ∧ i < b.length
  · rw [List.getElem?_append_left (by omega), List.getElem?_take_of_lt (by omega), if_pos hwritten,
      Nat.min_eq_left (by omega)]
  · rw [if_neg hwritten, List.getElem?_append_right (by omega), List.getElem?_drop, hmiddle]
    by_cases hb : i < b.length
    · congr 1
      omega
    · rw [List.getElem?_eq_none (by omega), List.getElem?_eq_none (by omega)]

theorem overwrite_append_of_le {b rest : Buffer} {position : Nat} (h : b.length ≤ position) (source : Buffer) :
    overwrite (b ++ rest) position source = b ++ overwrite rest (position - b.length) source := by
  apply List.ext_getElem?
  intro i
  simp only [getElem?_overwrite, List.getElem?_append, List.length_append]
  split_ifs <;> first | rfl | omega | skip
  congr 1
  omega

theorem overwrite_append_of_lt {b rest : Buffer} {position : Nat} (h : position < b.length) (source : Buffer) :
    overwrite (b ++ rest) position source =
      overwrite b position source ++ overwrite rest 0 (source.drop (b.length - position)) := by
  apply List.ext_getElem?
  intro i
  simp only [getElem?_overwrite, List.getElem?_append, List.length_append, length_overwrite, List.getElem?_drop,
    List.length_drop]
  split_ifs <;> first | rfl | omega | skip
  congr 1
  omega

theorem overwrite_nil (b : Buffer) (position : Nat) : overwrite b position [] = b := by
  simp [overwrite]

/-- What does not fit is left out. -/
theorem overwrite_take (b : Buffer) (position : Nat) (source : Buffer) :
    overwrite b position (source.take (b.length - position)) = overwrite b position source := by
  apply List.ext_getElem?
  intro i
  simp only [getElem?_overwrite, List.getElem?_take, List.length_take]
  split_ifs <;> first | rfl | omega

/-- One more sample behind those written. -/
theorem overwrite_concat (b : Buffer) (position : Nat) (source : Buffer) (x : Sample) :
    overwrite b position (source ++ [x]) = (overwrite b position source).set (position + source.length) x := by
  apply List.ext_getElem?
  intro i
  simp only [getElem?_overwrite, List.getElem?_set, List.getElem?_append, List.length_append, List.length_singleton,
    length_overwrite]
  split_ifs <;> first | rfl | omega | skip
  · rw [show i - position - source.length = 0 by omega, List.getElem?_cons_zero]
  · rw [List.getElem?_eq_none (by omega)]

end Buffer

theorem flatten_length_of_sized {buffers : List Buffer} {size : Nat} (h : ∀ b ∈ buffers, b.length = size) :
    buffers.flatten.length = buffers.length * size := by
  induction buffers with
  | nil => simp
  | cons b rest ih =>
    rw [List.forall_mem_cons] at h
    rw [List.flatten_cons, List.length_append, ih h.2, h.1, List.length_cons, Nat.succ_mul, Nat.add_comm]

/-! ## Tapes -/

/-- A run of samples that grows by whole blocks, as far as there is room. -/
structure Tape where
  /-- The samples of a block. -/
  size : Nat
  /-- How many blocks there is room for. -/
  room : Nat
  samples : Buffer

namespace Tape

/-- The length that holds `n` samples: whole blocks, as far as the room goes. -/
def extent (t : Tape) (n : Nat) : Nat := min (blocksFor n t.size * t.size) (t.room * t.size)

/-- Grows towards `n` samples. What is new is silent. -/
def grow (t : Tape) (n : Nat) : Tape := { t with samples := t.samples ++ silence (t.extent n - t.samples.length) }

/-- Stores one sample. A sample that has no room is dropped. -/
def put (t : Tape) (position : Nat) (x : Sample) : Tape :=
  { t with samples := (t.grow (position + 1)).samples.set position x }

/-- Stores samples one by one. -/
def putAll (t : Tape) (position : Nat) : Buffer → Tape
  | [] => t
  | x :: rest => (t.put position x).putAll (position + 1) rest

/-- Drops all samples. -/
def erase (t : Tape) : Tape := { t with samples := [] }

theorem le_blocksFor_mul (n : Nat) {size : Nat} (h : 0 < size) : n ≤ blocksFor n size * size := by
  have hdiv := Nat.div_add_mod (n + size - 1) size
  have hmod := Nat.mod_lt (n + size - 1) h
  rw [Nat.mul_comm] at hdiv
  unfold blocksFor
  omega

theorem extent_mono (t : Tape) {n m : Nat} (h : n ≤ m) : t.extent n ≤ t.extent m := by
  have hblocks : blocksFor n t.size * t.size ≤ blocksFor m t.size * t.size :=
    Nat.mul_le_mul_right _ (Nat.div_le_div_right (by omega))
  unfold extent
  omega

/-- A tape that does not reach `n` samples has no more room. -/
theorem extent_of_lt {t : Tape} (hsize : 0 < t.size) {n : Nat} (h : t.extent n < n) (m : Nat) :
    t.extent m ≤ t.extent n := by
  have hblocks := le_blocksFor_mul n hsize
  unfold extent at *
  omega

@[simp] theorem grow_extent (t : Tape) (n m : Nat) : (t.grow n).extent m = t.extent m := rfl

@[simp] theorem put_extent (t : Tape) (position : Nat) (x : Sample) (n : Nat) :
    (t.put position x).extent n = t.extent n := rfl

theorem length_grow (t : Tape) (n : Nat) : (t.grow n).samples.length = max t.samples.length (t.extent n) := by
  simp only [grow, silence, List.length_append, List.length_replicate]
  omega

/-- Growing twice is growing once. -/
theorem grow_grow (t : Tape) {n m : Nat} (h : n ≤ m) : (t.grow n).grow m = t.grow m := by
  have hmono := t.extent_mono h
  unfold grow
  simp only [silence, List.append_assoc, List.replicate_append_replicate, List.length_append, List.length_replicate]
  congr 3
  show t.extent n - t.samples.length + (t.extent m - (t.samples.length + (t.extent n - t.samples.length))) = _
  omega

theorem putAll_concat (t : Tape) (position : Nat) (source : Buffer) (x : Sample) :
    t.putAll position (source ++ [x]) = (t.putAll position source).put (position + source.length) x := by
  induction source generalizing t position with
  | nil => rfl
  | cons y rest ih =>
    simp only [List.cons_append, putAll, ih, List.length_cons]
    congr 1
    omega

/-- Growing after a write that ended where the tape had grown to is growing before it. -/
theorem grow_overwrite (t : Tape) (hsize : 0 < t.size) (position m : Nat) {source : Buffer} (hsource : source ≠ [])
    (h : position + source.length ≤ m) :
    let written : Tape :=
      { t with samples := Buffer.overwrite (t.grow (position + source.length)).samples position source }
    (written.grow m).samples = Buffer.overwrite (t.grow m).samples position source := by
  have hlength := t.length_grow (position + source.length)
  have hpos := List.length_pos_iff.mpr hsource
  intro written
  rw [← t.grow_grow h]
  show Buffer.overwrite _ _ _ ++ silence (t.extent m - (Buffer.overwrite _ _ _).length) =
    Buffer.overwrite (_ ++ silence (t.extent m - _)) _ _
  rw [Buffer.length_overwrite]
  -- Either the write ended inside the tape, or the room has run out and nothing is appended.
  by_cases hfit : position + source.length ≤ (t.grow (position + source.length)).samples.length
  · rw [Buffer.overwrite_append_of_lt (by omega), List.drop_eq_nil_of_le (by omega), Buffer.overwrite_nil]
  · have hout := extent_of_lt (t := t) hsize (n := position + source.length) (by omega) m
    rw [Nat.sub_eq_zero_of_le (by omega)]
    simp [silence]

/-- Samples stored one by one lie on the tape as if it had grown at once and been
written in one piece. -/
theorem putAll_eq_overwrite (t : Tape) (hsize : 0 < t.size) (position : Nat) {source : Buffer} (h : source ≠ []) :
    t.putAll position source =
      { t with samples := Buffer.overwrite (t.grow (position + source.length)).samples position source } := by
  induction source using List.reverseRecOn with
  | nil => exact absurd rfl h
  | append_singleton rest x ih =>
    rw [putAll_concat]
    -- Writing nothing does not even grow the tape, so the first sample is a case of its own.
    by_cases hrest : rest = []
    · subst hrest
      rw [Buffer.overwrite_concat, Buffer.overwrite_nil]
      rfl
    · rw [ih hrest, Buffer.overwrite_concat]
      show { t with samples := (List.set _ _ _ : Buffer) } = _
      rw [grow_overwrite t hsize _ _ hrest (by omega), List.length_append, List.length_singleton, Nat.add_assoc]

end Tape

/-! ## The pool -/

/-- The buffers at hand are silent and have the pool's size. -/
def Pool.Sound (p : Pool) : Prop := ∀ b ∈ p.available, b = silence p.bufferSize

namespace Pool

theorem new_sound (bufferSize target : Nat) : (new bufferSize target).Sound := by
  intro b hb
  simpa using List.eq_of_mem_replicate (by simpa [new, refill] using hb)

@[simp] theorem acquire_bufferSize (p : Pool) : p.acquire.2.bufferSize = p.bufferSize := by
  unfold acquire
  split <;> rfl

theorem Sound.acquire {p : Pool} (h : p.Sound) : p.acquire.1 = silence p.bufferSize ∧ p.acquire.2.Sound := by
  unfold Pool.acquire
  split
  · next b rest hb =>
    rw [Sound, hb, List.forall_mem_cons] at h
    exact h
  · next hb => exact ⟨rfl, by simp [Sound, hb]⟩

@[simp] theorem release_bufferSize (p : Pool) (b : Buffer) : (p.release b).bufferSize = p.bufferSize := by
  unfold release
  split <;> rfl

theorem Sound.release {p : Pool} (h : p.Sound) (b : Buffer) : (p.release b).Sound := by
  unfold Pool.release
  split
  · intro b' hb'
    rcases List.mem_append.mp hb' with hb' | hb'
    · exact h b' hb'
    · exact List.mem_singleton.mp hb'
  · exact h

@[simp] theorem releaseAll_bufferSize (p : Pool) (buffers : List Buffer) :
    (p.releaseAll buffers).bufferSize = p.bufferSize := by
  induction buffers generalizing p with
  | nil => rfl
  | cons b rest ih => exact (ih (p.release b)).trans (p.release_bufferSize b)

theorem Sound.releaseAll {p : Pool} (h : p.Sound) (buffers : List Buffer) : (p.releaseAll buffers).Sound := by
  induction buffers generalizing p with
  | nil => exact h
  | cons b rest ih => exact ih (h.release b)

end Pool

/-! ## Stores -/

namespace Store

/-- The buffers have the store's size, and their list has room for them. -/
structure Sound (s : Store) : Prop where
  size_pos : 0 < s.bufferSize
  sized : ∀ b ∈ s.buffers, b.length = s.bufferSize
  room : s.buffers.length ≤ s.room

/-- The store grows by silent buffers of its own size. -/
structure Backed (s : Store) (pool : Pool) : Prop extends s.Sound where
  silent : pool.Sound
  size : s.bufferSize = pool.bufferSize

/-- The samples of the buffers, one after the other. -/
def tape (s : Store) : Tape := ⟨s.bufferSize, s.room, s.buffers.flatten⟩

theorem withRoom_sound (bufferSize samples : Nat) : (withRoom bufferSize samples).Sound where
  size_pos := by
    show 0 < max 1 bufferSize
    omega
  sized := by simp [withRoom]
  room := Nat.zero_le _

theorem new_sound (bufferSize : Nat) : (new bufferSize).Sound := withRoom_sound _ _

theorem Sound.length_tape {s : Store} (h : s.Sound) : s.tape.samples.length = s.capacity :=
  flatten_length_of_sized h.sized

/-! ### Growing -/

theorem le_enlargedRoom (room needed : Nat) : needed ≤ enlargedRoom room needed := by
  unfold enlargedRoom
  split_ifs <;> omega

theorem Sound.appendBuffers {s : Store} (h : s.Sound) {added : List Buffer}
    (hadded : ∀ b ∈ added, b.length = s.bufferSize) : (s.appendBuffers added).Sound where
  size_pos := h.size_pos
  sized := by
    intro b hb
    rcases List.mem_append.mp hb with hb | hb
    · exact h.sized b hb
    · exact hadded b hb
  room := by
    show (s.buffers ++ added).length ≤ _
    rw [List.length_append]
    exact le_enlargedRoom _ _

theorem opened_backed {bufferSize : Nat} {pool : Pool} (hsilent : pool.Sound) (hsize : max 1 bufferSize = pool.bufferSize)
    (reserved : Option Nat) : (reserved.elim (new bufferSize) (withRoom bufferSize)).Backed pool := by
  cases reserved with
  | none => exact ⟨new_sound _, hsilent, hsize⟩
  | some n => exact ⟨withRoom_sound _ n, hsilent, hsize⟩

theorem push_bufferSize (s : Store) (pool : Pool) (n : Nat) :
    (s.push pool n).1.bufferSize = s.bufferSize ∧ (s.push pool n).2.bufferSize = pool.bufferSize := by
  induction n generalizing s pool with
  | zero => exact ⟨rfl, rfl⟩
  | succ n ih => exact ⟨(ih _ _).1, (ih _ _).2.trans pool.acquire_bufferSize⟩

/-- What happens to another store of the pool does not matter. -/
theorem Backed.of_pool {s : Store} {pool pool' : Pool} (h : s.Backed pool) (hsilent : pool'.Sound)
    (hsize : pool'.bufferSize = pool.bufferSize) : s.Backed pool' :=
  ⟨h.toSound, hsilent, h.size.trans hsize.symm⟩

theorem Backed.push {s : Store} {pool : Pool} (h : s.Backed pool) (n : Nat) :
    (s.push pool n).1.Backed (s.push pool n).2 := by
  induction n generalizing s pool with
  | zero => exact h
  | succ n ih =>
    obtain ⟨hb, hsilent⟩ := h.silent.acquire
    show ((s.appendBuffers [pool.acquire.1]).push pool.acquire.2 n).1.Backed
      ((s.appendBuffers [pool.acquire.1]).push pool.acquire.2 n).2
    apply ih
    refine ⟨h.appendBuffers ?_, hsilent, h.size.trans pool.acquire_bufferSize.symm⟩
    intro b hmem
    rw [List.mem_singleton.mp hmem, hb, silence, List.length_replicate, h.size]

/-- Within its room a store grows by silent buffers and changes in nothing else. -/
theorem push_of_le_room {s : Store} {pool : Pool} (hpool : pool.Sound) {n : Nat}
    (hn : s.buffers.length + n ≤ s.room) :
    (s.push pool n).1 = { s with buffers := s.buffers ++ List.replicate n (silence pool.bufferSize) } := by
  induction n generalizing s pool with
  | zero => simp [Store.push]
  | succ n ih =>
    obtain ⟨hb, hpool'⟩ := hpool.acquire
    have hroom : enlargedRoom s.room (s.buffers.length + 1) = s.room := if_pos (by omega)
    have happend : s.appendBuffers [pool.acquire.1] = { s with buffers := s.buffers ++ [silence pool.bufferSize] } := by
      simp only [Store.appendBuffers, List.length_singleton, hroom, hb]
    show ((s.appendBuffers [pool.acquire.1]).push pool.acquire.2 n).1 = _
    rw [happend, ih hpool' (by simp only [List.length_append, List.length_singleton]; omega), pool.acquire_bufferSize]
    simp [List.replicate_succ]

theorem growWithinReserve_tape {s : Store} {pool : Pool} (h : s.Backed pool) (n : Nat) :
    (s.growWithinReserve n pool).1.tape = s.tape.grow n := by
  have hroom := h.room
  have hcapacity := h.length_tape
  unfold growWithinReserve
  rw [push_of_le_room h.silent (by omega)]
  unfold tape Tape.grow at *
  dsimp only at hcapacity ⊢
  rw [List.flatten_append, hcapacity, ← h.size]
  simp only [silence, List.flatten_replicate_replicate]
  congr 3
  rw [missing, capacity, Tape.extent, Nat.mul_min_mul_right, ← Nat.sub_mul]
  dsimp only
  congr 1
  omega

/-! ### Writing and reading -/

theorem spread_length (buffers : List Buffer) (position : Nat) (source : Buffer) :
    (spread buffers position source).map (·.length) = buffers.map (·.length) := by
  induction buffers generalizing position source with
  | nil => rfl
  | cons b rest ih =>
    unfold spread
    split_ifs
    · rw [List.map_cons, ih, List.map_cons]
    · rfl
    · rw [List.map_cons, ih, List.map_cons, Buffer.length_overwrite]

theorem spread_flatten (buffers : List Buffer) (position : Nat) (source : Buffer) :
    (spread buffers position source).flatten = Buffer.overwrite buffers.flatten position source := by
  induction buffers generalizing position source with
  | nil => simp [spread, Buffer.overwrite]
  | cons b rest ih =>
    unfold spread
    split_ifs with hb hsource
    · rw [List.flatten_cons, List.flatten_cons, ih, Buffer.overwrite_append_of_le hb]
    · rw [List.isEmpty_iff.mp hsource, Buffer.overwrite_nil]
    · rw [List.flatten_cons, List.flatten_cons, ih, Buffer.overwrite_append_of_lt (by omega)]

theorem Sound.putAt {s : Store} (h : s.Sound) (position : Nat) (source : Buffer) : (s.putAt position source).Sound where
  size_pos := h.size_pos
  sized := by
    intro b hb
    have hlength : b.length ∈ (spread s.buffers position source).map (·.length) := List.mem_map_of_mem hb
    rw [spread_length] at hlength
    obtain ⟨b', hb', heq⟩ := List.mem_map.mp hlength
    rw [← heq]
    exact h.sized b' hb'
  room := by
    have hlength := congrArg List.length (spread_length s.buffers position source)
    rw [List.length_map, List.length_map] at hlength
    exact hlength ▸ h.room

theorem putAt_tape (s : Store) (position : Nat) (source : Buffer) :
    (s.putAt position source).tape =
      { s.tape with samples := Buffer.overwrite s.tape.samples position source } := by
  simp only [tape, Store.putAt, spread_flatten]

theorem gather_eq (buffers : List Buffer) (position n : Nat) :
    gather buffers position n = Buffer.fit n (buffers.flatten.drop position) := by
  induction buffers generalizing position n with
  | nil => simp [gather, Buffer.fit]
  | cons b rest ih =>
    unfold gather
    rw [List.flatten_cons, List.drop_append]
    split_ifs with hn hb
    · simp [hn, Buffer.fit, silence]
    · rw [ih, List.drop_eq_nil_of_le hb, List.nil_append]
    · dsimp only
      rw [ih, show position - b.length = 0 by omega, List.drop_zero]
      simp only [Buffer.fit, List.take_append, List.length_append, List.length_take, List.append_assoc]
      congr 2
      · congr 1
        omega
      · congr 1
        omega

/-- Reading within the buffers takes a piece of the tape. -/
theorem read_eq {s : Store} {position n : Nat} (h : n ≤ s.tape.samples.length - position) :
    s.read position n = (s.tape.samples.drop position).take n := by
  unfold read tape at *
  dsimp only at h ⊢
  rw [gather_eq, Buffer.fit, List.length_drop, Nat.sub_eq_zero_of_le (by omega)]
  simp [silence]

/-- A write stores sample by sample; what the room does not hold is dropped. -/
theorem writeWithinReserve_tape {s : Store} {pool : Pool} (h : s.Backed pool) (position : Nat) {source : Buffer}
    (hsource : source ≠ []) :
    (s.writeWithinReserve position source pool).2.1.tape = s.tape.putAll position source := by
  have hgrown := growWithinReserve_tape h (position + source.length)
  have hsound : (s.growWithinReserve (position + source.length) pool).1.Sound := (h.push _).toSound
  have hcapacity := hsound.length_tape
  rw [Tape.putAll_eq_overwrite _ h.size_pos position hsource, ← hgrown]
  have hwritten : (s.writeWithinReserve position source pool).2.1 =
      (s.growWithinReserve (position + source.length) pool).1.putAt position
        (source.take
          (min ((s.growWithinReserve (position + source.length) pool).1.capacity - position) source.length)) :=
    rfl
  rw [hwritten, putAt_tape, ← hcapacity, ← List.take_eq_take_min, Buffer.overwrite_take, hgrown]
  rfl

theorem Backed.writeWithinReserve {s : Store} {pool : Pool} (h : s.Backed pool) (position : Nat) (source : Buffer) :
    (s.writeWithinReserve position source pool).2.1.Backed (s.writeWithinReserve position source pool).2.2 := by
  have hgrown := h.push (min (s.missing (position + source.length)) (s.room - s.buffers.length))
  exact ⟨hgrown.putAt _ _, hgrown.silent, hgrown.size⟩

theorem Backed.write {s : Store} {pool : Pool} (h : s.Backed pool) (position : Nat) (source : Buffer) :
    (s.write position source pool).1.Backed (s.write position source pool).2 := by
  have hgrown := h.push (s.missing (position + source.length))
  exact ⟨hgrown.putAt _ _, hgrown.silent, hgrown.size⟩

theorem writeWithinReserve_bufferSize (s : Store) (pool : Pool) (position : Nat) (source : Buffer) :
    (s.writeWithinReserve position source pool).2.2.bufferSize = pool.bufferSize :=
  (s.push_bufferSize pool _).2

/-! ### Giving buffers back -/

@[simp] theorem release_tape (s : Store) (pool : Pool) : (s.release pool).1.tape = s.tape.erase := rfl

theorem Backed.release {s : Store} {pool : Pool} (h : s.Backed pool) :
    (s.release pool).1.Backed (s.release pool).2 where
  size_pos := h.size_pos
  sized := by simp [Store.release, Store.clear]
  room := Nat.zero_le _
  silent := h.silent.releaseAll _
  size := h.size.trans (pool.releaseAll_bufferSize _).symm

theorem release_bufferSize (s : Store) (pool : Pool) : (s.release pool).2.bufferSize = pool.bufferSize :=
  pool.releaseAll_bufferSize _

end Store

end Overdub.Audio
