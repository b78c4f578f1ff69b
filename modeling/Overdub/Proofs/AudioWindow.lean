import Mathlib.Data.List.DropRight
import Overdub.Audio.CaptureRing
import Overdub.Proofs.Tape
/-!
# The window of an audio capture ring

However much has been put into a ring, it is made of as many buffers as its depth
takes and one more, so its window is always `depth` samples long. What it holds is
the end of all that has been put into it, behind silence (`Hears.window_eq`).
-/

namespace Overdub.Audio

theorem lt_of_lt_blocksFor {n size k : Nat} (hsize : 0 < size) (h : k < blocksFor n size) : k * size < n := by
  have hle := (Nat.le_div_iff_mul_le hsize).mp (Nat.succ_le_of_lt h)
  rw [Nat.succ_mul] at hle
  omega

namespace Pool

theorem acquireMany_bufferSize (p : Pool) (n : Nat) : (p.acquireMany n).2.bufferSize = p.bufferSize := by
  induction n generalizing p with
  | zero => rfl
  | succ n ih => exact (ih p.acquire.2).trans p.acquire_bufferSize

/-- What is taken out of a pool is silent, be it at hand or new. -/
theorem acquireMany_eq {p : Pool} (h : p.Sound) (n : Nat) :
    (p.acquireMany n).1 = List.replicate n (silence p.bufferSize) := by
  induction n generalizing p with
  | zero => rfl
  | succ n ih =>
    obtain ⟨hb, hnext⟩ := h.acquire
    show p.acquire.1 :: (p.acquire.2.acquireMany n).1 = _
    rw [hb, ih hnext, acquire_bufferSize, List.replicate_succ]

end Pool

namespace CaptureRing

/-- A ring is made of buffers of its size, as many as its depth takes and one more. -/
structure Sound (r : CaptureRing) : Prop where
  size_pos : 0 < r.bufferSize
  sized : ∀ b ∈ r.buffers, b.length = r.bufferSize
  count : r.buffers.length = blocksFor r.depth r.bufferSize + 1
  fill_le : r.fill ≤ r.bufferSize

/-- The rings there are: new ones, and those into which samples have been put. -/
inductive Reachable : CaptureRing → Prop where
  | new (depth : Nat) {pool : Pool} : pool.Sound → 0 < pool.bufferSize → Reachable (new depth pool).1
  | put {r : CaptureRing} (data : Buffer) : Reachable r → Reachable (r.put data)

theorem new_eq {depth : Nat} {pool : Pool} (hpool : pool.Sound) :
    (new depth pool).1 = ⟨List.replicate (blocksFor depth pool.bufferSize + 1) (silence pool.bufferSize),
      pool.bufferSize, depth, pool.bufferSize⟩ := by
  simp only [new, Pool.acquireMany_eq hpool, Pool.acquireMany_bufferSize]

theorem new_sound (depth : Nat) {pool : Pool} (hpool : pool.Sound) (hsize : 0 < pool.bufferSize) :
    (new depth pool).1.Sound := by
  rw [new_eq hpool]
  exact
    { size_pos := hsize
      sized := fun b hb => by rw [List.eq_of_mem_replicate hb, silence, List.length_replicate]
      count := List.length_replicate
      fill_le := Nat.le_refl _ }

/-- A ring that has rotated has room in its newest buffer. -/
theorem Sound.rotate {r : CaptureRing} (h : r.Sound) : r.rotate.Sound ∧ r.rotate.fill < r.rotate.bufferSize := by
  have hsize := h.size_pos
  have hcount := h.count
  have hsized := h.sized
  have hfill := h.fill_le
  unfold CaptureRing.rotate
  split
  · cases hbuffers : r.buffers with
    | nil => simp [hbuffers] at hcount
    | cons oldest rest =>
      rw [hbuffers, List.forall_mem_cons] at hsized
      rw [hbuffers, List.length_cons] at hcount
      refine ⟨⟨hsize, ?_, ?_, Nat.zero_le _⟩, hsize⟩
      · intro b hb
        rcases List.mem_append.mp hb with hb | hb
        · exact hsized.2 b hb
        · rw [List.mem_singleton.mp hb, silence, List.length_replicate, hsized.1]
      · show (rest ++ [_]).length = _
        rw [List.length_append, List.length_singleton]
        exact hcount
  · exact ⟨h, by omega⟩

theorem Sound.putSample {r : CaptureRing} (h : r.Sound) (x : Sample) : (r.putSample x).Sound := by
  obtain ⟨hrotated, hroom⟩ := h.rotate
  refine ⟨hrotated.size_pos, ?_, ?_, hroom⟩
  · intro b hb
    obtain ⟨i, hi⟩ := List.mem_iff_getElem?.mp hb
    rw [CaptureRing.putSample, List.getElem?_modify] at hi
    obtain ⟨old, hold, rfl⟩ := Option.map_eq_some_iff.mp hi
    have hlength := hrotated.sized old (List.mem_of_getElem? hold)
    split
    · rw [List.length_set]
      exact hlength
    · exact hlength
  · show (r.rotate.buffers.modify _ _).length = _
    rw [List.length_modify]
    exact hrotated.count

theorem Sound.put {r : CaptureRing} (h : r.Sound) (data : Buffer) : (r.put data).Sound := by
  induction data generalizing r with
  | nil => exact h
  | cons x rest ih => exact ih (h.putSample x)

theorem Reachable.sound {r : CaptureRing} (h : r.Reachable) : r.Sound := by
  induction h with
  | new depth hpool hsize => exact new_sound depth hpool hsize
  | put data _ ih => exact ih.put data

theorem Sound.length_window {r : CaptureRing} (h : r.Sound) : r.window.length = r.depth := by
  have hblocks := Tape.le_blocksFor_mul r.depth h.size_pos
  have hfill := h.fill_le
  rw [window, List.length_take, List.length_drop, flatten_length_of_sized h.sized, stored, h.count,
    Nat.add_sub_cancel, Nat.succ_mul]
  omega

@[simp] theorem put_depth (r : CaptureRing) (data : Buffer) : (r.put data).depth = r.depth := by
  induction data generalizing r with
  | nil => rfl
  | cons x rest ih =>
    refine (ih (r.putSample x)).trans ?_
    show r.rotate.depth = r.depth
    unfold rotate
    split_ifs
    · split <;> rfl
    · rfl

/-! ## What the window holds -/

theorem rtake_drop {α : Type} (l : List α) {n k : Nat} (hn : n ≤ l.length) (hk : k ≤ n) :
    (l.rtake n).drop k = l.rtake (n - k) := by
  unfold List.rtake
  rw [List.drop_drop]
  congr 1
  omega

/-- Silence in front that does not reach into the end does not matter. -/
theorem rtake_behind_silence {n k : Nat} (past : Buffer) (hk : n ≤ k) :
    (silence k ++ past).rtake n = (silence n ++ past).rtake n := by
  have hsplit : silence k ++ past = silence (k - n) ++ (silence n ++ past) := by
    rw [← List.append_assoc, silence, silence, silence, List.replicate_append_replicate, Nat.sub_add_cancel hk]
  have hfront : (silence (k - n)).length = k - n := List.length_replicate
  have hback : (silence n ++ past).length = n + past.length := by simp [silence]
  rw [hsplit]
  unfold List.rtake
  rw [List.length_append, hfront, hback, List.drop_append,
    List.drop_of_length_le (by rw [hfront]; omega), List.nil_append]
  congr 1
  omega

/-- A ring into which `past` has been put: what it stores is the end of that,
behind as much silence as it has room for. -/
structure Hears (r : CaptureRing) (past : Buffer) : Prop extends r.Sound where
  stores : r.buffers.flatten.take r.stored = (silence (r.buffers.length * r.bufferSize) ++ past).rtake r.stored

variable {r : CaptureRing} {past : Buffer}

theorem Sound.stored_le (h : r.Sound) : r.stored ≤ r.buffers.length * r.bufferSize := by
  have hfill := h.fill_le
  rw [stored, h.count, Nat.add_sub_cancel, Nat.succ_mul]
  omega

theorem Sound.depth_le_stored (h : r.Sound) : r.depth ≤ r.stored := by
  have hblocks := Tape.le_blocksFor_mul r.depth h.size_pos
  rw [stored, h.count, Nat.add_sub_cancel]
  omega

/-- The newest buffer is the last one. -/
theorem Sound.newest (h : r.Sound) : ∃ front newest, r.buffers = front ++ [newest] ∧
    r.stored = front.flatten.length + r.fill ∧ newest.length = r.bufferSize := by
  have hcount := h.count
  have hsome : r.buffers ≠ [] := by
    intro hnone
    rw [hnone] at hcount
    exact absurd hcount (by simp)
  obtain ⟨front, newest, hbuffers⟩ : ∃ front newest, r.buffers = front ++ [newest] :=
    ⟨_, _, (List.dropLast_append_getLast hsome).symm⟩
  have hsized := h.sized
  rw [hbuffers, List.forall_mem_append, List.forall_mem_singleton] at hsized
  refine ⟨front, newest, hbuffers, ?_, hsized.2⟩
  rw [stored, hbuffers, List.length_append, List.length_singleton, Nat.add_sub_cancel,
    flatten_length_of_sized hsized.1]

theorem new_hears (depth : Nat) {pool : Pool} (hpool : pool.Sound) (hsize : 0 < pool.bufferSize) :
    (new depth pool).1.Hears [] := by
  refine ⟨new_sound depth hpool hsize, ?_⟩
  rw [new_eq hpool]
  have hstored : blocksFor depth pool.bufferSize * pool.bufferSize + pool.bufferSize =
      (blocksFor depth pool.bufferSize + 1) * pool.bufferSize := (Nat.succ_mul _ _).symm
  simp only [stored, silence, List.length_replicate, Nat.add_sub_cancel, List.append_nil, hstored,
    List.flatten_replicate_replicate, List.rtake, Nat.sub_self, List.drop_zero]
  rw [List.take_of_length_le (List.length_replicate.le)]

/-- The buffer that is given up for a new one holds the oldest samples. -/
theorem Hears.rotate (h : r.Hears past) : r.rotate.Hears past := by
  refine ⟨h.toSound.rotate.1, ?_⟩
  have hstores := h.stores
  have hsized := h.sized
  have hcount := h.count
  unfold CaptureRing.rotate
  split
  · next hfull =>
    cases hbuffers : r.buffers with
    | nil => simp [hbuffers] at hcount
    | cons oldest rest =>
      rw [hbuffers, List.forall_mem_cons] at hsized
      have hrest := flatten_length_of_sized hsized.2
      have hall : r.stored = (rest.length + 1) * r.bufferSize := by
        rw [stored, hbuffers, hfull, List.length_cons, Nat.add_sub_cancel, Nat.succ_mul]
      have hleft : stored { r with buffers := rest ++ [silence oldest.length], fill := 0 } =
          rest.length * r.bufferSize := by
        simp only [stored, List.length_append, List.length_singleton, Nat.add_sub_cancel, Nat.add_zero]
      rw [hleft]
      have hdropped := congrArg (List.drop r.bufferSize) hstores
      rw [rtake_drop _ (by simp [silence, hall, hbuffers]) (by rw [hall, Nat.succ_mul]; omega), hbuffers,
        List.drop_take, hall, Nat.succ_mul, Nat.add_sub_cancel, List.flatten_cons, ← hsized.1,
        List.drop_left, hsized.1] at hdropped
      simp only [List.flatten_append, List.length_append, List.length_singleton]
      rw [List.take_append_of_le_length (by rw [hrest]), hdropped, List.length_cons]
  · exact hstores

theorem Hears.putSample (h : r.Hears past) (x : Sample) : (r.putSample x).Hears (past ++ [x]) := by
  refine ⟨h.toSound.putSample x, ?_⟩
  have hroom := h.toSound.rotate.2
  have hrotated := h.rotate
  unfold CaptureRing.putSample
  generalize r.rotate = r at hroom hrotated
  obtain ⟨front, newest, hbuffers, hstored, hlength⟩ := hrotated.toSound.newest
  have hstores := hrotated.stores
  have hmodified : r.buffers.modify (r.buffers.length - 1) (fun b => b.set r.fill x) =
      front ++ [newest.set r.fill x] := by
    rw [hbuffers, List.length_append, List.length_singleton, Nat.add_sub_cancel,
      List.modify_eq_take_cons_drop (by simp)]
    simp
  have hone : stored { r with
      buffers := r.buffers.modify (r.buffers.length - 1) (fun b => b.set r.fill x), fill := r.fill + 1 } =
      r.stored + 1 := by
    simp only [stored, List.length_modify, Nat.add_assoc]
  rw [hone]
  simp only [List.length_modify]
  rw [← List.append_assoc, List.rtake_concat_succ, ← hstores, hmodified, hbuffers, hstored, Nat.add_assoc,
    List.flatten_append, List.flatten_singleton, List.flatten_append, List.flatten_singleton, List.take_length_add_append,
    List.take_length_add_append, List.set_eq_take_append_cons_drop, if_pos (hlength.symm ▸ hroom), List.append_assoc]
  congr 1
  rw [List.take_append, List.take_of_length_le (by rw [List.length_take]; omega), List.length_take,
    Nat.min_eq_left (by omega), Nat.add_sub_cancel_left]
  rfl

theorem Hears.put (h : r.Hears past) (data : Buffer) : (r.put data).Hears (past ++ data) := by
  induction data generalizing r past with
  | nil => rwa [List.append_nil]
  | cons x rest ih =>
    rw [List.append_cons]
    exact ih (h.putSample x)

/-- The window is the end of what was put into the ring, behind silence. -/
theorem Hears.window_eq (h : r.Hears past) : r.window = (silence r.depth ++ past).rtake r.depth := by
  have hdepth := h.depth_le_stored
  have hstored := h.stored_le
  have hcut : r.window = (r.buffers.flatten.take r.stored).drop (r.stored - r.depth) := by
    rw [List.drop_take, Nat.sub_sub_self hdepth]
    rfl
  rw [hcut, h.stores, rtake_drop _ (by simp [silence]; omega) (Nat.sub_le _ _), Nat.sub_sub_self hdepth,
    rtake_behind_silence past (Nat.le_trans hdepth hstored)]

end CaptureRing

end Overdub.Audio
