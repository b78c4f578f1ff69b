import Overdub.Proofs.AudioWindow
import Overdub.Proofs.Deferral
/-!
# Buffers change hands

`Pool.Trades` says what an operation on a pool may do: the buffers at hand stay
silent and no more than the pool keeps, and what is held outside of the pool changes
by what the pool has handed out, taken back, made and dropped. Trades follow each
other (`Trades.trans`) and leave what others hold alone (`Trades.beside`), so that
one lemma for each operation of a store, a channel or a ring is enough to account
for all of them at once.
-/

namespace Overdub.Audio

/-! ## The pool -/

/-- The pool becomes `p'` while what is held outside of it goes from `held` to `held'` buffers. -/
structure Pool.Trades (p : Pool) (held : Nat) (p' : Pool) (held' : Nat) : Prop where
  size : p'.bufferSize = p.bufferSize
  target : p'.target = p.target
  silent : p.Sound → p'.Sound
  bound : p.available.length ≤ p.capacity → p'.available.length ≤ p'.capacity
  balance : p'.available.length + held' + p'.dropped + p.created = p.available.length + held + p.dropped + p'.created

namespace Pool

variable {p p' p'' : Pool} {held held' held'' : Nat}

namespace Trades

theorem refl (p : Pool) (held : Nat) : p.Trades held p held := ⟨rfl, rfl, id, id, rfl⟩

theorem trans (h : p.Trades held p' held') (h' : p'.Trades held' p'' held'') : p.Trades held p'' held'' where
  size := h'.size.trans h.size
  target := h'.target.trans h.target
  silent := fun hp => h'.silent (h.silent hp)
  bound := fun hp => h'.bound (h.bound hp)
  balance := by
    have hfirst := h.balance
    have hsecond := h'.balance
    omega

/-- What others hold stays the same. -/
theorem beside (h : p.Trades held p' held') (others : Nat) : p.Trades (held + others) p' (held' + others) where
  size := h.size
  target := h.target
  silent := h.silent
  bound := h.bound
  balance := by
    have hbalance := h.balance
    omega

/-- The same trade with what is held told in another way. -/
theorem congr (h : p.Trades held p' held') {n n' : Nat} (hn : n = held) (hn' : n' = held') : p.Trades n p' n' := by
  rwa [hn, hn']

end Trades

theorem acquire_trades (p : Pool) (held : Nat) : p.Trades held p.acquire.2 (held + 1) := by
  refine ⟨p.acquire_bufferSize, ?_, fun h => h.acquire.2, ?_, ?_⟩ <;> unfold acquire <;> split
  · rfl
  · rfl
  · next b rest hb =>
    intro hbound
    rw [hb, List.length_cons] at hbound
    exact Nat.le_of_succ_le hbound
  · exact id
  · next b rest hb =>
    rw [hb, List.length_cons]
    dsimp only
    omega
  · next hb =>
    dsimp only
    omega

theorem release_trades (p : Pool) (b : Buffer) (held : Nat) : p.Trades (held + 1) (p.release b) held := by
  refine ⟨p.release_bufferSize b, ?_, fun h => h.release b, ?_, ?_⟩ <;> unfold release <;> split
  · rfl
  · rfl
  · next hroom =>
    intro _
    rw [List.length_append, List.length_singleton]
    exact hroom.2
  · exact id
  · dsimp only
    rw [List.length_append, List.length_singleton]
    omega
  · dsimp only
    omega

theorem refill_trades (p : Pool) (held : Nat) : p.Trades held p.refill.2 held where
  size := rfl
  target := rfl
  silent := by
    intro hp b hb
    rcases List.mem_append.1 hb with hb | hb
    · exact hp b hb
    · exact List.eq_of_mem_replicate hb
  bound := by
    intro hbound
    simp only [refill, capacity, List.length_append, List.length_replicate] at hbound ⊢
    omega
  balance := by
    simp only [refill, List.length_append, List.length_replicate]
    omega

theorem acquireMany_trades (p : Pool) (held n : Nat) :
    p.Trades held (p.acquireMany n).2 (held + (p.acquireMany n).1.length) := by
  induction n generalizing p held with
  | zero => exact .refl p held
  | succ n ih =>
    refine ((p.acquire_trades held).trans (ih p.acquire.2 (held + 1))).congr rfl ?_
    show held + (p.acquire.1 :: (p.acquire.2.acquireMany n).1).length = _
    rw [List.length_cons]
    omega

theorem releaseAll_trades (p : Pool) (buffers : List Buffer) (held : Nat) :
    p.Trades (held + buffers.length) (p.releaseAll buffers) held := by
  induction buffers generalizing p with
  | nil => exact .refl p held
  | cons b rest ih =>
    refine Trades.trans ?_ (ih (p.release b))
    exact (p.release_trades b (held + rest.length)).congr (by rw [List.length_cons]; omega) rfl

/-- What is taken is silent. -/
theorem Sound.acquireMany (h : p.Sound) (n : Nat) : (p.acquireMany n).1 = List.replicate n (silence p.bufferSize) := by
  induction n generalizing p with
  | zero => rfl
  | succ n ih =>
    obtain ⟨hb, hnext⟩ := h.acquire
    show p.acquire.1 :: (p.acquire.2.acquireMany n).1 = _
    rw [ih hnext, hb, p.acquire_bufferSize, List.replicate_succ]

end Pool

/-! ## Stores -/

theorem Buffer.fit_silence (n k : Nat) : fit n (silence k) = silence n := by
  rw [fit, silence, List.take_replicate, List.length_replicate, silence, List.replicate_append_replicate, silence]
  congr 1
  omega

theorem getElem?_flatten_of_sized {buffers : List Buffer} {size : Nat} (hsize : 0 < size)
    (h : ∀ b ∈ buffers, b.length = size) (i : Nat) :
    buffers.flatten[i]? = buffers[i / size]?.bind fun b => b[i % size]? := by
  induction buffers generalizing i with
  | nil => rfl
  | cons b rest ih =>
    obtain ⟨hb, hrest⟩ := List.forall_mem_cons.1 h
    rw [List.flatten_cons]
    rcases Nat.lt_or_ge i size with hi | hi
    · rw [List.getElem?_append_left (by omega), Nat.div_eq_of_lt hi, Nat.mod_eq_of_lt hi]
      rfl
    · rw [List.getElem?_append_right (by omega), hb, ih hrest, Nat.div_eq_sub_div hsize hi, Nat.mod_eq_sub_mod hi,
        List.getElem?_cons_succ]

namespace Store

variable {s : Store} {p : Pool}

theorem push_trades (s : Store) (p : Pool) (n : Nat) :
    p.Trades s.buffers.length (s.push p n).2 (s.push p n).1.buffers.length := by
  induction n generalizing s p with
  | zero => exact .refl p _
  | succ n ih =>
    refine Pool.Trades.trans ?_ (ih (s.appendBuffers [p.acquire.1]) p.acquire.2)
    exact (p.acquire_trades s.buffers.length).congr rfl List.length_append

theorem release_trades (s : Store) (p : Pool) :
    p.Trades s.buffers.length (s.release p).2 (s.release p).1.buffers.length :=
  (p.releaseAll_trades s.buffers 0).congr (Nat.zero_add _).symm rfl

theorem length_putAt (s : Store) (position : Nat) (source : Buffer) :
    (s.putAt position source).buffers.length = s.buffers.length := by
  have hlengths := congrArg List.length (spread_length s.buffers position source)
  rwa [List.length_map, List.length_map] at hlengths

theorem length_modifySlice (s : Store) (position n : Nat) (f : Sample → Sample) :
    (s.modifySlice position n f).buffers.length = s.buffers.length := by
  unfold modifySlice
  split
  · rfl
  · exact List.length_modify ..

theorem modifySlice_bufferSize (s : Store) (position n : Nat) (f : Sample → Sample) :
    (s.modifySlice position n f).bufferSize = s.bufferSize := by
  unfold modifySlice
  split <;> rfl

theorem Sound.modifySlice (h : s.Sound) (position n : Nat) (f : Sample → Sample) : (s.modifySlice position n f).Sound where
  size_pos := (s.modifySlice_bufferSize position n f).symm ▸ h.size_pos
  sized := by
    unfold Store.modifySlice
    split
    · exact h.sized
    · intro b hb
      obtain ⟨i, hi, rfl⟩ := List.mem_iff_getElem.1 hb
      rw [List.getElem_modify]
      split
      · rw [Buffer.length_overwrite]
        exact h.sized _ (List.getElem_mem _)
      · exact h.sized _ (List.getElem_mem _)
  room := by
    rw [s.length_modifySlice]
    unfold Store.modifySlice
    split <;> exact h.room

theorem write_trades (s : Store) (position : Nat) (source : Buffer) (p : Pool) :
    p.Trades s.buffers.length (s.write position source p).2 (s.write position source p).1.buffers.length :=
  (s.push_trades p _).congr rfl (length_putAt _ position source)

theorem writeWithinReserve_trades (s : Store) (position : Nat) (source : Buffer) (p : Pool) :
    p.Trades s.buffers.length (s.writeWithinReserve position source p).2.2
      (s.writeWithinReserve position source p).2.1.buffers.length :=
  (s.push_trades p _).congr rfl (length_putAt ..)

/-- A store grows by silent buffers. -/
theorem push_buffers (h : p.Sound) (s : Store) (n : Nat) :
    (s.push p n).1.buffers = s.buffers ++ List.replicate n (silence p.bufferSize) := by
  induction n generalizing s p with
  | zero => exact (List.append_nil _).symm
  | succ n ih =>
    obtain ⟨hb, hnext⟩ := h.acquire
    show ((s.appendBuffers [p.acquire.1]).push p.acquire.2 n).1.buffers = _
    rw [ih hnext, p.acquire_bufferSize, hb, appendBuffers, List.append_assoc, List.replicate_succ, List.singleton_append]

theorem Backed.push_capacity (h : s.Backed p) (n : Nat) :
    (s.push p n).1.capacity = (s.buffers.length + n) * s.bufferSize := by
  rw [capacity, (s.push_bufferSize p n).1, push_buffers h.silent, List.length_append, List.length_replicate]

theorem le_capacity_of_missing (h : 0 < s.bufferSize) (samples : Nat) :
    samples ≤ (s.buffers.length + s.missing samples) * s.bufferSize := by
  refine (Tape.le_blocksFor_mul samples h).trans (Nat.mul_le_mul_right _ ?_)
  rw [missing]
  omega

theorem Backed.le_capacity_ensure (h : s.Backed p) (samples : Nat) : samples ≤ (s.ensure samples p).1.capacity := by
  rw [ensure, h.push_capacity]
  exact le_capacity_of_missing h.size_pos samples

/-- A store grows as far as its room goes. -/
theorem Backed.le_capacity_growWithinReserve (h : s.Backed p) (samples : Nat) :
    min samples s.reserved ≤ (s.growWithinReserve samples p).1.capacity := by
  rw [growWithinReserve, h.push_capacity]
  have hroom := h.room
  rcases Nat.le_total (s.missing samples) (s.room - s.buffers.length) with hfits | hends
  · rw [Nat.min_eq_left hfits]
    exact (Nat.min_le_left _ _).trans (le_capacity_of_missing h.size_pos samples)
  · rw [Nat.min_eq_right hends, Nat.add_sub_cancel' hroom]
    exact Nat.min_le_right _ _

/-- The sample at a position is the one that the tape has there. -/
theorem Sound.at?_eq (h : s.Sound) (position : Nat) : s.at? position = s.tape.samples[position]? := by
  have hsample : ∀ (b : Buffer) (i : Nat), (Buffer.slice? b i 1).bind (·.head?) = b[i]? := by
    intro b i
    unfold Buffer.slice?
    split
    · rw [Option.bind_some, List.head?_take, if_neg (by decide), List.head?_drop]
    · rw [Option.bind_none, List.getElem?_eq_none (by omega)]
  rw [at?, slice?, Option.bind_assoc]
  simp only [hsample]
  exact (getElem?_flatten_of_sized h.size_pos h.sized position).symm

theorem Backed.push_samples (h : s.Backed p) (n : Nat) :
    (s.push p n).1.tape.samples = s.tape.samples ++ silence (n * s.bufferSize) := by
  show (s.push p n).1.buffers.flatten = s.buffers.flatten ++ _
  rw [push_buffers h.silent, List.flatten_append, ← h.size, silence, List.flatten_replicate_replicate, silence]

/-- What `s'` has more than `s` reads as silence, but for the samples at `position` to `position + n`. -/
def SilentBeyond (s s' : Store) (position n : Nat) : Prop :=
  ∀ i, s.capacity ≤ i → i < s'.capacity → ¬(position ≤ i ∧ i < position + n) → s'.at? i = some 0

theorem Backed.push_silent (h : s.Backed p) (n position k : Nat) : s.SilentBeyond (s.push p n).1 position k := by
  intro i hnew hin _
  rw [(h.push n).toSound.at?_eq, h.push_samples, List.getElem?_append_right (h.length_tape.trans_le hnew), silence,
    List.getElem?_replicate, if_pos]
  rw [← (h.push n).toSound.length_tape, h.push_samples, List.length_append, silence, List.length_replicate] at hin
  have hold := h.length_tape
  omega

/-- What a write does not reach stays as it is. -/
theorem SilentBeyond.putAt {s' : Store} (hs' : s'.Sound) {position n : Nat} {source : Buffer}
    (h : s.SilentBeyond s' position n) (hn : source.length ≤ n) :
    s.SilentBeyond (s'.putAt position source) position n := by
  intro i hnew hin hout
  have hcapacity : (s'.putAt position source).capacity = s'.capacity := congrArg (· * s'.bufferSize) (length_putAt ..)
  rw [(hs'.putAt position source).at?_eq, putAt_tape, Buffer.getElem?_overwrite, if_neg (by omega), ← hs'.at?_eq]
  exact h i hnew (hcapacity ▸ hin) hout

theorem Backed.write_silent (h : s.Backed p) (position : Nat) (source : Buffer) :
    s.SilentBeyond (s.write position source p).1 position source.length :=
  (h.push_silent _ position source.length).putAt (h.push _).toSound le_rfl

theorem Backed.writeWithinReserve_silent (h : s.Backed p) (position : Nat) (source : Buffer) :
    s.SilentBeyond (s.writeWithinReserve position source p).2.1 position source.length :=
  (h.push_silent _ position source.length).putAt (h.push _).toSound (List.length_take_le' _ _)

end Store

/-! ## Channels -/

namespace Channel

/-- How many buffers a channel holds. -/
def held (c : Channel) : Nat := c.store.buffers.length + c.preRecord.buffers.length

theorem SameStores.held {c c' : Channel} (h : c.SameStores c') : c'.held = c.held := by
  rw [Channel.held, h.1, h.2, Channel.held]

/-! ### At the end of the cycle -/

/-- How many buffers a channel holds while its commands are carried out. -/
def Finish.held (s : Finish) : Nat := s.store.buffers.length + s.preRecord.buffers.length

theorem Finish.run_trades (s : Finish) (input : Option Buffer) (command : Command) :
    s.pool.Trades s.held (s.run input command).pool (s.run input command).held := by
  cases command with
  | copy target frame position n =>
    unfold Finish.run copy
    dsimp only
    split
    · exact .refl _ _
    · split
      · exact .refl _ _
      · next samples _ =>
        cases target with
        | main => exact (s.store.writeWithinReserve_trades position samples s.pool).beside s.preRecord.buffers.length
        | preRecord =>
          refine ((s.preRecord.writeWithinReserve_trades position samples s.pool).beside s.store.buffers.length).congr ?_ ?_
          · exact Nat.add_comm _ _
          · exact Nat.add_comm _ _
  | playback frame position n gain =>
    unfold Finish.run play
    dsimp only
    split
    · exact .refl _ _
    · split <;> exact .refl _ _
  | promotePreRecord =>
    -- what was kept aside changes its place, and the emptied store takes the place that it had
    refine ((s.store.release_trades s.pool).beside s.preRecord.buffers.length).congr rfl ?_
    exact Nat.add_comm _ _
  | discardPreRecord =>
    refine ((s.preRecord.release_trades s.pool).beside s.store.buffers.length).congr ?_ ?_
    · exact Nat.add_comm _ _
    · exact Nat.add_comm _ _

theorem finalize_trades (c : Channel) (input output : Option Buffer) (p : Pool) :
    p.Trades c.held (c.finalize input output p).2.2.1 (c.finalize input output p).1.held := by
  suffices hall : ∀ (commands : List Command) (s : Finish),
      s.pool.Trades s.held (commands.foldl (Finish.run input) s).pool (commands.foldl (Finish.run input) s).held from
    hall c.commands ⟨c.store, c.preRecord, p, output, 0, .ok ()⟩
  intro commands
  induction commands with
  | nil => exact fun s => .refl _ _
  | cons command rest ih => exact fun s => (s.run_trades input command).trans (ih (s.run input command))

/-! ### Content -/

theorem load_trades (c : Channel) (samples : Buffer) (p : Pool) :
    p.Trades c.held (c.load samples p).2 (c.load samples p).1.held :=
  ((c.store.release_trades p).trans ((c.store.release p).1.write_trades 0 samples (c.store.release p).2)).beside _

/-- The old store comes back empty, the new one is the channel's. -/
theorem replaceStore_trades (c : Channel) (store : Store) (length : Nat) (startOffset : Int) (p : Pool) :
    p.Trades (c.held + store.buffers.length) (c.replaceStore store length startOffset p).2.2
      (c.replaceStore store length startOffset p).2.1.held := by
  refine ((c.store.release_trades p).beside (c.preRecord.buffers.length + store.buffers.length)).congr ?_ ?_
  · exact Nat.add_assoc _ _ _
  · show store.buffers.length + c.preRecord.buffers.length = 0 + (c.preRecord.buffers.length + store.buffers.length)
    omega

theorem release_trades (c : Channel) (p : Pool) : p.Trades c.held (c.release p).2 (c.release p).1.held := by
  refine ((c.store.release_trades p).beside c.preRecord.buffers.length).trans ?_
  refine ((c.preRecord.release_trades (c.store.release p).2).beside (c.store.release p).1.buffers.length).congr ?_ ?_
  · exact Nat.add_comm _ _
  · exact Nat.add_comm _ _

theorem clear_trades (c : Channel) (length : Nat) (p : Pool) :
    p.Trades c.held (c.clear length p).2 (c.clear length p).1.held :=
  (c.release_trades p).trans (((c.store.release p).1.push_trades (c.release p).2 _).beside
    (c.release p).1.preRecord.buffers.length)

theorem adopt_trades (c : Channel) (ring : CaptureRing) (reverseStart keepBefore : Option Nat) (p : Pool) :
    p.Trades c.held (c.adopt ring reverseStart keepBefore p).2 (c.adopt ring reverseStart keepBefore p).1.held := by
  have hgrown := fun n => ((c.store.release_trades p).trans
    ((c.store.release p).1.push_trades (c.store.release p).2 n)).beside c.preRecord.buffers.length
  exact (hgrown _).congr rfl (congrArg (· + c.preRecord.buffers.length) (Store.length_putAt ..))

/-- A cleared channel is silent all the way. -/
theorem clear_data {c : Channel} {p : Pool} (h : c.Backed p) (length : Nat) :
    (c.clear length p).1.data = silence length := by
  have hmain := h.store.release
  have haside := (h.preRecord.of_pool hmain.silent (c.store.release_bufferSize p)).release
  have hempty := hmain.of_pool haside.silent (c.preRecord.release_bufferSize _)
  have hsamples := congrArg Tape.samples (Store.growWithinReserve_tape hempty length)
  show Store.gather ((c.store.release p).1.growWithinReserve length (c.preRecord.release (c.store.release p).2).2).1.buffers
    0 length = _
  rw [Store.gather_eq, List.drop_zero]
  show Buffer.fit length (Store.tape _).samples = _
  rw [hsamples]
  exact Buffer.fit_silence length _

end Channel

/-! ## Capture rings -/

namespace CaptureRing

theorem length_rotate (r : CaptureRing) : r.rotate.buffers.length = r.buffers.length := by
  unfold rotate
  split
  · split
    · next oldest rest hr => rw [hr, List.length_append, List.length_singleton, List.length_cons]
    · rfl
  · rfl

theorem length_put (r : CaptureRing) (data : Buffer) : (r.put data).buffers.length = r.buffers.length := by
  refine List.foldlRecOn (motive := fun r' : CaptureRing => r'.buffers.length = r.buffers.length) data putSample rfl ?_
  intro r' h x _
  exact ((List.length_modify ..).trans r'.length_rotate).trans h

/-- A new ring is silent all the way. -/
theorem window_new (depth : Nat) {p : Pool} (h : p.Sound) (hsize : 0 < p.bufferSize) :
    (new depth p).1.window = silence depth := by
  have hbuffers : (new depth p).1.buffers.flatten = silence ((blocksFor depth p.bufferSize + 1) * p.bufferSize) := by
    show (p.acquireMany (blocksFor depth p.bufferSize + 1)).1.flatten = _
    rw [h.acquireMany, silence, List.flatten_replicate_replicate, silence]
  have hlength := (new_sound depth h hsize).length_window
  rw [window, hbuffers, silence, List.drop_replicate, List.take_replicate, silence]
  rw [window, hbuffers, silence, List.drop_replicate, List.length_take, List.length_replicate] at hlength
  rw [hlength]
  rfl

end CaptureRing

end Overdub.Audio
