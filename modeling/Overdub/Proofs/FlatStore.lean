import Overdub.Proofs.Trades
/-!
# A store is a run of samples without end

`Flat` says what a store stands for: a sample at every position, silent wherever
nothing was written. A `Rack` holds two stores that share a pool with others, and a
`Rack.Move` is one operation on the first of them. Beside the rack a `Sketch` keeps
what was written: of the buffers it knows the size, and of the store no more than how
far it may grow. `Rack.reads_as_written` says that the stores read as the sketch, at
any time and anywhere.

The invariant is `Sketch.Shows`. A write to a store is one to the sketch
(`Store.Backed.flat_write`), and growing is not heard at all (`Store.Backed.flat_push`).
-/

namespace Overdub.Audio

/-! ## Samples without end -/

/-- A sample at every position. -/
def Flat := Nat → Sample

namespace Flat

/-- The samples of a run, and silence behind it. -/
def ofBuffer (b : Buffer) : Flat := fun i => b.getD i 0

/-- The same samples with `source` in place of what was at `position`. -/
def write (f : Flat) (position : Nat) (source : Buffer) : Flat :=
  fun i => if position ≤ i ∧ i < position + source.length then source.getD (i - position) 0 else f i

/-- The samples at `position` to `position + n`. -/
def piece (f : Flat) (position n : Nat) : Buffer := (List.range n).map fun i => f (position + i)

theorem piece_ofBuffer (b : Buffer) (position n : Nat) :
    (ofBuffer b).piece position n = Buffer.fit n (b.drop position) := by
  apply List.ext_getElem?
  intro i
  simp only [piece, ofBuffer, Buffer.fit, silence, List.getElem?_map, List.getElem?_append, List.getElem?_take,
    List.getElem?_drop, List.length_take, List.length_drop, List.getElem?_replicate, List.getD_eq_getElem?_getD]
  by_cases hi : i < n
  · rw [List.getElem?_range hi, if_pos hi, Option.map_some]
    by_cases hb : position + i < b.length
    · rw [if_pos (by omega), List.getElem?_eq_getElem hb]
      rfl
    · rw [if_neg (by omega), if_pos (by omega), List.getElem?_eq_none (Nat.le_of_not_lt hb)]
      rfl
  · rw [List.getElem?_eq_none (by simpa using hi), if_neg (by omega), if_neg (by omega)]
    rfl

/-- Silence at the end of a run makes no difference. -/
theorem ofBuffer_append_silence (b : Buffer) (n : Nat) : ofBuffer (b ++ silence n) = ofBuffer b := by
  funext i
  simp only [ofBuffer, silence, List.getD_eq_getElem?_getD, List.getElem?_append, List.getElem?_replicate]
  by_cases hi : i < b.length
  · rw [if_pos hi]
  · rw [if_neg hi, List.getElem?_eq_none (by omega)]
    split_ifs <;> rfl

/-- Writing into a run of samples leaves out what does not fit. -/
theorem ofBuffer_overwrite (b : Buffer) (position : Nat) (source : Buffer) :
    ofBuffer (Buffer.overwrite b position source) = (ofBuffer b).write position (source.take (b.length - position)) := by
  funext i
  simp only [ofBuffer, write, List.getD_eq_getElem?_getD, Buffer.getElem?_overwrite, List.length_take, List.getElem?_take]
  by_cases hi : position ≤ i ∧ i < position + source.length ∧ i < b.length
  · rw [if_pos hi, if_pos (by omega), if_pos (by omega)]
  · rw [if_neg hi, if_neg (by omega)]

theorem write_blank (b : Buffer) : (ofBuffer []).write 0 b = ofBuffer b := by
  funext i
  simp only [write, ofBuffer, List.getD_eq_getElem?_getD, Nat.zero_le, true_and, Nat.zero_add, Nat.sub_zero]
  split_ifs with hi
  · rfl
  · rw [List.getElem?_eq_none (Nat.le_of_not_lt hi)]
    rfl

end Flat

namespace Store

/-- What a store reads as. -/
def flat (s : Store) : Flat := .ofBuffer s.buffers.flatten

/-- How far a store reaches without room for more buffers. -/
def limit (s : Store) : Nat := max s.capacity s.reserved

theorem read_eq_piece (s : Store) (position n : Nat) : s.read position n = s.flat.piece position n :=
  (gather_eq s.buffers position n).trans (Flat.piece_ofBuffer _ _ _).symm

variable {s : Store} {p : Pool}

/-- Growing is not heard. -/
theorem Backed.flat_push (h : s.Backed p) (n : Nat) : (s.push p n).1.flat = s.flat := by
  rw [flat, flat, ← Flat.ofBuffer_append_silence s.buffers.flatten (n * s.bufferSize)]
  exact congrArg Flat.ofBuffer (h.push_samples n)

theorem flat_putAt (h : s.Sound) (position : Nat) (source : Buffer) :
    (s.putAt position source).flat = s.flat.write position (source.take (s.capacity - position)) := by
  rw [← h.length_tape]
  exact (congrArg Flat.ofBuffer (spread_flatten s.buffers position source)).trans (Flat.ofBuffer_overwrite _ _ _)

theorem Backed.flat_write (h : s.Backed p) (position : Nat) (source : Buffer) :
    (s.write position source p).1.flat = s.flat.write position source := by
  have hgrown : (s.ensure (position + source.length) p).1.Sound := (h.push _).toSound
  have hfits := h.le_capacity_ensure (position + source.length)
  refine (flat_putAt hgrown position source).trans ?_
  rw [List.take_of_length_le (by omega)]
  exact congrArg (Flat.write · position source) (h.flat_push _)

/-- How far a store has grown after growing within its room. -/
theorem Backed.capacity_growWithinReserve (h : s.Backed p) (samples : Nat) :
    (s.growWithinReserve samples p).1.capacity = max s.capacity (min (blocksFor samples s.bufferSize * s.bufferSize) s.reserved) := by
  have hgrown : (s.growWithinReserve samples p).1.Sound := (h.push _).toSound
  rw [← hgrown.length_tape, growWithinReserve_tape h, Tape.length_grow, h.length_tape]
  rfl

/-- What a write within the room stores: the samples in front of the limit. -/
theorem Backed.writeWithinReserve_count (h : s.Backed p) (position : Nat) (source : Buffer) :
    (s.writeWithinReserve position source p).1 = min (s.limit - position) source.length := by
  have hblocks := Tape.le_blocksFor_mul (position + source.length) h.size_pos
  show min ((s.growWithinReserve (position + source.length) p).1.capacity - position) source.length = _
  rw [h.capacity_growWithinReserve, limit]
  omega

theorem Backed.flat_writeWithinReserve (h : s.Backed p) (position : Nat) (source : Buffer) :
    (s.writeWithinReserve position source p).2.1.flat = s.flat.write position (source.take (s.limit - position)) := by
  have hgrown : (s.growWithinReserve (position + source.length) p).1.Sound := (h.push _).toSound
  have hput : (s.writeWithinReserve position source p).2.1 =
      (s.growWithinReserve (position + source.length) p).1.putAt position
        (source.take (s.writeWithinReserve position source p).1) := rfl
  have hcount := h.writeWithinReserve_count position source
  have hfits : min (s.limit - position) source.length ≤
      (s.growWithinReserve (position + source.length) p).1.capacity - position := hcount ▸ Nat.min_le_left _ _
  rw [hput, hcount, flat_putAt hgrown, List.take_of_length_le ((List.length_take_le _ _).trans hfits),
    ← List.take_eq_take_min]
  exact congrArg (Flat.write · position _) (h.flat_push _)

/-- A write within the room leaves the room as it is and stays in it. -/
theorem Backed.writeWithinReserve_room (h : s.Backed p) (position : Nat) (source : Buffer) :
    (s.writeWithinReserve position source p).2.1.room = s.room ∧
      (s.writeWithinReserve position source p).2.1.buffers.length ≤ s.room := by
  have hroom := h.room
  have hgrown := push_of_le_room h.silent (s := s)
    (n := min (s.missing (position + source.length)) (s.room - s.buffers.length)) (by omega)
  have hsame : (s.writeWithinReserve position source p).2.1.room = s.room := by
    show (s.push p _).1.room = s.room
    rw [hgrown]
  exact ⟨hsame, hsame ▸ (h.writeWithinReserve position source).room⟩

/-- Buffers of the store's size take the place of what it held. -/
theorem Backed.replaceBuffers (h : s.Backed p) {buffers : List Buffer} (hsized : ∀ b ∈ buffers, b.length = s.bufferSize) :
    (s.replaceBuffers buffers p).1.Backed (s.replaceBuffers buffers p).2 :=
  ⟨h.release.toSound.appendBuffers hsized, h.release.silent, h.release.size⟩

end Store

/-- Buffers fresh from a pool, with these samples in them. -/
def Pool.acquireFilled (p : Pool) (contents : List Buffer) : List Buffer × Pool :=
  let (fresh, p) := p.acquireMany contents.length
  (fresh.zipWith (Buffer.overwrite · 0 ·) contents, p)

theorem Pool.Sound.acquireFilled {p : Pool} (h : p.Sound) (contents : List Buffer) :
    (p.acquireFilled contents).1 = contents.map (Buffer.fit p.bufferSize) := by
  have hfilled : ∀ contents : List Buffer, List.zipWith (Buffer.overwrite · 0 ·)
      (List.replicate contents.length (silence p.bufferSize)) contents = contents.map (Buffer.fit p.bufferSize) := by
    intro contents
    induction contents with
    | nil => rfl
    | cons b rest ih =>
      rw [List.length_cons, List.replicate_succ, List.zipWith_cons_cons, ih, List.map_cons]
      congr 1
      simp [Buffer.overwrite, Buffer.fit, silence]
  rw [← hfilled, ← h.acquireMany]
  rfl

/-! ## Two stores and a pool -/

/-- Two stores of one buffer size, and the pool they take their buffers from. -/
structure Rack where
  store : Store
  other : Store
  pool : Pool

/-- What the stores of a rack should read as. -/
structure Sketch where
  store : Flat
  other : Flat

namespace Rack

/-- One operation on the first store, or what others do with the pool. Reading is none
of them: it changes nothing. -/
inductive Move where
  | ensure (samples : Nat)
  | growWithinReserve (samples : Nat)
  | write (position : Nat) (source : Buffer)
  | writeWithinReserve (position : Nat) (source : Buffer)
  | swap
  /-- Fresh buffers of the pool with these samples take the place of the buffers. -/
  | replace (contents : List Buffer)
  | release
  /-- A store that holds a copy of `samples` takes the place of the first one. -/
  | load (samples : Buffer) (reserved : Nat)
  | acquire
  | giveBack (b : Buffer)
  | refill

/-- Two empty stores and a new pool. -/
def opened (bufferSize target reserved reserved' : Nat) : Rack :=
  ⟨.withRoom bufferSize reserved, .withRoom bufferSize reserved', .new bufferSize target⟩

def withStore (r : Rack) (changed : Store × Pool) : Rack := { r with store := changed.1, pool := changed.2 }

def withPool (r : Rack) (pool : Pool) : Rack := { r with pool }

def step (r : Rack) : Move → Rack
  | .ensure samples => r.withStore (r.store.ensure samples r.pool)
  | .growWithinReserve samples => r.withStore (r.store.growWithinReserve samples r.pool)
  | .write position source => r.withStore (r.store.write position source r.pool)
  | .writeWithinReserve position source => r.withStore (r.store.writeWithinReserve position source r.pool).2
  | .swap => { r with store := r.other, other := r.store }
  | .replace contents =>
    let (buffers, pool) := r.pool.acquireFilled contents
    r.withStore (r.store.replaceBuffers buffers pool)
  | .release => r.withStore (r.store.release r.pool)
  | .load samples reserved => r.withStore (Store.ofBuffer samples reserved r.pool)
  | .acquire => r.withPool r.pool.acquire.2
  | .giveBack b => r.withPool (r.pool.release b)
  | .refill => r.withPool r.pool.refill.2

end Rack

namespace Sketch

/-- Nothing has been written. -/
def blank : Sketch := ⟨.ofBuffer [], .ofBuffer []⟩

/-- Follows an operation on the rack. Of its stores no more is asked than how many
samples a buffer has, and how far a write may reach without more room. -/
def record (k : Sketch) (r : Rack) : Rack.Move → Sketch
  | .write position source => { k with store := k.store.write position source }
  | .writeWithinReserve position source =>
    { k with store := k.store.write position (source.take (r.store.limit - position)) }
  | .swap => ⟨k.other, k.store⟩
  | .replace contents => { k with store := .ofBuffer (contents.flatMap (Buffer.fit r.store.bufferSize)) }
  | .release => { k with store := .ofBuffer [] }
  | .load samples _ => { k with store := .ofBuffer samples }
  | .ensure _ | .growWithinReserve _ | .acquire | .giveBack _ | .refill => k

/-- The stores grow by silent buffers of the pool, and the sketch is what they read as. -/
structure Shows (k : Sketch) (r : Rack) : Prop where
  store : r.store.Backed r.pool
  other : r.other.Backed r.pool
  store_eq : r.store.flat = k.store
  other_eq : r.other.flat = k.other

end Sketch

namespace Rack

/-- A rack after some operations, and the sketch that has followed them. -/
def runBeside (r : Rack) (k : Sketch) (moves : List Move) : Rack × Sketch :=
  moves.foldl (fun x move => (x.1.step move, x.2.record x.1 move)) (r, k)

variable {r : Rack} {k : Sketch}

theorem opened_shows (bufferSize target reserved reserved' : Nat) :
    Sketch.blank.Shows (opened bufferSize target reserved reserved') where
  store := ⟨Store.withRoom_sound _ _, Pool.new_sound _ _, rfl⟩
  other := ⟨Store.withRoom_sound _ _, Pool.new_sound _ _, rfl⟩
  store_eq := rfl
  other_eq := rfl

end Rack

namespace Sketch.Shows

variable {k : Sketch} {r : Rack}

/-- What others do with the pool is not heard. -/
theorem withPool (h : k.Shows r) {pool : Pool} (hsilent : pool.Sound) (hsize : pool.bufferSize = r.pool.bufferSize) :
    k.Shows (r.withPool pool) :=
  ⟨h.store.of_pool hsilent hsize, h.other.of_pool hsilent hsize, h.store_eq, h.other_eq⟩

/-- What happens to the first store leaves the other one alone. -/
theorem withStore (h : k.Shows r) {changed : Store × Pool} {f : Flat} (hbacked : changed.1.Backed changed.2)
    (hsize : changed.2.bufferSize = r.pool.bufferSize) (hflat : changed.1.flat = f) :
    Shows { k with store := f } (r.withStore changed) :=
  ⟨hbacked, h.other.of_pool hbacked.silent hsize, hflat, h.other_eq⟩

theorem replace (h : k.Shows r) (contents : List Buffer) :
    (k.record r (.replace contents)).Shows (r.step (.replace contents)) := by
  have htrade := r.pool.acquireMany_trades 0 contents.length
  have hfilled := h.store.silent.acquireFilled contents
  have hbacked : r.store.Backed (r.pool.acquireFilled contents).2 :=
    h.store.of_pool (htrade.silent h.store.silent) htrade.size
  refine h.withStore (hbacked.replaceBuffers ?_) ((r.store.release_bufferSize _).trans htrade.size) ?_
  · show ∀ b ∈ (r.pool.acquireFilled contents).1, b.length = r.store.bufferSize
    rw [hfilled]
    intro b hb
    obtain ⟨c, -, rfl⟩ := List.mem_map.1 hb
    rw [Buffer.length_fit, h.store.size]
  · show Flat.ofBuffer ([] ++ (r.pool.acquireFilled contents).1).flatten = _
    rw [hfilled, List.nil_append, ← List.flatMap_def, h.store.size]

theorem ofBuffer (h : k.Shows r) (samples : Buffer) (reserved : Nat) :
    (Store.ofBuffer samples reserved r.pool).1.Backed (Store.ofBuffer samples reserved r.pool).2 ∧
      (Store.ofBuffer samples reserved r.pool).1.flat = .ofBuffer samples := by
  have hsize : max 1 r.pool.bufferSize = r.pool.bufferSize := by
    have hpos := h.store.size_pos
    have hsame := h.store.size
    omega
  have hempty : (Store.withRoom r.pool.bufferSize (max reserved samples.length)).Backed r.pool :=
    ⟨Store.withRoom_sound _ _, h.store.silent, hsize⟩
  exact ⟨hempty.write 0 samples, (hempty.flat_write 0 samples).trans (Flat.write_blank samples)⟩

/-- The sketch follows every operation. -/
theorem step (h : k.Shows r) (move : Rack.Move) : (k.record r move).Shows (r.step move) := by
  cases move with
  | ensure samples =>
    exact h.withStore (h.store.push _) (r.store.push_bufferSize r.pool _).2 ((h.store.flat_push _).trans h.store_eq)
  | growWithinReserve samples =>
    exact h.withStore (h.store.push _) (r.store.push_bufferSize r.pool _).2 ((h.store.flat_push _).trans h.store_eq)
  | write position source =>
    refine h.withStore (h.store.write position source) (r.store.push_bufferSize r.pool _).2 ?_
    rw [h.store.flat_write, h.store_eq]
  | writeWithinReserve position source =>
    refine h.withStore (h.store.writeWithinReserve position source) (r.store.push_bufferSize r.pool _).2 ?_
    rw [h.store.flat_writeWithinReserve, h.store_eq]
  | swap => exact ⟨h.other, h.store, h.other_eq, h.store_eq⟩
  | replace contents => exact h.replace contents
  | release => exact h.withStore h.store.release (r.store.release_bufferSize r.pool) rfl
  | load samples reserved =>
    obtain ⟨hbacked, hflat⟩ := h.ofBuffer samples reserved
    exact h.withStore hbacked (Store.push_bufferSize _ r.pool _).2 hflat
  | acquire => exact h.withPool h.store.silent.acquire.2 r.pool.acquire_bufferSize
  | giveBack b => exact h.withPool (h.store.silent.release b) (r.pool.release_bufferSize b)
  | refill => exact h.withPool ((r.pool.refill_trades 0).silent h.store.silent) rfl

theorem runBeside (h : k.Shows r) (moves : List Rack.Move) : (r.runBeside k moves).2.Shows (r.runBeside k moves).1 :=
  List.foldlRecOn (motive := fun x : Rack × Sketch => x.2.Shows x.1) moves _ h fun _ hx move _ => hx.step move

theorem read_eq (h : k.Shows r) (position n : Nat) : r.store.read position n = k.store.piece position n := by
  rw [Store.read_eq_piece, h.store_eq]

end Sketch.Shows

end Overdub.Audio
