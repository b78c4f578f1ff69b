import Mathlib
import Overdub.Proofs.Trades
/-!
# Every buffer of a pool is accounted for

An `Inventory` is a pool with all that holds buffers of it: callers, stores, the two
stores of each channel, and capture rings. `Inventory.step` is one operation on any
of them, and `Inventory.buffers_conserved` says what holds after any number of
operations: nothing is lost and nothing is there twice, the pool keeps no more than
it may, and what it hands out is silent.

The invariant is `Inventory.Sound`. An operation on one holder is a trade with the
pool (`Pool.Trades`), and the others are beside it (`Inventory.Sound.trade`).
-/

namespace Overdub.Audio

/-! ## Operations -/

/-- An operation on a store. -/
inductive StoreMove where
  | ensure (samples : Nat)
  | growWithinReserve (samples : Nat)
  | write (position : Nat) (source : Buffer)
  | writeWithinReserve (position : Nat) (source : Buffer)
  | modifySlice (position n : Nat) (f : Sample → Sample)
  | release

def StoreMove.run (s : Store) (p : Pool) : StoreMove → Store × Pool
  | ensure samples => s.ensure samples p
  | growWithinReserve samples => s.growWithinReserve samples p
  | write position source => s.write position source p
  | writeWithinReserve position source => (s.writeWithinReserve position source p).2
  | modifySlice position n f => (s.modifySlice position n f, p)
  | release => s.release p

theorem StoreMove.run_trades (move : StoreMove) (s : Store) (p : Pool) :
    p.Trades s.buffers.length (move.run s p).2 (move.run s p).1.buffers.length := by
  cases move with
  | ensure samples => exact s.push_trades p _
  | growWithinReserve samples => exact s.push_trades p _
  | write position source => exact s.write_trades position source p
  | writeWithinReserve position source => exact s.writeWithinReserve_trades position source p
  | modifySlice position n f => exact (Pool.Trades.refl p _).congr rfl (s.length_modifySlice position n f)
  | release => exact s.release_trades p

theorem StoreMove.run_backed (move : StoreMove) {s : Store} {p : Pool} (h : s.Backed p) :
    (move.run s p).1.Backed (move.run s p).2 := by
  cases move with
  | ensure samples => exact h.push _
  | growWithinReserve samples => exact h.push _
  | write position source => exact h.write position source
  | writeWithinReserve position source => exact h.writeWithinReserve position source
  | modifySlice position n f => exact ⟨h.toSound.modifySlice position n f, h.silent,
      (s.modifySlice_bufferSize ..).trans h.size⟩
  | release => exact h.release

/-- An operation on a channel. -/
inductive ChannelMove where
  | modifyTrack (f : Track → Track)
  | setGain (gain : Sample)
  | prepare (frames : Nat) (hasInput hasOutput : Bool)
  | process (context : ChunkContext)
  | finalize (input output : Option Buffer)
  | load (samples : Buffer)
  | clear (length : Nat)
  /-- A ring is only read. -/
  | adopt (ring : CaptureRing) (reverseStart keepBefore : Option Nat)
  | release

def ChannelMove.run (c : Channel) (p : Pool) : ChannelMove → Channel × Pool
  | modifyTrack f => (c.modifyTrack f, p)
  | setGain gain => (c.setGain gain, p)
  | prepare frames hasInput hasOutput => (c.prepare frames hasInput hasOutput, p)
  | process context => ((c.process context).1, p)
  | finalize input output => ((c.finalize input output p).1, (c.finalize input output p).2.2.1)
  | load samples => c.load samples p
  | clear length => c.clear length p
  | adopt ring reverseStart keepBefore => c.adopt ring reverseStart keepBefore p
  | release => c.release p

theorem ChannelMove.run_trades (move : ChannelMove) (c : Channel) (p : Pool) :
    p.Trades c.held (move.run c p).2 (move.run c p).1.held := by
  cases move with
  | modifyTrack f => exact .refl p _
  | setGain gain => exact .refl p _
  | prepare frames hasInput hasOutput => exact .refl p _
  | process context => exact (Pool.Trades.refl p _).congr rfl (c.process_stores context).held
  | finalize input output => exact c.finalize_trades input output p
  | load samples => exact c.load_trades samples p
  | clear length => exact c.clear_trades length p
  | adopt ring reverseStart keepBefore => exact c.adopt_trades ring reverseStart keepBefore p
  | release => exact c.release_trades p

theorem ChannelMove.run_backed (move : ChannelMove) {c : Channel} {p : Pool} (h : c.Backed p) :
    (move.run c p).1.Backed (move.run c p).2 := by
  cases move with
  | modifyTrack f => exact ⟨h.store, h.preRecord⟩
  | setGain gain => exact ⟨h.store, h.preRecord⟩
  | prepare frames hasInput hasOutput => exact ⟨h.store, h.preRecord⟩
  | process context => exact Channel.process_backed h context
  | finalize input output => exact Channel.finalize_backed h input output
  | load samples => exact Channel.load_backed h samples
  | clear length => exact Channel.clear_backed h length
  | adopt ring reverseStart keepBefore => exact Channel.adopt_backed h ring reverseStart keepBefore
  | release => exact Channel.release_backed h

/-- A pool and all that holds buffers of it. -/
structure Inventory where
  pool : Pool
  /-- Buffers that callers hold. -/
  loose : List Buffer := []
  stores : List Store := []
  channels : List Channel := []
  rings : List CaptureRing := []

/-- An operation on a pool and what holds buffers of it. Holders have numbers; a number
that no holder has is for nothing. -/
inductive Move where
  | acquire
  /-- A caller writes into a buffer that it holds. -/
  | overwrite (i position : Nat) (source : Buffer)
  | release (i : Nat)
  | refill
  | openStore (reserved : Option Nat)
  | store (i : Nat) (move : StoreMove)
  | openChannel (mode : ChannelMode) (reserved : Option Nat)
  | channel (i : Nat) (move : ChannelMove)
  /-- A store becomes the content of a channel, and the store that comes back is dropped. -/
  | replaceStore (i j length : Nat) (startOffset : Int)
  | openRing (depth : Nat)
  | put (i : Nat) (data : Buffer)
  | releaseRing (i : Nat)

namespace Inventory

/-- A new pool that nobody has taken anything from. -/
def new (bufferSize target : Nat) : Inventory := { pool := .new bufferSize target }

/-- How many buffers are outside of the pool. -/
def held (x : Inventory) : Nat :=
  x.loose.length + (x.stores.map (·.buffers.length)).sum + (x.channels.map (·.held)).sum +
    (x.rings.map (·.buffers.length)).sum

/-- The stores that there are, those of the channels included. -/
def allStores (x : Inventory) : List Store := x.stores ++ x.channels.flatMap fun c => [c.store, c.preRecord]

/-- One operation. -/
def step (x : Inventory) : Move → Inventory
  | .acquire => { x with pool := x.pool.acquire.2, loose := x.loose ++ [x.pool.acquire.1] }
  | .overwrite i position source => { x with loose := x.loose.modify i (Buffer.overwrite · position source) }
  | .release i =>
    match x.loose[i]? with
    | none => x
    | some b => { x with pool := x.pool.release b, loose := x.loose.eraseIdx i }
  | .refill => { x with pool := x.pool.refill.2 }
  | .openStore reserved =>
    { x with stores := x.stores ++ [reserved.elim (.new x.pool.bufferSize) (.withRoom x.pool.bufferSize)] }
  | .store i move =>
    match x.stores[i]? with
    | none => x
    | some s => { x with pool := (move.run s x.pool).2, stores := x.stores.set i (move.run s x.pool).1 }
  | .openChannel mode reserved => { x with channels := x.channels ++ [.new x.pool.bufferSize mode reserved] }
  | .channel i move =>
    match x.channels[i]? with
    | none => x
    | some c => { x with pool := (move.run c x.pool).2, channels := x.channels.set i (move.run c x.pool).1 }
  | .replaceStore i j length startOffset =>
    match x.channels[i]?, x.stores[j]? with
    | some c, some s =>
      let replaced := c.replaceStore s length startOffset x.pool
      { x with pool := replaced.2.2, channels := x.channels.set i replaced.2.1, stores := x.stores.eraseIdx j }
    | _, _ => x
  | .openRing depth =>
    let made := CaptureRing.new depth x.pool
    { x with pool := made.2, rings := x.rings ++ [made.1] }
  | .put i data => { x with rings := x.rings.modify i (·.put data) }
  | .releaseRing i =>
    match x.rings[i]? with
    | none => x
    | some r => { x with pool := r.release x.pool, rings := x.rings.eraseIdx i }

/-- Operations in turn, on holders that are there at that time. -/
def after (x : Inventory) (moves : List Move) : Inventory := moves.foldl step x

/-! ## Sums over holders -/

section Sums

variable {β : Type} {l : List β} {i : Nat} {a : β} (f : β → Nat)

theorem sum_set (h : l[i]? = some a) (b : β) : ((l.set i b).map f).sum + f a = (l.map f).sum + f b := by
  induction l generalizing i with
  | nil => cases h
  | cons first rest ih =>
    cases i with
    | zero =>
      obtain rfl : first = a := Option.some.inj h
      simp only [List.set_cons_zero, List.map_cons, List.sum_cons]
      omega
    | succ i =>
      have hrest := ih (i := i) h
      simp only [List.set_cons_succ, List.map_cons, List.sum_cons]
      omega

theorem sum_eraseIdx (h : l[i]? = some a) : ((l.eraseIdx i).map f).sum + f a = (l.map f).sum := by
  induction l generalizing i with
  | nil => cases h
  | cons first rest ih =>
    cases i with
    | zero =>
      obtain rfl : first = a := Option.some.inj h
      simp only [List.eraseIdx_cons_zero, List.map_cons, List.sum_cons]
      omega
    | succ i =>
      have hrest := ih (i := i) h
      simp only [List.eraseIdx_cons_succ, List.map_cons, List.sum_cons]
      omega

theorem sum_modify {g : β → β} (hg : ∀ a, f (g a) = f a) (l : List β) (i : Nat) :
    ((l.modify i g).map f).sum = (l.map f).sum := by
  induction l generalizing i with
  | nil => rw [List.modify_nil]
  | cons first rest ih =>
    cases i with
    | zero => rw [List.modify_zero_cons, List.map_cons, hg, List.map_cons]
    | succ i => rw [List.modify_succ_cons, List.map_cons, List.sum_cons, ih, List.map_cons, List.sum_cons]

theorem sum_concat (l : List β) (a : β) : ((l ++ [a]).map f).sum = (l.map f).sum + f a := by simp

end Sums

/-! ## The invariant -/

/-- Every buffer is accounted for, and whatever grows does so by buffers of the pool. -/
structure Sound (size target : Nat) (x : Inventory) : Prop where
  size_pos : 0 < size
  size : x.pool.bufferSize = size
  target : x.pool.target = target
  silent : x.pool.Sound
  bound : x.pool.available.length ≤ x.pool.capacity
  balance : x.pool.available.length + x.held + x.pool.dropped = x.pool.created
  stores : ∀ s ∈ x.stores, s.Backed x.pool
  channels : ∀ c ∈ x.channels, c.Backed x.pool

theorem new_sound (bufferSize target : Nat) : (new bufferSize target).Sound (max 1 bufferSize) target where
  size_pos := by omega
  size := rfl
  target := rfl
  silent := Pool.new_sound bufferSize target
  bound := by
    simp only [new, Pool.new, Pool.refill, Pool.capacity, List.length_append, List.length_nil, List.length_replicate]
    omega
  balance := by
    simp only [new, held, Pool.new, Pool.refill, List.length_append, List.length_replicate, List.length_nil, List.map_nil,
      List.sum_nil]
    omega
  stores := by
    intro s hs
    cases hs
  channels := by
    intro c hc
    cases hc

section Step

variable {size target : Nat} {x : Inventory}

theorem Sound.max_size (h : x.Sound size target) : max 1 x.pool.bufferSize = x.pool.bufferSize := by
  have hpos := h.size_pos
  have hsame := h.size
  omega

/-- After a trade in which everybody's holdings are what they have become. -/
theorem Sound.trade (h : x.Sound size target) {y : Inventory} (htrade : x.pool.Trades x.held y.pool y.held)
    (hstores : ∀ s ∈ y.stores, s ∈ x.stores ∨ s.Backed y.pool)
    (hchannels : ∀ c ∈ y.channels, c ∈ x.channels ∨ c.Backed y.pool) : y.Sound size target where
  size_pos := h.size_pos
  size := htrade.size.trans h.size
  target := htrade.target.trans h.target
  silent := htrade.silent h.silent
  bound := htrade.bound h.bound
  balance := by
    have hbefore := h.balance
    have hchanged := htrade.balance
    omega
  stores := by
    intro s hs
    rcases hstores s hs with hold | hnew
    · exact (h.stores s hold).of_pool (htrade.silent h.silent) htrade.size
    · exact hnew
  channels := by
    intro c hc
    rcases hchannels c hc with hold | hnew
    · exact (h.channels c hold).of_pool (htrade.silent h.silent) htrade.size
    · exact hnew

/-- A trade of callers and rings, who need nothing of the pool. -/
theorem Sound.trade_beside (h : x.Sound size target) {y : Inventory} (htrade : x.pool.Trades x.held y.pool y.held)
    (hstores : y.stores = x.stores) (hchannels : y.channels = x.channels) : y.Sound size target :=
  h.trade htrade (fun _ hs => .inl (hstores ▸ hs)) (fun _ hc => .inl (hchannels ▸ hc))

theorem Sound.release (h : x.Sound size target) (i : Nat) : (x.step (.release i)).Sound size target := by
  unfold step
  dsimp only
  split
  · exact h
  · next b hb =>
    have hrest := List.length_eraseIdx_add_one (List.getElem?_eq_some_iff.1 hb).1
    refine h.trade_beside ((x.pool.release_trades b (x.held - 1)).congr ?_ ?_) rfl rfl
    all_goals
      dsimp only [held]
      omega

theorem Sound.store (h : x.Sound size target) (i : Nat) (move : StoreMove) :
    (x.step (.store i move)).Sound size target := by
  unfold step
  dsimp only
  split
  · exact h
  · next s hs =>
    have hothers := sum_eraseIdx (fun s : Store => s.buffers.length) hs
    have hset := sum_set (fun s : Store => s.buffers.length) hs (move.run s x.pool).1
    refine h.trade (((move.run_trades s x.pool).beside (x.held - s.buffers.length)).congr ?_ ?_) ?_ fun _ => .inl
    · dsimp only [held]
      omega
    · dsimp only [held]
      omega
    · intro s' hs'
      rcases List.mem_or_eq_of_mem_set hs' with hold | rfl
      · exact .inl hold
      · exact .inr (move.run_backed (h.stores s (List.mem_of_getElem? hs)))

theorem Sound.channel (h : x.Sound size target) (i : Nat) (move : ChannelMove) :
    (x.step (.channel i move)).Sound size target := by
  unfold step
  dsimp only
  split
  · exact h
  · next c hc =>
    have hothers := sum_eraseIdx (fun c : Channel => c.held) hc
    have hset := sum_set (fun c : Channel => c.held) hc (move.run c x.pool).1
    refine h.trade (((move.run_trades c x.pool).beside (x.held - c.held)).congr ?_ ?_) (fun _ => .inl) ?_
    · dsimp only [held]
      omega
    · dsimp only [held]
      omega
    · intro c' hc'
      rcases List.mem_or_eq_of_mem_set hc' with hold | rfl
      · exact .inl hold
      · exact .inr (move.run_backed (h.channels c (List.mem_of_getElem? hc)))

theorem Sound.openStore (h : x.Sound size target) (reserved : Option Nat) :
    (x.step (.openStore reserved)).Sound size target := by
  refine h.trade ((Pool.Trades.refl x.pool x.held).congr rfl ?_) ?_ fun _ => .inl
  · dsimp only [held, step]
    rw [sum_concat]
    cases reserved <;> rfl
  · intro s hs
    rcases List.mem_append.1 hs with hold | hnew
    · exact .inl hold
    · rw [List.mem_singleton.1 hnew]
      exact .inr (Store.opened_backed h.silent h.max_size reserved)

theorem Sound.openChannel (h : x.Sound size target) (mode : ChannelMode) (reserved : Option Nat) :
    (x.step (.openChannel mode reserved)).Sound size target := by
  refine h.trade ((Pool.Trades.refl x.pool x.held).congr rfl ?_) (fun _ => .inl) ?_
  · dsimp only [held, step]
    rw [sum_concat]
    cases reserved <;> rfl
  · intro c hc
    rcases List.mem_append.1 hc with hold | hnew
    · exact .inl hold
    · rw [List.mem_singleton.1 hnew]
      exact .inr (Channel.new_backed h.silent h.max_size mode reserved)

/-- The store that comes back is empty, so that it can be dropped. -/
theorem Sound.replaceStore (h : x.Sound size target) (i j length : Nat) (startOffset : Int) :
    (x.step (.replaceStore i j length startOffset)).Sound size target := by
  unfold step
  dsimp only
  split
  · next c s hc hs =>
    have hbacked := Channel.replaceStore_backed (h.channels c (List.mem_of_getElem? hc))
      (h.stores s (List.mem_of_getElem? hs)) length startOffset
    have hstores := sum_eraseIdx (fun s : Store => s.buffers.length) hs
    have hchannels := sum_eraseIdx (fun c : Channel => c.held) hc
    have hset := sum_set (fun c : Channel => c.held) hc (c.replaceStore s length startOffset x.pool).2.1
    refine h.trade (((c.replaceStore_trades s length startOffset x.pool).beside
      (x.held - (c.held + s.buffers.length))).congr ?_ ?_) ?_ ?_
    · dsimp only [held]
      omega
    · dsimp only [held]
      omega
    · exact fun s' hs' => .inl (List.mem_of_mem_eraseIdx hs')
    · intro c' hc'
      rcases List.mem_or_eq_of_mem_set hc' with hold | rfl
      · exact .inl hold
      · exact .inr hbacked
  · exact h

theorem Sound.put (h : x.Sound size target) (i : Nat) (data : Buffer) : (x.step (.put i data)).Sound size target := by
  refine h.trade_beside ((Pool.Trades.refl x.pool x.held).congr rfl ?_) rfl rfl
  dsimp only [held, step]
  rw [sum_modify (fun r : CaptureRing => r.buffers.length) fun r => r.length_put data]

theorem Sound.releaseRing (h : x.Sound size target) (i : Nat) : (x.step (.releaseRing i)).Sound size target := by
  unfold step
  dsimp only
  split
  · exact h
  · next r hr =>
    have hothers := sum_eraseIdx (fun r : CaptureRing => r.buffers.length) hr
    refine h.trade_beside ((x.pool.releaseAll_trades r.buffers (x.held - r.buffers.length)).congr ?_ ?_) rfl rfl
    all_goals
      dsimp only [held]
      omega

theorem Sound.step (h : x.Sound size target) (move : Move) : (x.step move).Sound size target := by
  cases move with
  | acquire =>
    refine h.trade_beside ((x.pool.acquire_trades x.held).congr rfl ?_) rfl rfl
    dsimp only [held, Inventory.step]
    rw [List.length_append, List.length_singleton]
    omega
  | overwrite i position source =>
    refine h.trade_beside ((Pool.Trades.refl x.pool x.held).congr rfl ?_) rfl rfl
    dsimp only [held, Inventory.step]
    rw [List.length_modify]
  | release i => exact h.release i
  | refill => exact h.trade_beside (x.pool.refill_trades x.held) rfl rfl
  | openStore reserved => exact h.openStore reserved
  | store i move => exact h.store i move
  | openChannel mode reserved => exact h.openChannel mode reserved
  | channel i move => exact h.channel i move
  | replaceStore i j length startOffset => exact h.replaceStore i j length startOffset
  | openRing depth =>
    refine h.trade_beside ((x.pool.acquireMany_trades x.held (blocksFor depth x.pool.bufferSize + 1)).congr rfl ?_) rfl rfl
    dsimp only [held, Inventory.step]
    rw [sum_concat]
    exact (Nat.add_assoc _ _ _).symm
  | put i data => exact h.put i data
  | releaseRing i => exact h.releaseRing i

theorem Sound.after (h : x.Sound size target) (moves : List Move) : (x.after moves).Sound size target :=
  List.foldlRecOn moves Inventory.step h fun _ hy move _ => hy.step move

end Step

/-! ## What comes of it -/

/-- What can be seen of a pool whose buffers have `size` samples, and of all that holds some of them. -/
structure Accounted (size target : Nat) (x : Inventory) : Prop where
  /-- Of the buffers made, all but the dropped ones are at hand or held. -/
  counted : x.pool.dropped ≤ x.pool.created ∧ x.pool.available.length + x.held = x.pool.created - x.pool.dropped
  kept : x.pool.available.length ≤ max 1 (2 * target)
  silent : ∀ b ∈ x.pool.available, b = silence size
  acquired : x.pool.acquire.1 = silence size
  grown : ∀ s ∈ x.allStores, ∀ samples,
    samples ≤ (s.ensure samples x.pool).1.capacity ∧ s.SilentBeyond (s.ensure samples x.pool).1 0 0 ∧
      min samples s.reserved ≤ (s.growWithinReserve samples x.pool).1.capacity ∧
        s.SilentBeyond (s.growWithinReserve samples x.pool).1 0 0
  written : ∀ s ∈ x.allStores, ∀ position source,
    s.SilentBeyond (s.write position source x.pool).1 position source.length ∧
      s.SilentBeyond (s.writeWithinReserve position source x.pool).2.1 position source.length
  cleared : ∀ c ∈ x.channels, ∀ length, (c.clear length x.pool).1.data = silence length
  captured : ∀ depth, (CaptureRing.new depth x.pool).1.window = silence depth

theorem Sound.allStores {size target : Nat} {x : Inventory} (h : x.Sound size target) :
    ∀ s ∈ x.allStores, s.Backed x.pool := by
  intro s hs
  rcases List.mem_append.1 hs with hs | hs
  · exact h.stores s hs
  · obtain ⟨c, hc, hs⟩ := List.mem_flatMap.1 hs
    rcases List.mem_pair.1 hs with rfl | rfl
    · exact (h.channels c hc).store
    · exact (h.channels c hc).preRecord

theorem Sound.accounted {size target : Nat} {x : Inventory} (h : x.Sound size target) : x.Accounted size target where
  counted := by
    have hbalance := h.balance
    omega
  kept := by
    rw [← h.target]
    exact h.bound
  silent := by
    rw [← h.size]
    exact h.silent
  acquired := by
    rw [← h.size]
    exact h.silent.acquire.1
  grown := by
    intro s hs samples
    have hbacked := h.allStores s hs
    exact ⟨hbacked.le_capacity_ensure samples, hbacked.push_silent _ 0 0, hbacked.le_capacity_growWithinReserve samples,
      hbacked.push_silent _ 0 0⟩
  written := by
    intro s hs position source
    have hbacked := h.allStores s hs
    exact ⟨hbacked.write_silent position source, hbacked.writeWithinReserve_silent position source⟩
  cleared := fun c hc length => Channel.clear_data (h.channels c hc) length
  captured := fun depth => CaptureRing.window_new depth h.silent (h.size ▸ h.size_pos)

/-- Whatever callers, stores, channels and rings do with a pool, no buffer is lost or there
twice, the pool keeps no more than it may, and whatever is taken from it is silent. -/
theorem buffers_conserved (bufferSize target : Nat) (moves : List Move) :
    ((new bufferSize target).after moves).Accounted (max 1 bufferSize) target :=
  ((new_sound bufferSize target).after moves).accounted

/-- A channel with nine samples holds three buffers. Of the four that come back when
the channel and the caller let go of theirs, the pool has room for two. -/
example :
    let x := (new 4 1).after [.acquire, .openChannel .direct none, .channel 0 (.load (silence 9)), .channel 0 .release,
      .release 0]
    (x.pool.available.length, x.held, x.pool.created, x.pool.dropped) = (2, 0, 4, 2) := by
  decide

end Inventory

end Overdub.Audio
