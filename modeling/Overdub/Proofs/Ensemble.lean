import Mathlib.Logic.Function.Iterate
import Overdub.Loop.Scheduler
import Overdub.Proofs.Clock
/-!
# Clocks that trigger each other

An `Ensemble` is a sync graph; with a clock for every loop it says how time
passes for all of them, without arenas, rounds or predictions. In a chunk every
clock moves by the same frames; the ones that end alone trigger, and so do, in
turn, the ones that follow a clock that has triggered.

A `Run` is any division of some frames into chunks that pass no loop end. Two
facts carry everything said about runs: an invariant of chunks is one of runs
(`Run.inv`), and a run is a number of single frames (`Run.frames`).
-/

namespace Overdub

/-- Clocks for all keys. A key of no loop has a clock that stands still. -/
abbrev Clocks := LoopKey → Clock

/-- Who follows whom, and the order in which triggers are passed on. -/
structure Ensemble where
  source : LoopKey → Option LoopKey
  keys : List LoopKey

namespace Clock

/-! ## One clock -/

@[simp] theorem still_settled : still.settled = still := rfl
@[simp] theorem still_moved (n : Nat) : still.moved n = still := rfl
@[simp] theorem still_trigger : still.trigger = still := rfl
@[simp] theorem still_untilEnd : still.untilEnd = none := rfl

@[simp] theorem moved_mode (c : Clock) (n : Nat) : (c.moved n).mode = c.mode := by
  unfold moved
  split <;> rfl

@[simp] theorem moved_planned (c : Clock) (n : Nat) : (c.moved n).planned = c.planned := by
  unfold moved
  split <;> rfl

@[simp] theorem transition_planned (c : Clock) (m : LoopMode) : (c.transition m).planned = c.planned := by
  unfold transition
  split <;> rfl

@[simp] theorem transition_mode (c : Clock) (m : LoopMode) : (c.transition m).mode = m := by
  unfold transition
  split
  · next h => exact h
  · rfl

@[simp] theorem settled_planned (c : Clock) : c.settled.planned = c.planned := by
  unfold settled
  split
  · exact transition_planned c _
  · rfl

theorem moved_moved (c : Clock) (n m : Nat) : (c.moved n).moved m = c.moved (n + m) := by
  obtain ⟨mode, position, length, planned⟩ := c
  cases mode <;> simp [moved] <;> omega

theorem settled_of_content {c : Clock} (h : c.mode.isPlaying = true → 0 < c.length) : c.settled = c := by
  unfold settled
  refine if_neg fun hc => ?_
  simp only [Bool.and_eq_true, decide_eq_true_eq] at hc
  have := h hc.1
  omega

theorem content_of_settled (c : Clock) (h : c.settled.mode.isPlaying = true) : 0 < c.settled.length := by
  unfold settled at h ⊢
  split at h
  · next hc =>
    simp only [Bool.and_eq_true, decide_eq_true_eq] at hc
    unfold transition at h
    split at h
    · next hm => simp [hm, LoopMode.isPlaying] at hc
    · simp [LoopMode.isPlaying] at h
  · next hc =>
    rw [if_neg hc]
    simp only [Bool.and_eq_true, decide_eq_true_eq, not_and] at hc
    exact Nat.pos_of_ne_zero (hc h)

theorem moved_length_le (c : Clock) (n : Nat) : c.length ≤ (c.moved n).length := by
  unfold moved
  split <;> first | exact Nat.le_refl _ | exact Nat.le_add_right _ _ | exact Nat.le_max_left _ _

/-- A clock that has settled stays settled while it moves. -/
theorem settled_moved (c : Clock) (n : Nat) : (c.settled.moved n).settled = c.settled.moved n := by
  refine settled_of_content fun h => ?_
  rw [moved_mode] at h
  exact Nat.lt_of_lt_of_le (content_of_settled c h) (moved_length_le _ _)

theorem untilEnd_eq_some {c : Clock} {m : Nat} :
    c.untilEnd = some m ↔
      c.mode.isPlaying = true ∧ c.position < c.length ∧ m = clampFrames (c.length - c.position) := by
  unfold untilEnd
  split
  · next h => simp only [Bool.and_eq_true, decide_eq_true_eq] at h; simp [h, eq_comm]
  · next h =>
    simp only [Bool.and_eq_true, decide_eq_true_eq, not_and] at h
    simp only [reduceCtorEq, false_iff, not_and]
    intro hp hl
    exact absurd hl (h hp)

/-- Moving on before the end brings the end nearer by the frames moved. -/
theorem untilEnd_moved {c : Clock} {n k : Nat} (hn : ∀ m, c.untilEnd = some m → n < m) (hk : n + k < maxFrames) :
    (c.moved n).untilEnd = some k ↔ c.untilEnd = some (n + k) := by
  simp only [untilEnd_eq_some, moved_mode]
  by_cases hp : c.mode.isPlaying = true
  · simp only [hp, true_and]
    by_cases hl : c.position < c.length
    · have hlt : n < clampFrames (c.length - c.position) := hn _ (untilEnd_eq_some.2 ⟨hp, hl, rfl⟩)
      obtain ⟨mode, position, length, planned⟩ := c
      cases mode <;> simp [LoopMode.isPlaying] at hp <;> simp [moved, clampFrames] at hl hlt ⊢ <;> omega
    · obtain ⟨mode, position, length, planned⟩ := c
      cases mode <;> simp [LoopMode.isPlaying] at hp <;> simp [moved] at hl ⊢ <;> omega
  · simp [hp]

/-- What is left until the end after moving on before it. -/
theorem le_untilEnd_moved {c : Clock} {n k : Nat} (h : ∀ m, c.untilEnd = some m → n + k ≤ m) :
    ∀ m, (c.moved n).untilEnd = some m → k ≤ m := by
  intro m hm
  obtain ⟨hp, hl, rfl⟩ := untilEnd_eq_some.1 hm
  rw [moved_mode] at hp
  by_cases hlt : c.position < c.length
  · have := h _ (untilEnd_eq_some.2 ⟨hp, hlt, rfl⟩)
    obtain ⟨mode, position, length, planned⟩ := c
    cases mode <;> simp [LoopMode.isPlaying] at hp <;> simp [moved, clampFrames] at hlt hl this ⊢ <;> omega
  · obtain ⟨mode, position, length, planned⟩ := c
    cases mode <;> simp [LoopMode.isPlaying] at hp <;> simp [moved] at hlt hl <;> omega

end Clock

namespace Ensemble

variable (e : Ensemble)

/-! ## Triggers that are passed on -/

/-- A clock that follows a triggered one triggers. -/
def passOn (key : LoopKey) (hit : LoopKey → Bool) : LoopKey → Bool :=
  fun k => hit k || (k = key && (e.source key).any hit)

/-- A trigger arrives at a clock, from as far as so many hops away. -/
def pass : Nat → LoopKey → (LoopKey → Bool) → LoopKey → Bool
  | 0, key, hit => e.passOn key hit
  | hops + 1, key, hit => e.passOn key ((e.source key).elim hit fun source => pass hops source hit)

/-- Triggers arrive at all clocks in turn. -/
def passAll (hit : LoopKey → Bool) : LoopKey → Bool :=
  e.keys.foldl (fun hit key => e.pass Scheduler.maxHops key hit) hit

/-- `P` holds of all clocks that have triggered, and of every clock whose source
it holds of. -/
structure Spreads (P : LoopKey → Prop) (hit : LoopKey → Bool) : Prop where
  now : ∀ key, hit key = true → P key
  on : ∀ key source, e.source key = some source → P source → P key

variable {e} {P : LoopKey → Prop} {hit : LoopKey → Bool}

theorem Spreads.passOn (h : e.Spreads P hit) (key : LoopKey) : e.Spreads P (e.passOn key hit) := by
  refine ⟨fun k hk => ?_, h.on⟩
  simp only [Ensemble.passOn, Bool.or_eq_true, Bool.and_eq_true, decide_eq_true_eq, Option.any_eq_true] at hk
  rcases hk with hk | ⟨rfl, source, hs, hf⟩
  · exact h.now k hk
  · exact h.on k source hs (h.now source hf)

theorem Spreads.pass (h : e.Spreads P hit) (hops : Nat) (key : LoopKey) : e.Spreads P (e.pass hops key hit) := by
  induction hops generalizing key with
  | zero => exact h.passOn key
  | succ hops ih =>
    refine Spreads.passOn ?_ key
    cases e.source key with
    | none => exact h
    | some source => exact ih source

theorem Spreads.passAll (h : e.Spreads P hit) : e.Spreads P (e.passAll hit) := by
  unfold Ensemble.passAll
  induction e.keys generalizing hit with
  | nil => exact h
  | cons key rest ih => exact ih (h.pass Scheduler.maxHops key)

variable (e)

theorem passOn_of_hit {key k : LoopKey} (h : hit k = true) : e.passOn key hit k = true := by simp [passOn, h]

theorem pass_of_hit {hops : Nat} {key k : LoopKey} (h : hit k = true) : e.pass hops key hit k = true := by
  induction hops generalizing key with
  | zero => exact e.passOn_of_hit h
  | succ hops ih =>
    refine e.passOn_of_hit ?_
    cases e.source key with
    | none => exact h
    | some source => exact ih

theorem foldl_pass_of_hit (keys : List LoopKey) {k : LoopKey} (h : hit k = true) :
    keys.foldl (fun hit key => e.pass Scheduler.maxHops key hit) hit k = true := by
  induction keys generalizing hit with
  | nil => exact h
  | cons key rest ih => exact ih (e.pass_of_hit h)

theorem passAll_of_hit {k : LoopKey} (h : hit k = true) : e.passAll hit k = true := e.foldl_pass_of_hit e.keys h

theorem pass_of_source {hops : Nat} {key source : LoopKey} (hs : e.source key = some source)
    (h : hit source = true) : e.pass hops key hit key = true := by
  cases hops with
  | zero => simp [pass, passOn, hs, h]
  | succ hops =>
    simp only [pass, passOn, hs, Option.elim_some, Option.any_some, e.pass_of_hit h, decide_true, Bool.and_true,
      Bool.or_true]

/-- A follower triggers with its source. -/
theorem passAll_of_source {key source : LoopKey} (hk : key ∈ e.keys) (hs : e.source key = some source)
    (h : hit source = true) : e.passAll hit key = true := by
  obtain ⟨front, back, hkeys⟩ := List.append_of_mem hk
  unfold passAll
  rw [hkeys, List.foldl_append, List.foldl_cons]
  exact e.foldl_pass_of_hit back (e.pass_of_source hs (e.foldl_pass_of_hit front h))

/-- Where no clock has triggered, none will. -/
theorem passAll_none (h : ∀ k, hit k = false) (k : LoopKey) : e.passAll hit k = false := by
  have hs : e.Spreads (fun _ => False) hit := ⟨fun k hk => by simp [h k] at hk, fun _ _ _ hf => hf⟩
  cases hk : e.passAll hit k with
  | false => rfl
  | true => exact (hs.passAll.now k hk).elim

/-! ## Chunks -/

/-- All clocks settle. -/
def settle (c : Clocks) : Clocks := fun key => (c key).settled

/-- The clock ends with the `n`-th frame and has no playing source. -/
def endsAlone (n : Nat) (c : Clocks) (key : LoopKey) : Bool :=
  (c key).untilEnd = some n && (e.source key).all fun source => !(c source).mode.isPlaying

/-- The clocks that trigger within `n` frames. -/
def fired (n : Nat) (c : Clocks) : LoopKey → Bool := e.passAll (e.endsAlone n c)

/-- All clocks move, and some trigger. -/
def advance (n : Nat) (c : Clocks) : Clocks := fun key =>
  if e.fired n c key then ((c key).moved n).trigger else (c key).moved n

/-- A chunk of `n` frames. -/
def chunk (n : Nat) (c : Clocks) : Clocks := e.advance n (settle c)

/-- One frame. -/
def frame (c : Clocks) : Clocks := e.chunk 1 c

/-- `n` frames pass no end. -/
def Within (n : Nat) (c : Clocks) : Prop := ∀ key m, (settle c key).untilEnd = some m → n ≤ m

/-- No clock triggers in a chunk that lies before all ends. -/
theorem advance_quiet {c : Clocks} {n : Nat} (h : ∀ key m, (c key).untilEnd = some m → n < m) :
    e.advance n c = fun key => (c key).moved n := by
  funext key
  unfold advance fired
  rw [e.passAll_none fun key => ?_, if_neg Bool.false_ne_true]
  unfold endsAlone
  rw [Bool.and_eq_false_iff, decide_eq_false_iff_not]
  exact .inl fun hk => Nat.lt_irrefl _ (h key n hk)

/-- A chunk that lies before all ends can be joined to the next one. -/
theorem chunk_chunk {c : Clocks} {n m : Nat} (h : ∀ key k, (settle c key).untilEnd = some k → n < k)
    (hm : n + m < maxFrames) : e.chunk m (e.chunk n c) = e.chunk (n + m) c := by
  have hsettled : settle (e.chunk n c) = fun key => (settle c key).moved n := by
    funext key
    unfold chunk
    rw [e.advance_quiet h]
    exact Clock.settled_moved _ _
  have hends : e.endsAlone m (fun key => (settle c key).moved n) = e.endsAlone (n + m) (settle c) := by
    funext key
    unfold endsAlone
    simp only [Clock.moved_mode, Clock.untilEnd_moved (h key) hm]
  unfold chunk at hsettled ⊢
  rw [hsettled]
  funext key
  unfold advance fired
  rw [hends, Clock.moved_moved]

/-- After a chunk that lies before all ends, the rest lies within the ends. -/
theorem within_chunk {c : Clocks} {n m : Nat} (h : Within (n + m) c) (hm : 0 < m) : Within m (e.chunk n c) := by
  intro key k hk
  have hlt : ∀ key k, (settle c key).untilEnd = some k → n < k := fun key k hk => by
    have := h key k hk
    omega
  unfold chunk at hk
  rw [e.advance_quiet hlt] at hk
  unfold settle at hk
  rw [Clock.settled_moved] at hk
  exact Clock.le_untilEnd_moved (h key) k hk

/-- A chunk is so many single frames. -/
theorem chunk_eq_frames {c : Clocks} {n : Nat} (h : Within (n + 1) c) (hn : n + 1 < maxFrames) :
    e.chunk (n + 1) c = e.frame^[n + 1] c := by
  induction n generalizing c with
  | zero => rfl
  | succ n ih =>
    have hlt : ∀ key k, (settle c key).untilEnd = some k → 1 < k := fun key k hk => by
      have := h key k hk
      omega
    have h' : Within (1 + (n + 1)) c := by rwa [Nat.add_comm 1]
    rw [Nat.add_comm, ← e.chunk_chunk hlt (by omega), ih (e.within_chunk h' (by omega)) (by omega),
      Nat.add_comm 1, Function.iterate_succ_apply]
    rfl

/-! ## Runs -/

/-- Frames in any division into chunks that pass no end. -/
inductive Run : Clocks → Nat → Clocks → Prop
  | done (c : Clocks) : Run c 0 c
  | chunk {c c' : Clocks} {n m : Nat} : 0 < n → Within n c → Run (e.chunk n c) m c' → Run c (n + m) c'

variable {e} {c c' c'' : Clocks} {n m : Nat}

theorem Run.append (h : e.Run c n c') (h' : e.Run c' m c'') : e.Run c (n + m) c'' := by
  induction h with
  | done => rwa [Nat.zero_add]
  | chunk hn hw _ ih =>
    rw [Nat.add_assoc]
    exact .chunk hn hw (ih h')

/-- Fewer frames than can be counted are so many single ones, however divided. -/
theorem Run.frames (h : e.Run c n c') (hn : n < maxFrames) : c' = e.frame^[n] c := by
  induction h with
  | done => rfl
  | @chunk c c' n m h0 hw _ ih =>
    obtain ⟨n, rfl⟩ : ∃ k, n = k + 1 := ⟨n - 1, by omega⟩
    rw [ih (by omega), e.chunk_eq_frames hw (by omega), ← Function.iterate_add_apply, Nat.add_comm]

/-- What chunks keep, runs keep; `I` may say how many frames have passed. -/
theorem Run.inv (I : Nat → Clocks → Prop)
    (hs : ∀ t n c, 0 < n → Within n c → I t c → I (t + n) (e.chunk n c))
    {t : Nat} (h : e.Run c n c') (hi : I t c) : I (t + n) c' := by
  induction h generalizing t with
  | done => exact hi
  | @chunk c c' n m h0 hw _ ih =>
    rw [← Nat.add_assoc]
    exact ih (hs t n c h0 hw hi)

end Ensemble

end Overdub
