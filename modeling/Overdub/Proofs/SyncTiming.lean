import Mathlib.Order.Bounds.Defs
import Overdub.Proofs.Cycles
/-!
# When synced loops act

A loop that plays on its own triggers every time its length has passed, and with
it the loops that follow it. So a plan with countdown `d`, made at position `p`
of a source of length `L`, is carried out after `(d + 1) * L - p` frames
(`plan_takes_effect`), and a follower that is shorter than a whole number of
rounds of its source waits at its end for the next round (`follower_position`).

Time is counted by the phase of the source: after `q` rounds it is at `x`. What
a chunk does to the phase is all that an invariant of a run has to know.
-/

namespace Overdub

namespace Clock

/-! ## Triggers by plans -/

theorem trigger_nil (c : Clock) (h : c.planned = []) : c.trigger = c.wrapped := by
  obtain ⟨mode, position, length, planned⟩ := c
  subst h
  simp only [trigger, wrapped, follow]
  split <;> rfl

/-- A plan that is not due is one trigger nearer. -/
theorem trigger_waiting (c : Clock) {m : LoopMode} {k : Int} (h : c.planned = [⟨m, k⟩]) (hk : 0 < k) :
    c.trigger = { c.wrapped with planned := [⟨m, k - 1⟩] } := by
  have hdue : PlannedTransition.isDue ⟨m, k - 1⟩ = false := by simp [PlannedTransition.isDue]; omega
  simp [trigger, h, PlannedTransition.countDown, hdue, follow]

/-- A plan that has no more triggers to wait for is carried out. -/
theorem trigger_due (c : Clock) {m : LoopMode} (h : c.planned = [⟨m, 0⟩]) :
    c.trigger = { c.wrapped.transition m with planned := [] } := by
  simp [trigger, h, PlannedTransition.countDown, PlannedTransition.isDue, follow]

@[simp] theorem wrapped_planned (c : Clock) : c.wrapped.planned = c.planned := by
  unfold wrapped
  split <;> rfl

@[simp] theorem wrapped_mode (c : Clock) : c.wrapped.mode = c.mode := by
  unfold wrapped
  split <;> rfl

theorem transition_recording {c : Clock} (h : c.mode ≠ .recording) :
    c.transition .recording = ⟨.recording, 0, 0, c.planned⟩ := by
  rw [transition, if_neg h]
  simp [LoopMode.isPlaying]

end Clock

namespace Ensemble
variable {e : Ensemble} {c : Clocks} {n : Nat} {source follower : LoopKey}

/-! ## A source and its follower -/

/-- A loop without a source triggers at its end and at no other time. -/
theorem fired_source (hs : e.source source = none) :
    e.fired n c source = decide ((c source).untilEnd = some n) := by
  have hends : e.endsAlone n c source = decide ((c source).untilEnd = some n) := by simp [endsAlone, hs]
  rw [← hends]
  have hspread : e.Spreads (fun k => k = source → e.endsAlone n c source = true) (e.endsAlone n c) := by
    refine ⟨fun k hk he => he ▸ hk, fun k k' hk' _ he => ?_⟩
    rw [he, hs] at hk'
    cases hk'
  rw [Bool.eq_iff_iff]
  exact ⟨fun h => hspread.passAll.now source h rfl, e.passAll_of_hit⟩

/-- A loop whose source plays triggers with it and at no other time. -/
theorem fired_follower (hs : e.source source = none) (hf : e.source follower = some source)
    (hmem : follower ∈ e.keys) (hplaying : (c source).mode.isPlaying = true) :
    e.fired n c follower = e.fired n c source := by
  rw [Bool.eq_iff_iff, fired_source hs]
  have hown : e.endsAlone n c follower = false := by simp [endsAlone, hf, hplaying]
  have hspread : e.Spreads (fun k => k = source ∨ k = follower → (c source).untilEnd = some n) (e.endsAlone n c) := by
    refine ⟨fun k hk he => ?_, fun k k' hk' hsource he => ?_⟩
    · rcases he with rfl | rfl
      · simpa [endsAlone, hs] using hk
      · rw [hown] at hk
        cases hk
    · rcases he with rfl | rfl
      · rw [hs] at hk'
        cases hk'
      · rw [hf] at hk'
        exact hsource (.inl (Option.some.inj hk').symm)
  constructor
  · exact fun h => decide_eq_true (hspread.passAll.now follower h (.inr rfl))
  · intro h
    refine e.passAll_of_source hmem hf ?_
    simpa [endsAlone, hs] using h

/-- A loop that is not triggered to anything has no plans to come. -/
theorem chunk_planned (n : Nat) (c : Clocks) {key : LoopKey} (h : (c key).planned = []) :
    (e.chunk n c key).planned = [] := by
  have hmoved : ((c key).settled.moved n).planned = [] := by simp [h]
  unfold chunk advance settle
  split
  · rw [Clock.trigger_nil _ hmoved, Clock.wrapped_planned, hmoved]
  · exact hmoved

/-- A recording without plans goes on. -/
theorem chunk_recording (n : Nat) (c : Clocks) {key : LoopKey} {k : Nat} (h : c key = ⟨.recording, 0, k, []⟩) :
    e.chunk n c key = ⟨.recording, 0, k + n, []⟩ := by
  have hmoved : (c key).settled.moved n = ⟨.recording, 0, k + n, []⟩ := by
    simp [h, Clock.settled, LoopMode.isPlaying, Clock.moved]
  unfold chunk advance settle
  rw [hmoved]
  split
  · rfl
  · rfl

/-! ## The phase of the source -/

/-- After `t` frames from position `p` on, a loop of length `L` has been round
`q` times and is at `x`. -/
structure Phase (L p t q x : Nat) : Prop where
  sum : p + t = q * L + x
  lt : x < L

theorem Phase.step {L p t q x : Nat} (h : Phase L p t q x) (hn : x + n ≤ L) :
    x + n < L ∧ Phase L p (t + n) q (x + n) ∨ x + n = L ∧ Phase L p (t + n) (q + 1) 0 := by
  have hsum := h.sum
  have hlt := h.lt
  rcases Nat.lt_or_eq_of_le hn with hn | hn
  · exact .inl ⟨hn, by omega, hn⟩
  · exact .inr ⟨hn, by rw [Nat.succ_mul]; omega, by omega⟩

/-- A source and its follower, which triggers with it. -/
structure Pair (e : Ensemble) (source follower : LoopKey) : Prop where
  free : e.source source = none
  follows : e.source follower = some source
  mem : follower ∈ e.keys

/-- The source is playing at `x` of its length `L`. -/
structure PlaysAt (c : Clock) (x L : Nat) : Prop where
  mode : c.mode = .playing
  position : c.position = x
  length : c.length = L

section PlaysAt
variable {L x : Nat}

theorem PlaysAt.settled {c : Clock} (h : PlaysAt c x L) (hx : x < L) : c.settled = c :=
  Clock.settled_of_content fun _ => by
    have := h.length
    omega

theorem PlaysAt.untilEnd {c : Clock} (h : PlaysAt c x L) (hx : x < L) (hL : L ≤ maxFrames) :
    c.untilEnd = some (L - x) := by
  rw [Clock.untilEnd_eq_some, h.mode, h.position, h.length]
  refine ⟨rfl, hx, ?_⟩
  simp only [clampFrames]
  omega

theorem PlaysAt.moved {c : Clock} (h : PlaysAt c x L) (n : Nat) : PlaysAt (c.moved n) (min (x + n) L) L := by
  obtain ⟨hm, hx, hl⟩ := h
  refine ⟨by rw [Clock.moved_mode, hm], ?_, ?_⟩ <;> simp [Clock.moved, hm, hx, hl]

theorem PlaysAt.wrapped {c : Clock} (h : PlaysAt c x L) : PlaysAt c.wrapped (if L ≤ x then 0 else x) L := by
  obtain ⟨hm, hx, hl⟩ := h
  unfold Clock.wrapped
  by_cases hlx : L ≤ x
  · simp only [hm, hx, hl, hlx, LoopMode.isPlaying, decide_true, Bool.and_self, if_true]
    exact ⟨rfl, rfl, rfl⟩
  · simp only [hm, hx, hl, hlx, LoopMode.isPlaying, decide_false, Bool.and_false, Bool.false_eq_true, if_false]
    exact ⟨hm, hx, hl⟩

/-- The source reaches its end with a chunk or not, and the chunk does not pass it. -/
theorem Pair.fired (hp : Pair e source follower) (h : PlaysAt (c source) x L) (hx : x < L) (hL : L ≤ maxFrames)
    (hw : Within n c) :
    x + n ≤ L ∧ ∀ key, key = source ∨ key = follower → e.fired n (settle c) key = decide (x + n = L) := by
  have hsettled : settle c source = c source := h.settled hx
  have hend := h.untilEnd hx hL
  have hn : n ≤ L - x := hw source _ (hsettled ▸ hend)
  have hsource : e.fired n (settle c) source = decide (x + n = L) := by
    rw [fired_source hp.free, hsettled, hend]
    refine decide_eq_decide.2 ?_
    rw [Option.some.injEq]
    omega
  refine ⟨by omega, fun key hkey => ?_⟩
  rcases hkey with rfl | rfl
  · exact hsource
  · rw [fired_follower hp.free hp.follows hp.mem (by rw [hsettled, h.mode]; rfl), hsource]

end PlaysAt

theorem chunk_of_fired {key : LoopKey} (h : e.fired n (settle c) key = true) :
    e.chunk n c key = ((c key).settled.moved n).trigger := if_pos h

theorem chunk_of_not_fired {key : LoopKey} (h : e.fired n (settle c) key = false) :
    e.chunk n c key = (c key).settled.moved n := if_neg (Bool.eq_false_iff.1 h)

/-! ## A plan -/

/-- What a plan is made on: the phase of the source, and the loop as it is when
the plan is made. -/
structure Plan where
  /-- The source of the triggers, and the loop the plan is for, which may be the
  same. -/
  source : LoopKey
  key : LoopKey
  mode : LoopMode
  delay : Nat
  length : Nat
  position : Nat
  before : Clock

namespace Plan
variable (plan : Plan)

/-- The frames until the plan is carried out. -/
def time : Nat := (plan.delay + 1) * plan.length - plan.position

/-- The plan waits: `q` triggers have come of the `delay + 1` it takes. -/
structure Waits (t : Nat) (c : Clocks) (q x : Nat) : Prop where
  phase : Phase plan.length plan.position t q x
  le : q ≤ plan.delay
  source : PlaysAt (c plan.source) x plan.length
  alone : plan.key ≠ plan.source → (c plan.source).planned = []
  planned : (c plan.key).planned = [⟨plan.mode, plan.delay - q⟩]
  settled : (c plan.key).settled.mode = plan.before.settled.mode
  mode : (c plan.key).mode = if t = 0 then plan.before.mode else plan.before.settled.mode

/-- The plan has been carried out. -/
structure Done (t : Nat) (c : Clocks) : Prop where
  le : plan.time ≤ t
  planned : (c plan.key).planned = []
  mode : t = plan.time → (c plan.key).mode = plan.mode
  recording : plan.mode = .recording → plan.before.mode ≠ .recording →
    c plan.key = ⟨.recording, 0, t - plan.time, []⟩

variable {plan}

theorem Waits.lt_time {t q x : Nat} (h : plan.Waits t c q x) : t < plan.time := by
  have hphase := h.phase.sum
  have hlt := h.phase.lt
  have hle : (q + 1) * plan.length ≤ (plan.delay + 1) * plan.length :=
    Nat.mul_le_mul_right _ (Nat.succ_le_succ h.le)
  rw [Nat.succ_mul] at hle
  unfold time
  omega

theorem Done.chunk {t : Nat} (h : plan.Done t c) (hn : 0 < n) : plan.Done (t + n) (e.chunk n c) where
  le := Nat.le_add_right_of_le h.le
  planned := chunk_planned n c h.planned
  mode he := by
    have := h.le
    omega
  recording hm hb := by
    rw [chunk_recording n c (h.recording hm hb), Nat.sub_add_comm h.le]

/-- A loop without the need to stop has none after a trigger that leads to no
other mode. -/
theorem settled_waiting {b : Clock} (h : b.settled = b) (planned : List PlannedTransition) :
    ({ b.wrapped with planned } : Clock).settled = { b.wrapped with planned } := by
  refine Clock.settled_of_content fun hp => ?_
  have hcontent := Clock.content_of_settled b (by rw [h]; simpa using hp)
  rw [h] at hcontent
  unfold Clock.wrapped
  split <;> exact hcontent

theorem settled_ne_recording {b : Clock} (h : b.mode ≠ .recording) : b.settled.mode ≠ .recording := by
  unfold Clock.settled
  split
  · rw [Clock.transition_mode]
    decide
  · exact h

/-- A chunk that does not end the round of the source leaves the plan waiting,
and so does the end of a round while there are triggers to come. -/
theorem Waits.chunk (hp : Pair e plan.source follower) (hkey : plan.key = plan.source ∨ plan.key = follower)
    (hL : plan.length ≤ maxFrames) {t q x : Nat} (h : plan.Waits t c q x) (hn : 0 < n) (hw : Within n c) :
    (∃ q x, plan.Waits (t + n) (e.chunk n c) q x) ∨ plan.Done (t + n) (e.chunk n c) := by
  obtain ⟨hle, hfired⟩ := hp.fired h.source h.phase.lt hL hw
  have hsource := hfired plan.source (.inl rfl)
  have hplan := hfired plan.key hkey
  have hmoved : PlaysAt ((c plan.source).moved n) (x + n) plan.length := Nat.min_eq_left hle ▸ h.source.moved n
  have hsettled : (c plan.source).settled = c plan.source := h.source.settled h.phase.lt
  have hplanned : ((c plan.key).settled.moved n).planned = [⟨plan.mode, plan.delay - q⟩] := by simp [h.planned]
  rcases h.phase.step hle with ⟨hlt, hphase⟩ | ⟨hend, hphase⟩
  -- The source does not reach its end: nobody is triggered.
  · have hquiet : decide (x + n = plan.length) = false := decide_eq_false (by omega)
    rw [hquiet] at hsource hplan
    refine .inl ⟨q, x + n, hphase, h.le, ?_, fun hne => ?_, ?_, ?_, ?_⟩
    · rw [chunk_of_not_fired hsource, hsettled]
      exact hmoved
    · rw [chunk_of_not_fired hsource, Clock.moved_planned, Clock.settled_planned, h.alone hne]
    · rw [chunk_of_not_fired hplan, hplanned]
    · rw [chunk_of_not_fired hplan, Clock.settled_moved, Clock.moved_mode, h.settled]
    · rw [chunk_of_not_fired hplan, Clock.moved_mode, h.settled, if_neg (by omega)]
  -- The source wraps and triggers: the plan counts down, or it was the last trigger to wait for.
  · rw [decide_eq_true hend] at hsource hplan
    have hwrapped : PlaysAt ((c plan.source).moved n).wrapped 0 plan.length := by
      simpa only [hend, Nat.le_refl, if_true] using hmoved.wrapped
    rcases Nat.lt_or_eq_of_le h.le with hlt | heq
    · have hwait := Clock.trigger_waiting _ hplanned (by omega)
      have hcount : (plan.delay : Int) - q - 1 = plan.delay - (q + 1 : Nat) := by omega
      rw [hcount] at hwait
      refine .inl ⟨q + 1, 0, hphase, hlt, ?_, fun hne => ?_, ?_, ?_, ?_⟩
      · rw [chunk_of_fired hsource, hsettled]
        by_cases hsame : plan.key = plan.source
        · rw [hsame, hsettled] at hwait
          rw [hwait]
          exact ⟨hwrapped.mode, hwrapped.position, hwrapped.length⟩
        · rw [Clock.trigger_nil _ (by simp [h.alone hsame])]
          exact hwrapped
      · exact chunk_planned n c (h.alone hne)
      · rw [chunk_of_fired hplan, hwait]
      · rw [chunk_of_fired hplan, hwait, settled_waiting (Clock.settled_moved _ n)]
        simp [h.settled]
      · rw [chunk_of_fired hplan, hwait, if_neg (by omega)]
        simp [h.settled]
    · have hdue := Clock.trigger_due _ (hplanned.trans (by rw [heq, Int.sub_self]))
      have htime : t + n = plan.time := by
        have hsum := hphase.sum
        rw [heq] at hsum
        unfold time
        omega
      refine .inr ⟨Nat.le_of_eq htime.symm, ?_, fun _ => ?_, fun hm hb => ?_⟩
      · rw [chunk_of_fired hplan, hdue]
      · rw [chunk_of_fired hplan, hdue]
        exact Clock.transition_mode _ _
      · have hmode : ((c plan.key).settled.moved n).wrapped.mode ≠ .recording := by
          rw [Clock.wrapped_mode, Clock.moved_mode, h.settled]
          exact settled_ne_recording hb
        rw [chunk_of_fired hplan, hdue, hm, Clock.transition_recording hmode, htime, Nat.sub_self]

/-- A plan waits for its time, whatever the chunks. -/
theorem run (hp : Pair e plan.source follower) (hkey : plan.key = plan.source ∨ plan.key = follower)
    (hL : plan.length ≤ maxFrames) {c' : Clocks} (hrun : e.Run c n c') {x : Nat} (h : plan.Waits 0 c 0 x) :
    (∃ q x, plan.Waits n c' q x) ∨ plan.Done n c' := by
  have hinv := hrun.inv (fun t c => (∃ q x, plan.Waits t c q x) ∨ plan.Done t c) (t := 0) ?_ (.inl ⟨0, x, h⟩)
  · rwa [Nat.zero_add] at hinv
  · rintro t n c hn hw (⟨q, x, hwaits⟩ | hdone)
    · exact hwaits.chunk hp hkey hL hn hw
    · exact .inr (hdone.chunk hn)

end Plan

/-! ## The rounds of a follower -/

/-- Within a round of the source, the whole rounds of a follower go on; the end
of a round is either before the end of the follower, or ends its round too. -/
theorem round_step {L L' P t q x : Nat} (hP : IsLeast {m | L ∣ m ∧ L' ≤ m} P) (hL' : 0 < L')
    (hphase : Phase L 0 t q x) (hn : x + n ≤ L) :
    x + n < L ∧ (t + n) % P = t % P + n ∨
      x + n = L ∧ (L' ≤ t % P + n ∧ (t + n) % P = 0 ∨ t % P + n < L' ∧ (t + n) % P = t % P + n) := by
  obtain ⟨⟨⟨r, rfl⟩, hle⟩, hleast⟩ := hP
  have hx : t % (L * r) % L = x := by
    rw [Nat.mod_mod_of_dvd _ (Nat.dvd_mul_right L r), ← Nat.zero_add t, hphase.sum, Nat.mul_add_mod',
      Nat.mod_eq_of_lt hphase.lt]
  have hlt : t % (L * r) < L * r := Nat.mod_lt _ (by omega)
  have hdiv := Nat.div_add_mod (t % (L * r)) L
  have hround : t % (L * r) / L < r := Nat.div_lt_of_lt_mul hlt
  have hnext : L * (t % (L * r) / L + 1) ≤ L * r := Nat.mul_le_mul_left L hround
  rw [hx] at hdiv
  rw [Nat.mul_add, Nat.mul_one] at hnext
  have hmod : (t + n) % (L * r) = (t % (L * r) + n) % (L * r) := (Nat.mod_add_mod t (L * r) n).symm
  generalize hy : t % (L * r) = y at *
  rcases Nat.lt_or_eq_of_le hn with hn | hn
  · exact .inl ⟨hn, by rw [hmod, Nat.mod_eq_of_lt (by omega)]⟩
  · refine .inr ⟨hn, ?_⟩
    -- A wrap of the source within the round finds the follower still on its way.
    rcases Nat.lt_or_ge (y + n) L' with hshort | hlong
    · exact .inr ⟨hshort, by rw [hmod, Nat.mod_eq_of_lt (by omega)]⟩
    · have hdvd : L ∣ y + n := ⟨y / L + 1, by rw [Nat.mul_add, Nat.mul_one]; omega⟩
      have hend : y + n = L * r := Nat.le_antisymm (by omega) (hleast ⟨hdvd, hlong⟩)
      exact .inl ⟨hlong, by rw [hmod, hend, Nat.mod_self]⟩

/-- The source and a follower that started together: the follower waits at its
end for the source to begin a round. -/
structure Together (source follower : LoopKey) (L L' P t : Nat) (c : Clocks) : Prop where
  sourceAt : ∃ q x, Phase L 0 t q x ∧ PlaysAt (c source) x L
  sourcePlans : (c source).planned = []
  followerAt : PlaysAt (c follower) (min (t % P) L') L'
  followerPlans : (c follower).planned = []

theorem Together.chunk {L L' P t : Nat} (hp : Pair e source follower) (hL : L ≤ maxFrames)
    (hP : IsLeast {m | L ∣ m ∧ L' ≤ m} P) (hL' : 0 < L') (h : Together source follower L L' P t c)
    (hw : Within n c) : Together source follower L L' P (t + n) (e.chunk n c) := by
  obtain ⟨q, x, hphase, hsource⟩ := h.sourceAt
  obtain ⟨hle, hfired⟩ := hp.fired hsource hphase.lt hL hw
  have hs := hfired source (.inl rfl)
  have hf := hfired follower (.inr rfl)
  have hmoved : PlaysAt ((c source).moved n) (x + n) L := Nat.min_eq_left hle ▸ hsource.moved n
  have hsettled : (c source).settled = c source := hsource.settled hphase.lt
  have hsettled' : (c follower).settled = c follower := Clock.settled_of_content fun _ => by
    rw [h.followerAt.length]
    exact hL'
  have hmoved' : PlaysAt ((c follower).moved n) (min (t % P + n) L') L' := by
    have hstep : min (min (t % P) L' + n) L' = min (t % P + n) L' := by omega
    exact hstep ▸ h.followerAt.moved n
  refine ⟨?_, chunk_planned n c h.sourcePlans, ?_, chunk_planned n c h.followerPlans⟩
  -- The source wraps by itself.
  · rcases hphase.step hle with ⟨hlt, hphase'⟩ | ⟨hend, hphase'⟩
    · refine ⟨q, x + n, hphase', ?_⟩
      rw [chunk_of_not_fired (hs.trans (decide_eq_false (by omega))), hsettled]
      exact hmoved
    · refine ⟨q + 1, 0, hphase', ?_⟩
      rw [chunk_of_fired (hs.trans (decide_eq_true hend)), hsettled, Clock.trigger_nil _ (by simp [h.sourcePlans])]
      simpa only [hend, Nat.le_refl, if_true] using hmoved.wrapped
  -- The follower hears only the triggers of the source, and parks at its end until one comes.
  · rcases round_step hP hL' hphase hle with ⟨hlt, hround⟩ | ⟨hend, hround⟩
    · rw [chunk_of_not_fired (hf.trans (decide_eq_false (by omega))), hsettled', hround]
      exact hmoved'
    · rw [chunk_of_fired (hf.trans (decide_eq_true hend)), hsettled', Clock.trigger_nil _ (by simp [h.followerPlans])]
      have hwrapped := hmoved'.wrapped
      rcases hround with ⟨hlong, hround⟩ | ⟨hshort, hround⟩
      · rw [hround]
        simpa [Nat.min_eq_right hlong] using hwrapped
      · rw [hround]
        rwa [Nat.min_eq_left (Nat.le_of_lt hshort), if_neg (by omega),
          ← Nat.min_eq_left (Nat.le_of_lt hshort)] at hwrapped

theorem Together.run {L L' P : Nat} (hp : Pair e source follower) (hL : L ≤ maxFrames)
    (hP : IsLeast {m | L ∣ m ∧ L' ≤ m} P) (hL' : 0 < L') {c' : Clocks} (hrun : e.Run c n c')
    (h : Together source follower L L' P 0 c) : Together source follower L L' P n c' := by
  have hinv := hrun.inv (fun t c => Together source follower L L' P t c)
    (fun t n c _ hw h => h.chunk hp hL hP hL' hw) h
  rwa [Nat.zero_add] at hinv

end Ensemble

namespace Scheduler

/-- A loop that follows no other one, and one that follows it, without channels.
Other loops may be anything. -/
structure Synced (s : Scheduler) (loops : Loops) (keys : List LoopKey) (source follower : LoopKey) : Prop where
  nodup : keys.Nodup
  ahead : s.Ahead loops
  source_mem : source ∈ keys
  follower_mem : follower ∈ keys
  free : source? loops source = none
  follows : source? loops follower = some source
  bare : ∀ k, k = source ∨ k = follower → ∀ l, loops.get? k = some l → l.channels = []

section Synced
variable {s : Scheduler} {loops : Loops} {keys : List LoopKey} {source follower : LoopKey}

theorem Ahead.modify (h : s.Ahead loops) (key : LoopKey) (f : Loop → Loop)
    (hf : ∀ l, (f l).transport.round = l.transport.round) : s.Ahead (loops.modify key f) := by
  intro k l hl
  rw [Arena.get?_modify] at hl
  split at hl
  · obtain ⟨l₀, hl₀, rfl⟩ := Option.map_eq_some_iff.1 hl
    rw [hf]
    exact h key l₀ hl₀
  · exact h k l hl

theorem Synced.modify (h : Synced s loops keys source follower) (key : LoopKey) (f : Loop → Loop)
    (hround : ∀ l, (f l).transport.round = l.transport.round) (hsource : ∀ l, (f l).syncSource = l.syncSource)
    (hchannels : ∀ l, (f l).channels = l.channels) : Synced s (loops.modify key f) keys source follower where
  nodup := h.nodup
  ahead := h.ahead.modify key f hround
  source_mem := h.source_mem
  follower_mem := h.follower_mem
  free := by rw [source?_modify loops key f hsource, h.free]
  follows := by rw [source?_modify loops key f hsource, h.follows]
  bare k hk l hl := by
    rw [Arena.get?_modify] at hl
    split at hl
    · next he =>
      obtain ⟨l₀, hl₀, rfl⟩ := Option.map_eq_some_iff.1 hl
      rw [hchannels]
      exact h.bare k hk l₀ (he ▸ hl₀)
    · exact h.bare k hk l hl

/-- The two loops as a group. -/
abbrev both (source follower : LoopKey) (k : LoopKey) : Bool := decide (k = source ∨ k = follower)

theorem Synced.runs (h : Synced s loops keys source follower) :
    Runs ⟨source? loops, keys⟩ (both source follower) s loops where
  group := by
    refine ⟨h.nodup, rfl, fun k k' hk hk' => ?_, fun k l hk _ => ?_⟩
    · rcases of_decide_eq_true hk with rfl | rfl
      · cases h.free.symm.trans hk'
      · exact decide_eq_true (.inl (Option.some.inj (h.follows.symm.trans hk')).symm)
    · rcases of_decide_eq_true hk with rfl | rfl
      · exact h.source_mem
      · exact h.follower_mem
  ahead := h.ahead
  bare k _ hk l hl := h.bare k (of_decide_eq_true hk) l hl

theorem Synced.pair (h : Synced s loops keys source follower) :
    Ensemble.Pair ⟨source? loops, keys⟩ source follower := ⟨h.free, h.follows, h.follower_mem⟩

/-- The clocks of the two loops after cycles, which are still there. -/
theorem Synced.cycles (h : Synced s loops keys source follower) (ns : List Nat) {key : LoopKey}
    (hkey : key = source ∨ key = follower) {l : Loop} (hl : loops.get? key = some l) :
    let after := (s.cycles loops keys ns).2.1
    clockAt after key = some (clocks (both source follower) after key) := by
  obtain ⟨l', hl', -⟩ := Arena.Related.some_left (h.runs.cycles_sameSources ns) hl
  dsimp only at hl' ⊢
  rw [clockAt, hl', clocks_of_some (decide_eq_true hkey) hl']
  rfl

/-! ## Exact times -/

theorem settled_mode_planned (c : Clock) (planned : List PlannedTransition) :
    ({ c with planned } : Clock).settled.mode = c.settled.mode := by
  unfold Clock.settled
  split
  · exact (Clock.transition_mode _ _).trans (Clock.transition_mode _ _).symm
  · rfl

/-- A first plan that has to wait is put down. -/
theorem clock_plan {l : Loop} (h : l.transport.planned = []) (hwaits : l.syncSource.isSome ∨ l.transport.mode = .playing)
    (m : LoopMode) (d : Nat) :
    (l.plan m d true).transport.clock = { l.transport.clock with planned := [⟨m, d⟩] } := by
  have hgate : (!true || (!l.syncSource.isSome && l.transport.mode != LoopMode.playing)) = false := by
    rcases hwaits with hsync | hmode
    · simp [hsync]
    · simp [hmode]
  unfold Loop.plan Loop.modifyTransport Transport.plan
  simp only [hgate, Bool.false_eq_true, if_false, h]
  rfl

/-- A plan for one of the two loops, when it is made. -/
theorem Synced.waits (h : Synced s loops keys source follower) {lS lF : Loop} (hS : loops.get? source = some lS)
    (hF : loops.get? follower = some lF) (hplaying : lS.transport.mode = .playing)
    (hposition : lS.transport.position < lS.transport.length) (hplansS : lS.transport.planned = [])
    (hplansF : lF.transport.planned = []) {key : LoopKey} {l : Loop} (hl : loops.get? key = some l)
    (hkey : key = source ∨ key = follower) (m : LoopMode) (d : Nat) :
    (Ensemble.Plan.mk source key m d lS.transport.length lS.transport.position l.transport.clock).Waits 0
      (clocks (both source follower) (loops.modify key (·.plan m d true))) 0 lS.transport.position := by
  have hplanned : l.transport.planned = [] := by
    rcases hkey with rfl | rfl
    · rwa [Option.some.inj (hl.symm.trans hS)]
    · rwa [Option.some.inj (hl.symm.trans hF)]
  have hgate : l.syncSource.isSome ∨ l.transport.mode = .playing := by
    rcases hkey with rfl | rfl
    · rw [Option.some.inj (hl.symm.trans hS)]
      exact .inr hplaying
    · refine .inl (Option.isSome_iff_ne_none.2 fun hnone => ?_)
      have hfollows := h.follows
      rw [source?, hl, Option.bind_some, hnone] at hfollows
      cases hfollows
  have hself : clocks (both source follower) (loops.modify key (·.plan m d true)) key =
      { l.transport.clock with planned := [⟨m, d⟩] } := by
    rw [clocks_of_some (decide_eq_true hkey) (by rw [Arena.get?_modify_self, hl]; rfl)]
    exact clock_plan hplanned hgate m d
  have hother : key ≠ source →
      clocks (both source follower) (loops.modify key (·.plan m d true)) source = lS.transport.clock := fun hne => by
    rw [clocks_of_some (decide_eq_true (.inl rfl)) ((Arena.get?_modify_ne loops _ hne.symm).trans hS)]
  have hlt : (0 : Nat) ≤ d := Nat.zero_le d
  -- Only the planned list of one of the two loops differs from what it was.
  refine ⟨⟨by simp, hposition⟩, hlt, ?_, fun hne => ?_, ?_, ?_, ?_⟩
  · by_cases hsame : key = source
    · subst hsame
      obtain rfl := Option.some.inj (hl.symm.trans hS)
      dsimp only
      rw [hself]
      exact ⟨hplaying, rfl, rfl⟩
    · dsimp only
      rw [hother hsame]
      exact ⟨hplaying, rfl, rfl⟩
  · dsimp only
    rw [hother hne]
    exact hplansS
  · dsimp only
    rw [hself]
    simp
  · dsimp only
    rw [hself]
    exact settled_mode_planned _ _
  · dsimp only
    rw [hself]
    rfl

/-- What has become, after `n` frames, of a plan for mode `m` with countdown `d`.
It was made for a loop `before` when the source of its triggers was at position
`p` of its length `L`. -/
structure OnTime (L p : Nat) (m : LoopMode) (d n : Nat) (before : Clock) (after : Option Clock) : Prop where
  early : n < (d + 1) * L - p → ∃ c, after = some c ∧ c.planned = [⟨m, d - ((p + n) / L : Nat)⟩] ∧
    c.mode = if n = 0 then before.mode else before.settled.mode
  exactly : n = (d + 1) * L - p → ∃ c, after = some c ∧ c.planned = [] ∧ c.mode = m
  once : (d + 1) * L - p ≤ n → ∃ c, after = some c ∧ c.planned = []
  recording : ∀ k, m = .recording → before.mode ≠ .recording → n = (d + 1) * L - p + k →
    after = some ⟨.recording, 0, k, []⟩

theorem Synced.onTime (h : Synced s loops keys source follower) {lS lF : Loop}
    (hS : loops.get? source = some lS) (hF : loops.get? follower = some lF)
    (hplaying : lS.transport.mode = .playing) (hposition : lS.transport.position < lS.transport.length)
    (hlength : lS.transport.length ≤ maxFrames) (hplansS : lS.transport.planned = [])
    (hplansF : lF.transport.planned = []) {ns : List Nat} (hns : ∀ n ∈ ns, n ≤ maxFrames) {key : LoopKey} {l : Loop}
    (hl : loops.get? key = some l) (hkey : key = source ∨ key = follower) (m : LoopMode) (d : Nat) :
    OnTime lS.transport.length lS.transport.position m d ns.sum l.transport.clock
      (clockAt (s.cycles (loops.modify key (·.plan m d true)) keys ns).2.1 key) := by
  have hround : ∀ l : Loop, (l.plan m d true).transport.round = l.transport.round := fun l => by
    unfold Loop.plan Loop.modifyTransport Transport.plan
    dsimp only
    split
    · exact (Transport.carried_transition l.transport m).round
    · rfl
  have h' := h.modify key (·.plan m d true) hround (fun _ => rfl) fun _ => rfl
  have hwaits := h.waits hS hF hplaying hposition hplansS hplansF hl hkey m d
  have hrun := h'.runs.cycles_run ns hns
  have hafter := h'.cycles ns hkey (by rw [Arena.get?_modify_self, hl]; rfl)
  have hcases := Ensemble.Plan.run h'.pair hkey hlength hrun hwaits
  dsimp only at hafter hcases
  rw [hafter]
  -- After the last trigger a plan no longer waits.
  have hdone : (d + 1) * lS.transport.length - lS.transport.position ≤ ns.sum →
      Ensemble.Plan.Done ⟨source, key, m, d, lS.transport.length, lS.transport.position, l.transport.clock⟩ ns.sum
        (clocks (both source follower) (s.cycles (loops.modify key (·.plan m d true)) keys ns).2.1) := fun hle =>
    hcases.resolve_left fun ⟨_, _, hq⟩ => absurd hq.lt_time (Nat.not_lt.2 hle)
  constructor
  case early =>
    intro hlt
    rcases hcases with ⟨q, x, hq⟩ | hdone
    · have hpos : 0 < lS.transport.length := by omega
      have hdiv : (lS.transport.position + ns.sum) / lS.transport.length = q := by
        rw [hq.phase.sum, Nat.mul_comm, Nat.mul_add_div hpos, Nat.div_eq_of_lt hq.phase.lt, Nat.add_zero]
      rw [hdiv]
      exact ⟨_, rfl, hq.planned, hq.mode⟩
    · exact absurd hdone.le (Nat.not_le.2 hlt)
  case exactly =>
    intro heq
    have hdone := hdone (Nat.le_of_eq heq.symm)
    exact ⟨_, rfl, hdone.planned, hdone.mode heq⟩
  case once => exact fun hle => ⟨_, rfl, (hdone hle).planned⟩
  case recording =>
    intro k hm hb heq
    have hsince : ns.sum - ((d + 1) * lS.transport.length - lS.transport.position) = k := by omega
    rw [← hsince]
    exact congrArg some ((hdone (by omega)).recording hm hb)

/-- Where the two loops are after they started together. -/
theorem Synced.follower_position (h : Synced s loops keys source follower) {lS lF : Loop}
    (hS : loops.get? source = some lS) (hF : loops.get? follower = some lF)
    (hplaying : lS.transport.mode = .playing) (hstart : lS.transport.position = 0)
    (hpos : 0 < lS.transport.length) (hlength : lS.transport.length ≤ maxFrames)
    (hplansS : lS.transport.planned = []) (hplaying' : lF.transport.mode = .playing)
    (hstart' : lF.transport.position = 0) (hpos' : 0 < lF.transport.length)
    (hplansF : lF.transport.planned = []) {ns : List Nat} (hns : ∀ n ∈ ns, n ≤ maxFrames) {P : Nat}
    (hP : IsLeast {m | lS.transport.length ∣ m ∧ lF.transport.length ≤ m} P) :
    let after := (s.cycles loops keys ns).2.1
    clockAt after source = some ⟨.playing, ns.sum % lS.transport.length, lS.transport.length, []⟩ ∧
      clockAt after follower =
        some ⟨.playing, min (ns.sum % P) lF.transport.length, lF.transport.length, []⟩ := by
  have hsource : clocks (both source follower) loops source = lS.transport.clock :=
    clocks_of_some (decide_eq_true (.inl rfl)) hS
  have hfollower : clocks (both source follower) loops follower = lF.transport.clock :=
    clocks_of_some (decide_eq_true (.inr rfl)) hF
  have hstarts : Ensemble.Together source follower lS.transport.length lF.transport.length P 0
      (clocks (both source follower) loops) := by
    refine ⟨⟨0, 0, ⟨by simp, hpos⟩, ?_⟩, ?_, ?_, ?_⟩
    · rw [hsource]
      exact ⟨hplaying, hstart, rfl⟩
    · rw [hsource]
      exact hplansS
    · rw [hfollower, Nat.zero_mod, Nat.zero_min]
      exact ⟨hplaying', hstart', rfl⟩
    · rw [hfollower]
      exact hplansF
  have hend := hstarts.run h.pair hlength hP hpos' (h.runs.cycles_run ns hns)
  obtain ⟨q, x, hphase, hat⟩ := hend.sourceAt
  have hx : ns.sum % lS.transport.length = x := by
    rw [← Nat.zero_add ns.sum, hphase.sum, Nat.mul_add_mod', Nat.mod_eq_of_lt hphase.lt]
  have heq : ∀ {c : Clock} {x L : Nat}, Ensemble.PlaysAt c x L → c.planned = [] → c = ⟨.playing, x, L, []⟩ := by
    rintro ⟨mode, position, length, planned⟩ x L ⟨rfl, rfl, rfl⟩ rfl
    rfl
  dsimp only
  rw [h.cycles ns (.inl rfl) hS, h.cycles ns (.inr rfl) hF, hx]
  exact ⟨congrArg some (heq hat hend.sourcePlans), congrArg some (heq hend.followerAt hend.followerPlans)⟩

/-- Sync is exact to the frame, for any cycles and whatever other loops do. A plan
on a playing loop that follows no other one, or on a follower of it, takes effect
with the trigger it waits for; and a follower that started together with its
source waits at its end for the source to begin a round. -/
theorem sync_is_exact (s : Scheduler) (loops : Loops) (keys : List LoopKey) (source follower : LoopKey)
    (h : Synced s loops keys source follower) (lS lF : Loop) (hS : loops.get? source = some lS)
    (hF : loops.get? follower = some lF) (hplaying : lS.transport.mode = .playing)
    (hposition : lS.transport.position < lS.transport.length) (hlength : lS.transport.length ≤ maxFrames)
    (hplansS : lS.transport.planned = []) (hplansF : lF.transport.planned = []) (ns : List Nat)
    (hns : ∀ n ∈ ns, n ≤ maxFrames) :
    (∀ m d, OnTime lS.transport.length lS.transport.position m d ns.sum lF.transport.clock
        (clockAt (s.cycles (loops.modify follower (·.plan m d true)) keys ns).2.1 follower) ∧
      OnTime lS.transport.length lS.transport.position m d ns.sum lS.transport.clock
        (clockAt (s.cycles (loops.modify source (·.plan m d true)) keys ns).2.1 source)) ∧
    (lF.transport.mode = .playing → 0 < lF.transport.length → lF.transport.position = 0 → lS.transport.position = 0 →
      ∀ P, IsLeast {m | lS.transport.length ∣ m ∧ lF.transport.length ≤ m} P →
        let after := (s.cycles loops keys ns).2.1
        clockAt after source = some ⟨.playing, ns.sum % lS.transport.length, lS.transport.length, []⟩ ∧
          clockAt after follower =
            some ⟨.playing, min (ns.sum % P) lF.transport.length, lF.transport.length, []⟩) := by
  refine ⟨fun m d => ⟨?_, ?_⟩, fun hplaying' hpos' hstart' hstart P hP => ?_⟩
  · exact h.onTime hS hF hplaying hposition hlength hplansS hplansF hns hF (.inr rfl) m d
  · exact h.onTime hS hF hplaying hposition hlength hplansS hplansF hns hS (.inl rfl) m d
  · exact h.follower_position hS hF hplaying hstart (by omega) hlength hplansS hplaying' hstart' hpos' hplansF hns hP

/-- A playing loop of three frames, at the second of them. -/
def leader : Loop := { transport := { Transport.new with mode := .playing, length := 3, position := 1 } }

/-- The leader and a stopped loop that follows it. -/
def march : Loops := { slots := [⟨0, some leader⟩, ⟨0, some { syncSource := some ⟨0, 0⟩ }⟩], size := 2 }

theorem sync_is_exact_march :
    let after := ((Scheduler.new 16).cycles (march.modify ⟨1, 0⟩ (·.plan .recording 1 true)) march.keys [2, 3, 4]).2.1
    clockAt after ⟨1, 0⟩ = some ⟨.recording, 0, 4, []⟩ := by
  have hmarch : ∀ p ∈ march.toList, p.2.channels = [] ∧ p.2.transport.round = 0 := by
    simp [march, leader, Arena.toList, Transport.new]
  have hsynced : Synced (.new 16) march march.keys ⟨0, 0⟩ ⟨1, 0⟩ :=
    { nodup := by decide
      ahead := fun k l hl => Nat.le_of_eq (hmarch _ (Arena.mem_toList_of_get? hl)).2
      source_mem := by decide
      follower_mem := by decide
      free := rfl
      follows := rfl
      bare := fun k _ l hl => (hmarch _ (Arena.mem_toList_of_get? hl)).1 }
  -- one frame of the first round has passed, so the plan takes effect after five
  exact ((sync_is_exact (.new 16) march march.keys ⟨0, 0⟩ ⟨1, 0⟩ hsynced leader _ rfl rfl rfl (by decide) (by decide)
    rfl rfl [2, 3, 4] (by decide)).1 .recording 1).1.recording 4 rfl (by decide) rfl

end Synced

end Scheduler

end Overdub
