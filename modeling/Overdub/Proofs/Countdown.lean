import Overdub.Proofs.SyncTiming
/-!
# Plans count triggers

Whatever is done to a transport, its plans stand in the order in which they fire,
and none of them is due yet (`Ordered`). So a trigger carries out the first plan if
that has no more triggers to let pass, and never more than that one
(`Clock.trigger_ordered`).

An `Action` is one call. `Action.run_cases` says all that a call can do to the plans:
a trigger takes effect in it, the plan is displaced by a later decision, or nothing
happens to it. A plan with countdown `d` then fires with the `d + 1`-st trigger that
takes effect, as long as no action displaces it (`plans_fire_in_turn`).
-/

namespace Overdub

/-- Plans in the order in which they fire, none of them due. -/
structure Ordered (plans : List PlannedTransition) : Prop where
  increasing : plans.Pairwise (·.countdown < ·.countdown)
  nonneg : ∀ p ∈ plans, 0 ≤ p.countdown

namespace Ordered
variable {plans rest : List PlannedTransition} {p : PlannedTransition}

theorem nil : Ordered [] := ⟨.nil, by simp⟩

theorem sublist {plans' : List PlannedTransition} (h : Ordered plans) (hsub : plans'.Sublist plans) :
    Ordered plans' := ⟨h.increasing.sublist hsub, fun p hp => h.nonneg p (hsub.subset hp)⟩

/-- Only the first plan can be without triggers to let pass. -/
theorem pos_of_tail (h : Ordered (p :: rest)) : ∀ q ∈ rest, 0 < q.countdown := fun q hq =>
  Int.lt_of_le_of_lt (h.nonneg p List.mem_cons_self) ((List.pairwise_cons.1 h.increasing).1 q hq)

theorem countDown (h : Ordered plans) (hpos : ∀ p ∈ plans, 0 < p.countdown) :
    Ordered (plans.map (·.countDown)) := by
  refine ⟨List.pairwise_map.2 (h.increasing.imp fun hlt => ?_), fun p hp => ?_⟩
  · exact Int.sub_lt_sub_right hlt 1
  · obtain ⟨q, hq, rfl⟩ := List.mem_map.1 hp
    have := hpos q hq
    show 0 ≤ q.countdown - 1
    omega

/-- A plan put in its place stands behind all that fire before it. -/
theorem insertPlan (h : Ordered plans) (hp : 0 ≤ p.countdown) : Ordered (Transport.insertPlan p plans) := by
  have hfront := h.sublist (List.takeWhile_sublist (p := fun q : PlannedTransition => q.countdown < p.countdown))
  refine ⟨List.pairwise_append.2 ⟨hfront.increasing, List.pairwise_singleton _ _, fun q hq q' hq' => ?_⟩, ?_⟩
  · rw [List.mem_singleton.1 hq']
    exact of_decide_eq_true
      (List.mem_takeWhile_imp (p := fun q : PlannedTransition => q.countdown < p.countdown) hq)
  · intro q hq
    rcases List.mem_append.1 hq with hq | hq
    · exact hfront.nonneg q hq
    · rw [List.mem_singleton.1 hq]
      exact hp

/-- Of plans in order, those that fire before another one stay in front of it. -/
theorem mem_insertPlan_of_lt (h : Ordered plans) {q : PlannedTransition} (hp : p ∈ plans)
    (hlt : p.countdown < q.countdown) : p ∈ Transport.insertPlan q plans := by
  refine List.mem_append_left _ ?_
  induction plans with
  | nil => cases hp
  | cons r rest ih =>
    have hr : r.countdown < q.countdown := by
      rcases List.mem_cons.1 hp with rfl | hp
      · exact hlt
      · exact Int.lt_trans ((List.pairwise_cons.1 h.increasing).1 p hp) hlt
    rw [List.takeWhile_cons_of_pos (by simpa using hr)]
    rcases List.mem_cons.1 hp with rfl | hp
    · exact List.mem_cons_self
    · exact List.mem_cons_of_mem _ (ih (h.sublist (List.sublist_cons_self _ _)) hp)

/-- Nothing is due by the next trigger, or the first plan and it alone is. -/
theorem cases (h : Ordered plans) :
    (∀ q ∈ plans, 0 < q.countdown) ∨
      ∃ p rest, plans = p :: rest ∧ p.countdown = 0 ∧ ∀ q ∈ rest, 0 < q.countdown := by
  cases plans with
  | nil => exact .inl (by simp)
  | cons p rest =>
    have hp := h.nonneg p List.mem_cons_self
    rcases Int.lt_or_eq_of_le hp with hp | hp
    · exact .inl (List.forall_mem_cons.2 ⟨hp, h.pos_of_tail⟩)
    · exact .inr ⟨p, rest, rfl, hp.symm, h.pos_of_tail⟩

end Ordered

namespace Clock

/-- The plan that the next trigger carries out. -/
def due? (c : Clock) : Option PlannedTransition := c.planned.head?.filter (·.countdown = 0)

theorem due?_eq_none {c : Clock} (h : ∀ p ∈ c.planned, 0 < p.countdown) : c.due? = none := by
  refine Option.filter_eq_none_iff.2 fun p hp => ?_
  have := h p (List.mem_of_head? hp)
  simp only [decide_eq_true_eq]
  omega

/-- Plans that have triggers to let pass are counted down by one. -/
theorem counted_down {plans : List PlannedTransition} (h : ∀ p ∈ plans, 0 < p.countdown) :
    (plans.map (·.countDown)).takeWhile (·.isDue) = [] ∧
      (plans.map (·.countDown)).dropWhile (·.isDue) = plans.map (·.countDown) := by
  cases plans with
  | nil => exact ⟨rfl, rfl⟩
  | cons p rest =>
    have hp : p.countDown.isDue = false := by
      have := h p List.mem_cons_self
      refine decide_eq_false ?_
      show ¬ p.countdown - 1 < 0
      omega
    simp [hp]

/-- A trigger carries out the first plan if that is due, and no other one. -/
theorem trigger_ordered {c : Clock} (h : Ordered c.planned) :
    c.trigger = match c.due? with
      | some p => { c.wrapped.transition p.mode with planned := c.planned.tail.map (·.countDown) }
      | none => { c.wrapped with planned := c.planned.map (·.countDown) } := by
  unfold trigger
  rcases h.cases with hpos | ⟨p, rest, hplans, hp, hpos⟩
  · obtain ⟨htake, hdrop⟩ := counted_down hpos
    rw [due?_eq_none hpos]
    simp only [htake, hdrop]
    rfl
  · obtain ⟨htake, hdrop⟩ := counted_down hpos
    have hfirst : p.countDown.isDue = true := by simp [PlannedTransition.isDue, PlannedTransition.countDown, hp]
    have hdue : c.due? = some p := by simp [due?, hplans, hp]
    simp only [hdue, hplans, List.map_cons, List.takeWhile_cons, List.dropWhile_cons, hfirst, if_true, htake, hdrop]
    rfl

/-- Triggers leave the plans in order, with none of them due. -/
theorem ordered_trigger {c : Clock} (h : Ordered c.planned) : Ordered c.trigger.planned := by
  rw [trigger_ordered h]
  rcases h.cases with hpos | ⟨p, rest, hplans, hp, hpos⟩
  · rw [due?_eq_none hpos]
    exact h.countDown hpos
  · have hdue : c.due? = some p := by simp [due?, hplans, hp]
    rw [hplans] at h
    rw [hdue, hplans]
    exact (h.sublist (List.sublist_cons_self p rest)).countDown hpos

/-- A plan that has triggers to let pass is one nearer after a trigger. -/
theorem mem_trigger {c : Clock} (h : Ordered c.planned) {mode : LoopMode} {left : Nat}
    (hp : ⟨mode, left⟩ ∈ c.planned) (hpos : 0 < left) : ⟨mode, (left - 1 : Nat)⟩ ∈ c.trigger.planned := by
  have hnext : PlannedTransition.countDown ⟨mode, left⟩ = ⟨mode, (left - 1 : Nat)⟩ := by
    simp only [PlannedTransition.countDown, PlannedTransition.mk.injEq, true_and]
    omega
  rw [← hnext, trigger_ordered h]
  rcases h.cases with hall | ⟨q, rest, hplans, hq, -⟩
  · rw [due?_eq_none hall]
    exact List.mem_map_of_mem hp
  · have hdue : c.due? = some q := by simp [due?, hplans, hq]
    have hrest : ⟨mode, left⟩ ∈ rest := by
      rw [hplans] at hp
      refine (List.mem_cons.1 hp).resolve_left ?_
      rintro rfl
      exact absurd (Int.natCast_eq_zero.1 hq) (Nat.ne_of_gt hpos)
    rw [hdue, hplans]
    exact List.mem_map_of_mem hrest

/-- A plan that has none to let pass is the one that is due. -/
theorem due?_of_mem {c : Clock} (h : Ordered c.planned) {p : PlannedTransition} (hp : p ∈ c.planned)
    (hzero : p.countdown = 0) : c.due? = some p := by
  rcases h.cases with hall | ⟨q, rest, hplans, hq, hpos⟩
  · have := hall p hp
    omega
  · rw [hplans] at hp
    rcases List.mem_cons.1 hp with rfl | hp
    · simp [due?, hplans, hq]
    · have := hpos p hp
      omega

end Clock

namespace Transport

/-! ## Calls -/

/-- What is done to a transport. -/
inductive Action : Type 1 where
  | plan (mode : LoopMode) (delay : Nat) (waitForSync hasSyncSource : Bool)
  | clearPlans
  | trigger
  | process {σ : Type} (frames : Nat) (sync : Option SyncView)
      (act : ChunkContext → σ → σ × Except Error Unit) (channels : σ)
  | handlePoi (sync : Option SyncView)
  | refresh (channelPoi : PoiQuery → Option Nat) (syncTrigger : Option Nat)
  | transition (mode : LoopMode)
  | setLength (length : Nat)
  | setPosition (position : Nat)

/-- A transition need not wait for a trigger. -/
def obeysAtOnce (t : Transport) (waitForSync hasSyncSource : Bool) : Bool :=
  !waitForSync || (!hasSyncSource && t.mode != LoopMode.playing)

namespace Action

def run : Action → Transport → Transport
  | .plan mode delay waitForSync hasSyncSource, t => t.plan mode delay waitForSync hasSyncSource
  | .clearPlans, t => t.clearPlans
  | .trigger, t => t.trigger
  | .process frames sync act channels, t => (t.process frames sync act channels).1
  | .handlePoi sync, t => t.handlePoi sync
  | .refresh channelPoi syncTrigger, t => t.refresh channelPoi syncTrigger
  | .transition mode, t => t.transition mode
  | .setLength length, t => t.setLength length
  | .setPosition position, t => t.setPosition position

/-- A chunk is begun, which takes away the marks of the one before. -/
def beginsChunk (t : Transport) : Action → Bool
  | .process frames _ _ _ => frames != 0 && !(t.nextPoi.any fun p => p.offset < frames)
  | _ => false

/-- A trigger takes effect: its mark is there, and was not there before in this chunk. -/
def strikes (t : Transport) (a : Action) : Bool :=
  (a.run t).alreadyTriggered && (!t.alreadyTriggered || a.beginsChunk t)

/-- The clock that a trigger finds: the frames of a chunk come before it. -/
def reached (t : Transport) : Action → Clock
  | .process frames _ _ _ => t.clock.moved frames
  | _ => t.clock

/-- The plans as they are decided on, apart from triggers. -/
def decided (t : Transport) : Action → List PlannedTransition
  | .plan mode delay waitForSync hasSyncSource =>
    if t.obeysAtOnce waitForSync hasSyncSource then [] else insertPlan ⟨mode, delay⟩ t.planned
  | .clearPlans => []
  | _ => t.planned

/-- The action does away with a plan that has `left` triggers to let pass: by a
transition at once, by a plan that fires with it or earlier, or by dropping all. -/
def Displaces (t : Transport) (left : Nat) : Action → Prop
  | .plan _ delay waitForSync hasSyncSource => t.obeysAtOnce waitForSync hasSyncSource = true ∨ delay ≤ left
  | .clearPlans => True
  | _ => False

/-- The plan that the action makes. -/
def made? : Action → Option PlannedTransition
  | .plan mode delay _ _ => some ⟨mode, delay⟩
  | _ => none

/-! ## What a call does to the plans -/

variable {t : Transport} {a : Action}

theorem not_strikes (hmark : (a.run t).alreadyTriggered = t.alreadyTriggered) (hchunk : a.beginsChunk t = false) :
    a.strikes t = false := by
  unfold strikes
  rw [hmark, hchunk]
  cases t.alreadyTriggered <;> rfl

theorem reached_planned (t : Transport) (a : Action) : (a.reached t).planned = t.planned := by
  cases a with
  | process frames => exact Clock.moved_planned _ _
  | _ => rfl

/-- A point of interest is no trigger, or leads to one. -/
theorem handlePoi_cases (t : Transport) (sync : Option SyncView) :
    (t.alreadyTriggered = false ∧ (t.handlePoi sync).alreadyTriggered = true ∧
        (t.handlePoi sync).clock = t.clock.trigger) ∨
      ((t.handlePoi sync).alreadyTriggered = t.alreadyTriggered ∧ (t.handlePoi sync).clock = t.clock) := by
  unfold Transport.handlePoi
  split
  · dsimp only
    split_ifs
    · cases ha : t.alreadyTriggered with
      | true =>
        have hagain := t.trigger_again ha
        exact .inr ⟨(congrArg alreadyTriggered hagain).trans ha,
          show t.trigger.clock = t.clock from congrArg Transport.clock hagain⟩
      | false =>
        obtain ⟨hclock, halready, -⟩ := t.trigger_first ha
        exact .inl ⟨rfl, halready, hclock⟩
    · exact .inr ⟨rfl, rfl⟩
  · exact .inr ⟨rfl, rfl⟩

/-- A chunk triggers its loop at most, and does so where its frames have led. -/
theorem process_cases {σ : Type} (t : Transport) (frames : Nat) (sync : Option SyncView)
    (act : ChunkContext → σ → σ × Except Error Unit) (channels : σ) :
    let a : Action := .process frames sync act channels
    (a.strikes t = true ∧ (a.run t).clock = (t.clock.moved frames).trigger) ∨
      (a.strikes t = false ∧ (a.run t).planned = t.planned) := by
  intro a
  by_cases hempty : frames = 0
  · have hrun : a.run t = t := by simp only [a, run, Transport.process, if_pos hempty]
    exact .inr ⟨not_strikes (by rw [hrun]) (by simp [a, beginsChunk, hempty]), by rw [hrun]⟩
  by_cases hpast : (t.nextPoi.any fun p => p.offset < frames) = true
  · have hrun : a.run t = t := by simp only [a, run, Transport.process, if_neg hempty, if_pos hpast]
    exact .inr ⟨not_strikes (by rw [hrun]) (by simp only [a, beginsChunk, hpast, Bool.not_true, Bool.and_false]),
      by rw [hrun]⟩
  have hbegins : a.beginsChunk t = true := by
    simp only [a, beginsChunk, Bool.eq_false_iff.2 hpast, bne_iff_ne.2 hempty, Bool.not_false, Bool.and_self]
  have hstrikes : a.strikes t = (a.run t).alreadyTriggered := by
    simp only [strikes, hbegins, Bool.or_true, Bool.and_true]
  have hrun : a.run t = (t.beginChunk.advance frames sync) ∨ a.run t = t.beginChunk := by
    simp only [a, run, Transport.process, if_neg hempty, if_neg hpast]
    rcases act (t.beginChunk.chunkContext frames) channels with ⟨after, _ | _⟩
    · exact .inr rfl
    · exact .inl rfl
  rw [hstrikes]
  rcases hrun with hrun | hrun
  · rw [hrun]
    -- the state in which the loop looks at its point of interest
    let after : Transport := { t.beginChunk with
      position := (t.beginChunk.advanced frames).1
      length := (t.beginChunk.advanced frames).2
      nextPoi := t.beginChunk.nextPoi.map fun p => { p with offset := p.offset - frames }
      nextTrigger := (t.beginChunk.nextTrigger.map (· - frames)).filter (0 < ·) }
    have hclock : after.clock = t.clock.moved frames := t.beginChunk.clock_advanced frames
    rcases handlePoi_cases after sync with ⟨-, halready, htrigger⟩ | ⟨halready, hstays⟩
    · exact .inl ⟨halready, htrigger.trans (congrArg Clock.trigger hclock)⟩
    · have hplans : (after.handlePoi sync).planned = t.planned :=
        (congrArg Clock.planned (hstays.trans hclock)).trans (Clock.moved_planned _ _)
      exact .inr ⟨halready, hplans⟩
  · rw [hrun]
    exact .inr ⟨rfl, rfl⟩

/-- All that an action does to the plans: a trigger takes effect, or they are as
decided. -/
theorem run_cases (t : Transport) (a : Action) :
    (a.strikes t = true ∧ (a.run t).clock = (a.reached t).trigger ∧ ∀ left, ¬ a.Displaces t left) ∨
      (a.strikes t = false ∧ (a.run t).planned = a.decided t) := by
  cases a with
  | plan mode delay waitForSync hasSyncSource =>
    let a : Action := .plan mode delay waitForSync hasSyncSource
    suffices h : (a.run t).alreadyTriggered = t.alreadyTriggered ∧ (a.run t).planned = a.decided t from
      .inr ⟨not_strikes h.1 rfl, h.2⟩
    cases hobeys : t.obeysAtOnce waitForSync hasSyncSource with
    | true =>
      rw [show a.run t = ({ t.transition mode with planned := [] } : Transport).publish from if_pos hobeys,
        show a.decided t = [] from if_pos hobeys]
      exact ⟨(t.carried_transition mode).alreadyTriggered, rfl⟩
    | false =>
      have hwaits := Bool.eq_false_iff.1 hobeys
      rw [show a.run t = ({ t with planned := insertPlan ⟨mode, delay⟩ t.planned } : Transport).publish from
          if_neg hwaits,
        show a.decided t = insertPlan ⟨mode, delay⟩ t.planned from if_neg hwaits]
      exact ⟨rfl, rfl⟩
  | clearPlans => exact .inr ⟨not_strikes rfl rfl, rfl⟩
  | trigger =>
    cases ha : t.alreadyTriggered with
    | true =>
      have hrun : run .trigger t = t := t.trigger_again ha
      exact .inr ⟨not_strikes (by rw [hrun]) rfl, by rw [hrun]; rfl⟩
    | false =>
      obtain ⟨hclock, halready, -⟩ := t.trigger_first ha
      have hmark : (run .trigger t).alreadyTriggered = true := halready
      exact .inl ⟨by simp only [strikes, hmark, ha]; rfl, hclock, fun _ => id⟩
  | process frames sync act channels =>
    rcases process_cases t frames sync act channels with ⟨hstrikes, hclock⟩ | ⟨hstrikes, hplans⟩
    · exact .inl ⟨hstrikes, hclock, fun _ => id⟩
    · exact .inr ⟨hstrikes, hplans⟩
  | handlePoi sync =>
    rcases handlePoi_cases t sync with ⟨ha, halready, hclock⟩ | ⟨halready, hclock⟩
    · have hmark : (run (.handlePoi sync) t).alreadyTriggered = true := halready
      exact .inl ⟨by simp only [strikes, hmark, ha]; rfl, hclock, fun _ => id⟩
    · exact .inr ⟨not_strikes halready rfl, congrArg Clock.planned hclock⟩
  | refresh channelPoi syncTrigger =>
    have hclock : (run (.refresh channelPoi syncTrigger) t).clock = t.clock.settled := t.clock_settled
    refine .inr ⟨not_strikes t.carried_settled.alreadyTriggered rfl, ?_⟩
    exact (congrArg Clock.planned hclock).trans (Clock.settled_planned _)
  | transition mode =>
    have hclock : (run (.transition mode) t).clock = t.clock.transition mode := t.clock_transition mode
    refine .inr ⟨not_strikes (t.carried_transition mode).alreadyTriggered rfl, ?_⟩
    exact (congrArg Clock.planned hclock).trans (Clock.transition_planned _ _)
  | setLength length =>
    refine .inr ⟨not_strikes (t.carried_setLength length).alreadyTriggered rfl, ?_⟩
    show (t.setLength length).planned = t.planned
    unfold Transport.setLength
    dsimp only
    split_ifs
    · rfl
    · exact congrArg Clock.planned (Transport.clock_setPosition { t with length } (length - 1))
    · rfl
  | setPosition position =>
    refine .inr ⟨not_strikes (t.carried_setPosition position).alreadyTriggered rfl, ?_⟩
    exact congrArg Clock.planned (t.clock_setPosition position)

/-! ## What becomes of a plan -/

/-- A decision leaves the plans in order. -/
theorem ordered_decided (h : Ordered t.planned) (a : Action) : Ordered (a.decided t) := by
  cases a with
  | plan mode delay waitForSync hasSyncSource =>
    simp only [decided]
    split_ifs
    · exact .nil
    · exact h.insertPlan (Int.natCast_nonneg delay)
  | clearPlans => exact .nil
  | _ => exact h

theorem ordered_run (h : Ordered t.planned) (a : Action) : Ordered (a.run t).planned := by
  rcases run_cases t a with ⟨-, hclock, -⟩ | ⟨-, hplans⟩
  · have hreached : Ordered (a.reached t).planned := (reached_planned t a).symm ▸ h
    have htriggered := Clock.ordered_trigger hreached
    rwa [← hclock] at htriggered
  · exact hplans ▸ ordered_decided h a

/-- A trigger that takes effect carries out the plan that is due, and no other one. -/
theorem run_of_strikes (h : Ordered t.planned) (hstrikes : a.strikes t = true) :
    (a.run t).clock = match t.clock.due? with
      | some p => { (a.reached t).wrapped.transition p.mode with planned := t.planned.tail.map (·.countDown) }
      | none => { (a.reached t).wrapped with planned := t.planned.map (·.countDown) } := by
  obtain ⟨-, hclock, -⟩ | ⟨hno, -⟩ := run_cases t a
  · have hsame := reached_planned t a
    have htrigger := Clock.trigger_ordered (hsame.symm ▸ h : Ordered (a.reached t).planned)
    have hdue : (a.reached t).due? = t.clock.due? := by simp only [Clock.due?, hsame, clock_planned]
    rw [hdue, hsame] at htrigger
    exact hclock.trans htrigger
  · rw [hno] at hstrikes
    cases hstrikes

/-- A plan that a decision does not displace stays as it is. -/
theorem mem_decided (h : Ordered t.planned) {mode : LoopMode} {left : Nat} (hp : ⟨mode, left⟩ ∈ t.planned)
    (hspared : ¬ a.Displaces t left) : ⟨mode, left⟩ ∈ a.decided t := by
  cases a with
  | plan mode' delay waitForSync hasSyncSource =>
    obtain ⟨hwaits, hlater⟩ := not_or.1 hspared
    simp only [decided, if_neg hwaits]
    exact h.mem_insertPlan_of_lt hp (Int.ofNat_lt.2 (Nat.lt_of_not_le hlater))
  | clearPlans => exact absurd trivial hspared
  | _ => exact hp

/-- Where a plan is displaced, only plans that fire before it are left, and the new one. -/
theorem decided_of_displaces {left : Nat} (hdisplaces : a.Displaces t left) :
    ∀ p ∈ a.decided t, (p ∈ t.planned ∧ p.countdown < left) ∨ a.made? = some p := by
  cases a with
  | plan mode delay waitForSync hasSyncSource =>
    intro p hp
    simp only [decided] at hp
    split_ifs at hp with hwaits
    · cases hp
    · have hle : delay ≤ left := hdisplaces.resolve_left hwaits
      rcases List.mem_append.1 hp with hp | hp
      · have hlt : p.countdown < (delay : Int) := of_decide_eq_true
          (List.mem_takeWhile_imp (p := fun q : PlannedTransition => q.countdown < (delay : Int)) hp)
        exact .inl ⟨(List.takeWhile_sublist _).subset hp, by omega⟩
      · exact .inr (congrArg some (List.mem_singleton.1 hp).symm)
  | clearPlans => exact fun p hp => by cases hp
  | _ => exact hdisplaces.elim

/-- A plan is one trigger nearer after each action in which one takes effect. -/
theorem mem_run (h : Ordered t.planned) {mode : LoopMode} {left : Nat} (hp : ⟨mode, left⟩ ∈ t.planned)
    (hspared : ¬ a.Displaces t left) (hleft : (a.strikes t).toNat ≤ left) :
    ⟨mode, (left - (a.strikes t).toNat : Nat)⟩ ∈ (a.run t).planned := by
  rcases run_cases t a with ⟨hstrikes, hclock, -⟩ | ⟨hstrikes, hplans⟩
  · rw [hstrikes] at hleft ⊢
    have hsame := reached_planned t a
    have hmem := Clock.mem_trigger (hsame.symm ▸ h) (hsame.symm ▸ hp) hleft
    rwa [← hclock] at hmem
  · rw [hplans, hstrikes]
    exact mem_decided h hp hspared

/-- What displaces a plan is a decision, and no trigger. -/
theorem planned_of_displaces {left : Nat} (h : a.Displaces t left) : (a.run t).planned = a.decided t := by
  rcases run_cases t a with ⟨-, -, hspares⟩ | ⟨-, hplans⟩
  · exact absurd h (hspares left)
  · exact hplans

/-- What is done in turn. -/
def runAll (actions : List Action) (t : Transport) : Transport := actions.foldl (fun t a => a.run t) t

/-- How many triggers take effect. -/
def triggers : Transport → List Action → Nat
  | _, [] => 0
  | t, a :: rest => (a.strikes t).toNat + triggers (a.run t) rest

/-- No action displaces a plan that has `left` triggers to let pass at the beginning. -/
def Spares : Transport → Nat → List Action → Prop
  | _, _, [] => True
  | t, left, a :: rest => ¬ a.Displaces t left ∧ Spares (a.run t) (left - (a.strikes t).toNat) rest

theorem ordered_runAll (h : Ordered t.planned) (actions : List Action) : Ordered (runAll actions t).planned := by
  induction actions generalizing t with
  | nil => exact h
  | cons a rest ih => exact ih (ordered_run h a)

/-- As long as nothing displaces it, a plan counts the triggers that take effect. -/
theorem mem_runAll (h : Ordered t.planned) {mode : LoopMode} {left : Nat} (hp : ⟨mode, left⟩ ∈ t.planned)
    {actions : List Action} (hspared : Spares t left actions) (hle : triggers t actions ≤ left) :
    ⟨mode, (left - triggers t actions : Nat)⟩ ∈ (runAll actions t).planned := by
  induction actions generalizing t left with
  | nil => exact hp
  | cons a rest ih =>
    obtain ⟨hfirst, hrest⟩ := hspared
    simp only [triggers] at hle ⊢
    have hnext := ih (ordered_run h a) (mem_run h hp hfirst (by omega)) hrest (by omega)
    rwa [Nat.sub_sub] at hnext

/-- After any calls the plans stand in the order in which they fire, with none of
them due. A trigger that takes effect carries out the first plan if that has no more
triggers to let pass, and no other one. And so a plan with a delay of `delay` waits
for so many triggers to take effect and is carried out by the next one, unless
before that an action displaces it, after which nothing is left of it. -/
theorem plans_fire_in_turn (history : List Action) :
    let t := runAll history .new
    Ordered t.planned ∧
    (∀ a : Action,
      (a.strikes t = true → (a.run t).clock = match t.clock.due? with
        | some p => { (a.reached t).wrapped.transition p.mode with planned := t.planned.tail.map (·.countDown) }
        | none => { (a.reached t).wrapped with planned := t.planned.map (·.countDown) }) ∧
      (a.strikes t = false → (a.run t).planned = a.decided t)) ∧
    ∀ mode delay waitForSync hasSyncSource, t.obeysAtOnce waitForSync hasSyncSource = false →
      ∀ later : List Action,
        let made := t.plan mode delay waitForSync hasSyncSource
        let passed := triggers made later
        let waiting := runAll later made
        passed ≤ delay → Spares made delay later →
          ⟨mode, (delay - passed : Nat)⟩ ∈ waiting.planned ∧
          ∀ a : Action,
            (a.strikes waiting = true → passed = delay →
              (a.run waiting).clock = { (a.reached waiting).wrapped.transition mode with
                planned := waiting.planned.tail.map (·.countDown) }) ∧
            (a.Displaces waiting (delay - passed) → ∀ p ∈ (a.run waiting).planned,
              (p ∈ waiting.planned ∧ p.countdown < (delay - passed : Nat)) ∨ a.made? = some p) := by
  intro t
  have hordered : Ordered t.planned := ordered_runAll .nil history
  refine ⟨hordered, fun a => ⟨run_of_strikes hordered, fun hno => ?_⟩, ?_⟩
  · obtain ⟨hyes, -⟩ | ⟨-, hplans⟩ := run_cases t a
    · rw [hno] at hyes
      cases hyes
    · exact hplans
  · intro mode delay waitForSync hasSyncSource hwaits later made passed waiting hle hspared
    have hmade : made.planned = insertPlan ⟨mode, delay⟩ t.planned := by
      simp only [obeysAtOnce] at hwaits
      simp only [made, Transport.plan, hwaits]
      rfl
    have hmadeOrdered : Ordered made.planned := hmade ▸ hordered.insertPlan (Int.natCast_nonneg delay)
    have hmem : ⟨mode, delay⟩ ∈ made.planned := hmade ▸ List.mem_append_right _ (List.mem_singleton.2 rfl)
    have hwaiting := mem_runAll hmadeOrdered hmem hspared hle
    have hwaitingOrdered : Ordered waiting.planned := ordered_runAll hmadeOrdered later
    refine ⟨hwaiting, fun a => ⟨fun hstrikes hlast => ?_, fun hdisplaces => ?_⟩⟩
    · have hzero : delay - passed = 0 := Nat.sub_eq_zero_of_le hlast.ge
      have hdue : waiting.clock.due? = some ⟨mode, (delay - passed : Nat)⟩ :=
        Clock.due?_of_mem (c := waiting.clock) hwaitingOrdered hwaiting (by rw [hzero]; rfl)
      have hfires := run_of_strikes hwaitingOrdered hstrikes
      rwa [hdue] at hfires
    · rw [planned_of_displaces hdisplaces]
      exact decided_of_displaces hdisplaces

/-- A chunk of a loop without channels. -/
def chunk (frames : Nat) : Action := .process frames none (fun _ channels => (channels, .ok ())) ()

/-- A recording planned with a delay of one on a loop that follows another one: the
first trigger passes, and the one in the next chunk starts it. -/
theorem second_trigger_records :
    let made := Transport.new.plan .recording 1 true true
    let waiting := runAll [.trigger, chunk 4] made
    triggers made [.trigger, chunk 4] = 1 ∧ waiting.planned = [⟨.recording, 0⟩] ∧
      (run .trigger waiting).clock = ⟨.recording, 0, 0, []⟩ := by
  obtain ⟨-, -, hplan⟩ := plans_fire_in_turn []
  obtain ⟨-, hlast⟩ := hplan .recording 1 true true rfl [.trigger, chunk 4] (by decide) ⟨id, id, trivial⟩
  exact ⟨by decide, by decide, (hlast .trigger).1 (by decide) (by decide)⟩

end Action

end Transport

end Overdub
