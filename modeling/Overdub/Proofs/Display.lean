import Overdub.Proofs.Countdown
/-!
# What control threads see of a loop

A transport keeps its state for control threads as five numbers (`StatusWords`), and
what they read from these is its `published` status. It is never stale: after every
call, of whatever kind and with whatever outcome, it is what the present state would
be stored as (`Current`). Each call either ends by storing its state, or has changed
nothing of what is stored.

The plan that is shown is the first one. Its countdown is shown as it is because it
never leaves the range of a delay: plans are made with one, triggers only lower it
(`Action.countdown_run_le`), and a plan that is due is gone (`Action.ordered_runAll`).
-/

namespace Overdub

/-- A loop's state in numbers that are read without a lock. -/
structure StatusWords where
  mode : Nat
  length : Nat
  position : Nat
  nextMode : Nat
  nextDelay : Int

/-- What the numbers are read as. -/
def StatusWords.snapshot (w : StatusWords) : LoopStatus :=
  let nextMode := LoopMode.ofCode w.nextMode
  ⟨.ofCode w.mode, w.length, w.position,
    if nextMode ≠ .unknown ∧ 0 ≤ w.nextDelay then some nextMode else none, frames32? w.nextDelay⟩

namespace Transport

/-- The numbers that the present state is stored as. Without a plan the next mode is
unknown, and its countdown is over. -/
def words (t : Transport) : StatusWords :=
  let first := t.planned.head?
  ⟨t.mode.toCode, t.length, t.position, (first.elim LoopMode.unknown (·.mode)).toCode, first.elim (-1) (·.countdown)⟩

theorem snapshot_words (t : Transport) : t.words.snapshot = t.status := by
  unfold words StatusWords.snapshot status
  cases t.planned.head? with
  | none => simp [LoopMode.ofCode_toCode, frames32?]
  | some p =>
    simp only [LoopMode.ofCode_toCode, Option.elim_some, Option.bind_some]
    congr 1
    by_cases hunknown : p.mode = .unknown
    · simp [hunknown]
    · by_cases hover : p.countdown < 0
      · simp [hover]
      · simp [hunknown, hover, Int.not_lt.mp hover]

/-! ## Each call shows what it has done -/

/-- What control threads see is the present state. -/
def Current (t : Transport) : Prop := t.published = t.status

theorem new_current : new.Current := rfl

theorem publish_current (t : Transport) : t.publish.Current := rfl

variable {t : Transport}

/-- What is neither part of the clock nor shown makes no difference. -/
theorem Current.of_clock {t' : Transport} (h : t.Current) (hclock : t'.clock = t.clock)
    (hpublished : t'.published = t.published) : t'.Current := by
  have hstatus : t'.status = t.status := by
    obtain ⟨hmode, hposition, hlength, hplanned⟩ := Clock.mk.injEq .. ▸ hclock
    simp only [status, hmode, hposition, hlength, hplanned]
  exact (hpublished.trans h).trans hstatus.symm

theorem Current.setPosition (h : t.Current) (position : Nat) : (t.setPosition position).Current := by
  unfold Transport.setPosition
  split
  · exact h
  · exact publish_current _

theorem Current.setLength (h : t.Current) (length : Nat) : (t.setLength length).Current := by
  unfold Transport.setLength
  split
  · exact h
  · exact publish_current _

theorem Current.transition (h : t.Current) (mode : LoopMode) : (t.transition mode).Current := by
  unfold Transport.transition
  split
  · exact h
  · exact publish_current _

theorem Current.trigger (h : t.Current) : t.trigger.Current := by
  unfold Transport.trigger
  split
  · exact h
  · exact publish_current _

theorem Current.plan (t : Transport) (mode : LoopMode) (delay : Nat) (waitForSync hasSyncSource : Bool) :
    (t.plan mode delay waitForSync hasSyncSource).Current := by
  unfold Transport.plan
  split
  · exact publish_current _
  · exact publish_current _

theorem Current.handlePoi (h : t.Current) (sync : Option SyncView) : (t.handlePoi sync).Current := by
  unfold Transport.handlePoi
  split
  · dsimp only
    split
    · exact h.trigger.of_clock rfl rfl
    · exact h.of_clock rfl rfl
  · exact h

theorem Current.settled (h : t.Current) : t.settled.Current := by
  unfold Transport.settled
  split
  · exact h.transition .stopped
  · exact h

theorem Current.refresh (h : t.Current) (channelPoi : PoiQuery → Option Nat) (syncTrigger : Option Nat) :
    (t.refresh channelPoi syncTrigger).Current := h.settled.of_clock rfl rfl

/-- A chunk that is refused changes nothing, and one that the channels fail in
changes nothing that is shown. -/
theorem Current.process {σ : Type} (h : t.Current) (frames : Nat) (sync : Option SyncView)
    (act : ChunkContext → σ → σ × Except Error Unit) (channels : σ) :
    (t.process frames sync act channels).1.Current := by
  unfold Transport.process
  split
  · exact h
  · split
    · exact h
    · dsimp only
      rcases act (t.beginChunk.chunkContext frames) channels with ⟨after, failure | done⟩
      · exact h.of_clock rfl rfl
      · exact publish_current _

namespace Action

theorem current_run (h : t.Current) (a : Action) : (a.run t).Current := by
  cases a with
  | plan mode delay waitForSync hasSyncSource => exact .plan t mode delay waitForSync hasSyncSource
  | clearPlans => exact publish_current _
  | trigger => exact h.trigger
  | process frames sync act channels => exact h.process frames sync act channels
  | handlePoi sync => exact h.handlePoi sync
  | refresh channelPoi syncTrigger => exact h.refresh channelPoi syncTrigger
  | transition mode => exact h.transition mode
  | setLength length => exact h.setLength length
  | setPosition position => exact h.setPosition position

theorem current_runAll (h : t.Current) (actions : List Action) : (runAll actions t).Current := by
  induction actions generalizing t with
  | nil => exact h
  | cons a rest ih => exact ih (current_run h a)

/-! ## Countdowns stay within the range of a delay -/

/-- A call lowers countdowns, if it changes them. Only the plan that it makes may have a higher one. -/
theorem countdown_run_le {a : Action} {p : PlannedTransition} (hp : p ∈ (a.run t).planned) :
    (∃ q ∈ t.planned, p.countdown ≤ q.countdown) ∨ a.made? = some p := by
  rcases run_cases t a with ⟨-, hclock, -⟩ | ⟨-, hplans⟩
  · have hplans : (a.run t).planned = (t.planned.map (·.countDown)).dropWhile (·.isDue) := by
      rw [← reached_planned t a]
      exact congrArg Clock.planned hclock
    rw [hplans] at hp
    obtain ⟨q, hq, rfl⟩ := List.mem_map.mp ((List.dropWhile_sublist _).subset hp)
    refine .inl ⟨q, hq, ?_⟩
    show q.countdown - 1 ≤ q.countdown
    omega
  · rw [hplans] at hp
    cases a with
    | plan mode delay waitForSync hasSyncSource =>
      simp only [decided] at hp
      split at hp
      · cases hp
      · rcases List.mem_append.mp hp with hfront | hlast
        · exact .inl ⟨p, (List.takeWhile_sublist _).subset hfront, Int.le_refl _⟩
        · exact .inr (congrArg some (List.mem_singleton.mp hlast).symm)
    | clearPlans => cases hp
    | _ => exact .inl ⟨p, hp, Int.le_refl _⟩

/-- Every plan that is made is given a delay that can be stated. -/
def Timely (a : Action) : Prop := ∀ p ∈ a.made?, p.countdown ≤ maxFrames

theorem countdown_runAll_le {actions : List Action} (htimely : ∀ a ∈ actions, a.Timely)
    (h : ∀ p ∈ t.planned, p.countdown ≤ maxFrames) : ∀ p ∈ (runAll actions t).planned, p.countdown ≤ maxFrames := by
  induction actions generalizing t with
  | nil => exact h
  | cons a rest ih =>
    rw [List.forall_mem_cons] at htimely
    apply ih htimely.2
    intro p hp
    rcases countdown_run_le hp with ⟨q, hq, hle⟩ | hmade
    · exact Int.le_trans hle (h q hq)
    · exact htimely.1 p hmade

end Action

/-! ## The live state is shown -/

/-- Control threads see the live mode, position and length, and the first plan: its
mode, unless that is no mode at all, and its countdown. -/
structure Shown (t : Transport) : Prop where
  mode : t.published.mode = t.mode
  position : t.published.position = t.position
  length : t.published.length = t.length
  nextMode : t.published.nextMode = (t.planned.head?.map (·.mode)).filter (· ≠ .unknown)
  nextDelay : t.published.nextDelay.map Int.ofNat = t.planned.head?.map (·.countdown)

theorem Current.shown (h : t.Current) (hnonneg : ∀ p ∈ t.planned, 0 ≤ p.countdown)
    (hle : ∀ p ∈ t.planned, p.countdown ≤ maxFrames) : t.Shown := by
  unfold Current at h
  constructor
  · rw [h]; rfl
  · rw [h]; rfl
  · rw [h]; rfl
  · rw [h]
    unfold status
    cases hfirst : t.planned.head? with
    | none => rfl
    | some p =>
      have hp := hnonneg p (List.mem_of_head? hfirst)
      by_cases hunknown : p.mode = .unknown
      · simp [hunknown, Option.filter]
      · simp [hunknown, Int.not_lt.mpr hp, Option.filter]
  · rw [h]
    unfold status
    cases hfirst : t.planned.head? with
    | none => rfl
    | some p =>
      have hmem := List.mem_of_head? hfirst
      have hp := hnonneg p hmem
      have hfits : frames32? p.countdown = some p.countdown.toNat := if_pos ⟨hp, hle p hmem⟩
      simp [hfits, Int.toNat_of_nonneg hp]

namespace Action

/-- After any calls with delays that can be stated, what control threads read is what the present state would be
stored as: the live mode, position and length, the mode of the first plan, none if that is unknown, and its
countdown. -/
theorem published_never_stale (history : List Action) (htimely : ∀ a ∈ history, a.Timely) :
    let t := runAll history .new
    t.published = t.words.snapshot ∧ t.Shown := by
  intro t
  have hcurrent : t.Current := current_runAll new_current history
  have hordered : Ordered t.planned := ordered_runAll .nil history
  have hle : ∀ p ∈ t.planned, p.countdown ≤ maxFrames := countdown_runAll_le htimely (by simp [new])
  refine ⟨?_, hcurrent.shown hordered.nonneg hle⟩
  rw [snapshot_words]
  exact hcurrent

/-- A loop of eight samples plays, and is to record with the second trigger. The
channels fail in a chunk, then the loop reaches its end, wraps and counts the plan
down, all of which is seen. -/
theorem published_never_stale_failing :
    let history : List Action := [.setLength 8, .transition .playing, .plan .recording 1 true true,
      .refresh (fun _ => none) none, .process 8 none (fun _ c => (c, .error (.expired "channel"))) (), chunk 8]
    let t := runAll history .new
    (∀ a ∈ history, a.Timely) ∧ t.published = ⟨.playing, 8, 0, some .recording, some 0⟩ ∧ t.Shown := by
  intro history t
  have htimely : ∀ a ∈ history, a.Timely := by
    intro a ha p hp
    simp only [history, List.mem_cons, List.not_mem_nil, or_false] at ha
    rcases ha with rfl | rfl | rfl | rfl | rfl | rfl
    all_goals cases hp
    decide
  exact ⟨htimely, by decide, (published_never_stale history htimely).2⟩

end Action

end Transport

end Overdub
