import Overdub.Loop.Transport
/-!
# The clock of a transport

Mode, position, length and plans say where a loop is in time; all else in a
`Transport` is derived from them, shown to others or valid for one chunk only.
`Clock` is that part alone, with the rules of time over again and nothing about
flags, predictions or control threads.

Each operation of a transport acts on its clock by the rule of the same name.
`clock_advance` is the rule for a chunk: a loop that reaches its end without a
playing sync source triggers itself, and the flags of the chunk say so.
-/

namespace Overdub

/-- Where a loop is in time. -/
structure Clock where
  mode : LoopMode
  position : Nat
  length : Nat
  planned : List PlannedTransition
  deriving DecidableEq, Repr

namespace Clock

/-- A stopped loop without content. -/
def still : Clock := ⟨.stopped, 0, 0, []⟩

/-- Another mode: the position is kept between playing modes only, and a
recording starts without length. -/
def transition (c : Clock) (mode : LoopMode) : Clock :=
  if c.mode = mode then c
  else
    { c with
      mode
      position := if c.mode.isPlaying && mode.isPlaying then c.position else 0
      length := if mode = .recording then 0 else c.length }

/-- A playing loop without content stops. -/
def settled (c : Clock) : Clock := if c.mode.isPlaying && c.length = 0 then c.transition .stopped else c

/-- A playing loop at its end goes back to its start. -/
def wrapped (c : Clock) : Clock := if c.mode.isPlaying && c.length ≤ c.position then { c with position := 0 } else c

/-- Modes taken on one after the other. -/
def follow (c : Clock) (plans : List PlannedTransition) : Clock := plans.foldl (fun c p => c.transition p.mode) c

/-- One trigger: the loop wraps, and the plans that are due by it are carried out. -/
def trigger (c : Clock) : Clock :=
  let planned := c.planned.map (·.countDown)
  { c.wrapped.follow (planned.takeWhile (·.isDue)) with planned := planned.dropWhile (·.isDue) }

/-- The frames until a playing loop reaches its end. -/
def untilEnd (c : Clock) : Option Nat :=
  if c.mode.isPlaying && c.position < c.length then some (clampFrames (c.length - c.position)) else none

/-- `n` frames that end before or at the end of the loop. -/
def moved (c : Clock) (n : Nat) : Clock :=
  match c.mode with
  | .recording => { c with length := c.length + n }
  | .replacing => { c with position := c.position + n, length := max c.length (c.position + n) }
  | .playing | .playingDryThroughWet | .recordingDryIntoWet => { c with position := min (c.position + n) c.length }
  | .stopped | .unknown => c

end Clock

namespace Transport

/-- The clock of a transport. -/
def clock (t : Transport) : Clock := ⟨t.mode, t.position, t.length, t.planned⟩

@[simp] theorem clock_mode (t : Transport) : t.clock.mode = t.mode := rfl
@[simp] theorem clock_position (t : Transport) : t.clock.position = t.position := rfl
@[simp] theorem clock_length (t : Transport) : t.clock.length = t.length := rfl
@[simp] theorem clock_planned (t : Transport) : t.clock.planned = t.planned := rfl

/-! ## Changes of mode -/

/-- What changes of position, length and mode leave alone. -/
structure Carried (t t' : Transport) : Prop where
  round : t'.round = t.round
  alreadyTriggered : t'.alreadyTriggered = t.alreadyTriggered
  triggeringNow : t.triggeringNow = true → t'.triggeringNow = true

theorem Carried.refl (t : Transport) : Carried t t := ⟨rfl, rfl, id⟩

theorem Carried.trans {t₁ t₂ t₃ : Transport} (h : Carried t₁ t₂) (h' : Carried t₂ t₃) : Carried t₁ t₃ :=
  ⟨h'.round.trans h.round, h'.alreadyTriggered.trans h.alreadyTriggered, h'.triggeringNow ∘ h.triggeringNow⟩

@[simp] theorem clock_setPosition (t : Transport) (position : Nat) :
    (t.setPosition position).clock = { t.clock with position } := by
  unfold setPosition
  split
  · next h => subst h; rfl
  · rfl

theorem carried_setPosition (t : Transport) (position : Nat) : Carried t (t.setPosition position) := by
  unfold setPosition
  split
  · exact .refl t
  · exact ⟨rfl, rfl, id⟩

/-- Taking the length away leaves the start as the only position. -/
theorem clock_setLength_zero (t : Transport) (h : t.position = 0) :
    (t.setLength 0).clock = { t.clock with length := 0 } := by
  unfold setLength
  split
  · next hl => simp [clock, ← hl]
  · simp [clock, h, publish, setPosition]

theorem carried_setLength (t : Transport) (length : Nat) : Carried t (t.setLength length) := by
  unfold setLength
  split
  · exact .refl t
  · dsimp only
    split
    · have h := carried_setPosition { t with length } (length - 1)
      exact ⟨h.round, h.alreadyTriggered, h.triggeringNow⟩
    · exact ⟨rfl, rfl, id⟩

theorem clock_rewindFor (t : Transport) (mode : LoopMode) :
    (t.rewindFor mode).clock =
      { t.clock with position := if t.mode.isPlaying && mode.isPlaying then t.position else 0 } := by
  unfold rewindFor
  split
  · rfl
  · exact clock_setPosition t 0

theorem clock_clearFor (t : Transport) (mode : LoopMode) (h : mode = .recording → t.position = 0) :
    (t.clearFor mode).clock = { t.clock with length := if mode = .recording then 0 else t.length } := by
  unfold clearFor
  split
  · next hm => exact clock_setLength_zero t (h hm)
  · rfl

theorem clock_enter (t : Transport) (mode : LoopMode) (h : mode = .stopped → t.position = 0) :
    (t.enter mode).clock = { t.clock with mode } := by
  have hp : (if mode = .stopped then 0 else t.position) = t.position := by
    split
    · next hm => exact (h hm).symm
    · rfl
  unfold enter
  simp only [hp]
  split <;> rfl

theorem carried_enter (t : Transport) (mode : LoopMode) : Carried t (t.enter mode) := by
  unfold enter
  generalize (if mode = .stopped then 0 else t.position) = position
  dsimp only
  cases hp : mode.isPlaying && decide (position = 0)
  · exact ⟨rfl, rfl, id⟩
  · exact ⟨rfl, rfl, fun _ => rfl⟩

@[simp] theorem clock_transition (t : Transport) (mode : LoopMode) :
    (t.transition mode).clock = t.clock.transition mode := by
  unfold transition Clock.transition
  by_cases h : t.mode = mode
  · simp [h]
  have hrew := clock_rewindFor t mode
  have hpos : mode.isPlaying = false → (t.rewindFor mode).position = 0 := fun hm => by
    simpa [hm] using congrArg Clock.position hrew
  have hclr := clock_clearFor (t.rewindFor mode) mode fun hm => hpos (by simp [hm, LoopMode.isPlaying])
  have hent := clock_enter ((t.rewindFor mode).clearFor mode) mode fun hm =>
    (congrArg Clock.position hclr).trans (hpos (by simp [hm, LoopMode.isPlaying]))
  have hlen : (t.rewindFor mode).length = t.length := congrArg Clock.length hrew
  rw [if_neg h, if_neg (show t.clock.mode ≠ mode from h), hent, hclr, hrew, hlen]
  rfl

theorem carried_transition (t : Transport) (mode : LoopMode) : Carried t (t.transition mode) := by
  unfold transition
  split
  · exact .refl t
  have hrew : Carried t (t.rewindFor mode) := by
    unfold rewindFor
    split
    · exact .refl t
    · exact carried_setPosition t 0
  have hclr : Carried (t.rewindFor mode) ((t.rewindFor mode).clearFor mode) := by
    unfold clearFor
    split
    · exact carried_setLength _ 0
    · exact .refl _
  exact (hrew.trans hclr).trans (carried_enter _ mode)

theorem foldl_transition (plans : List PlannedTransition) (t : Transport) :
    (plans.foldl (fun t p => t.transition p.mode) t).clock = t.clock.follow plans ∧
      Carried t (plans.foldl (fun t p => t.transition p.mode) t) := by
  induction plans generalizing t with
  | nil => exact ⟨rfl, .refl t⟩
  | cons p rest ih =>
    obtain ⟨hc, hk⟩ := ih (t.transition p.mode)
    exact ⟨by rw [List.foldl_cons, hc, clock_transition]; rfl, (carried_transition t p.mode).trans hk⟩

/-! ## Triggers -/

theorem trigger_again (t : Transport) (h : t.alreadyTriggered = true) : t.trigger = t := by simp [trigger, h]

theorem clock_wrap (t : Transport) : t.wrap.clock = t.clock.wrapped := by
  unfold wrap Clock.wrapped
  by_cases h : (t.mode.isPlaying && t.length ≤ t.position) = true
  · rw [if_pos h, if_pos (by exact h)]
    rfl
  · rw [if_neg h, if_neg (by exact h)]

/-- The first trigger of a chunk acts on the clock and is noted. -/
theorem trigger_first (t : Transport) (h : t.alreadyTriggered = false) :
    t.trigger.clock = t.clock.trigger ∧ t.trigger.alreadyTriggered = true ∧ t.trigger.triggeringNow = true ∧
      t.trigger.round = t.round := by
  let noted := { t with alreadyTriggered := true, triggeringNow := true }
  have hw : Carried noted noted.wrap := by
    unfold wrap
    split
    · exact ⟨rfl, rfl, id⟩
    · exact .refl noted
  obtain ⟨hc, hk⟩ := foldl_transition ((t.planned.map (·.countDown)).takeWhile (·.isDue)) noted.wrap
  have hk := hw.trans hk
  unfold trigger Clock.trigger
  rw [if_neg (by simp [h])]
  refine ⟨?_, hk.alreadyTriggered, hk.triggeringNow rfl, hk.round⟩
  rw [clock_wrap] at hc
  let left := (t.planned.map PlannedTransition.countDown).dropWhile PlannedTransition.isDue
  exact congrArg (fun c : Clock => { c with planned := left }) hc

/-! ## Points of interest -/

@[simp] theorem clock_settled (t : Transport) : t.settled.clock = t.clock.settled := by
  unfold settled Clock.settled
  by_cases h : (t.mode.isPlaying && t.length = 0) = true
  · rw [if_pos h, if_pos (by exact h), clock_transition]
  · rw [if_neg h, if_neg (by exact h)]

theorem carried_settled (t : Transport) : Carried t t.settled := by
  unfold settled
  split
  · exact carried_transition t .stopped
  · exact .refl t

/-- Stopping is no trigger. -/
theorem triggeringNow_settled (t : Transport) : t.settled.triggeringNow = t.triggeringNow := by
  have hpos : ∀ (t : Transport) position, (t.setPosition position).triggeringNow = t.triggeringNow := fun t position => by
    unfold setPosition
    split <;> rfl
  unfold settled transition rewindFor
  split
  · split
    · rfl
    · simp [LoopMode.isPlaying, clearFor, enter, publish, hpos]
  · rfl

theorem untilEnd_eq (t : Transport) : t.untilEnd = t.clock.untilEnd := rfl

/-- The chunk to come does not go past the point of interest, and the point is
the one of this state. -/
structure Fits (t : Transport) (n : Nat) : Prop where
  point : ∃ channelPoi, t.nextPoi = t.pointOfInterest channelPoi
  le : ∀ p, t.nextPoi = some p → n ≤ p.offset

theorem pointOfInterest_le {t : Transport} {m : Nat} (h : t.untilEnd = some m) (channelPoi : Option Nat) :
    ∃ p, t.pointOfInterest channelPoi = some p ∧ p.offset ≤ m ∧
      (p.offset = m → p.reasons.loopEnd = true) := by
  unfold pointOfInterest
  rw [h]
  cases channelPoi with
  | none => exact ⟨_, rfl, Nat.le_refl _, fun _ => rfl⟩
  | some offset =>
    by_cases hlt : offset < m
    · exact ⟨⟨offset, { channel := true }⟩, by simp [hlt], Nat.le_of_lt hlt, fun he => by simp at he; omega⟩
    · exact ⟨⟨m, { loopEnd := true }⟩, by simp [hlt], Nat.le_refl _, fun _ => rfl⟩

/-- A point of interest for the end of the loop lies there. -/
theorem loopEnd_of_point {t : Transport} {channelPoi : Option Nat} {p : Poi}
    (h : t.pointOfInterest channelPoi = some p) (hr : p.reasons.loopEnd = true) : t.untilEnd = some p.offset := by
  unfold pointOfInterest at h
  cases hu : t.untilEnd with
  | none =>
    cases channelPoi with
    | none => simp [hu] at h
    | some offset =>
      simp [hu] at h
      subst h
      simp at hr
  | some m =>
    rw [hu] at h
    cases channelPoi with
    | none => simp at h; subst h; rfl
    | some offset =>
      by_cases hlt : offset < m
      · simp [hlt] at h; subst h; simp at hr
      · simp [hlt] at h; subst h; rfl

theorem Fits.le_untilEnd {t : Transport} {n m : Nat} (h : t.Fits n) (hm : t.clock.untilEnd = some m) : n ≤ m := by
  obtain ⟨channelPoi, hp⟩ := h.point
  obtain ⟨p, hp', hle, -⟩ := pointOfInterest_le hm channelPoi
  exact Nat.le_trans (h.le p (hp.trans hp')) hle

/-- The end of the loop is the point of interest exactly if the chunk ends there. -/
theorem Fits.loopEnd_iff {t : Transport} {n : Nat} (h : t.Fits n) :
    (∃ p, t.nextPoi = some p ∧ p.offset = n ∧ p.reasons.loopEnd = true) ↔ t.clock.untilEnd = some n := by
  obtain ⟨channelPoi, hp⟩ := h.point
  constructor
  · rintro ⟨p, hp', rfl, hr⟩
    exact loopEnd_of_point (hp ▸ hp') hr
  · intro hu
    obtain ⟨p, hp', hle, hend⟩ := pointOfInterest_le hu channelPoi
    have hn := h.le p (hp.trans hp')
    exact ⟨p, hp.trans hp', Nat.le_antisymm hle hn, hend (Nat.le_antisymm hle hn)⟩

/-! ## Chunks -/

theorem clock_advanced (t : Transport) (n : Nat) :
    ({ t with position := (t.advanced n).1, length := (t.advanced n).2 } : Transport).clock = t.clock.moved n := by
  unfold advanced Clock.moved
  cases hm : t.mode <;> simp [clock, hm]

/-- The time of a loop after a chunk, and whether the loop triggered in it. -/
structure Moved (t t' : Transport) (n : Nat) (fired : Bool) : Prop where
  clock : t'.clock = if fired then (t.clock.moved n).trigger else t.clock.moved n
  alreadyTriggered : t'.alreadyTriggered = fired
  triggeringNow : t'.triggeringNow = fired
  round : t'.round = t.round

/-- A trigger from outside counts unless the loop has triggered already. -/
theorem Moved.trigger {t t' : Transport} {n : Nat} {fired : Bool} (h : t.Moved t' n fired) :
    t.Moved t'.trigger n true := by
  cases fired with
  | true =>
    rw [trigger_again t' h.alreadyTriggered]
    exact h
  | false =>
    obtain ⟨hc, ha, ht, hr⟩ := trigger_first t' h.alreadyTriggered
    exact ⟨by rw [hc, h.clock]; rfl, ha, ht, hr.trans h.round⟩

/-- A loop that ends with the chunk and has no playing sync source triggers, any
other one just moves. -/
theorem moved_advance (t : Transport) (n : Nat) (sync : Option SyncView) (h : t.Fits n)
    (ha : t.alreadyTriggered = false) (ht : t.triggeringNow = false) :
    t.Moved (t.advance n sync) n (t.clock.untilEnd = some n && sync.all fun s => !s.mode.isPlaying) := by
  let after : Transport := { t with
    position := (t.advanced n).1
    length := (t.advanced n).2
    nextPoi := t.nextPoi.map fun p => { p with offset := p.offset - n }
    nextTrigger := (t.nextTrigger.map (· - n)).filter (0 < ·) }
  have hc : after.clock = t.clock.moved n := clock_advanced t n
  have hstill : t.Moved after n false := ⟨hc, ha, ht, rfl⟩
  have hdrop : ∀ t' fired, t.Moved t' n fired → t.Moved { t' with nextPoi := none } n fired :=
    fun _ _ h => ⟨h.clock, h.alreadyTriggered, h.triggeringNow, h.round⟩
  have hshow : ∀ t' fired, t.Moved t' n fired → t.Moved t'.publish n fired :=
    fun _ _ h => ⟨h.clock, h.alreadyTriggered, h.triggeringNow, h.round⟩
  refine hshow (after.handlePoi sync) _ ?_
  have hiff := h.loopEnd_iff
  cases hp : t.nextPoi with
  -- Without a point of interest there is no end to reach.
  | none =>
    have hu : t.clock.untilEnd ≠ some n := fun hu => by simpa [hp] using hiff.2 hu
    have hpoi : after.nextPoi = none := by simp [after, hp]
    simpa [handlePoi, hpoi, hu] using hstill
  | some p =>
    have hle := h.le p hp
    have hpoi : after.nextPoi = some ⟨p.offset - n, p.reasons⟩ := by simp [after, hp]
    rcases Nat.eq_or_lt_of_le hle with he | hlt
    -- The chunk reaches the point, which is the end of the loop, of a channel's cycle, or both.
    · rw [he, Nat.sub_self] at hpoi
      have hr : p.reasons.loopEnd = decide (t.clock.untilEnd = some n) := by
        rw [Bool.eq_iff_iff, decide_eq_true_iff, ← hiff, hp]
        simp [he]
      simp only [handlePoi, hpoi, hr]
      refine hdrop _ _ ?_
      split
      · next hend => simpa [hend] using hstill.trigger
      · next hend => simpa [hend] using hstill
    · have hu : t.clock.untilEnd ≠ some n := fun hu => by
        obtain ⟨p', hp', ho, -⟩ := hiff.2 hu
        rw [hp, Option.some.injEq] at hp'
        subst hp'
        omega
      obtain ⟨k, hk⟩ : ∃ k, p.offset - n = k + 1 := ⟨p.offset - n - 1, by omega⟩
      rw [hk] at hpoi
      simpa [handlePoi, hpoi, hu] using hstill

end Transport

end Overdub
