import Overdub.Proofs.Extents
import Overdub.Proofs.Forecast
/-!
# Cues

The cue of a chunk depends on the clocks on the sync line of its loop alone: on the first
of them for the mode and the place in time, and on the first end on the line for what is
imminent (`Loop.context_cue`). While no clock on the line ends, the cue goes on from
frame to frame (`Cue.continues_later`, `Ensemble.continues_cueAt`).
-/

namespace Overdub

/-! ## The cue on a line of clocks -/

namespace Clock
variable {c : Clock} {n : Nat}

/-- The mode that channels are told: stopped when a playing loop is stuck at its end. -/
def told (c : Clock) : LoopMode :=
  match c.mode with
  | .playing | .playingDryThroughWet | .recordingDryIntoWet => if c.length = c.position then .stopped else c.mode
  | _ => c.mode

/-- A playing loop is not behind its end. -/
def Inside (c : Clock) : Prop := c.mode.isPlaying = true → c.position ≤ c.length

instance (c : Clock) : Decidable c.Inside := inferInstanceAs (Decidable (_ → _))

theorem still_inside : still.Inside := fun _ => Nat.le_refl _

theorem Inside.settled (h : c.Inside) : c.settled.Inside := by
  unfold Clock.settled
  split
  · intro hplaying
    simp [LoopMode.isPlaying] at hplaying
  · exact h

theorem Inside.moved (h : c.Inside) (n : Nat) : (c.moved n).Inside := by
  obtain ⟨mode, position, length, planned⟩ := c
  cases mode <;> simp [Inside, Clock.moved, LoopMode.isPlaying] at h ⊢

theorem Inside.later (h : c.Inside) (n : Nat) : (c.later n).Inside := by
  unfold Clock.later
  split
  · exact h
  · exact h.moved n

theorem Inside.transition (h : c.Inside) (mode : LoopMode) : (c.transition mode).Inside := by
  intro hplaying
  rw [transition_mode] at hplaying
  unfold Clock.transition
  split
  · next hsame => exact h (hsame ▸ hplaying)
  · have hkept : mode ≠ .recording := by
      rintro rfl
      cases hplaying
    dsimp only
    rw [hplaying, Bool.and_true, if_neg hkept]
    split_ifs with hwas
    · exact h hwas
    · exact Nat.zero_le _

theorem Inside.trigger (h : c.Inside) : c.trigger.Inside := by
  have hwrapped : c.wrapped.Inside := by
    unfold wrapped
    split
    · exact fun _ => Nat.zero_le _
    · exact h
  have hfollow : ∀ plans (c : Clock), c.Inside → (c.follow plans).Inside := by
    intro plans
    induction plans with
    | nil => exact fun _ h => h
    | cons p rest ih => exact fun c h => ih _ (h.transition p.mode)
  exact hfollow _ _ hwrapped

/-- A clock that plays has more frames before it than pass without an end. -/
theorem lt_left (hbefore : ∀ m, c.untilEnd = some m → n < m) (hplaying : c.mode.isPlaying = true)
    (hlt : c.position < c.length) : c.position + n < c.length := by
  have hleft := hbefore _ (untilEnd_eq_some.2 ⟨hplaying, hlt, rfl⟩)
  have := Nat.min_le_left (c.length - c.position) maxFrames
  unfold clampFrames at hleft
  omega

/-- Before its end, a clock tells its channels the same all the time. -/
theorem Inside.told_later (h : c.Inside) (hbefore : ∀ m, c.untilEnd = some m → n < m) :
    (c.later n).told = c.told := by
  unfold Clock.later
  split
  · rfl
  have hstuck : c.mode.isPlaying = true → (c.length = min (c.position + n) c.length ↔ c.length = c.position) := by
    intro hplaying
    have hle := h hplaying
    have hleft := lt_left hbefore hplaying
    omega
  obtain ⟨mode, position, length, planned⟩ := c
  cases mode <;> simp [told, Clock.moved, LoopMode.isPlaying] at hstuck ⊢ <;> simp [hstuck]

theorem isSome_untilEnd (c : Clock) : c.untilEnd.isSome = (c.mode.isPlaying && decide (c.position < c.length)) := by
  unfold untilEnd
  split
  · next h => exact h.symm
  · next h => exact (Bool.eq_false_iff.2 h).symm

theorem isSome_untilEnd_later (hbefore : ∀ m, c.untilEnd = some m → n < m) :
    (c.later n).untilEnd.isSome = c.untilEnd.isSome := by
  rw [isSome_untilEnd, isSome_untilEnd, later_mode, Bool.eq_iff_iff, Bool.and_eq_true, Bool.and_eq_true,
    decide_eq_true_eq, decide_eq_true_eq]
  refine and_congr_right fun hplaying => ?_
  have hleft := lt_left hbefore hplaying
  unfold Clock.later
  split
  · rfl
  obtain ⟨mode, position, length, planned⟩ := c
  cases mode <;> simp [LoopMode.isPlaying] at hplaying <;> simp [Clock.moved] at hleft ⊢ <;> omega

/-- A clock that does not tell its channels to stop tells them its mode. -/
theorem told_eq (h : c.told ≠ .stopped) :
    c.mode = c.told ∧ (c.mode = .recordingDryIntoWet → c.length ≠ c.position) := by
  unfold told at h ⊢
  by_cases hstuck : c.length = c.position <;> cases hmode : c.mode <;> simp_all

/-- Where its channels replace, a clock moves with each frame. -/
theorem Inside.position_later (h : c.Inside) (hbefore : ∀ m, c.untilEnd = some m → n < m)
    (htold : c.told = .replacing ∨ c.told = .recordingDryIntoWet) : (c.later n).position = c.position + n := by
  obtain ⟨hmode, hstuck⟩ := told_eq (c := c) (by rcases htold with htold | htold <;> simp [htold])
  rw [← hmode] at htold
  unfold Clock.later
  split
  · next hn => rw [hn, Nat.add_zero]
  rcases htold with htold | htold
  · simp [Clock.moved, htold]
  · have hplaying : c.mode.isPlaying = true := by rw [htold]; rfl
    have hle := h hplaying
    have hleft := lt_left hbefore hplaying
    have hne := hstuck htold
    simp only [Clock.moved, htold]
    omega

/-- Where its channels record, a clock gets longer with each frame. -/
theorem length_later (htold : c.told = .recording) (n : Nat) : (c.later n).length = c.length + n := by
  obtain ⟨hmode, -⟩ := told_eq (c := c) (by simp [htold])
  rw [htold] at hmode
  unfold Clock.later
  split
  · next hn => rw [hn, Nat.add_zero]
  · simp [Clock.moved, hmode]

end Clock

open Classical in
/-- The cue of a loop on whose sync line the clocks are these. -/
noncomputable def Cue.on (line : Nat → Clock) : Cue :=
  ⟨(line 0).told, if ∃ d, (line d).untilEnd.isSome then (line 0).due?.map (·.mode) else none, (line 0).position,
    (line 0).length⟩

/-- As long as no clock on its line ends, the cue of a loop goes on. -/
theorem Cue.continues_later {line : Nat → Clock} {n : Nat} (hwithin : ∀ d m, (line d).untilEnd = some m → n ≤ m)
    (hin : (line 0).Inside) : (Cue.on line).Continues (fun i => .on fun d => (line d).later i) n := by
  have hbefore : ∀ i < n, ∀ d m, (line d).untilEnd = some m → i < m := fun i hi d m hm =>
    Nat.lt_of_lt_of_le hi (hwithin d m hm)
  constructor
  case mode => exact fun i hi => hin.told_later (hbefore i hi 0)
  case soon =>
    intro i hi
    have hends : (∃ d, ((line d).later i).untilEnd.isSome = true) ↔ ∃ d, (line d).untilEnd.isSome = true :=
      exists_congr fun d => by rw [Clock.isSome_untilEnd_later (hbefore i hi d)]
    have hdue : ((line 0).later i).due? = (line 0).due? := by rw [Clock.due?, Clock.later_planned, Clock.due?]
    classical exact if_congr hends (by rw [hdue]) rfl
  case position => exact fun hmode i hi => hin.position_later (hbefore i hi 0) hmode
  case length => exact fun hmode i _ => Clock.length_later hmode i

namespace Ensemble
variable {e : Ensemble} {c : Clocks} {k : LoopKey} {n m i : Nat}

/-- The cue of a loop in a frame to come. -/
noncomputable def cueAt (e : Ensemble) (c : Clocks) (k : LoopKey) (i : Nat) : Cue :=
  .on (e.line (settle (e.frame^[i] c)) k)

theorem cueAt_add (e : Ensemble) (c : Clocks) (k : LoopKey) (m i : Nat) :
    e.cueAt (e.frame^[m] c) k i = e.cueAt c k (m + i) := by
  rw [cueAt, cueAt, Nat.add_comm, Function.iterate_add_apply]

/-- The clocks go on while none of them ends. -/
theorem settle_frames (hwithin : Within n c) (hi : i < n) (hn : n < maxFrames) :
    settle (e.frame^[i] c) = fun k => (settle c k).later i := by
  cases i with
  | zero => rfl
  | succ i =>
    have hbefore : ∀ k m, (settle c k).untilEnd = some m → i + 1 < m := fun k m hm =>
      Nat.lt_of_lt_of_le hi (hwithin k m hm)
    rw [← e.chunk_eq_frames (fun k m hm => Nat.le_of_lt (hbefore k m hm)) (by omega), chunk, e.advance_quiet hbefore]
    funext k
    exact Clock.settled_moved _ _

theorem line_later (c : Clocks) (k : LoopKey) (d : Nat) :
    e.line (fun k => (c k).later n) k d = (e.line c k d).later n := by
  unfold line
  cases upstream e.source d k with
  | none => simp [Clock.later]
  | some y => rfl

/-- As long as no clock ends, each cue goes on where the one before it ends. -/
theorem continues_cueAt (hwithin : Within n c) (hn : n < maxFrames) (hin : (c k).Inside) :
    (e.cueAt c k 0).Continues (e.cueAt c k) n := by
  have hline : ∀ d m, (e.line (settle c) k d).untilEnd = some m → n ≤ m := by
    intro d m hm
    cases hy : upstream e.source d k with
    | none => simp [line, hy] at hm
    | some y => exact hwithin y m (by rwa [line_of_upstream hy] at hm)
  have hlater := Cue.continues_later hline (by exact hin.settled)
  have hcues : ∀ i < n, e.cueAt c k i = .on fun d => (e.line (settle c) k d).later i := by
    intro i hi
    rw [cueAt, settle_frames hwithin hi hn, funext (line_later (settle c) k)]
  exact hlater.congr fun i hi => (hcues i hi).symm

/-- No clock that plays is behind its end. -/
def Inside (c : Clocks) : Prop := ∀ k, (c k).Inside

theorem Inside.chunk (h : Inside c) (n : Nat) : Inside (e.chunk n c) := by
  intro k
  unfold Ensemble.chunk advance
  split
  · exact ((h k).settled.moved n).trigger
  · exact (h k).settled.moved n

end Ensemble

/-! ## The cue of a loop -/

theorem Transport.told_chunkContext (t : Transport) {n : Nat} (hn : 0 < n) :
    (t.chunkContext n).mode = t.clock.told := by
  have hstuck : min (t.position + n) t.length = t.position ↔ t.length = t.position := by omega
  unfold chunkContext advanced Clock.told
  cases hmode : t.mode <;> simp [clock, hmode, hstuck]

/-- What is imminent is the first plan, if it is due with the next trigger and that is foreseen. -/
theorem Transport.imminent_upcoming (t : Transport) :
    t.upcoming.imminent?.map (·.1) = if t.nextTrigger.isSome then t.clock.due?.map (·.mode) else none := by
  unfold upcoming Clock.due?
  rw [clock_planned]
  cases t.planned with
  | nil => cases t.nextTrigger <;> rfl
  | cons p rest =>
    have hdelay : frames32? p.countdown = some 0 ↔ p.countdown = 0 := by
      unfold frames32?
      split <;> simp <;> omega
    show (Upcoming.imminent? ⟨some p.mode, frames32? p.countdown,
      if frames32? p.countdown = some 0 then t.nextTrigger else none⟩).map (·.1) = _
    generalize frames32? p.countdown = delay at hdelay ⊢
    by_cases hdue : p.countdown = 0
    · cases hdelay.2 hdue
      cases t.nextTrigger <;> simp [hdue, Upcoming.imminent?]
    · have hlater : delay ≠ some 0 := mt hdelay.1 hdue
      cases delay <;> simp [hdue, hlater, Upcoming.imminent?]

open Classical in
/-- A refreshed loop cues its channels by the clocks on its sync line. -/
theorem Loop.context_cue {l : Loop} {line : Nat → Clock} (hclock : l.transport.clock = line 0)
    (hfirst : Soonest line l.transport.nextTrigger) {n : Nat} (hn : 0 < n) : (l.context n).cue = .on line := by
  have hmode : (l.context n).mode = (line 0).told := (l.transport.beginChunk.told_chunkContext hn).trans
    (congrArg Clock.told hclock)
  have hends : l.transport.nextTrigger.isSome = true ↔ ∃ d, (line d).untilEnd.isSome = true := by
    constructor
    · intro hsome
      obtain ⟨t, ht⟩ := Option.isSome_iff_exists.1 hsome
      obtain ⟨d, hd⟩ := hfirst.reached t ht
      exact ⟨d, hd ▸ rfl⟩
    · rintro ⟨d, hd⟩
      obtain ⟨m, hm⟩ := Option.isSome_iff_exists.1 hd
      obtain ⟨t, -, ht⟩ := hfirst.least d m hm
      rw [ht]
      rfl
  have hsoon : (l.context n).next.imminent?.map (·.1) =
      if ∃ d, (line d).untilEnd.isSome = true then (line 0).due?.map (·.mode) else none := by
    rw [← hclock]
    refine l.transport.imminent_upcoming.trans ?_
    simp only [hends]
  unfold ChunkContext.cue Cue.on
  rw [hmode, hsoon, ← hclock]
  rfl

end Overdub
