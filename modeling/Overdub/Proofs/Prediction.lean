import Overdub.Proofs.Lineage
/-!
# Predicting triggers

A refreshed loop predicts its next trigger as the smaller of the frames until its own end
and what its sync source predicts. Over the whole line of a loop that is the end that comes
first: its own, or that of a loop upstream (`Soonest`).

Sources are refreshed first, each loop once in a round, so while the chain above a loop is
being refreshed the loop waits with the stamp of the round, but without a prediction. The
invariant is about all loops but those that wait (`AwareBut`), and chains without cycles do
not come back to one that does (`Awaits.not_waiting`). So after a round every loop predicts
the first end on its line (`foretells`).
-/

namespace Overdub

namespace Clock

/-- The clock after so many frames that pass no end. None leave it as it is, where `moved 0`
would take a playing clock that lies past its length back to it. -/
def later (c : Clock) (n : Nat) : Clock := if n = 0 then c else c.moved n

theorem later_moved (c : Clock) (m : Nat) {n : Nat} (hn : 0 < n) : (c.later m).moved n = c.later (m + n) := by
  unfold later
  rw [if_neg (Nat.ne_of_gt (Nat.add_pos_right m hn))]
  split
  · next hm => rw [hm, Nat.zero_add]
  · exact moved_moved c m n

@[simp] theorem later_mode (c : Clock) (n : Nat) : (c.later n).mode = c.mode := by
  unfold later
  split
  · rfl
  · exact moved_mode c n

@[simp] theorem later_planned (c : Clock) (n : Nat) : (c.later n).planned = c.planned := by
  unfold later
  split
  · rfl
  · exact moved_planned c n

/-- As long as no end has been passed, each is nearer by the frames that have. -/
theorem untilEnd_later {c : Clock} {n k : Nat} (hn : ∀ m, c.untilEnd = some m → n < m) (hk : n + k < maxFrames) :
    (c.later n).untilEnd = some k ↔ c.untilEnd = some (n + k) := by
  unfold later
  split
  · next h => rw [h, Nat.zero_add]
  · exact untilEnd_moved hn hk

theorem le_untilEnd_later {c : Clock} {n k : Nat} (h : ∀ m, c.untilEnd = some m → n + k ≤ m) :
    ∀ m, (c.later n).untilEnd = some m → k ≤ m := by
  unfold later
  split
  · next hn => simpa [hn] using h
  · exact le_untilEnd_moved h

end Clock

/-! ## The end that comes first -/

/-- The first end on a line of clocks, or none if none of them ends. -/
structure Soonest (line : Nat → Clock) (offset : Option Nat) : Prop where
  reached : ∀ n, offset = some n → ∃ d, (line d).untilEnd = some n
  least : ∀ d m, (line d).untilEnd = some m → ∃ n ≤ m, offset = some n

namespace Soonest
variable {line : Nat → Clock} {offset offset' : Option Nat} {t m : Nat}

theorem of_still (h : ∀ d, line d = .still) : Soonest line none where
  reached _ hn := nomatch hn
  least d m hm := by simp [h d] at hm

theorem le (h : Soonest line (some t)) {d m : Nat} (hm : (line d).untilEnd = some m) : t ≤ m := by
  obtain ⟨n, hn, heq⟩ := h.least d m hm
  cases heq
  exact hn

theorem unique (h : Soonest line offset) (h' : Soonest line offset') : offset = offset' := by
  have hle : ∀ {o o'}, Soonest line o → Soonest line o' → ∀ n, o = some n → ∃ n' ≤ n, o' = some n' := by
    intro o o' h h' n hn
    obtain ⟨d, hd⟩ := h.reached n hn
    exact h'.least d n hd
  cases hn : offset with
  | none =>
    cases hn' : offset' with
    | none => rfl
    | some n' =>
      obtain ⟨n, -, heq⟩ := hle h' h n' hn'
      exact absurd (hn.symm.trans heq) (by simp)
  | some n =>
    obtain ⟨n', hle₁, heq⟩ := hle h h' n hn
    obtain ⟨n₂, hle₂, heq₂⟩ := hle h' h n' heq
    obtain rfl : n = n₂ := Option.some.inj (hn.symm.trans heq₂)
    rw [heq, Nat.le_antisymm hle₁ hle₂]

/-- The first end of all is that of the first clock or the first one of the others. -/
theorem cons (h : Soonest (fun d => line (d + 1)) offset) :
    Soonest line (minOffset (line 0).untilEnd offset) := by
  constructor
  · intro n hn
    cases hown : (line 0).untilEnd with
    | none =>
      rw [hown] at hn
      obtain ⟨d, hd⟩ := h.reached n (by simpa [minOffset] using hn)
      exact ⟨d + 1, hd⟩
    | some k =>
      cases hothers : offset with
      | none => exact ⟨0, by simpa [minOffset, hown, hothers] using hn⟩
      | some k' =>
        have hmin : min k k' = n := by simpa [minOffset, hown, hothers] using hn
        rcases Nat.le_total k k' with hle | hle
        · exact ⟨0, by rw [hown, ← hmin, Nat.min_eq_left hle]⟩
        · obtain ⟨d, hd⟩ := h.reached k' hothers
          exact ⟨d + 1, by rw [hd, ← hmin, Nat.min_eq_right hle]⟩
  · intro d m hm
    cases d with
    | zero =>
      rw [hm]
      cases offset with
      | none => exact ⟨m, Nat.le_refl m, rfl⟩
      | some k => exact ⟨min m k, Nat.min_le_left m k, rfl⟩
    | succ d =>
      obtain ⟨n, hn, rfl⟩ := h.least d m hm
      cases (line 0).untilEnd with
      | none => exact ⟨n, hn, rfl⟩
      | some k => exact ⟨min k n, Nat.le_trans (Nat.min_le_right k n) hn, rfl⟩

/-- Before the first end, it is nearer by the frames that have passed. -/
theorem later (h : Soonest line (some t)) (hm : m < t) (ht : t < maxFrames) :
    Soonest (fun d => (line d).later m) (some (t - m)) := by
  constructor
  · rintro n ⟨⟩
    obtain ⟨d, hd⟩ := h.reached t rfl
    refine ⟨d, (Clock.untilEnd_later (fun k hk => Nat.lt_of_lt_of_le hm (h.le hk)) (by omega)).2 ?_⟩
    rw [hd, Nat.add_sub_cancel' (Nat.le_of_lt hm)]
  · intro d k hk
    refine ⟨t - m, Clock.le_untilEnd_later (fun j hj => ?_) k hk, rfl⟩
    rw [Nat.add_sub_cancel' (Nat.le_of_lt hm)]
    exact h.le hj

end Soonest

namespace Scheduler

variable {s : Scheduler} {loops loops' : Loops} {keys : List LoopKey} {key x : LoopKey} {round : Nat}

/-! ## What a refreshed loop knows -/

/-- The clock that a refresh finds so many hops up the sync chain; above the end of the
chain it stands still. -/
def settledUp (loops : Loops) (key : LoopKey) (d : Nat) : Clock := ((clockUp loops d key).getD .still).settled

theorem settledUp_zero {l : Loop} (hl : loops.get? key = some l) :
    settledUp loops key 0 = l.transport.clock.settled := by
  simp [settledUp, clockUp, upstream, clockAt, hl]

theorem settledUp_succ {source : LoopKey} (hs : source? loops key = some source) (d : Nat) :
    settledUp loops key (d + 1) = settledUp loops source d := by
  rw [settledUp, clockUp, upstream_succ_of_some hs]
  rfl

theorem settledUp_unled (hs : source? loops key = none) (d : Nat) : settledUp loops key (d + 1) = .still := by
  simp [settledUp, clockUp, upstream, hs]

theorem source?_of_none (hl : loops.get? key = none) : source? loops key = none := by simp [source?, hl]

theorem settledUp_of_none (hl : loops.get? key = none) (d : Nat) : settledUp loops key d = .still := by
  cases d with
  | zero => simp [settledUp, clockUp, upstream, clockAt, hl]
  | succ d => exact settledUp_unled (source?_of_none hl) d

/-- No sync chain is longer than those that are followed. -/
def Short (loops : Loops) : Prop := ∀ key d, maxHops < d → clockUp loops d key = none

theorem Short.acyclic (hshort : Short loops) : Acyclic (source? loops) := by
  intro d key hcycle
  have hround : ∀ i, upstream (source? loops) ((d + 1) * i) key = some key := by
    intro i
    induction i with
    | zero => rfl
    | succ i ih => rw [Nat.mul_succ, upstream_add, ih, Option.bind_some, hcycle]
  obtain ⟨source, hs, -⟩ := Option.bind_eq_some_iff.1 hcycle
  obtain ⟨l, hl, -⟩ := Option.bind_eq_some_iff.1 hs
  have hfar : maxHops < (d + 1) * (maxHops + 1) := Nat.lt_of_lt_of_le (Nat.lt_succ_self maxHops)
    (Nat.le_mul_of_pos_left _ (Nat.succ_pos d))
  simpa [clockUp, hround, clockAt, hl] using hshort key _ hfar

/-! ## The loops of a round -/

/-- No loop has been refreshed in the round yet. -/
def Fresh (round : Nat) (loops : Loops) : Prop := ∀ key l, loops.get? key = some l → l.transport.round ≠ round

/-- A loop in a round: untouched, or refreshed and aware of the first end on its line. -/
def Aware (loops : Loops) (round : Nat) (key : LoopKey) (l l' : Loop) : Prop :=
  l' = l ∨ l'.transport.round = round ∧ Soonest (settledUp loops key) l'.transport.nextTrigger

/-- The loops in a round, some of which wait for the refresh of their sync source. -/
def AwareBut (waiting : LoopKey → Prop) (loops : Loops) (round : Nat) (loops' : Loops) : Prop :=
  ∀ key, ¬ waiting key → Option.Rel (Aware loops round key) (loops.get? key) (loops'.get? key)

/-- All that wait do so for a loop upstream of them. -/
def Awaits (loops : Loops) (waiting : LoopKey → Prop) (key : LoopKey) : Prop :=
  ∀ k, waiting k → ∃ d, upstream (source? loops) (d + 1) k = some key

section Refresh
variable {waiting : LoopKey → Prop} {l l' : Loop} {source : LoopKey}

theorem Awaits.not_waiting (h : Awaits loops waiting key) (hshort : Short loops) : ¬ waiting key := fun hw => by
  obtain ⟨d, hd⟩ := h key hw
  exact hshort.acyclic d key hd

/-- With a loop that waits for its source, all that wait for the loop wait for the source. -/
theorem Awaits.of_source (h : Awaits loops waiting key) (hs : source? loops key = some source) :
    Awaits loops (fun k => waiting k ∨ k = key) source := by
  rintro k (hk | rfl)
  · obtain ⟨d, hd⟩ := h k hk
    exact ⟨d + 1, (upstream_step hd).trans hs⟩
  · exact ⟨0, upstream_succ_of_some hs 0⟩

namespace AwareBut

theorem none_left (h : AwareBut waiting loops round loops') (hkey : ¬ waiting key) (hl : loops.get? key = none) :
    loops'.get? key = none := by
  have hrel := h key hkey
  rw [hl] at hrel
  generalize loops'.get? key = v at hrel ⊢
  cases hrel
  rfl

theorem none_right (h : AwareBut waiting loops round loops') (hkey : ¬ waiting key) (hl' : loops'.get? key = none) :
    loops.get? key = none := by
  have hrel := h key hkey
  rw [hl'] at hrel
  generalize loops.get? key = u at hrel ⊢
  cases hrel
  rfl

theorem some_right (h : AwareBut waiting loops round loops') (hkey : ¬ waiting key)
    (hl' : loops'.get? key = some l') : ∃ l, loops.get? key = some l ∧ Aware loops round key l l' := by
  have hrel := h key hkey
  rw [hl'] at hrel
  generalize loops.get? key = u at hrel ⊢
  cases hrel with
  | some haware => exact ⟨_, rfl, haware⟩

/-- Once the source is refreshed, a loop that has waited for it no longer does. -/
theorem refreshed (h : AwareBut (fun k => waiting k ∨ k = key) loops round loops')
    (hl : loops.get? key = some l) (hstamped : loops'.get? key = some (l.modifyTransport ({ · with round })))
    {syncTrigger : Option Nat} (hfirst : Soonest (fun d => settledUp loops key (d + 1)) syncTrigger) :
    AwareBut waiting loops round (loops'.modify key (·.refresh syncTrigger)) ∧
      Soonest (settledUp loops key) (nextTrigger (loops'.modify key (·.refresh syncTrigger)) key) := by
  let after := (l.modifyTransport ({ · with round })).refresh syncTrigger
  have hround : after.transport.round = round := (l.refreshed_refresh round syncTrigger).round
  have hpredicts : Soonest (settledUp loops key) after.transport.nextTrigger := by
    have hown : (l.modifyTransport ({ · with round })).transport.settled.untilEnd =
        (settledUp loops key 0).untilEnd := by
      rw [settledUp_zero hl, Transport.untilEnd_eq, Transport.clock_settled]
      rfl
    have hcons := hfirst.cons
    rw [← hown] at hcons
    exact hcons
  constructor
  · intro k hk
    by_cases hkey : k = key
    · subst hkey
      rw [Arena.get?_modify_self, hl, hstamped]
      exact .some (.inr ⟨hround, hpredicts⟩)
    · rw [Arena.get?_modify_ne _ _ hkey]
      exact h k (not_or.2 ⟨hk, hkey⟩)
  · rw [nextTrigger, Arena.get?_modify_self, hstamped]
    exact hpredicts

/-- A refresh makes a loop aware of the first end on its line, if the visit to its source
does so for the source. -/
theorem refreshAfter (h : AwareBut waiting loops round loops')
    (hfresh : Fresh round loops) (hkey : ¬ waiting key)
    {visit : Loops → LoopKey → Loops}
    (hvisit : ∀ source loops', source? loops key = some source →
      AwareBut (fun k => waiting k ∨ k = key) loops round loops' →
      AwareBut (fun k => waiting k ∨ k = key) loops round (visit loops' source) ∧
        Soonest (settledUp loops source) (nextTrigger (visit loops' source) source))
    (htouched : ∀ source loops', Arena.Related (fun _ => Touched round) loops' (visit loops' source)) :
    AwareBut waiting loops round (refreshAfter visit loops' key round) ∧
      Soonest (settledUp loops key) (nextTrigger (refreshAfter visit loops' key round) key) := by
  unfold Scheduler.refreshAfter
  cases hl' : loops'.get? key with
  | none =>
    refine ⟨h, ?_⟩
    rw [nextTrigger, hl']
    exact .of_still (settledUp_of_none (h.none_right hkey hl'))
  | some l' =>
    obtain ⟨l, hl, haware⟩ := h.some_right hkey hl'
    dsimp only
    split
    · next hround =>
      refine ⟨h, ?_⟩
      rw [nextTrigger, hl']
      exact (haware.resolve_left fun he => hfresh key l hl (he ▸ hround)).2
    · next hround =>
      obtain rfl : l' = l := haware.resolve_right fun hr => hround hr.1
      let stamped := l'.modifyTransport ({ · with round })
      have hset : AwareBut (fun k => waiting k ∨ k = key) loops round (loops'.set key stamped) := by
        intro k hk
        obtain ⟨hk, hne⟩ := not_or.1 hk
        rw [Arena.get?_set, if_neg hne]
        exact h k hk
      have hstamped : (loops'.set key stamped).get? key = some stamped := by
        rw [Arena.get?_set, if_pos rfl, hl', Option.map_some]
      have hsource : source? loops key = l'.syncSource.filter (· ≠ key) := by simp [source?, hl]
      cases hs : l'.syncSource.filter (· ≠ key) with
      | none =>
        rw [hs] at hsource
        refine hset.refreshed hl hstamped ?_
        simp only [settledUp_unled hsource]
        exact .of_still fun _ => rfl
      | some source =>
        rw [hs] at hsource
        obtain ⟨hvisited, hfirst⟩ := hvisit source _ hsource hset
        -- the loop bears the stamp of the round, so the visit leaves it alone
        have hkept : (visit (loops'.set key stamped) source).get? key = some stamped := by
          obtain ⟨l₁, hl₁, ht⟩ := (htouched source _).some_left hstamped
          rw [hl₁, ht.resolve_right fun hn => hn.1 rfl]
        refine hvisited.refreshed hl hkept ?_
        simp only [settledUp_succ hsource]
        exact hfirst

theorem refresh (h : AwareBut waiting loops round loops')
    (hfresh : Fresh round loops)
    (hshort : Short loops) {hops : Nat}
    (hend : ∀ d, hops < d → clockUp loops d key = none) (hawaits : Awaits loops waiting key) :
    AwareBut waiting loops round (refresh loops' key round hops) ∧
      Soonest (settledUp loops key) (nextTrigger (refresh loops' key round hops) key) := by
  induction hops generalizing loops' key waiting with
  | zero =>
    refine h.refreshAfter hfresh (hawaits.not_waiting hshort) (fun source loops' hs h' => ⟨h', ?_⟩)
      fun _ loops' => Arena.Related.refl (fun _ _ => .inl rfl) loops'
    -- the chain ends here
    have hnone : loops.get? source = none := by
      simpa [clockUp, upstream, hs, clockAt] using hend 1 Nat.one_pos
    rw [nextTrigger, h'.none_left ((hawaits.of_source hs).not_waiting hshort) hnone]
    exact .of_still (settledUp_of_none hnone)
  | succ hops ih =>
    refine h.refreshAfter hfresh (hawaits.not_waiting hshort) (fun source loops' hs h' => ?_) fun source loops' => ?_
    · refine ih h' (fun d hd => ?_) (hawaits.of_source hs)
      simpa [clockUp, upstream, hs] using hend (d + 1) (Nat.succ_lt_succ hd)
    · exact (refresh_related round hops loops' source).mono fun _ _ _ hr => hr.1

theorem refreshAll (h : AwareBut (fun _ => False) loops round loops')
    (hfresh : Fresh round loops)
    (hshort : Short loops) (keys : List LoopKey) :
    AwareBut (fun _ => False) loops round (refreshAll loops' keys round) := by
  unfold Scheduler.refreshAll
  induction keys generalizing loops' with
  | nil => exact h
  | cons key rest ih => exact ih (h.refresh hfresh hshort (hshort key) fun _ hf => hf.elim).1

end AwareBut

end Refresh

/-- Refreshed loops predict the first end on their line. -/
theorem foretells (ha : s.Ahead loops) (hkeys : ∀ key l, loops.get? key = some l → key ∈ keys)
    (hshort : Short loops) (x : LoopKey) :
    Soonest (settledUp loops x) (nextTrigger (s.ready loops keys) x) := by
  have hfresh : Fresh (s.round + 1) loops := fun key l hl => by
    have := ha key l hl
    omega
  have hbegin : AwareBut (fun _ => False) loops (s.round + 1) loops := fun k _ => by
    cases loops.get? k with
    | none => exact .none
    | some l => exact .some (.inl rfl)
  have haware := hbegin.refreshAll hfresh hshort keys
  have hrefreshed := refreshAll_related (s.round + 1) keys loops hfresh
  unfold nextTrigger ready
  cases hl' : (refreshAll loops keys (s.round + 1)).get? x with
  | none => exact .of_still (settledUp_of_none (haware.none_right id hl'))
  | some l' =>
    obtain ⟨l, hl, hknows⟩ := haware.some_right id hl'
    obtain ⟨l₀, hl₀, -, hr⟩ := Arena.Related.some_right hrefreshed hl'
    exact (hknows.resolve_left fun he => hfresh x l hl (he ▸ (hr (hkeys x l hl)).round)).2

end Scheduler

end Overdub
