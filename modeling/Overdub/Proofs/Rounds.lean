import Overdub.Proofs.Arena
import Overdub.Proofs.Channels
import Overdub.Proofs.Ensemble
/-!
# Refreshing every loop once

A round refreshes the loops of a cycle, sync sources first. Whatever the sync
graph, a loop that has not been refreshed in the round is settled, and its point
of interest is that of its new state (`refresh_related`); so a chunk as long as
the smallest point of interest fits all of them (`fits_chunkLength`).
-/

namespace Overdub

/-- A loop before and after its refresh in a round. -/
structure Loop.Refreshed (round : Nat) (l l' : Loop) : Prop where
  channels : l'.channels = l.channels
  syncSource : l'.syncSource = l.syncSource
  clock : l'.transport.clock = l.transport.clock.settled
  round : l'.transport.round = round
  nextPoi : ∃ q, l'.transport.nextPoi = l'.transport.pointOfInterest (LoopChannel.nextPoi l.channels q)

theorem Loop.refreshed_refresh (l : Loop) (round : Nat) (syncTrigger : Option Nat) :
    l.Refreshed round ((l.modifyTransport ({ · with round })).refresh syncTrigger) where
  channels := rfl
  syncSource := rfl
  clock := Transport.clock_settled { l.transport with round }
  round := (Transport.carried_settled { l.transport with round }).round
  nextPoi := ⟨Transport.poiQuery (Transport.settled { l.transport with round }), rfl⟩

namespace Scheduler

/-! ## The rounds of loops -/

/-- A loop during a round: untouched, or refreshed for the first time in it. -/
def Touched (round : Nat) (l l' : Loop) : Prop := l' = l ∨ l.transport.round ≠ round ∧ l.Refreshed round l'

theorem Touched.trans {round : Nat} {l₁ l₂ l₃ : Loop} (h : Touched round l₁ l₂) (h' : Touched round l₂ l₃) :
    Touched round l₁ l₃ := by
  rcases h with rfl | ⟨hne, hr⟩
  · exact h'
  · rcases h' with rfl | ⟨hne', -⟩
    · exact .inr ⟨hne, hr⟩
    · exact absurd hr.round hne'

theorem untouched {round : Nat} {loops : Loops} {key : LoopKey}
    (h : ∀ l, loops.get? key = some l → l.transport.round = round) :
    Arena.Related (fun k l l' => Touched round l l' ∧ (k = key → l'.transport.round = round)) loops loops := by
  intro k
  cases hl : loops.get? k with
  | none => exact .none
  | some l => exact .some ⟨.inl rfl, fun hk => h l (hk ▸ hl)⟩

/-- Stamping a loop keeps others from refreshing it, so it can be refreshed last. -/
theorem touched_of_stamped {round : Nat} {loops loops' : Loops} {key : LoopKey} {l : Loop}
    (hl : loops.get? key = some l) (hround : l.transport.round ≠ round)
    (h : Arena.Related (fun _ => Touched round) (loops.set key (l.modifyTransport ({ · with round }))) loops')
    (syncTrigger : Option Nat) :
    Arena.Related (fun k l l' => Touched round l l' ∧ (k = key → l'.transport.round = round))
      loops (loops'.modify key (·.refresh syncTrigger)) := by
  intro k
  by_cases hk : k = key
  -- The loop itself bears the stamp of the round, so no visit refreshes it again.
  · subst hk
    obtain ⟨l', hl', ht⟩ := h.some_left (k := k) (by rw [Arena.get?_set, if_pos rfl, hl]; rfl)
    obtain rfl : l' = l.modifyTransport ({ · with round }) := ht.resolve_right fun hn => hn.1 rfl
    rw [hl, Arena.get?_modify_self, hl']
    have hr := l.refreshed_refresh round syncTrigger
    exact .some ⟨.inr ⟨hround, hr⟩, fun _ => hr.round⟩
  · have hk' := h k
    rw [Arena.get?_set, if_neg hk] at hk'
    rw [Arena.get?_modify_ne _ _ hk]
    cases hu : loops.get? k <;> cases hv : loops'.get? k <;> rw [hu, hv] at hk'
    · exact .none
    · cases hk'
    · cases hk'
    · cases hk' with
      | some ht => exact .some ⟨ht, fun he => absurd he hk⟩

theorem refreshAfter_related {round : Nat} {visit : Loops → LoopKey → Loops}
    (hvisit : ∀ loops source, Arena.Related (fun _ => Touched round) loops (visit loops source))
    (loops : Loops) (key : LoopKey) :
    Arena.Related (fun k l l' => Touched round l l' ∧ (k = key → l'.transport.round = round))
      loops (refreshAfter visit loops key round) := by
  unfold refreshAfter
  cases hl : loops.get? key with
  | none => exact untouched fun l h => by simp [hl] at h
  | some l =>
    by_cases hround : l.transport.round = round
    · simp only [hround, if_true]
      exact untouched fun l' h => by simp_all
    · simp only [if_neg hround]
      cases l.syncSource.filter (· ≠ key) with
      | none => exact touched_of_stamped hl hround (Arena.Related.refl (fun _ _ => .inl rfl) _) _
      | some source => exact touched_of_stamped hl hround (hvisit _ source) _

/-- Refreshing touches only loops that the round has not reached yet, and reaches
the loop that it is for. -/
theorem refresh_related (round hops : Nat) (loops : Loops) (key : LoopKey) :
    Arena.Related (fun k l l' => Touched round l l' ∧ (k = key → l'.transport.round = round))
      loops (refresh loops key round hops) := by
  induction hops generalizing loops key with
  | zero => exact refreshAfter_related (fun loops _ => Arena.Related.refl (fun _ _ => .inl rfl) loops) loops key
  | succ hops ih => exact refreshAfter_related (fun loops source => (ih loops source).mono fun _ _ _ h => h.1) loops key

theorem refreshAll_touched (round : Nat) (keys : List LoopKey) (loops : Loops) :
    Arena.Related (fun k l l' => Touched round l l' ∧ (k ∈ keys → l'.transport.round = round))
      loops (refreshAll loops keys round) := by
  unfold refreshAll
  induction keys generalizing loops with
  | nil => exact .refl (fun _ _ => ⟨.inl rfl, fun h => by simp at h⟩) loops
  | cons key rest ih =>
    have hkey := refresh_related round maxHops loops key
    have hrest := ih (refresh loops key round maxHops)
    refine Arena.Related.comp hkey hrest fun k l l₁ l₂ h₁ h₂ => ⟨h₁.1.trans h₂.1, fun hk => ?_⟩
    rcases List.mem_cons.1 hk with rfl | hk
    · rcases h₂.1 with rfl | ⟨hne, -⟩
      · exact h₁.2 rfl
      · exact absurd (h₁.2 rfl) hne
    · exact h₂.2 hk

/-- A new round refreshes the loops that it is for, and touches others at most. -/
theorem refreshAll_related (round : Nat) (keys : List LoopKey) (loops : Loops)
    (h : ∀ key l, loops.get? key = some l → l.transport.round ≠ round) :
    Arena.Related (fun k l l' => Touched round l l' ∧ (k ∈ keys → l.Refreshed round l'))
      loops (refreshAll loops keys round) := by
  intro k
  have hk := refreshAll_touched round keys loops k
  cases hl : loops.get? k <;> cases hl' : (refreshAll loops keys round).get? k <;> rw [hl, hl'] at hk
  · exact .none
  · cases hk
  · cases hk
  · cases hk with
    | some ht =>
      refine .some ⟨ht.1, fun hmem => ?_⟩
      rcases ht.1 with rfl | ⟨-, hr⟩
      · exact absurd (ht.2 hmem) (h k _ hl)
      · exact hr

/-! ## The length of a chunk -/

section Shortest
variable {f g : LoopKey → Option Nat}

theorem cut_le (offset : Option Nat) (n : Nat) : offset.elim n (min n) ≤ n := by
  cases offset with
  | none => exact Nat.le_refl n
  | some m => exact Nat.min_le_left n m

theorem shortest_le (keys : List LoopKey) (n : Nat) :
    keys.foldl (fun n key => (f key).elim n (min n)) n ≤ n ∧
      ∀ key ∈ keys, ∀ m, f key = some m → keys.foldl (fun n key => (f key).elim n (min n)) n ≤ m := by
  induction keys generalizing n with
  | nil => simp
  | cons key rest ih =>
    have hstep := cut_le (f key) n
    obtain ⟨hle, hrest⟩ := ih ((f key).elim n (min n))
    refine ⟨Nat.le_trans hle hstep, fun k hk m hm => ?_⟩
    rcases List.mem_cons.1 hk with rfl | hk
    · refine Nat.le_trans hle ?_
      rw [hm]
      exact Nat.min_le_right n m
    · exact hrest k hk m hm

theorem shortest_pos (keys : List LoopKey) (n : Nat) (hn : 0 < n) (h : ∀ key ∈ keys, ∀ m, f key = some m → 0 < m) :
    0 < keys.foldl (fun n key => (f key).elim n (min n)) n := by
  induction keys generalizing n with
  | nil => exact hn
  | cons key rest ih =>
    refine ih _ ?_ fun k hk => h k (List.mem_cons_of_mem _ hk)
    have hkey := h key List.mem_cons_self
    cases hf : f key with
    | none => simpa [hf] using hn
    | some m => simpa [hf] using Nat.lt_min.2 ⟨hn, hkey m hf⟩

/-- Offsets that differ only behind what remains cut the same chunk. -/
theorem shortest_congr (keys : List LoopKey) (n : Nat)
    (h : ∀ key ∈ keys, ∀ m ≤ n, (f key).elim m (min m) = (g key).elim m (min m)) :
    keys.foldl (fun n key => (f key).elim n (min n)) n = keys.foldl (fun n key => (g key).elim n (min n)) n := by
  induction keys generalizing n with
  | nil => rfl
  | cons key rest ih =>
    rw [List.foldl_cons, List.foldl_cons, ← h key List.mem_cons_self n (Nat.le_refl n)]
    exact ih _ fun k hk m hm => h k (List.mem_cons_of_mem _ hk) m (Nat.le_trans hm (cut_le _ n))

end Shortest

end Scheduler

/-! ## Points of interest -/

theorem Transport.pointOfInterest_pos {t : Transport} {channelPoi : Option Nat} {p : Poi}
    (hc : ∀ n, channelPoi = some n → 0 < n) (h : t.pointOfInterest channelPoi = some p) : 0 < p.offset := by
  have hown : ∀ m, t.untilEnd = some m → 0 < m := fun m hm => by
    obtain ⟨-, hl, rfl⟩ := Clock.untilEnd_eq_some.1 (t.untilEnd_eq ▸ hm)
    simp only [clampFrames, maxFrames, UInt32.size, clock_length, clock_position] at hl ⊢
    omega
  unfold pointOfInterest at h
  cases hu : t.untilEnd with
  | none =>
    cases channelPoi with
    | none => simp [hu] at h
    | some n => simp [hu] at h; subst h; exact hc n rfl
  | some m =>
    cases channelPoi with
    | none => simp [hu] at h; subst h; exact hown m hu
    | some n =>
      by_cases hlt : n < m
      · simp [hu, hlt] at h; subst h; exact hc n rfl
      · simp [hu, hlt] at h; subst h; exact hown m hu

/-! ## The chunk of a refreshed round -/

namespace Loop.Refreshed
variable {round : Nat} {l l' : Loop}

theorem nextPoi_pos (h : l.Refreshed round l') {p : Poi} (hp : l'.transport.nextPoi = some p) : 0 < p.offset := by
  obtain ⟨q, hq⟩ := h.nextPoi
  refine Transport.pointOfInterest_pos (fun n hn => ?_) (hq ▸ hp)
  obtain ⟨c, -, hc⟩ := LoopChannel.nextPoi_eq_some hn
  exact (Track.nextPoi_eq_some hc).1

/-- No frame of a cycle is cut off by a channel whose cycle is as long as that. -/
theorem cut_eq (h : l.Refreshed round l') {remaining m : Nat} (hm : m ≤ remaining)
    (hc : ∀ c ∈ l.channels, c.body.track.left = remaining) :
    (l'.transport.nextPoi.map (·.offset)).elim m (min m) = l.transport.clock.settled.untilEnd.elim m (min m) := by
  obtain ⟨q, hq⟩ := h.nextPoi
  have hchannel : ∀ n, LoopChannel.nextPoi l.channels q = some n → n = remaining := fun n hn => by
    obtain ⟨c, hmem, hn⟩ := LoopChannel.nextPoi_eq_some hn
    rw [(Track.nextPoi_eq_some hn).2, hc c hmem]
  rw [hq, ← h.clock, ← Transport.untilEnd_eq]
  unfold Transport.pointOfInterest
  cases hn : LoopChannel.nextPoi l.channels q with
  | none => cases l'.transport.untilEnd <;> rfl
  | some n =>
    obtain rfl := hchannel n hn
    cases hu : l'.transport.untilEnd with
    | none => exact Nat.min_eq_left hm
    | some o =>
      by_cases hlt : n < o
      · simp [hlt]; omega
      · simp [hlt]

end Loop.Refreshed

namespace Scheduler
variable {loops loops' : Loops} {keys : List LoopKey} {round : Nat}

/-- All loops of `keys` have been refreshed. -/
def AllRefreshed (round : Nat) (keys : List LoopKey) (loops loops' : Loops) : Prop :=
  Arena.Related (fun k l l' => Touched round l l' ∧ (k ∈ keys → l.Refreshed round l')) loops loops'

/-- A chunk goes no further than asked, and fits every loop. -/
theorem AllRefreshed.fits (h : AllRefreshed round keys loops loops') (remaining : Nat) :
    chunkLength loops' keys remaining ≤ remaining ∧ ∀ key ∈ keys, ∀ l', loops'.get? key = some l' →
      l'.transport.Fits (chunkLength loops' keys remaining) := by
  obtain ⟨hle, hkeys⟩ := shortest_le
    (f := fun key => ((loops'.get? key).bind (·.transport.nextPoi)).map (·.offset)) keys remaining
  refine ⟨hle, fun key hk l' hl' => ⟨?_, fun p hp => hkeys key hk p.offset (by simp [hl', hp])⟩⟩
  obtain ⟨l, -, hr⟩ := Arena.Related.some_right h hl'
  obtain ⟨q, hq⟩ := (hr.2 hk).nextPoi
  exact ⟨_, hq⟩

theorem AllRefreshed.chunkLength_pos (h : AllRefreshed round keys loops loops') {remaining : Nat}
    (hpos : 0 < remaining) : 0 < chunkLength loops' keys remaining := by
  refine shortest_pos
    (f := fun key => ((loops'.get? key).bind (·.transport.nextPoi)).map (·.offset)) keys remaining hpos ?_
  intro key hk m hm
  simp only [Option.map_eq_some_iff, Option.bind_eq_some_iff] at hm
  obtain ⟨p, ⟨l', hl', hp⟩, rfl⟩ := hm
  obtain ⟨l, -, hr⟩ := Arena.Related.some_right h hl'
  exact (hr.2 hk).nextPoi_pos hp

end Scheduler

end Overdub
