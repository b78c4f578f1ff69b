import Overdub.Proofs.Cycles
/-!
# How frames are divided into cycles

A cycle cut in two moves every boundary between chunks, for all loops at once.
It does not show in their clocks: loops without channels are, after any cycles,
where single frames would have led them (`division_irrelevant`).
-/

namespace Overdub.Scheduler

variable {s : Scheduler} {loops loops' loops'' : Loops} {keys : List LoopKey}

theorem clockAt_congr (h : SameSources loops loops')
    (h' : SameSources loops loops'')
    (hc : clocks (fun _ => true) loops' = clocks (fun _ => true) loops'') : clockAt loops' = clockAt loops'' := by
  funext k
  have hsame := (Arena.Related.isSome h k).symm.trans (Arena.Related.isSome h' k)
  have hk := congrFun hc k
  simp only [clocks, clockAt, if_true] at hk
  unfold clockAt
  generalize loops'.get? k = u at hsame hk ⊢
  generalize loops''.get? k = v at hsame hk ⊢
  cases u <;> cases v
  · rfl
  · cases hsame
  · cases hsame
  · exact congrArg some hk

/-- All loops, if there are no channels. -/
theorem runs_all (hnd : keys.Nodup) (hkeys : ∀ key l, loops.get? key = some l → key ∈ keys) (ha : s.Ahead loops)
    (hbare : ∀ key l, loops.get? key = some l → l.channels = []) :
    Runs ⟨source? loops, keys⟩ (fun _ => true) s loops where
  group := ⟨hnd, rfl, fun _ _ _ _ => rfl, fun k l _ hl => hkeys k l hl⟩
  ahead := ha
  bare k _ _ l hl := hbare k l hl

/-! ## Divisions into cycles -/

/-- Cycles are so many single frames. -/
theorem Runs.cycles {e : Ensemble} (h : Runs e (fun _ => true) s loops) (ns : List Nat)
    (hns : ∀ n ∈ ns, n < maxFrames) :
    let after := s.cycles loops e.keys ns
    clocks (fun _ => true) after.2.1 = e.frame^[ns.sum] (clocks (fun _ => true) loops) ∧ after.2.2 = .ok () := by
  induction ns generalizing s loops with
  | nil => exact ⟨rfl, rfl⟩
  | cons n rest ih =>
    rw [List.forall_mem_cons] at hns
    have hn := hns.1
    have hrun := (h.process (Nat.le_of_lt hn)).frames hn
    obtain ⟨hclocks, hok⟩ := ih (h.processFrom n (.ok ())) hns.2
    simp only [cycles_cons]
    refine ⟨?_, ?_⟩
    · rw [List.sum_cons, Nat.add_comm, Function.iterate_add_apply, ← hrun]
      exact hclocks
    · rw [h.process_ok (Nat.le_of_lt hn)]
      exact hok

/-- Two cycles are as good as one of all their frames, and any cycles are as good
as cycles of one frame each. -/
theorem division_irrelevant (s : Scheduler) (loops : Loops) (keys : List LoopKey) (hnd : keys.Nodup)
    (hkeys : ∀ key l, loops.get? key = some l → key ∈ keys)
    (hbare : ∀ key l, loops.get? key = some l → l.channels = []) (ha : s.Ahead loops) :
    (∀ n₁ n₂, n₁ + n₂ < maxFrames →
      let first := s.process loops keys n₁
      let second := first.1.process first.2.1 keys n₂
      let whole := s.process loops keys (n₁ + n₂)
      clockAt second.2.1 = clockAt whole.2.1 ∧ first.2.2 = .ok () ∧ second.2.2 = .ok () ∧ whole.2.2 = .ok ()) ∧
    (∀ ns : List Nat, (∀ n ∈ ns, n < maxFrames) →
      let divided := s.cycles loops keys ns
      let single := s.cycles loops keys (List.replicate ns.sum 1)
      clockAt divided.2.1 = clockAt single.2.1 ∧ divided.2.2 = .ok () ∧ single.2.2 = .ok ()) := by
  have h := runs_all hnd hkeys ha hbare
  constructor
  · intro n₁ n₂ hn
    have hfirst := h.processFrom n₁ (.ok ())
    obtain ⟨htwo, -⟩ := h.cycles [n₁, n₂] (by simp; omega)
    obtain ⟨hone, -⟩ := h.cycles [n₁ + n₂] (by simpa using hn)
    refine ⟨clockAt_congr (h.cycles_sameSources [n₁, n₂]) (h.cycles_sameSources [n₁ + n₂]) ?_,
      h.process_ok (by omega), hfirst.process_ok (by omega), h.process_ok (by omega)⟩
    exact htwo.trans (Eq.trans (by simp) hone.symm)
  · intro ns hns
    obtain ⟨hdivided, hok⟩ := h.cycles ns hns
    obtain ⟨hsingle, hok'⟩ := h.cycles (List.replicate ns.sum 1) fun n hn => by
      rw [(List.mem_replicate.1 hn).2]
      decide
    refine ⟨clockAt_congr (h.cycles_sameSources ns) (h.cycles_sameSources _) ?_, hok, hok'⟩
    exact hdivided.trans (Eq.trans (by simp) hsingle.symm)

/-- A playing loop, and one that records with the next trigger of the first. -/
def duet : Loops :=
  { slots := [
      ⟨0, some { transport := { Transport.new with mode := .playing, position := 1, length := 4 } }⟩,
      ⟨0, some { transport := { Transport.new with planned := [⟨.recording, 0⟩] }, syncSource := some ⟨0, 0⟩ }⟩]
    size := 2 }

theorem division_irrelevant_duet :
    let first := (Scheduler.new 16).process duet duet.keys 2
    let second := first.1.process first.2.1 duet.keys 3
    let whole := (Scheduler.new 16).process duet duet.keys 5
    clockAt second.2.1 = clockAt whole.2.1 ∧ first.2.2 = .ok () ∧ second.2.2 = .ok () ∧ whole.2.2 = .ok () := by
  have hduet : ∀ p ∈ duet.toList, p.2.channels = [] ∧ p.2.transport.round ≤ (Scheduler.new 16).round := by
    simp [duet, Arena.toList, Transport.new, Scheduler.new]
  refine (division_irrelevant (.new 16) duet duet.keys (by decide) ?_ ?_ ?_).1 2 3 (by decide)
  · exact fun key l h => Arena.mem_keys_of_get? h
  · exact fun key l h => (hduet _ (Arena.mem_toList_of_get? h)).1
  · exact fun key l h => (hduet _ (Arena.mem_toList_of_get? h)).2

end Overdub.Scheduler
