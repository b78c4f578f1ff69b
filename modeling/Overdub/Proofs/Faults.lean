import Overdub.Proofs.Progress
/-!
# What fails in a cycle

A channel that fails in a chunk keeps its loop where it is, and nothing else: the other
channels and the other loops act on the chunk, and the cycle goes on. `Scheduler.failures`
lists what fails in a cycle, in the order in which it does. Each error takes the place of
the one before it, so the cycle reports the last of the list (`process_result`).

A group of loops none of which is in the list runs as its ensemble does
(`Unfailing.run`), whatever its channels are and whether or not they are prepared.
-/

namespace Overdub

/-- A channel that has failed in a chunk. -/
structure Failure where
  loop : LoopKey
  channel : ChannelKey
  error : Error
  deriving DecidableEq, Repr

/-- The errors of some failures in turn, each in place of the one before. -/
def Failure.report (failures : List Failure) (result : Except Error Unit) : Except Error Unit :=
  failures.foldl (fun _ f => .error f.error) result

namespace Failure

theorem report_append (failures failures' : List Failure) (result : Except Error Unit) :
    report (failures ++ failures') result = report failures' (report failures result) := List.foldl_append

theorem report_eq (failures : List Failure) (result : Except Error Unit) :
    report failures result = failures.getLast?.elim result fun f => .error f.error := by
  induction failures using List.reverseRecOn with
  | nil => rfl
  | append_singleton failures f _ => simp [report]

/-- What is reported of a part and then of the rest. -/
theorem report_bind (failures : List Failure) (result : Except Error Unit) :
    ((report failures (.ok ())).bind fun _ => result) = report failures result := by
  rw [report_eq, report_eq]
  cases failures.getLast? <;> rfl

/-- The first error is the one reported if the last one is the same. -/
theorem first_reported (failures : List Failure) :
    (failures.getLast?.elim (Except.ok ()) fun f => .error f.error) =
        failures.head?.elim (.ok ()) (fun f => .error f.error) ↔
      failures.head?.map (·.error) = failures.getLast?.map (·.error) := by
  cases failures with
  | nil => simp
  | cons f rest => simp [List.getLast?_cons, eq_comm]

end Failure

/-! ## The failures of a chunk -/

/-- The channels of a loop that fail when they are told of a chunk. -/
def LoopChannel.failures (key : LoopKey) (context : ChunkContext) (channels : List LoopChannel) : List Failure :=
  channels.filterMap fun c => match (c.body.process context).2 with
    | .ok () => none
    | .error error => some { loop := key, channel := c.key, error }

/-- The last channel that fails is the one whose error is reported. -/
theorem LoopChannel.processAll_report (key : LoopKey) (context : ChunkContext) (channels : List LoopChannel) :
    (processAll context channels).2 = Failure.report (failures key context channels) (.ok ()) := by
  induction channels with
  | nil => rfl
  | cons c rest ih =>
    rw [processAll_cons, failures, List.filterMap_cons]
    dsimp only
    rw [ih, Failure.report_bind]
    cases (c.body.process context).2 <;> rfl

theorem LoopChannel.loop_of_mem_failures {key : LoopKey} {context : ChunkContext} {channels : List LoopChannel}
    {f : Failure} (h : f ∈ failures key context channels) : f.loop = key := by
  obtain ⟨c, -, hc⟩ := List.mem_filterMap.1 h
  split at hc
  · cases hc
  · cases hc
    rfl

theorem LoopChannel.failures_eq_nil {key : LoopKey} {context : ChunkContext} {channels : List LoopChannel} :
    failures key context channels = [] ↔ ∀ c ∈ channels, (c.body.process context).2 = .ok () := by
  rw [failures, List.filterMap_eq_nil_iff]
  refine forall_congr' fun c => forall_congr' fun _ => ?_
  cases (c.body.process context).2 <;> simp

namespace Scheduler

/-- The failures of a loop in a chunk. -/
def Iteration.failuresOf (it : Iteration) (key : LoopKey) : List Failure :=
  (it.loops.get? key).elim [] fun l => LoopChannel.failures key (l.context it.frames) l.channels

/-- The failures of a chunk, loop by loop. -/
def Iteration.failures (it : Iteration) (keys : List LoopKey) : List Failure := keys.flatMap it.failuresOf

/-- The failures of a cycle, in the order in which they occur. -/
def failures (s : Scheduler) (loops : Loops) (keys : List LoopKey) (n : Nat) : List Failure :=
  (s.iterations loops keys n 0).flatMap (·.failures keys)

theorem Iteration.loop_of_mem_failuresOf {it : Iteration} {key : LoopKey} {f : Failure}
    (h : f ∈ it.failuresOf key) : f.loop = key := by
  unfold failuresOf at h
  cases hl : it.loops.get? key with
  | none => simp [hl] at h
  | some l =>
    rw [hl] at h
    exact LoopChannel.loop_of_mem_failures h

/-- Of the loops that advance, the last one that fails is reported. -/
theorem advanceOne_report (it : Iteration) (view : LoopKey → Option SyncView) {keys : List LoopKey}
    (hnd : keys.Nodup) (hn : 0 < it.frames)
    (hfits : ∀ key ∈ keys, ∀ l, it.loops.get? key = some l → l.transport.Fits it.frames)
    {state : Loops × Except Error Unit} (hstate : ∀ key ∈ keys, state.1.get? key = it.loops.get? key) :
    ((keys.map fun key => (key, view key)).foldl (advanceOne it.frames) state).2 =
      Failure.report (it.failures keys) state.2 := by
  induction keys generalizing state with
  | nil => rfl
  | cons key rest ih =>
    obtain ⟨hnot, hnd⟩ := List.nodup_cons.1 hnd
    rw [List.forall_mem_cons] at hfits hstate
    have hone : (advanceOne it.frames state (key, view key)).2 = Failure.report (it.failuresOf key) state.2 := by
      unfold advanceOne Iteration.failuresOf
      rw [hstate.1]
      cases hl : it.loops.get? key with
      | none => rfl
      | some l =>
        have hresult := (l.process_advanced hn (hfits.1 l hl) (view key)).2
        rw [LoopChannel.processAll_report key] at hresult
        dsimp only [Option.elim_some]
        rw [hresult, Failure.report_bind]
    rw [List.map_cons, List.foldl_cons, ih hnd hfits.2 fun k hk => ?_, hone]
    · exact (Failure.report_append _ _ _).symm
    · -- the keys are distinct, so the others are as they were
      rw [get?_advanceOne, if_neg (by rintro rfl; exact hnot hk), hstate.2 k hk]

theorem chunk_report (it : Iteration) {keys : List LoopKey} (hnd : keys.Nodup) (hn : 0 < it.frames)
    (hfits : ∀ key ∈ keys, ∀ l, it.loops.get? key = some l → l.transport.Fits it.frames) :
    (chunk it.loops keys it.frames).2 = Failure.report (it.failures keys) (.ok ()) :=
  advanceOne_report it _ hnd hn hfits fun _ _ => rfl

/-! ## The failures of a cycle -/

variable {s : Scheduler} {loops : Loops} {keys : List LoopKey} {n : Nat}

theorem failures_zero (s : Scheduler) (loops : Loops) (keys : List LoopKey) : s.failures loops keys 0 = [] := by
  rw [failures, iterations_zero]
  rfl

/-- The failures of a cycle are those of its first chunk and then those of the rest. -/
theorem failures_eq (h : s.Round loops keys n) :
    s.failures loops keys n =
      Iteration.failures ⟨s.ready loops keys, s.nextFrames loops keys n⟩ keys ++
        s.next.failures (s.nextChunk loops keys n).1 keys (n - s.nextFrames loops keys n) := by
  rw [failures, iterations_eq h]
  rfl

theorem processFrom_report (hnd : keys.Nodup) (ha : s.Ahead loops) (result : Except Error Unit) :
    (s.processFrom loops keys n 0 result).2.2 = Failure.report (s.failures loops keys n) result := by
  refine cycle_induction hnd (P := fun s loops n => ∀ result,
    (s.processFrom loops keys n 0 result).2.2 = Failure.report (s.failures loops keys n) result)
    ?done ?chunk ha result
  case done =>
    intro s loops _ result
    rw [processFrom_zero, failures_zero]
    rfl
  case chunk =>
    intro s loops n _ hround ih result
    have hchunk : (s.nextChunk loops keys n).2 = _ :=
      chunk_report ⟨s.ready loops keys, s.nextFrames loops keys n⟩ hnd hround.pos hround.fits
    rw [processFrom_eq hround, ih, hchunk, Failure.report_bind, failures_eq hround, Failure.report_append]

/-- A cycle reports the error that was the last one to occur. -/
theorem process_result (hnd : keys.Nodup) (ha : s.Ahead loops) (n : Nat) :
    (s.process loops keys n).2.2 = (s.failures loops keys n).getLast?.elim (.ok ()) fun f => .error f.error :=
  (processFrom_report hnd ha (.ok ())).trans (Failure.report_eq _ _)

/-! ## Groups in which nothing fails -/

/-- None of the failures is one of a loop of the group. -/
def Unfailing (among : LoopKey → Bool) (failures : List Failure) : Prop := ∀ f ∈ failures, among f.loop = false

section Unfailing
variable {e : Ensemble} {among : LoopKey → Bool}

/-- In a chunk, nothing of a group fails exactly if no channel of its loops does. -/
theorem unfailing_iff {it : Iteration} :
    Unfailing among (it.failures keys) ↔ ∀ k ∈ keys, among k = true → ∀ l, it.loops.get? k = some l →
      LoopChannel.failures k (l.context it.frames) l.channels = [] := by
  constructor
  · intro h k hk ha l hl
    refine List.eq_nil_iff_forall_not_mem.2 fun f hf => ?_
    have hmem : f ∈ it.failuresOf k := by
      rw [Iteration.failuresOf, hl]
      exact hf
    have hother := h f (List.mem_flatMap.2 ⟨k, hk, hmem⟩)
    rw [LoopChannel.loop_of_mem_failures hf, ha] at hother
    cases hother
  · intro h f hf
    obtain ⟨k, hk, hf⟩ := List.mem_flatMap.1 hf
    refine Bool.eq_false_iff.2 fun ha => ?_
    rw [Iteration.loop_of_mem_failuresOf hf] at ha
    unfold Iteration.failuresOf at hf
    cases hl : it.loops.get? k with
    | none => simp [hl] at hf
    | some l => simp [hl, h k hk ha l hl] at hf

theorem Unfailing.acts {it : Iteration} (h : Unfailing among (it.failures keys)) {k : LoopKey} (hk : k ∈ keys)
    (ha : among k = true) {l : Loop} (hl : it.loops.get? k = some l) :
    (LoopChannel.processAll (l.context it.frames) l.channels).2 = .ok () := by
  rw [LoopChannel.processAll_report k, unfailing_iff.1 h k hk ha l hl]
  rfl

theorem unfailing_failures (hround : s.Round loops keys n) :
    Unfailing among (s.failures loops keys n) ↔
      Unfailing among (Iteration.failures ⟨s.ready loops keys, s.nextFrames loops keys n⟩ keys) ∧
        Unfailing among (s.next.failures (s.nextChunk loops keys n).1 keys (n - s.nextFrames loops keys n)) := by
  rw [failures_eq hround]
  exact List.forall_mem_append

/-- The clocks of a group in which nothing fails run, whatever fails outside. -/
theorem Unfailing.clocks_nextChunk
    (h : Unfailing among (Iteration.failures ⟨s.ready loops e.keys, s.nextFrames loops e.keys n⟩ e.keys))
    (hg : Group e among loops) (hround : s.Round loops e.keys n) :
    clocks among (s.nextChunk loops e.keys n).1 = e.chunk (s.nextFrames loops e.keys n) (clocks among loops) := by
  refine hg.chunk_clocks hround.refreshed hround.pos hround.fits fun k hk l hl => ?_
  obtain ⟨l₀, hl₀, -⟩ := Arena.Related.some_right hround.refreshed hl
  exact h.acts (hg.cover k l₀ hk hl₀) hk hl

theorem Unfailing.run (h : Unfailing among (s.failures loops e.keys n)) (hg : Group e among loops)
    (ha : s.Ahead loops) :
    e.Run (clocks among loops) n (clocks among (s.process loops e.keys n).2.1) := by
  refine cycle_induction hg.nodup (P := fun s loops n => ∀ result, Group e among loops →
    Unfailing among (s.failures loops e.keys n) →
    e.Run (clocks among loops) n (clocks among (s.processFrom loops e.keys n 0 result).2.1))
    ?done ?chunk ha (.ok ()) hg h
  case done =>
    intro s loops _ result _ _
    rw [processFrom_zero]
    exact .done _
  case chunk =>
    intro s loops n _ hround ih result hg h
    obtain ⟨hchunk, hrest⟩ := (unfailing_failures hround).1 h
    have hrun := ih ((s.nextChunk loops e.keys n).2.bind fun _ => result)
      (hg.congr (hround.syncSource hg.nodup)) hrest
    rw [← processFrom_eq hround, hchunk.clocks_nextChunk hg hround] at hrun
    have hstep := Ensemble.Run.chunk hround.pos (hround.within hg) hrun
    rwa [Nat.add_sub_cancel' hround.le] at hstep

/-- Without channels nothing fails. -/
theorem Bare.unfailing (h : Bare among keys loops) (hnd : keys.Nodup) (ha : s.Ahead loops) (n : Nat) :
    Unfailing among (s.failures loops keys n) := by
  refine cycle_induction hnd (P := fun s loops n => Bare among keys loops → Unfailing among (s.failures loops keys n))
    ?done ?chunk ha h
  case done =>
    intro s loops _ _ f hf
    rw [failures_zero] at hf
    cases hf
  case chunk =>
    intro s loops n _ hround ih h
    refine (unfailing_failures hround).2 ⟨unfailing_iff.2 fun k hk hamong l hl => ?_, ih (h.nextChunk hround hnd)⟩
    obtain ⟨l₀, hl₀, -, hr⟩ := Arena.Related.some_right hround.refreshed hl
    rw [(hr hk).channels, h k hk hamong l₀ hl₀]
    rfl

end Unfailing

end Scheduler

end Overdub
