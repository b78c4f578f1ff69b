import Overdub.Proofs.Cycles
/-!
# Progress of the scheduler

`Scheduler.iterations` lists what a cycle does in turn, chunks of no length
included. Whatever the loops and their sync graph, there are none of those: all
points of interest of refreshed loops lie ahead, so each iteration takes frames
away, and it goes past none of them. With channels that are prepared for the
cycle the only error left is that of a channel that is to replace frames behind
its data (`makes_progress`).
-/

namespace Overdub

/-- Frames behind the data were to be replaced. -/
def Error.OfReplace (e : Error) : Prop := ∃ position length, e = .outOfBounds "replace" position length

/-! ## Errors within a chunk -/

theorem Audio.Channel.queueReplace_error {c : Audio.Channel} {position : Int} {n : Nat} {e : Error}
    (h : (c.queueReplace position n).2 = .error e) : e.OfReplace := by
  unfold queueReplace at h
  dsimp only at h
  split at h
  · cases h
    exact ⟨_, _, rfl⟩
  · cases h

theorem Audio.Channel.process_error {c : Audio.Channel} {context : ChunkContext} {e : Error}
    (hfit : c.track.overruns context.frames = false) (h : (c.process context).2 = .error e) : e.OfReplace := by
  unfold process at h
  simp only [hfit, Bool.false_eq_true, if_false] at h
  split at h
  · exact queueReplace_error h
  · cases h

/-- A channel within its cycle fails in one way only. -/
theorem ChannelBody.process_error {b : ChannelBody} {context : ChunkContext} {e : Error} (hn : 0 < context.frames)
    (hleft : context.frames ≤ b.track.left) (h : (b.process context).2 = .error e) : e.OfReplace := by
  have hfit := Track.overruns_of_left hn hleft
  cases b with
  | audio c => exact Audio.Channel.process_error hfit h
  | midi c =>
    have hok := c.process_ok context hfit
    have herror : (c.process context).2 = .error e := h
    rw [hok] at herror
    cases herror

theorem LoopChannel.processAll_error {channels : List LoopChannel} {context : ChunkContext} {e : Error}
    (h : (processAll context channels).2 = .error e) : ∃ c ∈ channels, (c.body.process context).2 = .error e := by
  induction channels with
  | nil => cases h
  | cons c rest ih =>
    rw [processAll_cons] at h
    cases hrest : (processAll context rest).2 with
    | error e' =>
      simp only [hrest, Except.bind, Except.error.injEq] at h
      obtain ⟨c', hc', he⟩ := ih (h ▸ hrest)
      exact ⟨c', List.mem_cons_of_mem c hc', he⟩
    | ok =>
      simp only [hrest, Except.bind] at h
      exact ⟨c, List.mem_cons_self, h⟩

namespace Scheduler

theorem advanceOne_foldl_error (view : LoopKey → Option SyncView) {n : Nat} {keys : List LoopKey} (hnd : keys.Nodup)
    (state : Loops × Except Error Unit) {e : Error}
    (h : ((keys.map fun key => (key, view key)).foldl (advanceOne n) state).2 = .error e) :
    state.2 = .error e ∨ ∃ k ∈ keys, ∃ l, state.1.get? k = some l ∧ (l.process n (view k)).2 = .error e := by
  induction keys generalizing state with
  | nil => exact .inl h
  | cons key rest ih =>
    obtain ⟨hnot, hnd⟩ := List.nodup_cons.1 hnd
    rcases ih hnd (advanceOne n state (key, view key)) h with hfirst | ⟨k, hk, l, hl, he⟩
    · unfold advanceOne at hfirst
      cases hl : state.1.get? key with
      | none =>
        simp only [hl] at hfirst
        exact .inl hfirst
      | some l =>
        simp only [hl] at hfirst
        cases hr : (l.process n (view key)).2 with
        | error e' =>
          simp only [hr, Except.bind, Except.error.injEq] at hfirst
          exact .inr ⟨key, List.mem_cons_self, l, hl, hfirst ▸ hr⟩
        | ok =>
          simp only [hr, Except.bind] at hfirst
          exact .inl hfirst
    · -- the keys are distinct, so this loop is as it was
      have hne : k ≠ key := by
        rintro rfl
        exact hnot hk
      rw [get?_advanceOne, if_neg hne] at hl
      exact .inr ⟨k, List.mem_cons_of_mem key hk, l, hl, he⟩

theorem advance_error {loops : Loops} {keys : List LoopKey} (hnd : keys.Nodup) {n : Nat} {e : Error}
    (h : (advance loops keys n).2 = .error e) :
    ∃ k ∈ keys, ∃ l, loops.get? k = some l ∧ (l.process n (syncView loops k)).2 = .error e :=
  (advanceOne_foldl_error (syncView loops) hnd (loops, .ok ()) h).resolve_left fun hok => by cases hok

/-! ## Iterations -/

/-- One go of the scheduler: the loops, refreshed, and how far they go. -/
structure Iteration where
  loops : Loops
  frames : Nat

/-- What the scheduler does for the frames that remain of a cycle. -/
def iterations (s : Scheduler) (loops : Loops) (keys : List LoopKey) (remaining idle : Nat) : List Iteration :=
  if _empty : remaining = 0 then []
  else
    let round := s.round + 1
    let loops := refreshAll loops keys round
    let frames := chunkLength loops keys remaining
    if still : frames = 0 then
      if stuck : s.maxIterations ≤ idle then [⟨loops, frames⟩]
      else ⟨loops, frames⟩ :: iterations { s with round } (handlePois loops keys) keys remaining (idle + 1)
    else ⟨loops, frames⟩ :: iterations { s with round } (chunk loops keys frames).1 keys (remaining - frames) 0
termination_by (remaining, s.maxIterations - idle)
decreasing_by
  · exact Prod.Lex.right _ (by omega)
  · exact Prod.Lex.left _ _ (Nat.sub_lt (Nat.pos_of_ne_zero _empty) (Nat.pos_of_ne_zero still))

/-- Every iteration is a round. -/
theorem round_processFrom (s : Scheduler) (loops : Loops) (keys : List LoopKey) (remaining idle : Nat)
    (result : Except Error Unit) :
    (s.processFrom loops keys remaining idle result).1.round =
      s.round + (s.iterations loops keys remaining idle).length := by
  fun_induction iterations s loops keys remaining idle generalizing result with
  | case1 s loops idle => rw [processFrom, dif_pos rfl]; rfl
  | case2 s loops remaining idle hne round ready frames still stuck =>
    rw [processFrom, dif_neg hne]
    simp only [ready, frames, round] at still
    simp [still, stuck]
  | case3 s loops remaining idle hne round ready frames still stuck ih =>
    rw [processFrom, dif_neg hne]
    simp only [ready, frames, round] at still ih
    simp only [dif_pos still, dif_neg stuck, ih, List.length_cons, ready, frames, round]
    omega
  | case4 s loops remaining idle hne round ready frames still ih =>
    rw [processFrom, dif_neg hne]
    simp only [ready, frames, round] at still ih
    simp only [dif_neg still, ih, List.length_cons, ready, frames, round]
    omega

variable {s : Scheduler} {loops : Loops} {keys : List LoopKey} {remaining : Nat}

theorem iterations_zero (s : Scheduler) (loops : Loops) (keys : List LoopKey) : s.iterations loops keys 0 0 = [] := by
  rw [iterations, dif_pos rfl]

theorem iterations_eq (h : s.Round loops keys remaining) :
    s.iterations loops keys remaining 0 =
      ⟨s.ready loops keys, s.nextFrames loops keys remaining⟩ ::
        s.next.iterations (s.nextChunk loops keys remaining).1 keys (remaining - s.nextFrames loops keys remaining) 0 := by
  have hne : remaining ≠ 0 := Nat.ne_of_gt (Nat.lt_of_lt_of_le h.pos h.le)
  have hstill : chunkLength (refreshAll loops keys (s.round + 1)) keys remaining ≠ 0 := Nat.ne_of_gt h.pos
  rw [iterations, dif_neg hne]
  simp only [dif_neg hstill]
  rfl

/-- All iterations go on, and together they take as many frames as there are. -/
theorem iterations_frames (hnd : keys.Nodup) (ha : s.Ahead loops) (remaining : Nat) :
    (∀ it ∈ s.iterations loops keys remaining 0, 0 < it.frames) ∧
      ((s.iterations loops keys remaining 0).map (·.frames)).sum = remaining := by
  refine cycle_induction hnd (P := fun s loops remaining =>
    (∀ it ∈ s.iterations loops keys remaining 0, 0 < it.frames) ∧
      ((s.iterations loops keys remaining 0).map (·.frames)).sum = remaining) ?done ?chunk ha
  case done =>
    intro s loops _
    simp [iterations_zero]
  case chunk =>
    rintro s loops remaining - hround ⟨hpos, hsum⟩
    have hle := hround.le
    rw [iterations_eq hround, List.forall_mem_cons, List.map_cons, List.sum_cons, hsum]
    exact ⟨⟨hround.pos, hpos⟩, Nat.add_sub_cancel' hle⟩

/-- The iterations, each of them a chunk of the loops that the one before has left,
lead from some loops to others. -/
def Leads (keys : List LoopKey) (round : Nat) (loops : Loops) : List Iteration → Loops → Prop
  | [], loops' => loops' = loops
  | it :: rest, loops' =>
    it.loops = refreshAll loops keys (round + 1) ∧
      it.frames = chunkLength it.loops keys (it.frames + (rest.map (·.frames)).sum) ∧
      Leads keys (round + 1) (chunk it.loops keys it.frames).1 rest loops'

theorem iterations_lead (hnd : keys.Nodup) (ha : s.Ahead loops) (result : Except Error Unit) :
    Leads keys s.round loops (s.iterations loops keys remaining 0)
      (s.processFrom loops keys remaining 0 result).2.1 := by
  refine cycle_induction hnd (P := fun s loops remaining => ∀ result,
    Leads keys s.round loops (s.iterations loops keys remaining 0)
      (s.processFrom loops keys remaining 0 result).2.1) ?done ?chunk ha result
  case done =>
    intro s loops _ result
    rw [processFrom_zero, iterations_zero]
    exact rfl
  case chunk =>
    intro s loops remaining ha hround ih result
    obtain ⟨-, hsum⟩ := iterations_frames hnd ha remaining
    rw [iterations_eq hround, List.map_cons, List.sum_cons] at hsum
    rw [iterations_eq hround, processFrom_eq hround]
    refine ⟨rfl, ?_, ih _⟩
    dsimp only at hsum ⊢
    rw [hsum]
    rfl

theorem length_le_sum (its : List Iteration) (h : ∀ it ∈ its, 0 < it.frames) :
    its.length ≤ (its.map (·.frames)).sum := by
  induction its with
  | nil => exact Nat.le_refl 0
  | cons it rest ih =>
    rw [List.forall_mem_cons] at h
    have hrest := ih h.2
    have hfirst := h.1
    rw [List.length_cons, List.map_cons, List.sum_cons]
    omega

/-! ## Errors of a cycle -/

/-- All that can fail in an iteration is to replace frames behind the data, for
any channel and so for any loop. -/
structure Iteration.Sound (it : Iteration) (keys : List LoopKey) : Prop where
  channel : ∀ k ∈ keys, ∀ l, it.loops.get? k = some l → ∀ c ∈ l.channels, ∀ e,
    (c.body.process (l.context it.frames)).2 = .error e → e.OfReplace
  loop : ∀ k ∈ keys, ∀ l, it.loops.get? k = some l → ∀ e,
    (l.process it.frames (syncView it.loops k)).2 = .error e → e.OfReplace

theorem Prepared.iteration_sound (hp : Prepared (fun _ => true) keys remaining loops)
    (h : s.Round loops keys remaining) :
    Iteration.Sound ⟨s.ready loops keys, s.nextFrames loops keys remaining⟩ keys := by
  have hchannel : ∀ k ∈ keys, ∀ l, (s.ready loops keys).get? k = some l → ∀ c ∈ l.channels, ∀ e,
      (c.body.process (l.context (s.nextFrames loops keys remaining))).2 = .error e → e.OfReplace := by
    intro k hk l hl c hc e he
    refine ChannelBody.process_error h.pos ?_ he
    rw [hp.ready h k hk rfl l hl c hc]
    exact h.le
  refine ⟨hchannel, fun k hk l hl e he => ?_⟩
  rw [(l.process_advanced h.pos (h.fits k hk l hl) _).2] at he
  obtain ⟨c, hc, he⟩ := LoopChannel.processAll_error he
  exact hchannel k hk l hl c hc e he

theorem Iteration.Sound.chunk {it : Iteration} (h : it.Sound keys) (hnd : keys.Nodup) {e : Error}
    (he : (chunk it.loops keys it.frames).2 = .error e) : e.OfReplace := by
  obtain ⟨k, hk, l, hl, he⟩ := advance_error hnd he
  exact h.loop k hk l hl e he

theorem Prepared.cycle_sound (hp : Prepared (fun _ => true) keys remaining loops) (hnd : keys.Nodup)
    (ha : s.Ahead loops) (result : Except Error Unit) (hresult : ∀ e, result = .error e → e.OfReplace) :
    (∀ it ∈ s.iterations loops keys remaining 0, it.Sound keys) ∧
      ∀ e, (s.processFrom loops keys remaining 0 result).2.2 = .error e → e.OfReplace := by
  refine cycle_induction hnd (P := fun s loops remaining => ∀ result, Prepared (fun _ => true) keys remaining loops →
    (∀ e, result = .error e → e.OfReplace) → (∀ it ∈ s.iterations loops keys remaining 0, it.Sound keys) ∧
      ∀ e, (s.processFrom loops keys remaining 0 result).2.2 = .error e → e.OfReplace) ?done ?chunk ha result hp hresult
  case done =>
    intro s loops _ result _ hresult
    rw [processFrom_zero, iterations_zero]
    exact ⟨by simp, hresult⟩
  case chunk =>
    intro s loops remaining _ hround ih result hp hresult
    have hsound := hp.iteration_sound hround
    have hbind : ∀ e, ((s.nextChunk loops keys remaining).2.bind fun _ => result) = .error e → e.OfReplace := by
      intro e he
      cases hchunk : (s.nextChunk loops keys remaining).2 with
      | error e' =>
        simp only [hchunk, Except.bind, Except.error.injEq] at he
        exact hsound.chunk hnd (he ▸ hchunk)
      | ok => exact hresult e (by simpa [hchunk, Except.bind] using he)
    obtain ⟨hall, hafter⟩ := ih _ (hp.chunk hround hnd) hbind
    rw [iterations_eq hround, processFrom_eq hround, List.forall_mem_cons]
    exact ⟨⟨hsound, hall⟩, hafter⟩

/-! ## Histories -/

/-- A scheduler and the loops it has led through cycles. Between cycles loops come
and go and change in any way, but for the round in which they were refreshed. -/
inductive Reachable : Scheduler → Loops → Prop
  | start (maxIterations : Nat) : Reachable (.new maxIterations) .empty
  | change {s : Scheduler} {loops loops' : Loops} (h : Reachable s loops)
      (hround : ∀ key l', loops'.get? key = some l' → l'.transport.round = 0 ∨
        ∃ l, loops.get? key = some l ∧ l'.transport.round = l.transport.round) : Reachable s loops'
  | cycle {s : Scheduler} {loops : Loops} (h : Reachable s loops) {keys : List LoopKey} (hnd : keys.Nodup)
      (n : Nat) : Reachable (s.process loops keys n).1 (s.process loops keys n).2.1

theorem Ahead.processFrom (ha : s.Ahead loops) (hnd : keys.Nodup) (result : Except Error Unit) :
    (s.processFrom loops keys remaining 0 result).1.Ahead (s.processFrom loops keys remaining 0 result).2.1 := by
  refine cycle_induction hnd (P := fun s loops remaining => ∀ result,
    (s.processFrom loops keys remaining 0 result).1.Ahead (s.processFrom loops keys remaining 0 result).2.1)
    ?done ?chunk ha result
  case done =>
    intro s loops ha result
    rwa [processFrom_zero]
  case chunk =>
    intro s loops remaining _ hround ih result
    rw [processFrom_eq hround]
    exact ih _

theorem Reachable.ahead (h : Reachable s loops) : s.Ahead loops := by
  induction h with
  | start maxIterations =>
    intro key l hl
    simp [Arena.empty, Arena.get?] at hl
  | change _ hround ih =>
    intro key l' hl'
    rcases hround key l' hl' with hzero | ⟨l, hl, hsame⟩
    · exact hzero ▸ Nat.zero_le _
    · exact hsame ▸ ih key l hl
  | cycle _ hnd n ih => exact ih.processFrom hnd (.ok ())

/-- A cycle for which all channels are prepared is cut into at most as many chunks
as it has frames, none of them empty; what can fail in it is to replace frames
behind the data of a channel, and nothing else. -/
theorem makes_progress (s : Scheduler) (loops : Loops) (keys : List LoopKey) (n : Nat) (h : Reachable s loops)
    (hnd : keys.Nodup) (hp : Prepared (fun _ => true) keys n loops) :
    let its := s.iterations loops keys n 0
    its.length ≤ n ∧ (∀ it ∈ its, 0 < it.frames) ∧ (its.map (·.frames)).sum = n ∧
      Leads keys s.round loops its (s.process loops keys n).2.1 ∧
      (s.process loops keys n).1.round = s.round + its.length ∧ (∀ it ∈ its, it.Sound keys) ∧
      ∀ e, (s.process loops keys n).2.2 = .error e → e.OfReplace := by
  obtain ⟨hpos, hsum⟩ := iterations_frames hnd h.ahead n
  obtain ⟨hsound, herror⟩ := hp.cycle_sound hnd h.ahead (.ok ()) fun e he => by cases he
  have hlength := length_le_sum _ hpos
  rw [hsum] at hlength
  exact ⟨hlength, hpos, hsum, iterations_lead hnd h.ahead (.ok ()), round_processFrom s loops keys n 0 (.ok ()), hsound, herror⟩

/-- Two loops that follow each other, with channels of both kinds for a cycle of
five frames, and one that follows itself. -/
def circle : Loops :=
  let audio : LoopChannel := { key := ⟨0, 0⟩, body := .audio (.new 4 .direct none) }
  let midi : LoopChannel := { key := ⟨1, 0⟩, body := .midi (.new 8 .direct) }
  { slots := [
      ⟨0, some { transport := { Transport.new with mode := .playing, length := 3 },
                 channels := [audio.prepare 5 fun _ => true], syncSource := some ⟨1, 0⟩ }⟩,
      ⟨0, some { transport := { Transport.new with mode := .replacing, length := 2 },
                 channels := [midi.prepare 5 fun _ => true], syncSource := some ⟨0, 0⟩ }⟩,
      ⟨0, some { transport := { Transport.new with mode := .playing, length := 1 }, syncSource := some ⟨2, 0⟩ }⟩]
    size := 3 }

theorem makes_progress_circle :
    let its := (Scheduler.new 16).iterations circle circle.keys 5 0
    its.length ≤ 5 ∧ (∀ it ∈ its, 0 < it.frames) ∧ (its.map (·.frames)).sum = 5 ∧
      ∀ e, ((Scheduler.new 16).process circle circle.keys 5).2.2 = .error e → e.OfReplace := by
  have hall : ∀ p ∈ circle.toList, p.2.transport.round = 0 ∧ ∀ c ∈ p.2.channels, c.body.track.left = 5 := by
    decide
  obtain ⟨hlength, hpos, hsum, -, -, -, herror⟩ := makes_progress (.new 16) circle circle.keys 5
    (.change (.start 16) fun _ _ h => .inl (hall _ (Arena.mem_toList_of_get? h)).1) (Arena.nodup_keys circle)
    fun _ _ _ _ h => (hall _ (Arena.mem_toList_of_get? h)).2
  exact ⟨hlength, hpos, hsum, herror⟩

end Scheduler

end Overdub
