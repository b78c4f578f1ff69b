import Mathlib
import Overdub.Proofs.Chunks
/-!
# Cycles of chunks

A cycle is one chunk after the other until no frames are left
(`cycle_induction`). It reports no error exactly if no channel overreaches in
any chunk (`processFrom_ok`), and then it is a run of the ensemble
(`Undisturbed.run`). A group of loops without channels is never disturbed, so
its clocks run whatever happens to other loops (`Bare.process`).
-/

namespace Overdub.Scheduler

/-! ## Rounds -/

/-- The scheduler in its next round. -/
def next (s : Scheduler) : Scheduler := { s with round := s.round + 1 }

/-- The loops once the next round has refreshed them. -/
def ready (s : Scheduler) (loops : Loops) (keys : List LoopKey) : Loops := refreshAll loops keys (s.round + 1)

/-- The length of the next chunk. -/
def nextFrames (s : Scheduler) (loops : Loops) (keys : List LoopKey) (remaining : Nat) : Nat :=
  chunkLength (s.ready loops keys) keys remaining

/-- The next chunk. -/
def nextChunk (s : Scheduler) (loops : Loops) (keys : List LoopKey) (remaining : Nat) : Loops × Except Error Unit :=
  chunk (s.ready loops keys) keys (s.nextFrames loops keys remaining)

/-- No loop has been refreshed in a round to come. -/
def Ahead (s : Scheduler) (loops : Loops) : Prop :=
  ∀ key l, loops.get? key = some l → l.transport.round ≤ s.round

/-- What is known of the chunk of a round. -/
structure Round (s : Scheduler) (loops : Loops) (keys : List LoopKey) (remaining : Nat) : Prop where
  refreshed : AllRefreshed (s.round + 1) keys loops (s.ready loops keys)
  pos : 0 < s.nextFrames loops keys remaining
  le : s.nextFrames loops keys remaining ≤ remaining
  fits : ∀ key ∈ keys, ∀ l, (s.ready loops keys).get? key = some l →
    l.transport.Fits (s.nextFrames loops keys remaining)

variable {s : Scheduler} {loops : Loops} {keys : List LoopKey} {remaining : Nat}

theorem Ahead.begin (h : s.Ahead loops) (keys : List LoopKey) (hr : 0 < remaining) :
    s.Round loops keys remaining := by
  have hrefreshed : AllRefreshed (s.round + 1) keys loops (s.ready loops keys) :=
    refreshAll_related _ keys loops fun key l hl => by
      have := h key l hl
      omega
  obtain ⟨hle, hfits⟩ := hrefreshed.fits remaining
  exact ⟨hrefreshed, hrefreshed.chunkLength_pos hr, hle, hfits⟩

theorem Round.ahead (h : s.Round loops keys remaining) (hnd : keys.Nodup) (ha : s.Ahead loops) :
    s.next.Ahead (s.nextChunk loops keys remaining).1 := by
  intro key l₂ hl₂
  obtain ⟨l₁, hl₁, hchunk⟩ := (chunk_related hnd h.pos h.fits).some_right hl₂
  obtain ⟨l, hl, htouched, -⟩ := Arena.Related.some_right h.refreshed hl₁
  rw [hchunk.round]
  rcases htouched with rfl | ⟨-, hr⟩
  · exact Nat.le_succ_of_le (ha key _ hl)
  · exact Nat.le_of_eq hr.round

theorem Round.syncSource (h : s.Round loops keys remaining) (hnd : keys.Nodup) :
    SameSources loops (s.nextChunk loops keys remaining).1 :=
  h.refreshed.syncSource.comp (chunk_related hnd h.pos h.fits) fun _ _ _ _ hr hc => hc.syncSource.trans hr

/-- A cycle goes on with the chunk of its first round. -/
theorem processFrom_eq (h : s.Round loops keys remaining) (result : Except Error Unit) :
    s.processFrom loops keys remaining 0 result =
      s.next.processFrom (s.nextChunk loops keys remaining).1 keys (remaining - s.nextFrames loops keys remaining) 0
        ((s.nextChunk loops keys remaining).2.bind fun _ => result) := by
  have hpos := h.pos
  have hne : remaining ≠ 0 := Nat.ne_of_gt (Nat.lt_of_lt_of_le hpos h.le)
  have hstill : chunkLength (refreshAll loops keys (s.round + 1)) keys remaining ≠ 0 := Nat.ne_of_gt hpos
  rw [processFrom, dif_neg hne]
  simp only [dif_neg hstill]
  rfl

theorem processFrom_zero (s : Scheduler) (loops : Loops) (keys : List LoopKey) (result : Except Error Unit) :
    s.processFrom loops keys 0 0 result = (s, loops, result) := by
  rw [processFrom, dif_pos rfl]

/-- What holds when no frames are left, and of a cycle if it holds after its
first chunk, holds of every cycle. -/
theorem cycle_induction (hnd : keys.Nodup) {P : Scheduler → Loops → Nat → Prop}
    (done : ∀ s loops, s.Ahead loops → P s loops 0)
    (chunk : ∀ s loops remaining, s.Ahead loops → s.Round loops keys remaining →
      P s.next (s.nextChunk loops keys remaining).1 (remaining - s.nextFrames loops keys remaining) →
      P s loops remaining) (ha : s.Ahead loops) : P s loops remaining := by
  induction remaining using Nat.strongRecOn generalizing s loops with
  | ind remaining ih =>
    rcases Nat.eq_zero_or_pos remaining with rfl | hpos
    · exact done s loops ha
    · have hround := ha.begin keys hpos
      refine chunk s loops remaining ha hround ?_
      exact ih _ (Nat.sub_lt hpos hround.pos) (hround.ahead hnd ha)

theorem bind_ok {first result : Except Error Unit} :
    (first.bind fun _ => result) = .ok () ↔ first = .ok () ∧ result = .ok () := by
  cases first <;> simp [Except.bind]

/-- A cycle reports the errors there were before it. -/
theorem result_ok (hnd : keys.Nodup) (ha : s.Ahead loops) {result : Except Error Unit}
    (hok : (s.processFrom loops keys remaining 0 result).2.2 = .ok ()) : result = .ok () := by
  refine cycle_induction hnd (P := fun s loops remaining => ∀ result,
    (s.processFrom loops keys remaining 0 result).2.2 = .ok () → result = .ok ()) ?done ?chunk ha result hok
  case done =>
    intro s loops _ result hok
    rwa [processFrom_zero] at hok
  case chunk =>
    intro s loops remaining _ hround ih result hok
    rw [processFrom_eq hround] at hok
    exact (bind_ok.1 (ih _ hok)).2

/-! ## Disturbed and undisturbed cycles -/

/-- No channel of the group overreaches in a chunk of the cycle. -/
inductive Undisturbed (among : LoopKey → Bool) (keys : List LoopKey) : Scheduler → Loops → Nat → Prop
  | done (s : Scheduler) (loops : Loops) : Undisturbed among keys s loops 0
  | chunk {s : Scheduler} {loops : Loops} {remaining : Nat} :
      (∀ k ∈ keys, among k → ∀ l, (s.ready loops keys).get? k = some l →
        ∀ c ∈ l.channels, ¬ c.body.Overreaches (l.context (s.nextFrames loops keys remaining))) →
      Undisturbed among keys s.next (s.nextChunk loops keys remaining).1
        (remaining - s.nextFrames loops keys remaining) →
      Undisturbed among keys s loops remaining

/-- The channels of the group have so many frames of the cycle before them. -/
def Prepared (among : LoopKey → Bool) (keys : List LoopKey) (remaining : Nat) (loops : Loops) : Prop :=
  ∀ k ∈ keys, among k → ∀ l, loops.get? k = some l → ∀ c ∈ l.channels, c.body.track.left = remaining

section Prepared
variable {among : LoopKey → Bool}

theorem Prepared.ready (hp : Prepared among keys remaining loops) (h : s.Round loops keys remaining) :
    Prepared among keys remaining (s.ready loops keys) := by
  intro k hk ha l₁ hl₁
  obtain ⟨l, hl, -, hr⟩ := Arena.Related.some_right h.refreshed hl₁
  rw [(hr hk).channels]
  exact hp k hk ha l hl

theorem Prepared.chunk (hp : Prepared among keys remaining loops) (h : s.Round loops keys remaining)
    (hnd : keys.Nodup) :
    Prepared among keys (remaining - s.nextFrames loops keys remaining) (s.nextChunk loops keys remaining).1 := by
  intro k hk ha l₂ hl₂
  obtain ⟨l₁, hl₁, hchunk⟩ := (chunk_related hnd h.pos h.fits).some_right hl₂
  rw [hchunk.channels hk]
  exact LoopChannel.processAll_left h.pos h.le (hp.ready h k hk ha l₁ hl₁)

/-- A loop of the group acts on the chunk unless a channel of it overreaches. -/
theorem Prepared.processAll_ok (hp : Prepared among keys remaining loops) (h : s.Round loops keys remaining)
    (hmax : remaining ≤ maxFrames) {k : LoopKey} (hk : k ∈ keys) (ha : among k = true) {l : Loop}
    (hl : (s.ready loops keys).get? k = some l) :
    (LoopChannel.processAll (l.context (s.nextFrames loops keys remaining)) l.channels).2 = .ok () ↔
      ∀ c ∈ l.channels, ¬ c.body.Overreaches (l.context (s.nextFrames loops keys remaining)) := by
  refine LoopChannel.processAll_ok h.pos (Nat.le_trans h.le hmax) fun c hc => ?_
  rw [hp.ready h k hk ha l hl c hc]
  exact h.le

end Prepared

/-- A chunk is well if no channel overreaches in it. -/
theorem Prepared.nextChunk_ok (hp : Prepared (fun _ => true) keys remaining loops)
    (h : s.Round loops keys remaining) (hnd : keys.Nodup) (hmax : remaining ≤ maxFrames) :
    (s.nextChunk loops keys remaining).2 = .ok () ↔
      ∀ k ∈ keys, (fun _ => true) k → ∀ l, (s.ready loops keys).get? k = some l →
        ∀ c ∈ l.channels, ¬ c.body.Overreaches (l.context (s.nextFrames loops keys remaining)) := by
  refine (chunk_ok hnd h.pos h.fits).trans (forall_congr' fun k => forall_congr' fun hk => ?_)
  rw [forall_prop_of_true rfl]
  exact forall_congr' fun l => forall_congr' fun hl => hp.processAll_ok h hmax hk rfl hl

theorem Undisturbed.step {among : LoopKey → Bool} (h : Undisturbed among keys s loops remaining) (hr : 0 < remaining) :
    (∀ k ∈ keys, among k → ∀ l, (s.ready loops keys).get? k = some l →
      ∀ c ∈ l.channels, ¬ c.body.Overreaches (l.context (s.nextFrames loops keys remaining))) ∧
    Undisturbed among keys s.next (s.nextChunk loops keys remaining).1
      (remaining - s.nextFrames loops keys remaining) := by
  generalize hremaining : remaining = r at h hr
  cases h with
  | done => exact absurd hr (Nat.lt_irrefl 0)
  | chunk hnone hrest =>
    subst hremaining
    exact ⟨hnone, hrest⟩

/-- A cycle reports no error exactly if it is undisturbed. -/
theorem processFrom_ok (hnd : keys.Nodup) (ha : s.Ahead loops)
    (hp : Prepared (fun _ => true) keys remaining loops) (hmax : remaining ≤ maxFrames) (result : Except Error Unit) :
    (s.processFrom loops keys remaining 0 result).2.2 = .ok () ↔
      result = .ok () ∧ Undisturbed (fun _ => true) keys s loops remaining := by
  refine cycle_induction hnd (P := fun s loops remaining => ∀ result, Prepared (fun _ => true) keys remaining loops →
    remaining ≤ maxFrames → ((s.processFrom loops keys remaining 0 result).2.2 = .ok () ↔
      result = .ok () ∧ Undisturbed (fun _ => true) keys s loops remaining)) ?done ?chunk ha result hp hmax
  case done =>
    intro s loops _ result _ _
    rw [processFrom_zero]
    exact ⟨fun h => ⟨h, .done s loops⟩, fun h => h.1⟩
  case chunk =>
    intro s loops remaining ha hround ih result hp hmax
    have hpos := hround.pos
    have hle := hround.le
    rw [processFrom_eq hround, ih _ (hp.chunk hround hnd) (by omega), bind_ok, hp.nextChunk_ok hround hnd hmax]
    -- The chunk is well, and so is the rest of the cycle.
    constructor
    · rintro ⟨⟨hnone, hresult⟩, hrest⟩
      exact ⟨hresult, .chunk hnone hrest⟩
    · rintro ⟨hresult, hu⟩
      obtain ⟨hnone, hrest⟩ := hu.step (by omega)
      exact ⟨⟨hnone, hresult⟩, hrest⟩

/-! ## Cycles are runs -/

section Run
variable {e : Ensemble} {among : LoopKey → Bool}

theorem Round.within (h : s.Round loops e.keys remaining) (hg : Group e among loops) :
    Ensemble.Within (s.nextFrames loops e.keys remaining) (clocks among loops) := by
  intro k m hm
  rw [← h.refreshed.clocks hg] at hm
  cases hk : among k with
  | false => simp [clocks, hk] at hm
  | true =>
    cases hl : (s.ready loops e.keys).get? k with
    | none => simp [clocks_of_none hl] at hm
    | some l =>
      rw [clocks_of_some hk hl] at hm
      obtain ⟨l₀, hl₀, -⟩ := Arena.Related.some_right h.refreshed hl
      exact (h.fits k (hg.cover k l₀ hk hl₀) l hl).le_untilEnd hm

/-- An undisturbed cycle of a group is a run of its clocks. -/
theorem Undisturbed.run (hu : Undisturbed among e.keys s loops remaining) (hg : Group e among loops)
    (ha : s.Ahead loops) (hp : Prepared among e.keys remaining loops) (hmax : remaining ≤ maxFrames)
    (result : Except Error Unit) :
    e.Run (clocks among loops) remaining
      (clocks among (s.processFrom loops e.keys remaining 0 result).2.1) := by
  generalize hkeys : e.keys = keys at hu
  induction hu generalizing result with
  | done s loops =>
    rw [processFrom_zero]
    exact .done _
  | @chunk s loops remaining hnone _ ih =>
    subst hkeys
    rcases Nat.eq_zero_or_pos remaining with rfl | hpos
    · rw [processFrom_zero]
      exact .done _
    have hround := ha.begin e.keys hpos
    have hle := hround.le
    have hclocks : clocks among (s.nextChunk loops e.keys remaining).1 =
        e.chunk (s.nextFrames loops e.keys remaining) (clocks among loops) := by
      refine hg.chunk_clocks hround.refreshed hround.pos hround.fits fun k hk l hl => ?_
      obtain ⟨l₀, hl₀, -⟩ := Arena.Related.some_right hround.refreshed hl
      have hmem := hg.cover k l₀ hk hl₀
      exact (hp.processAll_ok hround hmax hmem hk hl).2 (hnone k hmem hk l hl)
    have hrun := ih (hg.congr (hround.syncSource hg.nodup)) (hround.ahead hg.nodup ha) (hp.chunk hround hg.nodup)
      (by omega) ((s.nextChunk loops e.keys remaining).2.bind fun _ => result)
    rw [← processFrom_eq hround, hclocks] at hrun
    -- One chunk in front of the run that the rest of the cycle is.
    have hsum : s.nextFrames loops e.keys remaining + (remaining - s.nextFrames loops e.keys remaining) =
        remaining := by
      omega
    have hstep := Ensemble.Run.chunk hround.pos (hround.within hg) hrun
    rwa [hsum] at hstep

end Run

/-! ## Groups without channels -/

/-- The loops of the group have no channels. -/
def Bare (among : LoopKey → Bool) (keys : List LoopKey) (loops : Loops) : Prop :=
  ∀ k ∈ keys, among k → ∀ l, loops.get? k = some l → l.channels = []

section Bare
variable {e : Ensemble} {among : LoopKey → Bool}

theorem Bare.prepared (h : Bare among keys loops) (remaining : Nat) : Prepared among keys remaining loops := by
  intro k hk ha l hl c hc
  rw [h k hk ha l hl] at hc
  cases hc

theorem Bare.nextChunk (h : Bare among keys loops) (hround : s.Round loops keys remaining) (hnd : keys.Nodup) :
    Bare among keys (s.nextChunk loops keys remaining).1 := by
  intro k hk ha l₂ hl₂
  obtain ⟨l₁, hl₁, hchunk⟩ := (chunk_related hnd hround.pos hround.fits).some_right hl₂
  obtain ⟨l, hl, -, hr⟩ := Arena.Related.some_right hround.refreshed hl₁
  rw [hchunk.channels hk, (hr hk).channels, h k hk ha l hl]
  rfl

theorem Bare.undisturbed (h : Bare among keys loops) (hnd : keys.Nodup) (ha : s.Ahead loops) (remaining : Nat) :
    Undisturbed among keys s loops remaining := by
  refine cycle_induction hnd (P := fun s loops remaining => Bare among keys loops →
    Undisturbed among keys s loops remaining) ?done ?chunk ha h
  case done => exact fun s loops _ _ => .done s loops
  case chunk =>
    intro s loops remaining _ hround ih h
    refine .chunk (fun k hk ha l₁ hl₁ c hc => ?_) (ih (h.nextChunk hround hnd))
    obtain ⟨l, hl, -, hr⟩ := Arena.Related.some_right hround.refreshed hl₁
    rw [(hr hk).channels, h k hk ha l hl] at hc
    cases hc

/-- What a group needs to run: a scheduler that is ahead of it, and no channels. -/
structure Runs (e : Ensemble) (among : LoopKey → Bool) (s : Scheduler) (loops : Loops) : Prop where
  group : Group e among loops
  ahead : s.Ahead loops
  bare : Bare among e.keys loops

theorem Runs.nextChunk (h : Runs e among s loops) (hround : s.Round loops e.keys remaining) :
    Runs e among s.next (s.nextChunk loops e.keys remaining).1 where
  group := h.group.congr (hround.syncSource h.group.nodup)
  ahead := hround.ahead h.group.nodup h.ahead
  bare := h.bare.nextChunk hround h.group.nodup

theorem Runs.processFrom (h : Runs e among s loops) (remaining : Nat) (result : Except Error Unit) :
    Runs e among (s.processFrom loops e.keys remaining 0 result).1
      (s.processFrom loops e.keys remaining 0 result).2.1 := by
  refine cycle_induction h.group.nodup (P := fun s loops remaining => ∀ result, Runs e among s loops →
    Runs e among (s.processFrom loops e.keys remaining 0 result).1
      (s.processFrom loops e.keys remaining 0 result).2.1) ?done ?chunk h.ahead result h
  case done =>
    intro s loops _ result h
    rwa [processFrom_zero]
  case chunk =>
    intro s loops remaining _ hround ih result h
    rw [processFrom_eq hround]
    exact ih _ (h.nextChunk hround)

/-- A cycle of a group without channels is a run of its clocks. -/
theorem Runs.process (h : Runs e among s loops) {n : Nat} (hn : n ≤ maxFrames) :
    e.Run (clocks among loops) n (clocks among (s.process loops e.keys n).2.1) :=
  (h.bare.undisturbed h.group.nodup h.ahead n).run h.group h.ahead (h.bare.prepared n) hn (.ok ())

end Bare

/-- A cycle keeps all loops and what they follow. -/
theorem processFrom_syncSource (hnd : keys.Nodup) (ha : s.Ahead loops) (remaining : Nat) (result : Except Error Unit) :
    SameSources loops (s.processFrom loops keys remaining 0 result).2.1 := by
  refine cycle_induction hnd (P := fun s loops remaining => ∀ result,
    SameSources loops (s.processFrom loops keys remaining 0 result).2.1) ?done ?chunk ha result
  case done =>
    intro s loops _ result
    rw [processFrom_zero]
    exact .refl loops
  case chunk =>
    intro s loops remaining _ hround ih result
    rw [processFrom_eq hround]
    exact (hround.syncSource hnd).trans (ih _)

/-- Without channels there is nothing that could fail. -/
theorem Bare.process_ok (h : Bare (fun _ => true) keys loops) (hnd : keys.Nodup) (ha : s.Ahead loops) {n : Nat}
    (hn : n ≤ maxFrames) : (s.process loops keys n).2.2 = .ok () :=
  (processFrom_ok hnd ha (h.prepared n) hn (.ok ())).2 ⟨rfl, h.undisturbed hnd ha n⟩

theorem Runs.process_ok {e : Ensemble} (h : Runs e (fun _ => true) s loops) {n : Nat} (hn : n ≤ maxFrames) :
    (s.process loops e.keys n).2.2 = .ok () := h.bare.process_ok h.group.nodup h.ahead hn

/-! ## Cycles in a row -/

/-- Cycles one after the other; all is well if all of them are. -/
def cycles (s : Scheduler) (loops : Loops) (keys : List LoopKey) : List Nat → Scheduler × Loops × Except Error Unit
  | [] => (s, loops, .ok ())
  | n :: rest =>
    let (s, loops, first) := s.process loops keys n
    let (s, loops, later) := s.cycles loops keys rest
    (s, loops, first.bind fun _ => later)

theorem cycles_cons (s : Scheduler) (loops : Loops) (keys : List LoopKey) (n : Nat) (rest : List Nat) :
    s.cycles loops keys (n :: rest) =
      let first := s.process loops keys n
      let later := first.1.cycles first.2.1 keys rest
      (later.1, later.2.1, first.2.2.bind fun _ => later.2.2) := rfl

/-- Cycles in a row of a group without channels are one run of its clocks. -/
theorem Runs.cycles_run {e : Ensemble} {among : LoopKey → Bool} (h : Runs e among s loops) (ns : List Nat)
    (hns : ∀ n ∈ ns, n ≤ maxFrames) :
    e.Run (clocks among loops) ns.sum (clocks among (s.cycles loops e.keys ns).2.1) := by
  induction ns generalizing s loops with
  | nil => exact .done _
  | cons n rest ih =>
    rw [List.forall_mem_cons] at hns
    exact (h.process hns.1).append (ih (h.processFrom n (.ok ())) hns.2)

theorem Runs.cycles_sameSources {e : Ensemble} {among : LoopKey → Bool} (h : Runs e among s loops) (ns : List Nat) :
    SameSources loops (s.cycles loops e.keys ns).2.1 := by
  induction ns generalizing s loops with
  | nil => exact .refl loops
  | cons n rest ih =>
    exact (processFrom_syncSource h.group.nodup h.ahead n (.ok ())).trans (ih (h.processFrom n (.ok ())))

end Overdub.Scheduler
