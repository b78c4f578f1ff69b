import Overdub.Proofs.Rounds
/-!
# One chunk of all loops

All loops move by the frames of a chunk, each seeing its sync source as it was
before, and then triggers pass from sources to followers. For a group of loops
that contains the sources of its members, the clocks after a chunk are those of
the ensemble, whatever the loops outside do (`chunk_clocks`), unless a channel
of the group fails.
-/

namespace Overdub

/-! ## One loop -/

/-- What the channels of a loop are told of a chunk. -/
def Loop.context (l : Loop) (n : Nat) : ChunkContext := l.transport.beginChunk.chunkContext n

/-- A loop before and after it advances by `n` frames; it stays where it is if a
channel fails. -/
structure Loop.Advanced (n : Nat) (sync : Option SyncView) (l l' : Loop) : Prop where
  channels : l'.channels = (LoopChannel.processAll (l.context n) l.channels).1
  syncSource : l'.syncSource = l.syncSource
  round : l'.transport.round = l.transport.round
  moved : (LoopChannel.processAll (l.context n) l.channels).2 = .ok () → l.transport.Moved l'.transport n
    (l.transport.clock.untilEnd = some n && sync.all fun s => !s.mode.isPlaying)
  held : (LoopChannel.processAll (l.context n) l.channels).2 ≠ .ok () → l'.transport.clock = l.transport.clock

theorem Loop.process_advanced (l : Loop) {n : Nat} (hn : 0 < n) (h : l.transport.Fits n) (sync : Option SyncView) :
    l.Advanced n sync (l.process n sync).1 ∧
      (l.process n sync).2 = (LoopChannel.processAll (l.context n) l.channels).2 := by
  have hfit : (l.transport.nextPoi.any fun p => decide (p.offset < n)) = false := by
    cases hp : l.transport.nextPoi with
    | none => rfl
    | some p => simpa using h.le p hp
  have hprocess : l.process n sync =
      let acted := LoopChannel.processAll (l.context n) l.channels
      ({ l with
          transport := acted.2.toOption.elim l.transport.beginChunk fun _ => l.transport.beginChunk.advance n sync
          channels := acted.1 }, acted.2) := by
    simp only [process, context, Transport.process, Nat.ne_of_gt hn, if_false, hfit, Bool.false_eq_true]
    generalize LoopChannel.processAll _ l.channels = acted
    obtain ⟨channels, result⟩ := acted
    cases result <;> rfl
  have hmoved := l.transport.beginChunk.moved_advance n sync ⟨h.point, h.le⟩ rfl rfl
  rw [hprocess]
  refine ⟨⟨rfl, rfl, ?_, fun hok => ?_, fun hno => ?_⟩, rfl⟩
  -- An error of the channels leaves the clock where it was.
  · dsimp only
    cases (LoopChannel.processAll (l.context n) l.channels).2 with
    | error => rfl
    | ok => exact hmoved.round
  · simp only [hok]
    exact ⟨hmoved.clock, hmoved.alreadyTriggered, hmoved.triggeringNow, hmoved.round⟩
  · dsimp only
    cases hr : (LoopChannel.processAll (l.context n) l.channels).2 with
    | error => rfl
    | ok => exact absurd hr hno

namespace Scheduler

/-! ## All loops -/

theorem get?_advanceOne (n : Nat) (state : Loops × Except Error Unit) (key : LoopKey) (view : Option SyncView)
    (k : LoopKey) :
    (advanceOne n state (key, view)).1.get? k =
      if k = key then (state.1.get? k).map fun l => (l.process n view).1 else state.1.get? k := by
  unfold advanceOne
  cases hl : state.1.get? key with
  | none => by_cases hk : k = key <;> simp [hk, hl]
  | some l => by_cases hk : k = key <;> simp [hk, hl, Arena.get?_set]

theorem advanceOne_ok (n : Nat) (state : Loops × Except Error Unit) (key : LoopKey) (view : Option SyncView) :
    (advanceOne n state (key, view)).2 = .ok () ↔
      (∀ l, state.1.get? key = some l → (l.process n view).2 = .ok ()) ∧ state.2 = .ok () := by
  unfold advanceOne
  cases hl : state.1.get? key with
  | none => simp
  | some l => cases hr : (l.process n view).2 <;> simp [hr, Except.bind]

/-- Every loop advances as if it were alone, and all is well if all of them are. -/
theorem advanceOne_foldl (view : LoopKey → Option SyncView) (n : Nat) (keys : List LoopKey) (hnd : keys.Nodup)
    (state : Loops × Except Error Unit) :
    let after := (keys.map fun key => (key, view key)).foldl (advanceOne n) state
    (∀ k, after.1.get? k =
      if k ∈ keys then (state.1.get? k).map fun l => (l.process n (view k)).1 else state.1.get? k) ∧
    (after.2 = .ok () ↔
      (∀ k ∈ keys, ∀ l, state.1.get? k = some l → (l.process n (view k)).2 = .ok ()) ∧ state.2 = .ok ()) := by
  induction keys generalizing state with
  | nil => simp
  | cons key rest ih =>
    obtain ⟨hnot, hnd⟩ := List.nodup_cons.1 hnd
    obtain ⟨hget, hok⟩ := ih hnd (advanceOne n state (key, view key))
    have hrest : ∀ k ∈ rest, (advanceOne n state (key, view key)).1.get? k = state.1.get? k := fun k hk => by
      rw [get?_advanceOne, if_neg]
      rintro rfl
      exact hnot hk
    refine ⟨fun k => ?_, hok.trans ?_⟩
    -- The keys are distinct, so no loop is processed twice.
    · rw [List.map_cons, List.foldl_cons, hget k, get?_advanceOne]
      by_cases hk : k = key
      · subst hk; simp [hnot]
      · simp [hk]
    · rw [advanceOne_ok, List.forall_mem_cons]
      simp +contextual only [hrest]
      exact and_left_comm.trans and_assoc.symm

theorem get?_advance (loops : Loops) {keys : List LoopKey} (hnd : keys.Nodup) (n : Nat) (k : LoopKey) :
    (advance loops keys n).1.get? k =
      if k ∈ keys then (loops.get? k).map fun l => (l.process n (syncView loops k)).1 else loops.get? k :=
  (advanceOne_foldl (syncView loops) n keys hnd (loops, .ok ())).1 k

theorem advance_ok (loops : Loops) {keys : List LoopKey} (hnd : keys.Nodup) (n : Nat) :
    (advance loops keys n).2 = .ok () ↔
      ∀ k ∈ keys, ∀ l, loops.get? k = some l → (l.process n (syncView loops k)).2 = .ok () :=
  (advanceOne_foldl (syncView loops) n keys hnd (loops, .ok ())).2.trans (and_iff_left rfl)

/-! ## Passing triggers on -/

/-- The same loops, each following the same one as before. -/
def SameSources (loops loops' : Loops) : Prop :=
  Arena.Related (fun _ l l' => l'.syncSource = l.syncSource) loops loops'

theorem SameSources.refl (loops : Loops) : SameSources loops loops :=
  Arena.Related.refl (r := fun _ (l l' : Loop) => l'.syncSource = l.syncSource) (fun _ _ => rfl) loops

theorem SameSources.trans {loops₁ loops₂ loops₃ : Loops} (h : SameSources loops₁ loops₂)
    (h' : SameSources loops₂ loops₃) : SameSources loops₁ loops₃ := h.comp h' fun _ _ _ _ h h' => h'.trans h

theorem source?_congr {loops loops' : Loops}
    (h : SameSources loops loops') :
    source? loops' = source? loops := by
  funext k
  have hk := h k
  unfold source?
  generalize loops.get? k = u at hk ⊢
  generalize loops'.get? k = v at hk ⊢
  cases hk with
  | none => rfl
  | some hk => simp [hk]

theorem source?_modify (loops : Loops) (key : LoopKey) (f : Loop → Loop) (hf : ∀ l, (f l).syncSource = l.syncSource) :
    source? (loops.modify key f) = source? loops := by
  funext k
  unfold source?
  rw [Arena.get?_modify]
  by_cases hk : k = key
  · subst hk
    cases hl : loops.get? k <;> simp [hf]
  · rw [if_neg hk]

/-- Where a loop was before a chunk and where it is after `n` frames of it; no
loop is missing that was there, and one that is not there does not trigger. -/
def Marked (n : Nat) (hit : Bool) : Option Loop → Option Loop → Prop
  | some l, some l' => l.transport.Moved l'.transport n hit
  | none, none => hit = false
  | _, _ => False

/-- The loops of a group within a chunk of `n` frames, those in `hit` having
triggered. -/
structure Marks (e : Ensemble) (among : LoopKey → Bool) (n : Nat) (start : Loops) (hit : LoopKey → Bool)
    (loops : Loops) : Prop where
  source : source? loops = e.source
  mark : ∀ k, among k → Marked n (hit k) (start.get? k) (loops.get? k)

section Marks
variable {e : Ensemble} {among : LoopKey → Bool} {n : Nat} {start loops : Loops} {hit : LoopKey → Bool}

theorem Marks.triggeringNow (h : Marks e among n start hit loops) {k : LoopKey} (hk : among k) :
    (loops.get? k).any (·.transport.triggeringNow) = hit k := by
  have hm := h.mark k hk
  cases hs : start.get? k <;> cases hl : loops.get? k <;> rw [hs, hl] at hm
  · exact hm.symm
  · cases hm
  · cases hm
  · exact hm.triggeringNow

/-- A trigger from the sync source moves a loop to its triggered state. -/
theorem Marks.passOn (h : Marks e among n start hit loops)
    (hclosed : ∀ k source, among k → e.source k = some source → among source) {key source : LoopKey}
    (hs : e.source key = some source) :
    Marks e among n start (e.passOn key hit)
      (if (loops.get? source).any (·.transport.triggeringNow) then
        loops.modify key (·.modifyTransport (·.trigger)) else loops) := by
  refine ⟨?_, fun k hk => ?_⟩
  · split
    · exact (source?_modify loops key (fun l => l.modifyTransport (·.trigger)) fun _ => rfl).trans h.source
    · exact h.source
  · have hm := h.mark k hk
    by_cases hkey : k = key
    · subst hkey
      rw [h.triggeringNow (hclosed k source hk hs)]
      cases hf : hit source with
      | false => simpa [Ensemble.passOn, hs, hf] using hm
      | true =>
        have hpass : e.passOn k hit k = true := by simp [Ensemble.passOn, hs, hf]
        rw [hpass, if_pos rfl, Arena.get?_modify_self]
        cases hl : loops.get? k with
        | none =>
          -- a loop that is not there follows no other one
          rw [← h.source, source?, hl] at hs
          cases hs
        | some l =>
          cases hst : start.get? k <;> rw [hst, hl] at hm
          · cases hm
          · exact hm.trigger
    · have hstay : e.passOn key hit k = hit k := by simp [Ensemble.passOn, hkey]
      rw [hstay]
      split
      · rwa [Arena.get?_modify_ne _ _ hkey]
      · exact hm

theorem Marks.still (h : Marks e among n start hit loops) {key : LoopKey} (hs : e.source key = none) :
    Marks e among n start (e.passOn key hit) loops := by
  refine ⟨h.source, fun k hk => ?_⟩
  have hstay : e.passOn key hit k = hit k := by
    by_cases hkey : k = key
    · subst hkey; simp [Ensemble.passOn, hs]
    · simp [Ensemble.passOn, hkey]
  rw [hstay]
  exact h.mark k hk

theorem Marks.passTriggerAfter (hclosed : ∀ k source, among k → e.source k = some source → among source)
    (h : Marks e among n start hit loops) (visit : Loops → LoopKey → Loops) (spread : LoopKey → LoopKey → Bool)
    (hvisit : ∀ source, Marks e among n start (spread source) (visit loops source)) (key : LoopKey) :
    Marks e among n start (e.passOn key ((e.source key).elim hit spread))
      (Scheduler.passTriggerAfter visit loops key) := by
  unfold Scheduler.passTriggerAfter
  rw [h.source]
  cases hs : e.source key with
  | none => exact h.still hs
  | some source => exact (hvisit source).passOn hclosed hs

theorem Marks.passTrigger (hclosed : ∀ k source, among k → e.source k = some source → among source)
    (h : Marks e among n start hit loops) (hops : Nat) (key : LoopKey) :
    Marks e among n start (e.pass hops key hit) (Scheduler.passTrigger loops key hops) := by
  induction hops generalizing key with
  | zero =>
    have hzero := h.passTriggerAfter hclosed (fun loops _ => loops) (fun _ => hit) (fun _ => h) key
    have hsame : (e.source key).elim hit (fun _ => hit) = hit := by cases e.source key <;> rfl
    rwa [hsame] at hzero
  | succ hops ih => exact h.passTriggerAfter hclosed _ _ ih key

theorem Marks.passTriggers (hclosed : ∀ k source, among k → e.source k = some source → among source)
    (h : Marks e among n start hit loops) :
    Marks e among n start (e.passAll hit) (Scheduler.passTriggers loops e.keys) := by
  unfold Scheduler.passTriggers Ensemble.passAll
  induction e.keys generalizing hit loops with
  | nil => exact h
  | cons key rest ih => exact ih (h.passTrigger hclosed maxHops key)

end Marks

/-- What triggers leave alone in a loop. -/
structure Kept (l l' : Loop) : Prop where
  channels : l'.channels = l.channels
  syncSource : l'.syncSource = l.syncSource
  round : l'.transport.round = l.transport.round

theorem Kept.trans {l₁ l₂ l₃ : Loop} (h : Kept l₁ l₂) (h' : Kept l₂ l₃) : Kept l₁ l₃ :=
  ⟨h'.channels.trans h.channels, h'.syncSource.trans h.syncSource, h'.round.trans h.round⟩

theorem kept_trigger (l : Loop) : Kept l (l.modifyTransport (·.trigger)) := by
  refine ⟨rfl, rfl, ?_⟩
  cases ha : l.transport.alreadyTriggered with
  | true => exact congrArg Transport.round (Transport.trigger_again _ ha)
  | false => exact (Transport.trigger_first _ ha).2.2.2

theorem passTriggerAfter_kept {visit : Loops → LoopKey → Loops} {loops : Loops}
    (hvisit : ∀ source, Arena.Related (fun _ => Kept) loops (visit loops source)) (key : LoopKey) :
    Arena.Related (fun _ => Kept) loops (passTriggerAfter visit loops key) := by
  unfold passTriggerAfter
  cases source? loops key with
  | none => exact .refl (fun _ _ => ⟨rfl, rfl, rfl⟩) loops
  | some source =>
    dsimp only
    split
    · exact (hvisit source).modify fun _ v _ _ huv => huv.trans (kept_trigger v)
    · exact hvisit source

theorem passTrigger_kept (loops : Loops) (hops : Nat) (key : LoopKey) :
    Arena.Related (fun _ => Kept) loops (passTrigger loops key hops) := by
  induction hops generalizing key with
  | zero => exact passTriggerAfter_kept (fun _ => .refl (fun _ _ => ⟨rfl, rfl, rfl⟩) loops) key
  | succ hops ih => exact passTriggerAfter_kept ih key

theorem passTriggers_kept (keys : List LoopKey) (loops : Loops) :
    Arena.Related (fun _ => Kept) loops (passTriggers loops keys) := by
  unfold passTriggers
  induction keys generalizing loops with
  | nil => exact .refl (fun _ _ => ⟨rfl, rfl, rfl⟩) loops
  | cons key rest ih => exact (passTrigger_kept loops maxHops key).comp (ih _) fun _ _ _ _ h h' => h.trans h'

/-! ## The clocks of a group -/

/-- Mode, position, length and plans of a loop. -/
def clockAt (loops : Loops) (key : LoopKey) : Option Clock := (loops.get? key).map (·.transport.clock)

/-- A group of loops that contains the sync sources of its members; the loops
outside may be anything. -/
structure Group (e : Ensemble) (among : LoopKey → Bool) (loops : Loops) : Prop where
  nodup : e.keys.Nodup
  source : source? loops = e.source
  closed : ∀ k source, among k → e.source k = some source → among source
  cover : ∀ k l, among k → loops.get? k = some l → k ∈ e.keys

/-- The clocks of a group; all others stand still. -/
def clocks (among : LoopKey → Bool) (loops : Loops) : Clocks := fun key =>
  if among key then (clockAt loops key).getD .still else .still

section Group
variable {e : Ensemble} {among : LoopKey → Bool} {loops loops' : Loops} {round n : Nat}

theorem Group.congr (h : Group e among loops)
    (hr : SameSources loops loops') : Group e among loops' where
  nodup := h.nodup
  source := (source?_congr hr).trans h.source
  closed := h.closed
  cover k l' hk hl' := by
    obtain ⟨l, hl, -⟩ := hr.some_right hl'
    exact h.cover k l hk hl

theorem clocks_of_some {k : LoopKey} {l : Loop} (hk : among k = true) (hl : loops.get? k = some l) :
    clocks among loops k = l.transport.clock := by simp [clocks, clockAt, hk, hl]

theorem clocks_of_none {k : LoopKey} (hl : loops.get? k = none) : clocks among loops k = .still := by
  simp [clocks, clockAt, hl]

theorem AllRefreshed.syncSource {keys : List LoopKey} (h : AllRefreshed round keys loops loops') :
    SameSources loops loops' :=
  Arena.Related.mono h fun _ _ _ hr => by
    rcases hr.1 with rfl | ⟨-, hr⟩
    · rfl
    · exact hr.syncSource

theorem AllRefreshed.clocks (h : AllRefreshed round e.keys loops loops') (hg : Group e among loops) :
    clocks among loops' = Ensemble.settle (clocks among loops) := by
  funext k
  unfold Ensemble.settle
  cases hk : among k with
  | false => simp [Scheduler.clocks, hk]
  | true =>
    have hrel := h k
    cases hl : loops.get? k <;> cases hl' : loops'.get? k <;> rw [hl, hl'] at hrel
    · rw [clocks_of_none hl, clocks_of_none hl', Clock.still_settled]
    · cases hrel
    · cases hrel
    · cases hrel with
      | some hr =>
        rw [clocks_of_some hk hl, clocks_of_some hk hl']
        exact (hr.2 (hg.cover k _ hk hl)).clock

/-- What a loop of the group sees of its source is the clock of the source. -/
theorem Group.syncView_all (h : Group e among loops) {k : LoopKey} (hk : among k = true) :
    ((syncView loops k).all fun s => !s.mode.isPlaying) =
      (e.source k).all fun source => !(clocks among loops source).mode.isPlaying := by
  unfold syncView
  rw [h.source]
  cases hs : e.source k with
  | none => rfl
  | some source =>
    cases hl : loops.get? source with
    | none => simp [hl, clocks_of_none hl, Clock.still, LoopMode.isPlaying]
    | some l => simp [hl, clocks_of_some (h.closed k source hk hs) hl, Transport.syncView]

/-- All loops of the group move, and those that end alone trigger. -/
theorem Group.advance (h : Group e among loops) (hn : 0 < n)
    (hfits : ∀ key ∈ e.keys, ∀ l, loops.get? key = some l → l.transport.Fits n)
    (hok : ∀ k, among k → ∀ l, loops.get? k = some l →
      (LoopChannel.processAll (l.context n) l.channels).2 = .ok ()) :
    Marks e among n loops (e.endsAlone n (clocks among loops)) (advance loops e.keys n).1 := by
  refine ⟨(source?_congr fun k => ?_).trans h.source, fun k hk => ?_⟩
  -- Nobody's sync source changes, and each loop is marked iff it wraps by itself.
  · rw [get?_advance loops h.nodup]
    cases hl : loops.get? k with
    | none => split <;> exact .none
    | some l =>
      split
      · next hmem => exact .some (l.process_advanced hn (hfits k hmem l hl) _).1.syncSource
      · exact .some rfl
  · rw [get?_advance loops h.nodup]
    cases hl : loops.get? k with
    | none =>
      have hend : e.endsAlone n (clocks among loops) k = false := by
        simp [Ensemble.endsAlone, clocks_of_none hl]
      split <;> exact hend
    | some l =>
      have hmem := h.cover k l hk hl
      have hmoved := (l.process_advanced hn (hfits k hmem l hl) (syncView loops k)).1.moved (hok k hk l hl)
      rw [if_pos hmem]
      simpa only [Marked, Option.map_some, Ensemble.endsAlone, clocks_of_some hk hl, ← h.syncView_all hk] using hmoved

theorem Marks.clocks {start : Loops} {hit : LoopKey → Bool} (h : Marks e among n start hit loops) :
    clocks among loops = fun k =>
      if hit k then ((clocks among start k).moved n).trigger else (clocks among start k).moved n := by
  funext k
  cases hk : among k with
  | false => simp [Scheduler.clocks, hk]
  | true =>
    have hm := h.mark k hk
    cases hs : start.get? k <;> cases hl : loops.get? k <;> rw [hs, hl] at hm
    · have hhit : hit k = false := hm
      simp [clocks_of_none hs, clocks_of_none hl, hhit]
    · cases hm
    · cases hm
    · rw [clocks_of_some hk hs, clocks_of_some hk hl]
      exact hm.clock

/-- After a chunk, the clocks of a group are those of the ensemble. -/
theorem Group.chunk_clocks (h : Group e among loops) (hr : AllRefreshed round e.keys loops loops') (hn : 0 < n)
    (hfits : ∀ key ∈ e.keys, ∀ l, loops'.get? key = some l → l.transport.Fits n)
    (hok : ∀ k, among k → ∀ l, loops'.get? k = some l →
      (LoopChannel.processAll (l.context n) l.channels).2 = .ok ()) :
    clocks among (chunk loops' e.keys n).1 = e.chunk n (clocks among loops) := by
  have hmarks := (h.congr hr.syncSource).advance hn hfits hok
  rw [hr.clocks h] at hmarks
  rw [chunk, (hmarks.passTriggers h.closed).clocks, hr.clocks h]
  rfl

end Group

/-- A loop before and after a chunk of all loops. -/
structure Chunked (n : Nat) (moves : Prop) (l l' : Loop) : Prop where
  syncSource : l'.syncSource = l.syncSource
  round : l'.transport.round = l.transport.round
  channels : moves → l'.channels = (LoopChannel.processAll (l.context n) l.channels).1

theorem chunk_related {loops : Loops} {keys : List LoopKey} {n : Nat} (hnd : keys.Nodup) (hn : 0 < n)
    (hfits : ∀ key ∈ keys, ∀ l, loops.get? key = some l → l.transport.Fits n) :
    Arena.Related (fun k => Chunked n (k ∈ keys)) loops (chunk loops keys n).1 := by
  have hadvance : Arena.Related (fun k => Chunked n (k ∈ keys)) loops (advance loops keys n).1 := fun k => by
    rw [get?_advance loops hnd]
    cases hl : loops.get? k with
    | none => split <;> exact .none
    | some l =>
      split
      · next hk =>
        have h := (l.process_advanced hn (hfits k hk l hl) (syncView loops k)).1
        exact .some ⟨h.syncSource, h.round, fun _ => h.channels⟩
      · next hk => exact .some ⟨rfl, rfl, fun hk' => absurd hk' hk⟩
  refine hadvance.comp (passTriggers_kept keys _) fun k _ _ _ h h' => ?_
  exact ⟨h'.syncSource.trans h.syncSource, h'.round.trans h.round, fun hk => h'.channels.trans (h.channels hk)⟩

/-- A chunk is well if the channels of every loop are. -/
theorem chunk_ok {loops : Loops} {keys : List LoopKey} {n : Nat} (hnd : keys.Nodup) (hn : 0 < n)
    (hfits : ∀ key ∈ keys, ∀ l, loops.get? key = some l → l.transport.Fits n) :
    (chunk loops keys n).2 = .ok () ↔
      ∀ k ∈ keys, ∀ l, loops.get? k = some l → (LoopChannel.processAll (l.context n) l.channels).2 = .ok () := by
  refine (advance_ok loops hnd n).trans (forall_congr' fun k => forall_congr' fun hk => ?_)
  refine forall_congr' fun l => forall_congr' fun hl => ?_
  rw [(l.process_advanced hn (hfits k hk l hl) (syncView loops k)).2]

end Scheduler

end Overdub
