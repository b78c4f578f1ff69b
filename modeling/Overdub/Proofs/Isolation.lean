import Overdub.Proofs.Cues
import Overdub.Proofs.SyncLines
/-!
# Loops that fail keep to themselves

The cues of a group of loops in the frames to come are those of its ensemble, and so they
say which of its channels will fail, and how far each will have got (`Entire.foreseen`).
Loops outside of the group move the boundaries between chunks and nothing else, whether
they fail or not.

So a loop on whose sync line nothing fails ends where it does without the loops that do
(`failing_loops_isolated`). The error of the cycle is the last one.
-/

namespace Overdub

namespace Scheduler

variable {s s' : Scheduler} {loops loops' : Loops} {keys keys' : List LoopKey} {k x y : LoopKey} {n : Nat}
  {e : Ensemble} {among : LoopKey → Bool}

/-! ## The extents of a group -/

/-- How far the channels of a loop have got. -/
def extents (loops : Loops) (k : LoopKey) : List Extent :=
  (loops.get? k).elim [] fun l => l.channels.map (·.body.extent)

/-- No loop of the group that plays is behind its end, and no channel of it has its start
in front of the data. -/
structure Tidy (among : LoopKey → Bool) (loops : Loops) : Prop where
  inside : Ensemble.Inside (clocks among loops)
  started : ∀ k, among k → ∀ y ∈ extents loops k, 0 ≤ y.track.startOffset

theorem extents_of_none (hl : loops.get? k = none) : extents loops k = [] := by rw [extents, hl, Option.elim_none]

theorem extents_of_some {l : Loop} (hl : loops.get? k = some l) :
    extents loops k = l.channels.map (·.body.extent) := by rw [extents, hl, Option.elim_some]

theorem tidy_of_all (hinside : ∀ k l, loops.get? k = some l → l.transport.clock.Inside)
    (hstarted : ∀ k l, loops.get? k = some l → ∀ c ∈ l.channels, 0 ≤ c.body.track.startOffset) : Tidy among loops where
  inside k := by
    unfold clocks clockAt
    cases hl : loops.get? k with
    | none => split <;> exact Clock.still_inside
    | some l =>
      split
      · exact hinside k l hl
      · exact Clock.still_inside
  started k _ y hy := by
    cases hl : loops.get? k with
    | none =>
      rw [extents_of_none hl] at hy
      cases hy
    | some l =>
      rw [extents_of_some hl] at hy
      obtain ⟨c, hc, rfl⟩ := List.mem_map.1 hy
      exact hstarted k l hl c hc

theorem Entire.extents_ready (h : Entire keys loops) (hround : s.Round loops keys n) (k : LoopKey) :
    extents (s.ready loops keys) k = extents loops k := by
  cases hl : loops.get? k with
  | none => rw [extents_of_none hl, extents_of_none (Arena.Related.none_left hround.refreshed hl)]
  | some l =>
    obtain ⟨l', hl', -, hr⟩ := Arena.Related.some_left hround.refreshed hl
    rw [extents_of_some hl, extents_of_some hl', (hr (h.all k l hl)).channels]

/-- The line of a loop of the group, as the next refresh finds it. -/
theorem Group.line_eq (hg : Group e among loops) (hk : among k) :
    e.line (Ensemble.settle (clocks among loops)) k = settledUp loops k := by
  funext d
  rw [Ensemble.line_settle, settledUp, Ensemble.line, clockUp, hg.source]
  cases hy : upstream e.source d k with
  | none => rfl
  | some y =>
    have hamong : among y = true := upstream_closed hg.closed hk hy
    simp [clocks, hamong]

/-- The channels of a loop are told the cue of its line. -/
theorem Entire.cue_ready (h : Entire e.keys loops) (hg : Group e among loops) (ha : s.Ahead loops)
    (hround : s.Round loops e.keys n) (hk : among k) {l : Loop} (hl : (s.ready loops e.keys).get? k = some l) :
    (l.context (s.nextFrames loops e.keys n)).cue = e.cueAt (clocks among loops) k 0 := by
  have hfirst := foretells ha h.all h.short k
  rw [nextTrigger, hl, Option.bind_some] at hfirst
  rw [Loop.context_cue (h.clock_ready hround hl) hfirst hround.pos, ← hg.line_eq hk]
  rfl

/-- Which channels of the group fail in the next chunk. -/
theorem Entire.unfailing_chunk (h : Entire e.keys loops) (hg : Group e among loops) (ha : s.Ahead loops)
    (hround : s.Round loops e.keys n) (hn : n ≤ maxFrames) :
    Unfailing among (Iteration.failures ⟨s.ready loops e.keys, s.nextFrames loops e.keys n⟩ e.keys) ↔
      ∀ k, among k → ∀ y ∈ extents loops k,
        ¬ y.Fails (e.cueAt (clocks among loops) k 0) (s.nextFrames loops e.keys n) := by
  have hone : ∀ k, among k → ∀ l, (s.ready loops e.keys).get? k = some l →
      (LoopChannel.failures k (l.context (s.nextFrames loops e.keys n)) l.channels = [] ↔
        ∀ y ∈ l.channels.map (·.body.extent),
          ¬ y.Fails (e.cueAt (clocks among loops) k 0) (s.nextFrames loops e.keys n)) := by
    intro k hk l hl
    rw [LoopChannel.failures_eq_nil, List.forall_mem_map, ← h.cue_ready hg ha hround hk hl]
    exact forall_congr' fun c => forall_congr' fun _ =>
      c.body.process_ok_iff hround.pos (Nat.le_trans hround.le hn)
  rw [unfailing_iff]
  constructor
  · intro hchunk k hk
    rw [← h.extents_ready hround]
    cases hl : (s.ready loops e.keys).get? k with
    | none => simp [extents_of_none hl]
    | some l =>
      obtain ⟨l₀, hl₀, -⟩ := Arena.Related.some_right hround.refreshed hl
      rw [extents_of_some hl]
      exact (hone k hk l hl).1 (hchunk k (h.all k l₀ hl₀) hk l hl)
  · intro hchunk k _ hk l hl
    rw [hone k hk l hl, ← extents_of_some hl, h.extents_ready hround]
    exact hchunk k hk

/-- And how far those of the others get in it. -/
theorem Entire.extents_nextChunk (h : Entire e.keys loops) (hg : Group e among loops) (ha : s.Ahead loops)
    (hround : s.Round loops e.keys n) (hn : n ≤ maxFrames)
    (hchunk : Unfailing among (Iteration.failures ⟨s.ready loops e.keys, s.nextFrames loops e.keys n⟩ e.keys))
    (hk : among k) :
    extents (s.nextChunk loops e.keys n).1 k =
      (extents loops k).map (·.play (e.cueAt (clocks among loops) k 0) (s.nextFrames loops e.keys n)) := by
  have hrelated := chunk_related h.nodup hround.pos hround.fits
  rw [← h.extents_ready hround]
  cases hl : (s.ready loops e.keys).get? k with
  | none =>
    rw [extents_of_none hl, nextChunk, extents_of_none (Arena.Related.none_left hrelated hl)]
    rfl
  | some l =>
    obtain ⟨l₀, hl₀, -⟩ := Arena.Related.some_right hround.refreshed hl
    obtain ⟨l', hl', hmoved⟩ := Arena.Related.some_left hrelated hl
    have hmem := h.all k l₀ hl₀
    have hwell := LoopChannel.failures_eq_nil.1 (unfailing_iff.1 hchunk k hmem hk l hl)
    rw [extents_of_some hl, nextChunk, extents_of_some hl', hmoved.channels hmem, ← h.cue_ready hg ha hround hk hl]
    exact LoopChannel.extents_processAll hround.pos (Nat.le_trans hround.le hn) hwell

/-- No channel of the group fails in the `n` frames to come, one by one. -/
def Clear (e : Ensemble) (among : LoopKey → Bool) (loops : Loops) (n : Nat) : Prop :=
  ∀ k, among k → ∀ y ∈ extents loops k, ¬ y.Stumbles (e.cueAt (clocks among loops) k) n

/-- A chunk of the group frame by frame. -/
theorem Tidy.chunk_frames (ht : Tidy among loops) (hg : Group e among loops) (hround : s.Round loops e.keys n)
    (hn : n < maxFrames) (hk : among k) {y : Extent} (hy : y ∈ extents loops k) :
    (y.Fails (e.cueAt (clocks among loops) k 0) (s.nextFrames loops e.keys n) ↔
      y.Stumbles (e.cueAt (clocks among loops) k) (s.nextFrames loops e.keys n)) ∧
    y.play (e.cueAt (clocks among loops) k 0) (s.nextFrames loops e.keys n) =
      y.after (e.cueAt (clocks among loops) k) (s.nextFrames loops e.keys n) := by
  have hpos := hround.pos
  have hcontinues := e.continues_cueAt (hround.within hg) (Nat.lt_of_le_of_lt hround.le hn) (ht.inside k)
  have hstart := ht.started k hk y hy
  generalize s.nextFrames loops e.keys n = m at hpos hcontinues ⊢
  obtain ⟨m, rfl⟩ : ∃ i, m = i + 1 := ⟨m - 1, by omega⟩
  exact ⟨Extent.fails_iff hcontinues hstart rfl, Extent.play_eq_after hcontinues hstart rfl⟩

section Round
variable (h : Entire e.keys loops) (hg : Group e among loops) (ha : s.Ahead loops) (ht : Tidy among loops)
  (hround : s.Round loops e.keys n) (hn : n < maxFrames)
include h hg ha ht hround hn

/-- Nothing of the group fails in a chunk exactly if its frames are clear. -/
theorem Entire.unfailing_chunk_iff :
    Unfailing among (Iteration.failures ⟨s.ready loops e.keys, s.nextFrames loops e.keys n⟩ e.keys) ↔
      Clear e among loops (s.nextFrames loops e.keys n) := by
  rw [h.unfailing_chunk hg ha hround (Nat.le_of_lt hn)]
  exact forall_congr' fun k => forall_congr' fun hk => forall_congr' fun y => forall_congr' fun hy =>
    not_congr (ht.chunk_frames hg hround hn hk hy).1

/-- Where a chunk leaves a group in which nothing fails. -/
theorem Entire.nextChunk (hchunk : Clear e among loops (s.nextFrames loops e.keys n)) :
    clocks among (s.nextChunk loops e.keys n).1 = e.frame^[s.nextFrames loops e.keys n] (clocks among loops) ∧
      (∀ k, among k → extents (s.nextChunk loops e.keys n).1 k =
        (extents loops k).map (·.after (e.cueAt (clocks among loops) k) (s.nextFrames loops e.keys n))) ∧
      Tidy among (s.nextChunk loops e.keys n).1 := by
  have hwell := (h.unfailing_chunk_iff hg ha ht hround hn).2 hchunk
  have hclocks := hwell.clocks_nextChunk hg hround
  have hextents := fun k hk => h.extents_nextChunk hg ha hround (Nat.le_of_lt hn) hwell (k := k) hk
  refine ⟨?_, fun k hk => ?_, ?_, fun k hk y hy => ?_⟩
  · have hpos := hround.pos
    have hwithin := hround.within hg
    have hle := hround.le
    rw [hclocks]
    generalize s.nextFrames loops e.keys n = m at hpos hwithin hle ⊢
    obtain ⟨m, rfl⟩ : ∃ i, m = i + 1 := ⟨m - 1, by omega⟩
    exact e.chunk_eq_frames hwithin (by omega)
  · rw [hextents k hk]
    exact List.map_congr_left fun y hy => (ht.chunk_frames hg hround hn hk hy).2
  · rw [hclocks]
    exact ht.inside.chunk _
  · rw [hextents k hk] at hy
    obtain ⟨z, hz, rfl⟩ := List.mem_map.1 hy
    exact Extent.startOffset_play (ht.started k hk z hz)

/-- The rest is clear after the chunk if it was before. -/
theorem Entire.clear_nextChunk (hchunk : Clear e among loops (s.nextFrames loops e.keys n)) :
    Clear e among loops n ↔
      Clear e among (s.nextChunk loops e.keys n).1 (n - s.nextFrames loops e.keys n) := by
  obtain ⟨hclocks, hextents, -⟩ := h.nextChunk hg ha ht hround hn hchunk
  refine forall_congr' fun k => forall_congr' fun hk => ?_
  rw [hextents k hk, List.forall_mem_map, hclocks, funext (e.cueAt_add (clocks among loops) k _)]
  refine forall_congr' fun y => forall_congr' fun hy => not_congr ?_
  have hsplit := y.stumbles_add (e.cueAt (clocks among loops) k) (s.nextFrames loops e.keys n)
    (n - s.nextFrames loops e.keys n)
  rw [Nat.add_sub_cancel' hround.le] at hsplit
  exact hsplit.trans (or_iff_right (hchunk k hk y hy))

end Round

/-- The cues of a group foretell what fails, and how far its channels get. -/
theorem Entire.foreseen (h : Entire e.keys loops) (hg : Group e among loops) (ha : s.Ahead loops)
    (ht : Tidy among loops) (hn : n < maxFrames) :
    (Unfailing among (s.failures loops e.keys n) ↔ Clear e among loops n) ∧
      (Clear e among loops n → ∀ k, among k → extents (s.process loops e.keys n).2.1 k =
        (extents loops k).map (·.after (e.cueAt (clocks among loops) k) n)) := by
  refine cycle_induction h.nodup (P := fun s loops n => ∀ result, Entire e.keys loops → Group e among loops →
    Tidy among loops → n < maxFrames →
    (Unfailing among (s.failures loops e.keys n) ↔ Clear e among loops n) ∧
      (Clear e among loops n → ∀ k, among k → extents (s.processFrom loops e.keys n 0 result).2.1 k =
        (extents loops k).map (·.after (e.cueAt (clocks among loops) k) n)))
    ?done ?chunk ha (.ok ()) h hg ht hn
  case done =>
    intro s loops _ result _ _ _ _
    rw [failures_zero, processFrom_zero]
    refine ⟨iff_of_true (fun f hf => by cases hf) fun k _ y _ => ?_, fun _ k _ => (List.map_id _).symm⟩
    rintro ⟨i, hi, -⟩
    cases hi
  case chunk =>
    intro s loops n ha hround ih result h hg ht hn
    have hchunk_iff := h.unfailing_chunk_iff hg ha ht hround hn
    have hbefore : Clear e among loops n → Clear e among loops (s.nextFrames loops e.keys n) :=
      fun hall k hk y hy ⟨i, hi, hfails⟩ => hall k hk y hy ⟨i, Nat.lt_of_lt_of_le hi hround.le, hfails⟩
    by_cases hchunk : Clear e among loops (s.nextFrames loops e.keys n)
    · obtain ⟨hclocks, hextents, htidy⟩ := h.nextChunk hg ha ht hround hn hchunk
      have hsame := hround.syncSource h.nodup
      obtain ⟨hiff, hafter⟩ := ih ((s.nextChunk loops e.keys n).2.bind fun _ => result) (h.congr hsame)
        (hg.congr hsame) htidy (by omega)
      rw [unfailing_failures hround, hchunk_iff, and_iff_right hchunk, hiff,
        ← h.clear_nextChunk hg ha ht hround hn hchunk]
      refine ⟨Iff.rfl, fun hall k hk => ?_⟩
      rw [processFrom_eq hround, hafter ((h.clear_nextChunk hg ha ht hround hn hchunk).1 hall) k hk,
        hextents k hk, List.map_map, hclocks, funext (e.cueAt_add (clocks among loops) k _)]
      refine List.map_congr_left fun y _ => ?_
      rw [Function.comp_apply, ← Extent.after_add, Nat.add_sub_cancel' hround.le]
    · -- something of the group fails in this chunk already
      rw [unfailing_failures hround, hchunk_iff]
      exact ⟨iff_of_false (fun hwell => hchunk hwell.1) fun hall => hchunk (hbefore hall),
        fun hall => absurd (hbefore hall) hchunk⟩

/-! ## The same line among other loops -/

/-- No channel on the sync line of the loop fails in the `n` frames to come. -/
def LineClear (keys : List LoopKey) (loops : Loops) (x : LoopKey) (n : Nat) : Prop :=
  Clear ⟨source? loops, keys⟩ (lineOf loops x) loops n

/-- The sync line of the loop is the same in both, and so are the channels on it. -/
structure SameState (x : LoopKey) (loops loops' : Loops) : Prop extends SameLine x loops loops' where
  extents : ∀ y, Above loops x y → extents loops' y = extents loops y

theorem SameLine.cueAt (h : SameLine x loops loops') (hf : Followed keys loops x) (hf' : Followed keys' loops' x)
    (hk : Above loops x k) :
    Ensemble.cueAt ⟨source? loops', keys'⟩ (clocks (lineOf loops' x) loops') k =
      Ensemble.cueAt ⟨source? loops, keys⟩ (clocks (lineOf loops x) loops) k := by
  have hshares := h.shares hf hf'
  funext i
  rw [h.clocks_eq, Ensemble.cueAt, Ensemble.cueAt, hshares.frames i]
  refine congrArg Cue.on (funext fun d => ?_)
  rw [Ensemble.line, Ensemble.line, hshares.upstream_eq d (lineOf_eq_true.2 hk)]

theorem SameState.clear_iff (h : SameState x loops loops') (hf : Followed keys loops x)
    (hf' : Followed keys' loops' x) :
    LineClear keys' loops' x n ↔ LineClear keys loops x n := by
  refine forall_congr' fun k => imp_congr_ctx (by rw [h.lineOf_eq]) fun hk => ?_
  rw [lineOf_eq_true] at hk
  rw [h.extents k hk, h.cueAt hf hf' hk]

theorem SameState.tidy (h : SameState x loops loops') (ht : Tidy (lineOf loops x) loops) :
    Tidy (lineOf loops' x) loops' where
  inside := h.clocks_eq ▸ ht.inside
  started k hk y hy := by
    rw [h.lineOf_eq] at hk
    rw [h.extents k (lineOf_eq_true.1 hk)] at hy
    exact ht.started k hk y hy

theorem Entire.followed (h : Entire keys loops) (x : LoopKey) : Followed keys loops x :=
  followed_of_short h.all fun d hd => h.short x d (by omega)

/-- The cues of a line foretell what fails on it, and how far the loop gets. -/
theorem Entire.line_foreseen (h : Entire keys loops) (ha : s.Ahead loops) (ht : Tidy (lineOf loops x) loops)
    (hn : n < maxFrames) :
    (Spared loops x (s.failures loops keys n) ↔ LineClear keys loops x n) ∧
      (LineClear keys loops x n → extents (s.process loops keys n).2.1 x =
        (extents loops x).map
          (·.after (Ensemble.cueAt ⟨source? loops, keys⟩ (clocks (lineOf loops x) loops) x) n)) := by
  have hg := (h.followed x).group h.nodup
  obtain ⟨hiff, hafter⟩ := Entire.foreseen (e := ⟨source? loops, keys⟩) h hg ha ht hn
  refine ⟨spared_iff.trans hiff, fun hall => hafter hall x (lineOf_eq_true.2 (.refl loops x))⟩

/-- Where the line of a loop is the same, the same fails on it, and the loop gets as far if nothing does. -/
theorem SameState.process (h : SameState x loops loops') (hentire : Entire keys loops) (hentire' : Entire keys' loops')
    (ha : s.Ahead loops) (ha' : s'.Ahead loops') (ht : Tidy (lineOf loops x) loops) (hn : n < maxFrames)
    (hspared : Spared loops x (s.failures loops keys n)) :
    Spared loops' x (s'.failures loops' keys' n) ∧
      clockAt (s.process loops keys n).2.1 x = clockAt (s'.process loops' keys' n).2.1 x ∧
      Scheduler.extents (s.process loops keys n).2.1 x = Scheduler.extents (s'.process loops' keys' n).2.1 x := by
  have hf := hentire.followed x
  have hf' := hentire'.followed x
  obtain ⟨hiff, hafter⟩ := hentire.line_foreseen ha ht hn
  obtain ⟨hiff', hafter'⟩ := hentire'.line_foreseen ha' (h.tidy ht) hn
  have hclear := hiff.1 hspared
  have hclear' := (h.clear_iff hf hf').2 hclear
  have hspared' := hiff'.2 hclear'
  refine ⟨hspared', h.clockAt_process hentire.nodup hentire'.nodup ha ha' hn hf hf' hspared hspared', ?_⟩
  rw [hafter hclear, hafter' hclear', h.extents x (.refl loops x), h.cueAt hf hf' (.refl loops x)]

/-! ## Without the loops that fail -/

/-- The loops but for some. -/
def without (loops : Loops) (gone : List LoopKey) : Loops := gone.foldl Arena.erase loops

section Without
variable {gone : List LoopKey}

theorem get?_without (loops : Loops) (gone : List LoopKey) (k : LoopKey) :
    (without loops gone).get? k = if k ∈ gone then none else loops.get? k := Arena.get?_eraseAll loops gone k

theorem get?_of_without {l : Loop} (h : (without loops gone).get? k = some l) :
    k ∉ gone ∧ loops.get? k = some l := by
  rw [get?_without] at h
  split at h
  · cases h
  · next hk => exact ⟨hk, h⟩

theorem Ahead.without (ha : s.Ahead loops) : s.Ahead (without loops gone) :=
  fun k l hl => ha k l (get?_of_without hl).2

/-- A loop whose line is left is left in its state. -/
theorem sameState_without (h : ∀ y, Above loops x y → y ∉ gone) : SameState x loops (without loops gone) where
  source y hy := by rw [source?, source?, get?_without, if_neg (h y hy)]
  clock y hy := by rw [clockAt, clockAt, get?_without, if_neg (h y hy)]
  extents y hy := by rw [Scheduler.extents, Scheduler.extents, get?_without, if_neg (h y hy)]

theorem Entire.without (h : Entire keys loops) : Entire (keys.filter (· ∉ gone)) (without loops gone) where
  nodup := h.nodup.filter _
  all k l hl := by
    obtain ⟨hk, hl⟩ := get?_of_without hl
    simpa [hk] using h.all k l hl
  short k d hd := by
    have hless : ∀ k k', source? (Scheduler.without loops gone) k = some k' → source? loops k = some k' := by
      intro k k' hs
      rw [source?, get?_without] at hs
      split at hs
      · cases hs
      · exact hs
    refine Option.eq_none_iff_forall_not_mem.2 fun c hc => ?_
    obtain ⟨y, hy, hc⟩ := Option.bind_eq_some_iff.1 hc
    obtain ⟨l, hl, -⟩ := Option.map_eq_some_iff.1 hc
    have hnone := h.short k d hd
    rw [clockUp, upstream_mono hless hy, Option.bind_some, clockAt, (get?_of_without hl).2] at hnone
    cases hnone

end Without

theorem sameLine_emptied (x : LoopKey) (loops : Loops) : SameLine x loops (emptied loops) where
  source y _ := congrFun (source?_congr (alike_emptied loops).sameSources) y
  clock y _ := congrFun (alike_emptied loops).clockAt y

section Spared
variable {failed : List Failure}

/-- The loops that fail leave the lines on which nothing does. -/
theorem Spared.sameState (h : Spared loops x failed) : SameState x loops (without loops (failed.map (·.loop))) :=
  sameState_without fun y hy hgone => by
    obtain ⟨f, hf, rfl⟩ := List.mem_map.1 hgone
    exact h f hf hy

theorem Spared.followed (h : Spared loops x failed) (hf : Followed keys loops x) :
    Followed (keys.filter (· ∉ failed.map (·.loop))) (without loops (failed.map (·.loop))) x := by
  refine h.sameState.followed hf fun y hmem hy => ?_
  have hleft : y ∉ failed.map (·.loop) := fun hgone => by
    obtain ⟨f, hf, rfl⟩ := List.mem_map.1 hgone
    exact h f hf hy
  exact List.mem_filter.2 ⟨hmem, decide_eq_true hleft⟩

end Spared

/-- Whatever fails in a cycle, the cycle goes through all of its chunks. A loop on whose
sync line nothing fails ends at the time at which it would if the loops that do fail were
gone, with all channels or without them. Its channels get as far as they would, and
nothing on its line fails that did not. The error reported is the last one; it is the
first one only if both are the same. -/
theorem failing_loops_isolated (s : Scheduler) (loops : Loops) (keys : List LoopKey) (n : Nat) (hnd : keys.Nodup)
    (ha : s.Ahead loops) :
    let its := s.iterations loops keys n 0
    let after := s.process loops keys n
    let failed := s.failures loops keys n
    let others := without loops (failed.map (·.loop))
    let left := keys.filter (· ∉ failed.map (·.loop))
    let after' := s.process others left n
    ((∀ it ∈ its, 0 < it.frames) ∧ (its.map (·.frames)).sum = n ∧ Leads keys s.round loops its after.2.1) ∧
    (n < maxFrames → ∀ x, Spared loops x failed →
      (Followed keys loops x →
        clockAt after.2.1 x = clockAt (s.process (emptied others) left n).2.1 x ∧
        (Spared others x (s.failures others left n) → clockAt after.2.1 x = clockAt after'.2.1 x)) ∧
      (Entire keys loops → Tidy (lineOf loops x) loops →
        Spared others x (s.failures others left n) ∧ clockAt after.2.1 x = clockAt after'.2.1 x ∧
          extents after.2.1 x = extents after'.2.1 x)) ∧
    after.2.2 = failed.getLast?.elim (.ok ()) (fun f => .error f.error) ∧
      (after.2.2 = failed.head?.elim (.ok ()) (fun f => .error f.error) ↔
        failed.head?.map (·.error) = failed.getLast?.map (·.error)) := by
  intro its after failed others left after'
  obtain ⟨hpos, hsum⟩ := iterations_frames hnd ha n
  have hresult := process_result hnd ha n
  refine ⟨⟨hpos, hsum, iterations_lead hnd ha (.ok ())⟩, fun hn x hspared => ⟨fun hf => ?_, fun hentire ht => ?_⟩,
    hresult, ?_⟩
  · have hsame := hspared.sameState.toSameLine
    have hf' := hspared.followed hf
    have hnd' : left.Nodup := hnd.filter _
    have hemptied := sameLine_emptied x others
    refine ⟨?_, fun hspared' => hsame.clockAt_process hnd hnd' ha ha.without hn hf hf' hspared hspared'⟩
    refine (hsame.trans hemptied).clockAt_process hnd hnd' ha ha.without.emptied hn hf ?_ hspared ?_
    · exact hemptied.followed hf' fun y hy _ => hy
    · exact spared_iff.2 ((bare_emptied _ left others).unfailing hnd' ha.without.emptied n)
  · exact hspared.sameState.process hentire hentire.without ha ha.without ht hn hspared
  · rw [hresult]
    exact Failure.first_reported failed

/-- Two replacing loops with less data than they are to replace, a playing loop at its last four frames, and one
that records with the next trigger of that one. -/
def mishaps : Loops :=
  let audio (index length : Nat) : LoopChannel := {
    key := ⟨index, 0⟩
    input := some ⟨0, 0⟩
    output := some ⟨0, 0⟩
    body := (ChannelBody.audio (.new 4 .direct none)).modifyTrack fun t => { t with dataLength := length } }
  let replacing : Transport := { Transport.new with mode := .replacing, length := 8 }
  let playing : Transport := { Transport.new with mode := .playing, position := 4, length := 8 }
  let waiting : Transport := { Transport.new with planned := [⟨.recording, 0⟩] }
  let loops : List Loop := [
    { transport := replacing, channels := [audio 0 2] }, { transport := replacing, channels := [audio 1 3] },
    { transport := playing, channels := [audio 2 8] },
    { transport := waiting, channels := [audio 3 0], syncSource := some ⟨2, 0⟩ }]
  { slots := loops.map fun l => ⟨0, some (l.prepare 4 fun _ => true)⟩, size := 4 }

/-- Both replacing loops fail, and the error is that of the second. The recording begins as if they were not there. -/
theorem failing_loops_isolated_mishaps :
    let s := Scheduler.new 16
    let after := s.process mishaps mishaps.keys 4
    let failed := s.failures mishaps mishaps.keys 4
    let after' := s.process (without mishaps (failed.map (·.loop))) (mishaps.keys.filter (· ∉ failed.map (·.loop))) 4
    failed = [⟨⟨0, 0⟩, ⟨0, 0⟩, .outOfBounds "replace" 2 2⟩, ⟨⟨1, 0⟩, ⟨1, 0⟩, .outOfBounds "replace" 3 3⟩] ∧
      after.2.2 = .error (.outOfBounds "replace" 3 3) ∧ clockAt after.2.1 ⟨3, 0⟩ = clockAt after'.2.1 ⟨3, 0⟩ ∧
      extents after.2.1 ⟨3, 0⟩ = extents after'.2.1 ⟨3, 0⟩ := by
  have hall : ∀ p ∈ mishaps.toList, p.2.transport.round = 0 ∧ p.2.transport.clock.Inside ∧
      ∀ c ∈ p.2.channels, 0 ≤ c.body.track.startOffset := by decide
  have ha : (Scheduler.new 16).Ahead mishaps := fun _ _ h =>
    Nat.le_of_eq (hall _ (Arena.mem_toList_of_get? h)).1
  have hround := ha.begin mishaps.keys (show 0 < 4 by decide)
  have hfailed : (Scheduler.new 16).failures mishaps mishaps.keys 4 =
      [⟨⟨0, 0⟩, ⟨0, 0⟩, .outOfBounds "replace" 2 2⟩, ⟨⟨1, 0⟩, ⟨1, 0⟩, .outOfBounds "replace" 3 3⟩] := by
    have hframes : (Scheduler.new 16).nextFrames mishaps mishaps.keys 4 = 4 := by decide
    rw [failures_eq hround, hframes, failures_zero, List.append_nil]
    rfl
  have hends : ∀ key d, upstream (source? mishaps) (2 + d) key = none := upstream_ends (by decide)
  have hentire : Entire mishaps.keys mishaps := .of_hops (show 1 ≤ maxHops by decide) (by decide)
  have hspared : Spared mishaps ⟨3, 0⟩ ((Scheduler.new 16).failures mishaps mishaps.keys 4) := by
    have hline : ∀ d < 2, ∀ y ∈ upstream (source? mishaps) d ⟨3, 0⟩, y ≠ ⟨0, 0⟩ ∧ y ≠ ⟨1, 0⟩ := by decide
    rw [hfailed]
    rintro f hf ⟨d, hd⟩
    rcases Nat.lt_or_ge d 2 with hlt | hge
    · obtain ⟨hfirst, hsecond⟩ := hline d hlt f.loop hd
      rcases List.mem_pair.1 hf with rfl | rfl
      · exact hfirst rfl
      · exact hsecond rfl
    · obtain ⟨i, rfl⟩ := Nat.exists_eq_add_of_le hge
      rw [hends] at hd
      cases hd
  obtain ⟨-, hisolated, hlast, -⟩ := failing_loops_isolated (.new 16) mishaps mishaps.keys 4 (by decide) ha
  have htidy : Tidy (lineOf mishaps ⟨3, 0⟩) mishaps :=
    tidy_of_all (fun _ _ h => (hall _ (Arena.mem_toList_of_get? h)).2.1)
      fun _ _ h => (hall _ (Arena.mem_toList_of_get? h)).2.2
  obtain ⟨-, hclock, hextents⟩ := (hisolated (by decide) ⟨3, 0⟩ hspared).2 hentire htidy
  refine ⟨hfailed, ?_, hclock, hextents⟩
  rw [hlast, hfailed]
  rfl

end Scheduler

end Overdub
