import Overdub.Proofs.Cycles
/-!
# How channels disturb the time of loops

The channels of a loop see its time, and should not change it. Two collections
of loops that differ in their channels alone go through a cycle alike, chunk by
chunk, as long as no channel fails (`Undisturbed.alike`). A channel that is to
replace frames behind its data does fail, and then its loop stands still for the
chunk, which the loop without channels would not (`channels_keep_time`).
-/

namespace Overdub

/-- Two loops that are at the same time and follow the same loop. -/
structure Loop.Alike (l l' : Loop) : Prop where
  clock : l'.transport.clock = l.transport.clock
  alreadyTriggered : l'.transport.alreadyTriggered = l.transport.alreadyTriggered
  triggeringNow : l'.transport.triggeringNow = l.transport.triggeringNow
  round : l'.transport.round = l.transport.round
  syncSource : l'.syncSource = l.syncSource

namespace Loop.Alike
variable {l l' : Loop}

theorem stamp (h : l.Alike l') (round : Nat) :
    (l.modifyTransport ({ · with round })).Alike (l'.modifyTransport ({ · with round })) :=
  ⟨h.clock, h.alreadyTriggered, h.triggeringNow, rfl, h.syncSource⟩

theorem refresh (h : l.Alike l') (syncTrigger syncTrigger' : Option Nat) :
    (l.refresh syncTrigger).Alike (l'.refresh syncTrigger') := by
  have hk := l.transport.carried_settled
  have hk' := l'.transport.carried_settled
  refine ⟨?_, ?_, ?_, ?_, h.syncSource⟩
  · exact (l'.transport.clock_settled.trans (h.clock ▸ rfl)).trans l.transport.clock_settled.symm
  · exact hk'.alreadyTriggered.trans (h.alreadyTriggered.trans hk.alreadyTriggered.symm)
  · exact l'.transport.triggeringNow_settled.trans (h.triggeringNow.trans l.transport.triggeringNow_settled.symm)
  · exact hk'.round.trans (h.round.trans hk.round.symm)

theorem trigger (h : l.Alike l') :
    (l.modifyTransport (·.trigger)).Alike (l'.modifyTransport (·.trigger)) := by
  cases ha : l.transport.alreadyTriggered with
  | true =>
    have ha' := h.alreadyTriggered.trans ha
    simp only [modifyTransport, Transport.trigger_again _ ha, Transport.trigger_again _ ha']
    exact h
  | false =>
    obtain ⟨hc, ht, hn, hr⟩ := Transport.trigger_first _ ha
    obtain ⟨hc', ht', hn', hr'⟩ := Transport.trigger_first _ (h.alreadyTriggered.trans ha)
    refine ⟨?_, ht'.trans ht.symm, hn'.trans hn.symm, hr'.trans (h.round.trans hr.symm), h.syncSource⟩
    exact hc'.trans ((congrArg Clock.trigger h.clock).trans hc.symm)

/-- Loops that both act on a chunk stay alike. -/
theorem advanced (h : l.Alike l') {n : Nat} {sync sync' : Option SyncView} {m m' : Loop} (hm : l.Advanced n sync m)
    (hm' : l'.Advanced n sync' m') (hok : (LoopChannel.processAll (l.context n) l.channels).2 = .ok ())
    (hok' : (LoopChannel.processAll (l'.context n) l'.channels).2 = .ok ())
    (hsync : (sync'.all fun s => !s.mode.isPlaying) = sync.all fun s => !s.mode.isPlaying) : m.Alike m' := by
  have hmoved := hm.moved hok
  have hmoved' := hm'.moved hok'
  rw [h.clock, hsync] at hmoved'
  refine ⟨?_, ?_, ?_, ?_, ?_⟩
  · rw [hmoved.clock, hmoved'.clock, h.clock]
  · rw [hmoved.alreadyTriggered, hmoved'.alreadyTriggered]
  · rw [hmoved.triggeringNow, hmoved'.triggeringNow]
  · rw [hmoved.round, hmoved'.round, h.round]
  · rw [hm.syncSource, hm'.syncSource, h.syncSource]

end Loop.Alike

namespace Scheduler

/-- The same keys, and loops under them that are alike. -/
def Alike (loops loops' : Loops) : Prop := Arena.Related (fun _ => Loop.Alike) loops loops'

namespace Alike
variable {loops loops' : Loops}

theorem sameSources (h : Alike loops loops') : SameSources loops loops' :=
  Arena.Related.mono h fun _ _ _ h => h.syncSource

theorem refreshAfter (h : Alike loops loops') (visit : Loops → LoopKey → Loops)
    (hvisit : ∀ {a b} source, Alike a b → Alike (visit a source) (visit b source)) (key : LoopKey) (round : Nat) :
    Alike (refreshAfter visit loops key round) (refreshAfter visit loops' key round) := by
  unfold Scheduler.refreshAfter
  have hk := h key
  cases hl : loops.get? key <;> cases hl' : loops'.get? key <;> rw [hl, hl'] at hk
  · exact h
  · cases hk
  · cases hk
  · cases hk with
    | some hk =>
      dsimp only
      rw [hk.round]
      split
      · exact h
      · have hset := Arena.Related.modify_both h (k := key) fun _ _ _ => hk.stamp round
        rw [hk.syncSource]
        split
        · exact Arena.Related.modify_both hset fun _ _ hl => hl.refresh none none
        · exact Arena.Related.modify_both (hvisit _ hset) fun _ _ hl => hl.refresh _ _

theorem refresh (h : Alike loops loops') (key : LoopKey) (round hops : Nat) :
    Alike (refresh loops key round hops) (refresh loops' key round hops) := by
  induction hops generalizing loops loops' key with
  | zero => exact h.refreshAfter (fun loops _ => loops) (fun _ h => h) key round
  | succ hops ih => exact h.refreshAfter _ (fun source h => ih h source) key round

theorem ready (h : Alike loops loops') (s : Scheduler) (keys : List LoopKey) :
    Alike (s.ready loops keys) (s.ready loops' keys) :=
  List.foldl_rel h fun key _ _ _ h => Alike.refresh h key (s.round + 1) maxHops

theorem passTriggerAfter (h : Alike loops loops') {visit : Loops → LoopKey → Loops}
    (hvisit : ∀ source, Alike (visit loops source) (visit loops' source)) (key : LoopKey) :
    Alike (passTriggerAfter visit loops key) (passTriggerAfter visit loops' key) := by
  unfold Scheduler.passTriggerAfter
  rw [source?_congr h.sameSources]
  cases source? loops key with
  | none => exact h
  | some source =>
    have hv := hvisit source
    have hsame : ((visit loops' source).get? source).any (·.transport.triggeringNow) =
        ((visit loops source).get? source).any (·.transport.triggeringNow) := by
      have hs := hv source
      generalize (visit loops source).get? source = u at hs ⊢
      generalize (visit loops' source).get? source = v at hs ⊢
      cases hs with
      | none => rfl
      | some hs => exact hs.triggeringNow
    dsimp only
    -- Both runs look at the same source and see the same trigger.
    rw [hsame]
    split
    · exact Arena.Related.modify_both hv fun _ _ hl => hl.trigger
    · exact hv

theorem passTrigger (h : Alike loops loops') (key : LoopKey) (hops : Nat) :
    Alike (passTrigger loops key hops) (passTrigger loops' key hops) := by
  induction hops generalizing key with
  | zero => exact h.passTriggerAfter (fun _ => h) key
  | succ hops ih => exact h.passTriggerAfter ih key

theorem passTriggers (h : Alike loops loops') (keys : List LoopKey) :
    Alike (passTriggers loops keys) (passTriggers loops' keys) :=
  List.foldl_rel h fun key _ _ _ h => Alike.passTrigger h key maxHops

theorem syncView_all (h : Alike loops loops') (key : LoopKey) :
    ((syncView loops' key).all fun s => !s.mode.isPlaying) = (syncView loops key).all fun s => !s.mode.isPlaying := by
  unfold syncView
  rw [source?_congr h.sameSources]
  cases source? loops key with
  | none => rfl
  | some source =>
    have hs := h source
    simp only [Option.bind_some]
    generalize loops.get? source = u at hs ⊢
    generalize loops'.get? source = v at hs ⊢
    cases hs with
    | none => rfl
    | some hs => exact congrArg (fun c : Clock => !c.mode.isPlaying) hs.clock

/-- Channels do not cut the chunk of loops that are all prepared for the cycle. -/
theorem nextFrames (h : Alike loops loops') {s : Scheduler} {keys : List LoopKey} {remaining : Nat}
    (hround : s.Round loops keys remaining) (hround' : s.Round loops' keys remaining)
    (hp : Prepared (fun _ => true) keys remaining loops) (hp' : Prepared (fun _ => true) keys remaining loops') :
    s.nextFrames loops' keys remaining = s.nextFrames loops keys remaining := by
  refine shortest_congr (f := fun key => (((s.ready loops' keys).get? key).bind (·.transport.nextPoi)).map (·.offset))
    (g := fun key => (((s.ready loops keys).get? key).bind (·.transport.nextPoi)).map (·.offset)) keys remaining
    fun k hk m hm => ?_
  cases hl : loops.get? k with
  | none =>
    have hl' := Arena.Related.none_left h hl
    rw [Arena.Related.none_left hround.refreshed hl, Arena.Related.none_left hround'.refreshed hl']
  | some l =>
    obtain ⟨l', hl', halike⟩ := Arena.Related.some_left h hl
    obtain ⟨l₁, hl₁, -, hr⟩ := Arena.Related.some_left hround.refreshed hl
    obtain ⟨l₁', hl₁', -, hr'⟩ := Arena.Related.some_left hround'.refreshed hl'
    simp only [hl₁, hl₁', Option.bind_some]
    rw [(hr hk).cut_eq hm (hp k hk rfl l hl), (hr' hk).cut_eq hm (hp' k hk rfl l' hl'), halike.clock]

theorem nextChunk (h : Alike loops loops') {s : Scheduler} {keys : List LoopKey} {remaining : Nat}
    (hnd : keys.Nodup) (hround : s.Round loops keys remaining) (hround' : s.Round loops' keys remaining)
    (hframes : s.nextFrames loops' keys remaining = s.nextFrames loops keys remaining)
    (hok : (s.nextChunk loops keys remaining).2 = .ok ()) (hok' : (s.nextChunk loops' keys remaining).2 = .ok ()) :
    Alike (s.nextChunk loops keys remaining).1 (s.nextChunk loops' keys remaining).1 := by
  have hok := (chunk_ok hnd hround.pos hround.fits).1 hok
  have hok' := (chunk_ok hnd hround'.pos hround'.fits).1 hok'
  have hready := h.ready s keys
  suffices hadvance : Alike (advance (s.ready loops keys) keys (s.nextFrames loops keys remaining)).1
      (advance (s.ready loops' keys) keys (s.nextFrames loops' keys remaining)).1 from hadvance.passTriggers keys
  intro k
  rw [get?_advance _ hnd, get?_advance _ hnd]
  split
  · next hmem =>
    cases hl : (s.ready loops keys).get? k with
    | none =>
      rw [Arena.Related.none_left hready hl]
      exact .none
    | some l =>
      obtain ⟨l', hl', hk⟩ := Arena.Related.some_left hready hl
      have hadv := (l.process_advanced hround.pos (hround.fits k hmem l hl) (syncView (s.ready loops keys) k)).1
      have hadv' := (l'.process_advanced hround'.pos (hround'.fits k hmem l' hl') (syncView (s.ready loops' keys) k)).1
      have hacts := hok k hmem l hl
      have hacts' := hok' k hmem l' hl'
      rw [hl', hframes]
      rw [hframes] at hadv' hacts'
      exact .some (hk.advanced hadv hadv' hacts hacts' (hready.syncView_all k))
  · exact hready k

end Alike

variable {s : Scheduler} {loops loops' : Loops} {keys : List LoopKey} {n : Nat}

/-- Two undisturbed cycles of loops that are alike leave them alike. -/
theorem Undisturbed.alike (hu : Undisturbed (fun _ => true) keys s loops n)
    (hu' : Undisturbed (fun _ => true) keys s loops' n) (h : Alike loops loops') (hnd : keys.Nodup)
    (ha : s.Ahead loops) (ha' : s.Ahead loops') (hp : Prepared (fun _ => true) keys n loops)
    (hp' : Prepared (fun _ => true) keys n loops') (hmax : n ≤ maxFrames) (result result' : Except Error Unit) :
    Alike (s.processFrom loops keys n 0 result).2.1 (s.processFrom loops' keys n 0 result').2.1 := by
  refine cycle_induction hnd (P := fun s loops n => ∀ loops' result result', Alike loops loops' → s.Ahead loops' →
    Undisturbed (fun _ => true) keys s loops n → Undisturbed (fun _ => true) keys s loops' n →
    Prepared (fun _ => true) keys n loops → Prepared (fun _ => true) keys n loops' → n ≤ maxFrames →
    Alike (s.processFrom loops keys n 0 result).2.1 (s.processFrom loops' keys n 0 result').2.1)
    ?done ?chunk ha loops' result result' h ha' hu hu' hp hp' hmax
  case done =>
    intro s loops _ loops' result result' h _ _ _ _ _ _
    rwa [processFrom_zero, processFrom_zero]
  case chunk =>
    intro s loops n ha hround ih loops' result result' h ha' hu hu' hp hp' hmax
    have hn : 0 < n := Nat.lt_of_lt_of_le hround.pos hround.le
    have hround' := ha'.begin keys hn
    have hframes := h.nextFrames hround hround' hp hp'
    obtain ⟨hnone, hrest⟩ := hu.step hn
    obtain ⟨hnone', hrest'⟩ := hu'.step hn
    have hchunk := h.nextChunk hnd hround hround' hframes ((hp.nextChunk_ok hround hnd hmax).2 hnone)
      ((hp'.nextChunk_ok hround' hnd hmax).2 hnone')
    have hprepared' := hp'.chunk hround' hnd
    rw [hframes] at hrest' hprepared'
    rw [processFrom_eq hround, processFrom_eq hround', hframes]
    exact ih _ _ _ hchunk (hround'.ahead hnd ha') hrest hrest' (hp.chunk hround hnd) hprepared' (by omega)

/-! ## Loops without their channels -/

/-- The loops without their channels. -/
def emptied (loops : Loops) : Loops := loops.map fun l => { l with channels := [] }

theorem get?_emptied (loops : Loops) (k : LoopKey) :
    (emptied loops).get? k = (loops.get? k).map fun l => { l with channels := [] } := Arena.get?_map _ _ _

theorem alike_emptied (loops : Loops) : Alike loops (emptied loops) := fun k => by
  rw [get?_emptied]
  cases loops.get? k with
  | none => exact .none
  | some l => exact .some ⟨rfl, rfl, rfl, rfl, rfl⟩

theorem Ahead.emptied (h : s.Ahead loops) : s.Ahead (emptied loops) := by
  intro k l hl
  rw [get?_emptied, Option.map_eq_some_iff] at hl
  obtain ⟨l₀, hl₀, rfl⟩ := hl
  exact h k l₀ hl₀

theorem bare_emptied (among : LoopKey → Bool) (keys : List LoopKey) (loops : Loops) :
    Bare among keys (emptied loops) := by
  intro k _ _ l hl
  rw [get?_emptied, Option.map_eq_some_iff] at hl
  obtain ⟨l₀, -, rfl⟩ := hl
  rfl

theorem Alike.clockAt (h : Alike loops loops') : clockAt loops' = clockAt loops := by
  funext k
  have hk := h k
  unfold Scheduler.clockAt
  generalize loops.get? k = u at hk ⊢
  generalize loops'.get? k = v at hk ⊢
  cases hk with
  | none => rfl
  | some hk => exact congrArg some hk.clock

/-! ## The chunk of a channel that overreaches -/

/-- A channel overreaches only where the position of its loop moves. -/
theorem moved_ne_of_overreaches {l : Loop} {n : Nat} {b : ChannelBody} (hn : 0 < n)
    (h : b.Overreaches (l.context n)) : l.transport.clock.moved n ≠ l.transport.clock := by
  have hmode : (l.context n).mode = .replacing ∨ (l.context n).mode = .recordingDryIntoWet := by
    cases b with
    | midi => exact h.elim
    | audio c => exact Activity.mode_of_replace (Track.ofModes_of_replace h.1)
  intro heq
  have hpos : (l.transport.clock.moved n).position = l.transport.position := congrArg Clock.position heq
  unfold Loop.context Transport.chunkContext at hmode
  rw [← Transport.clock_advanced] at hpos
  cases hm : l.transport.mode with
  | replacing =>
    have hmoves : l.transport.position + n = l.transport.position := by simpa [hm, Transport.advanced] using hpos
    omega
  | playing | playingDryThroughWet | recordingDryIntoWet =>
    -- at its end the loop acts as if it had stopped
    have hstuck : min (l.transport.position + n) l.transport.length = l.transport.position := by
      simpa [hm, Transport.advanced] using hpos
    simp [hm, hstuck, Transport.beginChunk, Transport.advanced] at hmode
  | stopped | unknown | recording => simp [hm, Transport.beginChunk] at hmode

/-- A loop with a channel that overreaches stands still for the chunk. -/
theorem advance_of_overreaches {remaining : Nat} (hround : s.Round loops keys remaining) (hnd : keys.Nodup)
    (hp : Prepared (fun _ => true) keys remaining loops) (hmax : remaining ≤ maxFrames) {key : LoopKey}
    (hk : key ∈ keys) {l : Loop} (hl : (s.ready loops keys).get? key = some l) {c : LoopChannel} (hc : c ∈ l.channels)
    (h : c.body.Overreaches (l.context (s.nextFrames loops keys remaining))) :
    clockAt (advance (s.ready loops keys) keys (s.nextFrames loops keys remaining)).1 key = some l.transport.clock := by
  have hfails : (LoopChannel.processAll (l.context (s.nextFrames loops keys remaining)) l.channels).2 ≠ .ok () :=
    fun hok => (hp.processAll_ok hround hmax hk rfl hl).1 hok c hc h
  have hheld := (l.process_advanced hround.pos (hround.fits key hk l hl) (syncView (s.ready loops keys) key)).1.held hfails
  rw [Scheduler.clockAt, get?_advance _ hnd, if_pos hk, hl]
  exact congrArg some hheld

/-- A cycle that reports no error is, in time, that of the same loops without
channels; and it reports none exactly if no channel is ever to replace frames
behind its data. A loop with such a channel stands still for the chunk, in which
it would have moved. -/
theorem channels_keep_time (s : Scheduler) (loops : Loops) (keys : List LoopKey) (n : Nat) (hnd : keys.Nodup)
    (ha : s.Ahead loops) (hp : Prepared (fun _ => true) keys n loops) (hmax : n ≤ maxFrames) :
    ((s.process loops keys n).2.2 = .ok () ↔ Undisturbed (fun _ => true) keys s loops n) ∧
    (Undisturbed (fun _ => true) keys s loops n →
      clockAt (s.process loops keys n).2.1 = clockAt (s.process (emptied loops) keys n).2.1) ∧
    ∀ key ∈ keys, ∀ l, (s.ready loops keys).get? key = some l → ∀ c ∈ l.channels, 0 < n →
      c.body.Overreaches (l.context (s.nextFrames loops keys n)) →
      clockAt (advance (s.ready loops keys) keys (s.nextFrames loops keys n)).1 key = some l.transport.clock ∧
        l.transport.clock.moved (s.nextFrames loops keys n) ≠ l.transport.clock := by
  have hbare := bare_emptied (fun _ => true) keys loops
  refine ⟨(processFrom_ok hnd ha hp hmax (.ok ())).trans (and_iff_right rfl), fun hu => ?_, ?_⟩
  · exact (hu.alike (hbare.undisturbed hnd ha.emptied n) (alike_emptied loops) hnd ha ha.emptied hp (hbare.prepared n)
      hmax (.ok ()) (.ok ())).clockAt.symm
  · intro key hk l hl c hc hn h
    have hround := ha.begin keys hn
    exact ⟨advance_of_overreaches hround hnd hp hmax hk hl hc h, moved_ne_of_overreaches hround.pos h⟩

/-- A replacing loop of eight frames whose channel has no data, before a cycle of
four frames. -/
def retake : Loops :=
  let l : Loop := {
    transport := { Transport.new with mode := .replacing, length := 8 }
    channels := [{ key := ⟨0, 0⟩, input := some ⟨0, 0⟩, body := .audio (.new 4 .direct none) }] }
  { slots := [⟨0, some (l.prepare 4 fun _ => true)⟩], size := 1 }

theorem channels_keep_time_retake :
    ((Scheduler.new 16).process retake retake.keys 4).2.2 = .ok () ↔
      Undisturbed (fun _ => true) retake.keys (Scheduler.new 16) retake 4 := by
  have hretake : ∀ p ∈ retake.toList, p.2.transport.round = 0 ∧ ∀ c ∈ p.2.channels, c.body.track.left = 4 := by
    simp [retake, Arena.toList, Loop.prepare, LoopChannel.prepare, ChannelBody.prepare, ChannelBody.track,
      Audio.Channel.prepare, Track.prepare, Track.left, Transport.new]
  refine (channels_keep_time (.new 16) retake retake.keys 4 (by decide) ?_ ?_ (by decide)).1
  · exact fun key l h => Nat.le_of_eq (hretake _ (Arena.mem_toList_of_get? h)).1
  · exact fun key _ _ l h => (hretake _ (Arena.mem_toList_of_get? h)).2

end Scheduler

end Overdub
