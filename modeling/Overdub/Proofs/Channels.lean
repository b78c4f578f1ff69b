import Mathlib.Tactic.SplitIfs
import Overdub.Loop.Channel
/-!
# Channels within a cycle

A channel counts the frames of a cycle, and its point of interest is where they
end. Within the cycle a chunk fails for one reason only: an audio channel is to
replace frames behind its data (`Track.Overreaches`).
-/

namespace Overdub

namespace Track

/-- The frames of the cycle that the channel has not processed. -/
def left (t : Track) : Nat := t.cycleFrames - t.framesDone

/-- A channel needs its loop to stop where the buffers of the cycle end. -/
theorem nextPoi_eq_some {t : Track} {q : PoiQuery} {n : Nat} (h : t.nextPoi q = some n) : 0 < n ∧ n = t.left := by
  unfold nextPoi at h
  split at h
  · cases h
  · dsimp only at h
    split at h
    · next hb =>
      simp only [Bool.and_eq_true, decide_eq_true_eq] at hb
      cases h
      exact ⟨hb.2, rfl⟩
    · cases h

theorem overruns_of_left {t : Track} {n : Nat} (hn : 0 < n) (h : n ≤ t.left) : t.overruns n = false := by
  simp only [overruns, left, decide_eq_false_iff_not] at h ⊢
  omega

/-- What the channel may do with a chunk, given its ports. -/
def activityIn (t : Track) (context : ChunkContext) : Activity :=
  t.permit (t.task context.mode context.next context.posBefore).activity

/-- Where in the data the chunk lies. -/
def positionIn (t : Track) (context : ChunkContext) : Int :=
  (t.task context.mode context.next context.posBefore).position

/-- The chunk replaces frames behind the data. -/
def Overreaches (t : Track) (context : ChunkContext) : Prop :=
  (t.activityIn context).replace = true ∧ (t.dataLength : Int) < t.positionIn context + context.frames

end Track

/-- Of playing, recording and replacing at most one is done. -/
def Activity.Exclusive (a : Activity) : Prop :=
  (a.playback = true → a.record = false ∧ a.replace = false) ∧ (a.record = true → a.replace = false)

instance (a : Activity) : Decidable a.Exclusive := inferInstanceAs (Decidable (_ ∧ _))

theorem Activity.ofModes_exclusive (loopMode : LoopMode) (channelMode : ChannelMode) :
    (ofModes loopMode channelMode).Exclusive := by
  cases channelMode <;> cases loopMode <;> decide

/-- Only some modes replace. -/
theorem Activity.mode_of_replace {loopMode : LoopMode} {channelMode : ChannelMode}
    (h : (ofModes loopMode channelMode).replace = true) :
    loopMode = .replacing ∨ loopMode = .recordingDryIntoWet := by
  revert h
  cases channelMode <;> cases loopMode <;> decide

/-- What is to come makes a channel neither record nor replace. -/
theorem ChunkTask.of_activity (loopMode : LoopMode) (next : Upcoming) (position : Nat) (startOffset : Int)
    (channelMode : ChannelMode) :
    let activity := (ChunkTask.of loopMode next position startOffset channelMode).activity
    activity.replace = (Activity.ofModes loopMode channelMode).replace ∧
      activity.record = (Activity.ofModes loopMode channelMode).record := by
  unfold ChunkTask.of
  dsimp only
  split
  · exact ⟨rfl, rfl⟩
  · split_ifs <;> exact ⟨rfl, rfl⟩

/-- Where the chunk lies makes no difference to what the channel does with it. -/
theorem ChunkTask.of_activity_anywhere (loopMode : LoopMode) (next : Upcoming) (position position' : Nat)
    (startOffset startOffset' : Int) (channelMode : ChannelMode) :
    (ChunkTask.of loopMode next position startOffset channelMode).activity =
      (ChunkTask.of loopMode next position' startOffset' channelMode).activity := by
  unfold ChunkTask.of
  dsimp only
  split
  · rfl
  · split_ifs <;> rfl

/-- A channel that plays with its loop does so at the position of the loop. -/
theorem ChunkTask.of_playback {loopMode : LoopMode} {channelMode : ChannelMode}
    (h : (Activity.ofModes loopMode channelMode).playback = true) (next : Upcoming) (position : Nat)
    (startOffset : Int) :
    let task := ChunkTask.of loopMode next position startOffset channelMode
    task.activity.playback = true ∧ task.position = position + startOffset := by
  have hbusy : (Activity.ofModes loopMode channelMode).isIdle = false := by simp [Activity.isIdle, h]
  unfold ChunkTask.of
  dsimp only
  split
  · exact ⟨h, rfl⟩
  · rw [hbusy]
    simp only [Bool.false_and, Bool.false_eq_true, if_false]
    split_ifs <;> exact ⟨h, rfl⟩

theorem Track.ofModes_of_replace {t : Track} {context : ChunkContext} (h : (t.activityIn context).replace = true) :
    (Activity.ofModes context.mode t.mode).replace = true := by
  simp only [activityIn, permit, task, Bool.and_eq_true, ChunkTask.of_activity] at h
  exact h.1

theorem ChunkTask.of_exclusive (loopMode : LoopMode) (next : Upcoming) (position : Nat) (startOffset : Int)
    (channelMode : ChannelMode) : (ChunkTask.of loopMode next position startOffset channelMode).activity.Exclusive := by
  have hnow := Activity.ofModes_exclusive loopMode channelMode
  unfold ChunkTask.of
  dsimp only
  split
  · exact hnow
  · split_ifs with hidle
    · -- Only a channel that does nothing yet plays ahead.
      simp only [Activity.isIdle, Bool.and_eq_true, Bool.not_eq_true', Bool.or_eq_false_iff] at hidle
      exact ⟨fun _ => ⟨hidle.1.1.1.2, hidle.1.1.2⟩, fun _ => hidle.1.1.2⟩
    · exact hnow
    · exact hnow

theorem Track.activityIn_exclusive (t : Track) (context : ChunkContext) : (t.activityIn context).Exclusive := by
  obtain ⟨hplay, hrecord⟩ := ChunkTask.of_exclusive context.mode context.next context.posBefore t.startOffset t.mode
  simp only [Activity.Exclusive, activityIn, permit, task, Bool.and_eq_true]
  constructor
  · rintro ⟨h, -⟩
    simp [hplay h]
  · rintro ⟨h, -⟩
    simp [hrecord h]

theorem Track.activityIn_ports (t : Track) (context : ChunkContext) :
    ((t.activityIn context).playback = true → t.hasOutput = true) ∧
      ((t.activityIn context).record = true → t.hasInput = true) ∧
        ((t.activityIn context).replace = true → t.hasInput = true) ∧
          ((t.activityIn context).preRecord = true → t.hasInput = true) := by
  simp only [activityIn, permit, Bool.and_eq_true]
  exact ⟨And.right, And.right, And.right, And.right⟩

theorem Track.activityIn_record {t : Track} {context : ChunkContext} (h : (t.activityIn context).replace = true) :
    (t.activityIn context).record = false := by
  cases hrecord : (t.activityIn context).record with
  | false => rfl
  | true => rw [(t.activityIn_exclusive context).2 hrecord] at h; exact absurd h (by decide)

/-- No chunk is so long that a count of its frames would be cut off. -/
theorem min_clampFrames {n : Nat} (h : n ≤ maxFrames) (m : Nat) : min n (clampFrames m) = min n m := by
  unfold clampFrames
  omega

/-! ## Audio channels -/

namespace Audio.Channel

@[simp] theorem queue_track (c : Channel) (command : Command) : (c.queue command).track = c.track := rfl

@[simp] theorem queuePlayback_track (c : Channel) (position : Int) (n : Nat) :
    (c.queuePlayback position n).track = c.track := by
  unfold queuePlayback
  dsimp only
  split <;> rfl

@[simp] theorem queueRecord_track (c : Channel) (loopLength n : Nat) :
    (c.queueRecord loopLength n).track = c.track.record (c.track.recordFrom loopLength) n := rfl

@[simp] theorem queuePreRecord_track (c : Channel) (n : Nat) :
    (c.queuePreRecord n).track = { c.track with preRecordLength := c.track.preRecordLength + n } := rfl

theorem queueReplace_track (c : Channel) (position : Int) (n : Nat) :
    ∃ version, (c.queueReplace position n).1.track = { c.track with version } := by
  unfold queueReplace
  dsimp only
  split <;> split
  · exact ⟨c.track.version, rfl⟩
  · exact ⟨c.track.version + 1, rfl⟩
  · exact ⟨c.track.version, rfl⟩
  · exact ⟨c.track.version + 1, rfl⟩

theorem endPreRecord_track (c : Channel) (next : Activity) :
    (c.endPreRecord next).track =
      if c.track.endsPreRecord next then
        if next.record then c.track.promotePreRecord else c.track.discardPreRecord
      else c.track := by
  unfold endPreRecord
  split
  · split <;> rfl
  · rfl

@[simp] theorem queueReplace_cycleFrames (c : Channel) (position : Int) (n : Nat) :
    (c.queueReplace position n).1.track.cycleFrames = c.track.cycleFrames := by
  obtain ⟨version, h⟩ := c.queueReplace_track position n
  rw [h]

@[simp] theorem queueReplace_framesDone (c : Channel) (position : Int) (n : Nat) :
    (c.queueReplace position n).1.track.framesDone = c.track.framesDone := by
  obtain ⟨version, h⟩ := c.queueReplace_track position n
  rw [h]

@[simp] theorem queueReplace_startOffset (c : Channel) (position : Int) (n : Nat) :
    (c.queueReplace position n).1.track.startOffset = c.track.startOffset := by
  obtain ⟨version, h⟩ := c.queueReplace_track position n
  rw [h]

/-- Replacing fails if it leads behind the data. -/
theorem queueReplace_ok (c : Channel) (position : Int) {n : Nat} (hn : 0 < n) (hmax : n ≤ maxFrames) :
    (c.queueReplace position n).2 = .ok () ↔ position + n ≤ c.track.dataLength := by
  unfold queueReplace
  rw [min_clampFrames hmax]
  dsimp only
  split
  · next h =>
    simp only [reduceCtorEq, false_iff]
    omega
  · next h =>
    simp only [true_iff]
    omega

theorem process_ok (c : Channel) (context : ChunkContext) (hn : 0 < context.frames) (hmax : context.frames ≤ maxFrames)
    (h : c.track.overruns context.frames = false) :
    (c.process context).2 = .ok () ↔ ¬ c.track.Overreaches context := by
  unfold process Track.Overreaches
  simp only [h, Bool.false_eq_true, if_false]
  rw [show c.track.permit (c.track.task context.mode context.next context.posBefore).activity =
    c.track.activityIn context from rfl]
  by_cases hr : (c.track.activityIn context).replace = true
  · have hrec := Track.activityIn_record hr
    have hlen : (c.endPreRecord (c.track.activityIn context)).track.dataLength = c.track.dataLength := by
      rw [endPreRecord_track, hrec]
      split <;> rfl
    simp only [hr, hrec, if_true, Bool.false_eq_true, if_false, true_and, Int.not_lt]
    rw [queueReplace_ok _ _ hn hmax]
    split <;> simp only [queuePlayback_track, hlen, Track.positionIn]
  · simp [hr]

/-- A chunk within the cycle moves the channel on by its frames. -/
theorem process_progress (c : Channel) (context : ChunkContext) (h : c.track.overruns context.frames = false) :
    (c.process context).1.track.cycleFrames = c.track.cycleFrames ∧
      (c.process context).1.track.framesDone = c.track.framesDone + context.frames := by
  have hcycle : ∀ next, (c.endPreRecord next).track.cycleFrames = c.track.cycleFrames ∧
      (c.endPreRecord next).track.framesDone = c.track.framesDone := fun next => by
    rw [endPreRecord_track]
    split
    · split <;> exact ⟨rfl, rfl⟩
    · exact ⟨rfl, rfl⟩
  unfold process
  simp only [h, Bool.false_eq_true, if_false, Track.endChunk]
  split_ifs <;> simp [hcycle, Track.record]

/-- A chunk leaves behind what it was for, and the start of the data that the end
of keeping aside has set. -/
theorem process_anchor (c : Channel) (context : ChunkContext) (h : c.track.overruns context.frames = false) :
    (c.process context).1.track.lastActivity = c.track.activityIn context ∧
      (c.process context).1.track.startOffset =
        (c.endPreRecord (c.track.activityIn context)).track.startOffset := by
  unfold process
  simp only [h, Bool.false_eq_true, if_false, Track.endChunk]
  rw [show c.track.permit (c.track.task context.mode context.next context.posBefore).activity =
    c.track.activityIn context from rfl]
  split_ifs <;> simp [Track.record]

end Audio.Channel

/-! ## MIDI channels -/

namespace Midi.Channel

theorem interrupt_track (c : Channel) (activity : Activity) (context : ChunkContext) :
    (c.interrupt activity context).track = c.track := by
  unfold interrupt
  dsimp only
  split <;> rfl

theorem endPreRecord_cycle (c : Channel) (next : Activity) :
    (c.endPreRecord next).track.cycleFrames = c.track.cycleFrames ∧
      (c.endPreRecord next).track.framesDone = c.track.framesDone := by
  unfold endPreRecord
  split_ifs <;> exact ⟨rfl, rfl⟩

theorem process_ok (c : Channel) (context : ChunkContext) (h : c.track.overruns context.frames = false) :
    (c.process context).2 = .ok () := by
  unfold process
  simp only [h, Bool.false_eq_true, if_false]

/-- A chunk within the cycle moves the channel on by its frames. -/
theorem process_progress (c : Channel) (context : ChunkContext) (h : c.track.overruns context.frames = false) :
    (c.process context).1.track.cycleFrames = c.track.cycleFrames ∧
      (c.process context).1.track.framesDone = c.track.framesDone + context.frames := by
  unfold process
  simp only [h, Bool.false_eq_true, if_false, Track.endChunk]
  split_ifs <;>
    simp [endPreRecord_cycle, interrupt_track, queuePlayback, queueRecord, queuePreRecord, queue, Track.record]

end Midi.Channel

/-! ## The channels of a loop -/

/-- The chunk replaces frames behind the data of the channel. -/
def ChannelBody.Overreaches (context : ChunkContext) : ChannelBody → Prop
  | .audio c => c.track.Overreaches context
  | .midi _ => False

theorem ChannelBody.process_ok (b : ChannelBody) {context : ChunkContext} (hn : 0 < context.frames)
    (hmax : context.frames ≤ maxFrames) (h : context.frames ≤ b.track.left) :
    (b.process context).2 = .ok () ↔ ¬ b.Overreaches context := by
  have hfit := Track.overruns_of_left hn h
  cases b with
  | audio c => exact c.process_ok context hn hmax hfit
  | midi c => exact iff_of_true (c.process_ok context hfit) not_false

theorem ChannelBody.process_left (b : ChannelBody) {context : ChunkContext} (hn : 0 < context.frames)
    (h : context.frames ≤ b.track.left) : (b.process context).1.track.left = b.track.left - context.frames := by
  have hfit := Track.overruns_of_left hn h
  unfold Track.left
  cases b with
  | audio c =>
    obtain ⟨hcycle, hdone⟩ := c.process_progress context hfit
    simp only [process, track, hcycle, hdone]
    omega
  | midi c =>
    obtain ⟨hcycle, hdone⟩ := c.process_progress context hfit
    simp only [process, track, hcycle, hdone]
    omega

namespace LoopChannel
variable {channels : List LoopChannel} {context : ChunkContext}

theorem nextPoi_eq_some {q : PoiQuery} {n : Nat} (h : nextPoi channels q = some n) :
    ∃ c ∈ channels, c.body.track.nextPoi q = some n := by
  suffices hall : ∀ poi, channels.foldl (fun poi c => minOffset poi (c.body.track.nextPoi q)) poi = some n →
      poi = some n ∨ ∃ c ∈ channels, c.body.track.nextPoi q = some n from (hall none h).resolve_left (by simp)
  clear h
  induction channels with
  | nil => exact fun poi h => .inl h
  | cons c rest ih =>
    intro poi h
    rcases ih _ h with hc | ⟨c', hc', hn⟩
    · cases poi with
      | none => exact .inr ⟨c, List.mem_cons_self, by simpa [minOffset] using hc⟩
      | some m =>
        cases hm : c.body.track.nextPoi q with
        | none => exact .inl (by simpa [minOffset, hm] using hc)
        | some k =>
          have hmin : min m k = n := by simpa [minOffset, hm] using hc
          rcases Nat.le_total m k with hle | hle
          · exact .inl (by rw [← hmin, Nat.min_eq_left hle])
          · exact .inr ⟨c, List.mem_cons_self, by rw [hm, ← hmin, Nat.min_eq_right hle]⟩
    · exact .inr ⟨c', List.mem_cons_of_mem _ hc', hn⟩

theorem processAll_cons (c : LoopChannel) (rest : List LoopChannel) :
    processAll context (c :: rest) =
      ({ c with body := (c.body.process context).1 } :: (processAll context rest).1,
        (processAll context rest).2.bind fun _ => (c.body.process context).2) := rfl

/-- A chunk within the cycle is well unless a channel overreaches. -/
theorem processAll_ok (hn : 0 < context.frames) (hmax : context.frames ≤ maxFrames)
    (h : ∀ c ∈ channels, context.frames ≤ c.body.track.left) :
    (processAll context channels).2 = .ok () ↔ ∀ c ∈ channels, ¬ c.body.Overreaches context := by
  induction channels with
  | nil => simp [processAll]
  | cons c rest ih =>
    rw [List.forall_mem_cons] at h ⊢
    rw [← ih h.2, ← c.body.process_ok hn hmax h.1, processAll_cons]
    cases (processAll context rest).2 with
    | error => simp [Except.bind]
    | ok => simp [Except.bind]

/-- All channels keep pace with their loop. -/
theorem processAll_left (hn : 0 < context.frames) {m : Nat} (hm : context.frames ≤ m)
    (h : ∀ c ∈ channels, c.body.track.left = m) :
    ∀ c ∈ (processAll context channels).1, c.body.track.left = m - context.frames := by
  induction channels with
  | nil => simp [processAll]
  | cons c rest ih =>
    rw [List.forall_mem_cons] at h
    rw [processAll_cons, List.forall_mem_cons]
    refine ⟨?_, ih h.2⟩
    rw [ChannelBody.process_left c.body hn (h.1 ▸ hm), h.1]

end LoopChannel

end Overdub
