import Overdub.Proofs.Deferral
/-!
# What a chunk makes of the extent of a channel

The extent of a channel is its track but for the position played last and the count of
changes, which depend on how frames are divided. A chunk acts on it by its `Cue`: the
mode that the channel is told, the one that is imminent, and where the loop is
(`process_extent`, `process_ok_iff`). As long as the cue goes on, a chunk is so many
frames (`play_eq_after`), and it fails exactly if one of them does (`fails_iff`); the
start offset must not be negative for that.
-/

namespace Overdub

/-! ## Cues -/

/-- What a channel does in one mode of its loop with another one imminent. -/
def Activity.ahead (loopMode : LoopMode) (soon : Option LoopMode) (channelMode : ChannelMode) : Activity :=
  let now := ofModes loopMode channelMode
  match soon with
  | none => now
  | some next =>
    let coming := ofModes next channelMode
    if now.isIdle && coming.playback then { now with playback := true }
    else if !now.record && coming.record then { now with preRecord := true }
    else now

/-- What is to come makes a channel neither record nor replace. -/
theorem Activity.ahead_now (loopMode : LoopMode) (soon : Option LoopMode) (channelMode : ChannelMode) :
    (ahead loopMode soon channelMode).replace = (ofModes loopMode channelMode).replace ∧
      (ahead loopMode soon channelMode).record = (ofModes loopMode channelMode).record := by
  unfold ahead
  cases soon with
  | none => exact ⟨rfl, rfl⟩
  | some next =>
    dsimp only
    split_ifs <;> exact ⟨rfl, rfl⟩

theorem ChunkTask.activity_of (loopMode : LoopMode) (next : Upcoming) (position : Nat) (startOffset : Int)
    (channelMode : ChannelMode) :
    (ChunkTask.of loopMode next position startOffset channelMode).activity =
      .ahead loopMode (next.imminent?.map (·.1)) channelMode := by
  unfold ChunkTask.of Activity.ahead
  cases next.imminent? with
  | none => rfl
  | some coming =>
    dsimp only [Option.map_some]
    split_ifs <;> rfl

/-- What a channel goes by: the mode of its loop, the mode that is imminent, and where the
loop is. -/
structure Cue where
  mode : LoopMode
  soon : Option LoopMode
  position : Nat
  length : Nat
  deriving DecidableEq, Repr

/-- The cue of a chunk. -/
def ChunkContext.cue (c : ChunkContext) : Cue := ⟨c.mode, c.next.imminent?.map (·.1), c.posBefore, c.lenBefore⟩

/-- The cues of `n` frames of which each goes on where the one before it ends. -/
structure Cue.Continues (cue : Cue) (cues : Nat → Cue) (n : Nat) : Prop where
  mode : ∀ i < n, (cues i).mode = cue.mode
  soon : ∀ i < n, (cues i).soon = cue.soon
  position : cue.mode = .replacing ∨ cue.mode = .recordingDryIntoWet → ∀ i < n, (cues i).position = cue.position + i
  length : cue.mode = .recording → ∀ i < n, (cues i).length = cue.length + i

theorem Cue.Continues.mono {cue : Cue} {cues : Nat → Cue} {n m : Nat} (h : cue.Continues cues n) (hm : m ≤ n) :
    cue.Continues cues m where
  mode i hi := h.mode i (Nat.lt_of_lt_of_le hi hm)
  soon i hi := h.soon i (Nat.lt_of_lt_of_le hi hm)
  position hmode i hi := h.position hmode i (Nat.lt_of_lt_of_le hi hm)
  length hmode i hi := h.length hmode i (Nat.lt_of_lt_of_le hi hm)

theorem Cue.Continues.congr {cue : Cue} {cues cues' : Nat → Cue} {n : Nat} (h : cue.Continues cues n)
    (hcues : ∀ i < n, cues i = cues' i) : cue.Continues cues' n where
  mode i hi := hcues i hi ▸ h.mode i hi
  soon i hi := hcues i hi ▸ h.soon i hi
  position hmode i hi := hcues i hi ▸ h.position hmode i hi
  length hmode i hi := hcues i hi ▸ h.length hmode i hi

/-! ## Extents -/

/-- The track without the position played last and the count of changes. -/
def Track.core (t : Track) : Track := { t with playedBack := none, version := 0 }

/-- How far a channel has got: its track, apart from what the division of frames shows in. -/
structure Extent where
  dataType : DataType
  track : Track
  deriving DecidableEq, Repr

def ChannelBody.extent (b : ChannelBody) : Extent := ⟨b.dataType, b.track.core⟩

namespace Extent
variable {x : Extent} {cue : Cue} {cues : Nat → Cue} {n : Nat}

/-- MIDI is not replaced. -/
def activity (x : Extent) (cue : Cue) : Activity :=
  let a := x.track.permit (.ahead cue.mode cue.soon x.track.mode)
  { a with replace := a.replace && decide (x.dataType = .audio) }

/-- Ends keeping aside in front of what is to come. -/
def endAside (x : Extent) (a : Activity) : Extent :=
  { x with
    track :=
      if x.track.endsPreRecord a then if a.record then x.track.promotePreRecord else x.track.discardPreRecord
      else x.track }

/-- Records `n` frames behind `length` frames of the loop. -/
def record (x : Extent) (length n : Nat) : Extent :=
  { x with track := { x.track with dataLength := x.track.recordFrom length + n } }

/-- Keeps `n` frames aside. -/
def keep (x : Extent) (n : Nat) : Extent :=
  { x with track := { x.track with preRecordLength := x.track.preRecordLength + n } }

/-- Does for `n` frames what they are for. -/
def act (x : Extent) (a : Activity) (length n : Nat) : Extent :=
  let x := if a.record then x.record length n else x
  let x := if a.preRecord then x.keep n else x
  { x with track := x.track.endChunk a n }

/-- `n` frames at a cue. -/
def play (x : Extent) (cue : Cue) (n : Nat) : Extent :=
  (x.endAside (x.activity cue)).act (x.activity cue) cue.length n

/-- The frames go past the end of the cycle, or are to be replaced behind the data. -/
def Fails (x : Extent) (cue : Cue) (n : Nat) : Prop :=
  x.track.overruns n = true ∨
    (x.activity cue).replace = true ∧ (x.track.dataLength : Int) < cue.position + x.track.startOffset + n

/-- `n` single frames at their cues. -/
def after (x : Extent) (cues : Nat → Cue) (n : Nat) : Extent := eachFrame (fun i x => x.play (cues i) 1) n x

/-- One of `n` single frames fails. -/
def Stumbles (x : Extent) (cues : Nat → Cue) (n : Nat) : Prop := ∃ i < n, (x.after cues i).Fails (cues i) 1

end Extent

/-! ## Channels by their extent -/

theorem Track.activityIn_eq (t : Track) (context : ChunkContext) :
    t.activityIn context = t.permit (.ahead context.cue.mode context.cue.soon t.mode) :=
  congrArg t.permit (ChunkTask.activity_of _ _ _ _ _)

/-- What is replaced lies where the loop is. -/
theorem Track.positionIn_of_replace {t : Track} {context : ChunkContext} (h : (t.activityIn context).replace = true) :
    t.positionIn context = context.posBefore + t.startOffset := by
  have hnow := t.ofModes_of_replace h
  have hbusy : (Activity.ofModes context.mode t.mode).isIdle = false := by simp [Activity.isIdle, hnow]
  unfold positionIn task ChunkTask.of
  cases context.next.imminent? with
  | none => rfl
  | some coming =>
    dsimp only
    rw [hbusy, Bool.false_and, if_neg Bool.false_ne_true]
    split_ifs <;> rfl

namespace Audio.Channel

theorem activity_extent (c : Channel) (context : ChunkContext) :
    (ChannelBody.audio c).extent.activity context.cue = c.track.activityIn context := by
  rw [Track.activityIn_eq]
  simp [Extent.activity, ChannelBody.extent, ChannelBody.dataType, ChannelBody.track, Track.permit, Track.core]

theorem endPreRecord_extent (c : Channel) (a : Activity) :
    (ChannelBody.audio (c.endPreRecord a)).extent = (ChannelBody.audio c).extent.endAside a := by
  show Extent.mk .audio (c.endPreRecord a).track.core = Extent.mk .audio (if c.track.endsPreRecord a then _ else _)
  rw [endPreRecord_track]
  split_ifs <;> rfl

theorem queueReplace_extent (c : Channel) (position : Int) (n : Nat) :
    (ChannelBody.audio (c.queueReplace position n).1).extent = (ChannelBody.audio c).extent := by
  obtain ⟨version, h⟩ := c.queueReplace_track position n
  show Extent.mk .audio (c.queueReplace position n).1.track.core = _
  rw [h]
  rfl

theorem process_extent (c : Channel) (context : ChunkContext) (h : c.track.overruns context.frames = false) :
    (ChannelBody.audio (c.process context).1).extent =
      (ChannelBody.audio c).extent.play context.cue context.frames := by
  have hplays : ∀ (c : Channel) position, (ChannelBody.audio (c.queuePlayback position context.frames)).extent =
      (ChannelBody.audio c).extent := fun c position =>
    congrArg (fun t : Track => Extent.mk .audio t.core) (c.queuePlayback_track position context.frames)
  have hrecords : ∀ (c : Channel) length, (ChannelBody.audio (c.queueRecord length context.frames)).extent =
      (ChannelBody.audio c).extent.record length context.frames := fun _ _ => rfl
  have hkeeps : ∀ c : Channel, (ChannelBody.audio (c.queuePreRecord context.frames)).extent =
      (ChannelBody.audio c).extent.keep context.frames := fun _ => rfl
  have hends : ∀ (c : Channel) a, (ChannelBody.audio
      { c with track := c.track.endChunk a context.frames }).extent =
      { (ChannelBody.audio c).extent with track := (ChannelBody.audio c).extent.track.endChunk a context.frames } :=
    fun _ _ => rfl
  unfold Extent.play
  rw [activity_extent, ← endPreRecord_extent, process_eq c context h]
  dsimp only
  rw [hends]
  simp only [apply_ite ChannelBody.audio, apply_ite ChannelBody.extent, hkeeps, queueReplace_extent, hrecords, hplays,
    ite_self]
  rfl

end Audio.Channel

namespace Midi.Channel

theorem activity_extent (c : Channel) (context : ChunkContext) :
    (ChannelBody.midi c).extent.activity context.cue = { c.track.activityIn context with replace := false } := by
  rw [Track.activityIn_eq]
  simp [Extent.activity, ChannelBody.extent, ChannelBody.dataType, ChannelBody.track, Track.permit, Track.core]

theorem interrupt_extent (c : Channel) (a : Activity) (context : ChunkContext) :
    (ChannelBody.midi (c.interrupt a context)).extent = (ChannelBody.midi c).extent :=
  congrArg (fun t : Track => Extent.mk .midi t.core) (c.interrupt_track a context)

theorem endPreRecord_extent (c : Channel) (a : Activity) :
    (ChannelBody.midi (c.endPreRecord a)).extent = (ChannelBody.midi c).extent.endAside a := by
  show Extent.mk .midi (c.endPreRecord a).track.core = Extent.mk .midi (if c.track.endsPreRecord a then _ else _)
  unfold endPreRecord
  split_ifs <;> rfl

/-- A chunk within the cycle, one activity after the other. -/
theorem process_steps (c : Channel) (context : ChunkContext) (h : c.track.overruns context.frames = false)
    {a : Activity} (ha : a = { c.track.activityIn context with replace := false }) :
    (c.process context).1 =
      let d := (c.interrupt a context).endPreRecord a
      let d := { d with
        track := { d.track with
          playedBack := if a.playback then (c.track.positionIn context).toNat? else none } }
      let d := if a.playback then d.queuePlayback (c.track.positionIn context) context.frames
        else { d with playedUntil := none }
      let d := if a.record then d.queueRecord context.lenBefore context.frames else d
      let d := if a.preRecord then d.queuePreRecord context.frames else d
      { d with track := d.track.endChunk a context.frames, lastPosition := context.posAfter } := by
  subst ha
  unfold process
  simp only [h, Bool.false_eq_true, if_false]
  rfl

theorem process_extent (c : Channel) (context : ChunkContext) (h : c.track.overruns context.frames = false) :
    (ChannelBody.midi (c.process context).1).extent =
      (ChannelBody.midi c).extent.play context.cue context.frames := by
  obtain ⟨a, ha⟩ : ∃ a, a = ({ c.track.activityIn context with replace := false } : Activity) := ⟨_, rfl⟩
  have hplays : ∀ (d : Channel) position, (ChannelBody.midi (if a.playback then d.queuePlayback position context.frames
      else { d with playedUntil := none })).extent = (ChannelBody.midi d).extent := by
    intro d position
    split_ifs <;> rfl
  have hrecords : ∀ (d : Channel) length, (ChannelBody.midi (if a.record then d.queueRecord length context.frames
      else d)).extent =
      if a.record then (ChannelBody.midi d).extent.record length context.frames else (ChannelBody.midi d).extent := by
    intro d length
    split_ifs <;> rfl
  have hkeeps : ∀ d : Channel, (ChannelBody.midi (if a.preRecord then d.queuePreRecord context.frames else d)).extent =
      if a.preRecord then (ChannelBody.midi d).extent.keep context.frames else (ChannelBody.midi d).extent := by
    intro d
    split_ifs <;> rfl
  have hends : ∀ (d : Channel) position, (ChannelBody.midi
      { d with track := d.track.endChunk a context.frames, lastPosition := position }).extent =
      { (ChannelBody.midi d).extent with track := (ChannelBody.midi d).extent.track.endChunk a context.frames } :=
    fun _ _ => rfl
  unfold Extent.play
  rw [activity_extent, ← ha, ← interrupt_extent c a context, ← endPreRecord_extent, c.process_steps context h ha]
  dsimp only
  rw [hends, hkeeps, hrecords, hplays]
  rfl

end Midi.Channel

namespace ChannelBody

/-- A chunk within the cycle acts on the extent of a channel by its cue. -/
theorem process_extent (b : ChannelBody) (context : ChunkContext) (h : b.track.overruns context.frames = false) :
    (b.process context).1.extent = b.extent.play context.cue context.frames := by
  cases b with
  | audio c => exact c.process_extent context h
  | midi c => exact c.process_extent context h

theorem process_of_overruns (b : ChannelBody) {context : ChunkContext} (h : b.track.overruns context.frames = true) :
    (b.process context).2 ≠ .ok () := by
  cases b with
  | audio c =>
    have hover : c.track.overruns context.frames = true := h
    simp [process, Audio.Channel.process, hover]
  | midi c =>
    have hover : c.track.overruns context.frames = true := h
    simp [process, Midi.Channel.process, hover]

/-- And its extent and the cue say whether it fails. -/
theorem process_ok_iff (b : ChannelBody) {context : ChunkContext} (hn : 0 < context.frames)
    (hmax : context.frames ≤ maxFrames) :
    (b.process context).2 = .ok () ↔ ¬ b.extent.Fails context.cue context.frames := by
  cases hover : b.track.overruns context.frames with
  | true => exact iff_of_false (b.process_of_overruns hover) (not_not_intro (.inl hover))
  | false =>
    have hwithin : b.extent.track.overruns context.frames = false := hover
    unfold Extent.Fails
    rw [hwithin]
    cases b with
    | audio c =>
      rw [show (process context (.audio c)).2 = (c.process context).2 from rfl,
        c.process_ok context hn hmax hover, Audio.Channel.activity_extent]
      unfold Track.Overreaches
      simp only [Bool.false_eq_true, false_or]
      refine not_congr (and_congr_right fun hreplace => ?_)
      rw [Track.positionIn_of_replace hreplace]
      rfl
    | midi c =>
      rw [Midi.Channel.activity_extent]
      simp [show (process context (.midi c)).2 = (c.process context).2 from rfl, c.process_ok context hover]

/-- A chunk that does not fail acts on the extent of a channel by its cue. -/
theorem extent_of_ok (b : ChannelBody) {context : ChunkContext} (hn : 0 < context.frames)
    (hmax : context.frames ≤ maxFrames) (h : (b.process context).2 = .ok ()) :
    (b.process context).1.extent = b.extent.play context.cue context.frames := by
  refine b.process_extent context (Bool.eq_false_iff.2 fun hover => ?_)
  exact (b.process_ok_iff hn hmax).1 h (.inl hover)

end ChannelBody

theorem LoopChannel.extents_processAll {context : ChunkContext} {channels : List LoopChannel} (hn : 0 < context.frames)
    (hmax : context.frames ≤ maxFrames) (h : ∀ c ∈ channels, (c.body.process context).2 = .ok ()) :
    (processAll context channels).1.map (·.body.extent) =
      (channels.map (·.body.extent)).map (·.play context.cue context.frames) := by
  induction channels with
  | nil => rfl
  | cons c rest ih =>
    rw [List.forall_mem_cons] at h
    rw [processAll_cons, List.map_cons, List.map_cons, List.map_cons, ih h.2, c.body.extent_of_ok hn hmax h.1]

/-! ## A chunk as so many frames -/

namespace Extent
variable {x : Extent} {cue cue' : Cue} {cues : Nat → Cue} {n m : Nat}

theorem activity_congr {y : Extent} (hmode : y.track.mode = x.track.mode) (hin : y.track.hasInput = x.track.hasInput)
    (hout : y.track.hasOutput = x.track.hasOutput) (hdata : y.dataType = x.dataType)
    (hcue : cue'.mode = cue.mode) (hsoon : cue'.soon = cue.soon) : y.activity cue' = x.activity cue := by
  unfold activity Track.permit
  rw [hmode, hin, hout, hdata, hcue, hsoon]

/-- What a chunk leaves alone. -/
theorem play_kept (x : Extent) (cue : Cue) (n : Nat) :
    (x.play cue n).dataType = x.dataType ∧ (x.play cue n).track.mode = x.track.mode ∧
      (x.play cue n).track.hasInput = x.track.hasInput ∧ (x.play cue n).track.hasOutput = x.track.hasOutput ∧
      (x.play cue n).track.cycleFrames = x.track.cycleFrames ∧
      (x.play cue n).track.framesDone = x.track.framesDone + n := by
  unfold play endAside act
  dsimp only
  split_ifs <;> exact ⟨rfl, rfl, rfl, rfl, rfl, rfl⟩

theorem activity_play (hcue : cue'.mode = cue.mode) (hsoon : cue'.soon = cue.soon) (cue₀ : Cue) :
    (x.play cue₀ n).activity cue' = x.activity cue := by
  obtain ⟨hdata, hmode, hin, hout, -⟩ := x.play_kept cue₀ n
  exact activity_congr hmode hin hout hdata hcue hsoon

/-- Where the data begin behind the start of the loop, they still do after a chunk. -/
theorem startOffset_play (h : 0 ≤ x.track.startOffset) : 0 ≤ (x.play cue n).track.startOffset := by
  unfold play endAside act
  dsimp only
  split_ifs <;> first | exact h | exact Int.natCast_nonneg _

/-- Only a loop that records makes a channel record. -/
theorem mode_of_record (h : (x.activity cue).record = true) : cue.mode = .recording := by
  have hnow : ∀ loopMode channelMode, (Activity.ofModes loopMode channelMode).record = true →
      loopMode = .recording := by
    intro loopMode channelMode
    cases channelMode <;> cases loopMode <;> decide
  simp only [activity, Track.permit, Bool.and_eq_true, Activity.ahead_now] at h
  exact hnow _ _ h.1

/-- Nothing is left to be ended where the activity goes on. -/
theorem endAside_act (a : Activity) (length n : Nat) : (x.act a length n).endAside a = x.act a length n := by
  have hlast : (x.act a length n).track.lastActivity = a := by
    unfold act
    dsimp only
    split_ifs <;> rfl
  unfold endAside
  rw [Track.endsPreRecord, hlast, Bool.and_not_self, if_neg Bool.false_ne_true]

theorem act_act (a : Activity) {length length' : Nat} (hstart : 0 ≤ x.track.startOffset)
    (hlength : a.record = true → length' = length + n) :
    (x.act a length n).act a length' m = x.act a length (n + m) := by
  obtain ⟨dataType, t⟩ := x
  unfold act record keep
  dsimp only at hstart ⊢
  have hrecords : a.record = true → (length' + t.startOffset).toNat + m = (length + t.startOffset).toNat + (n + m) := by
    intro hrecord
    rw [hlength hrecord]
    omega
  by_cases hrecord : a.record = true <;> by_cases hkeep : a.preRecord = true <;>
    simp [hrecord, hkeep, Track.endChunk, Track.recordFrom, Nat.add_assoc, hrecords]

/-- A chunk and another one that goes on where it ends are one chunk. -/
theorem play_play (hstart : 0 ≤ x.track.startOffset) (hmode : cue'.mode = cue.mode) (hsoon : cue'.soon = cue.soon)
    (hlength : cue.mode = .recording → cue'.length = cue.length + n) :
    (x.play cue n).play cue' m = x.play cue (n + m) := by
  have hended : 0 ≤ (x.endAside (x.activity cue)).track.startOffset := by
    unfold endAside
    dsimp only
    split_ifs <;> first | exact hstart | exact Int.natCast_nonneg _
  unfold play
  rw [show ((x.endAside (x.activity cue)).act (x.activity cue) cue.length n).activity cue' = x.activity cue from
    activity_play hmode hsoon cue, endAside_act]
  exact act_act _ hended fun hrecord => hlength (mode_of_record hrecord)

theorem after_succ (x : Extent) (cues : Nat → Cue) (n : Nat) :
    x.after cues (n + 1) = (x.after cues n).play (cues n) 1 := rfl

theorem after_add (x : Extent) (cues : Nat → Cue) (n m : Nat) :
    x.after cues (n + m) = (x.after cues n).after (fun i => cues (n + i)) m := by
  induction m with
  | zero => rfl
  | succ m ih => rw [← Nat.add_assoc, after_succ, after_succ, ih]

/-- A chunk is so many frames. -/
theorem play_eq_after (hcues : cue.Continues cues (n + 1)) (hstart : 0 ≤ x.track.startOffset) (hfirst : cues 0 = cue) :
    x.play cue (n + 1) = x.after cues (n + 1) := by
  induction n with
  | zero =>
    rw [after_succ, hfirst]
    rfl
  | succ n ih =>
    rw [after_succ, ← ih (hcues.mono (Nat.le_succ _))]
    exact (play_play hstart (hcues.mode _ (Nat.lt_succ_self _)) (hcues.soon _ (Nat.lt_succ_self _))
      fun hmode => hcues.length hmode _ (Nat.lt_succ_self _)).symm

/-! ## Frames that fail -/

/-- What is to come makes no channel replace. -/
theorem ofModes_of_replace (h : (x.activity cue).replace = true) :
    (Activity.ofModes cue.mode x.track.mode).replace = true := by
  simp only [activity, Track.permit, Bool.and_eq_true, Activity.ahead_now] at h
  exact h.1.1

/-- Where a channel replaces, its data stay as long as they are. -/
theorem data_play (h : (x.activity cue).replace = true) :
    (x.play cue n).track.dataLength = x.track.dataLength ∧ (x.play cue n).track.startOffset = x.track.startOffset := by
  have hrecord : (x.activity cue).record = false := by
    refine Bool.eq_false_iff.2 fun hrecord => ?_
    rcases Activity.mode_of_replace (ofModes_of_replace h) with hmode | hmode <;>
      simp [mode_of_record hrecord] at hmode
  unfold play endAside act
  dsimp only
  rw [hrecord]
  simp only [Bool.false_eq_true, if_false]
  split_ifs <;> exact ⟨rfl, rfl⟩

theorem Fails.mono (h : x.Fails cue n) (hm : n ≤ m) : x.Fails cue m := by
  unfold Fails Track.overruns at h ⊢
  simp only [decide_eq_true_eq] at h ⊢
  refine h.imp (fun hover => by omega) (And.imp_right fun hbehind => by omega)

/-- What goes on fails if both together do. -/
theorem fails_play (hmode : cue'.mode = cue.mode) (hsoon : cue'.soon = cue.soon)
    (hposition : cue.mode = .replacing ∨ cue.mode = .recordingDryIntoWet → cue'.position = cue.position + n) :
    (x.play cue n).Fails cue' m ↔ x.Fails cue (n + m) := by
  obtain ⟨-, -, -, -, hcycle, hdone⟩ := x.play_kept cue n
  unfold Fails Track.overruns
  rw [activity_play hmode hsoon, hcycle, hdone, Nat.add_assoc]
  refine or_congr_right (and_congr_right fun hreplace => ?_)
  obtain ⟨hlength, hoffset⟩ := x.data_play (n := n) hreplace
  rw [hlength, hoffset, hposition (Activity.mode_of_replace (ofModes_of_replace hreplace))]
  omega

theorem stumbles_add (x : Extent) (cues : Nat → Cue) (n m : Nat) :
    x.Stumbles cues (n + m) ↔ x.Stumbles cues n ∨ (x.after cues n).Stumbles (fun i => cues (n + i)) m := by
  constructor
  · rintro ⟨i, hi, hfails⟩
    rcases Nat.lt_or_ge i n with hlt | hge
    · exact .inl ⟨i, hlt, hfails⟩
    · obtain ⟨j, rfl⟩ := Nat.exists_eq_add_of_le hge
      exact .inr ⟨j, by omega, after_add x cues n j ▸ hfails⟩
  · rintro (⟨i, hi, hfails⟩ | ⟨j, hj, hfails⟩)
    · exact ⟨i, by omega, hfails⟩
    · exact ⟨n + j, by omega, after_add x cues n j ▸ hfails⟩

/-- A chunk fails exactly if one of its frames does. -/
theorem fails_iff (hcues : cue.Continues cues (n + 1)) (hstart : 0 ≤ x.track.startOffset) (hfirst : cues 0 = cue) :
    x.Fails cue (n + 1) ↔ x.Stumbles cues (n + 1) := by
  unfold Stumbles
  induction n with
  | zero => simp [after, eachFrame, hfirst]
  | succ n ih =>
    have hlast : n + 1 < n + 1 + 1 := Nat.lt_succ_self _
    have hbefore : cue.Continues cues (n + 1) := hcues.mono (Nat.le_succ _)
    rw [Nat.exists_lt_succ_right, ← ih hbefore, ← play_eq_after hbefore hstart hfirst,
      fails_play (hcues.mode _ hlast) (hcues.soon _ hlast) fun hmode => hcues.position hmode _ hlast]
    exact ⟨.inr, fun h => h.elim (·.mono (Nat.le_succ _)) id⟩

end Extent

end Overdub
