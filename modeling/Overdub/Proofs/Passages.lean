import Overdub.Proofs.Recorder
import Overdub.Proofs.Replay
/-!
# Passages

A `Passage` is a chunk with the messages that arrive in it. A `Moment` is a channel
in the middle of a cycle, and `Moment.Runs` leads from one to another along the
passages in between, wherever cycles end. `Moment.now` is the recorder at that moment,
once all commands decided so far are carried out and all messages in front of it have
arrived. A chunk changes it as `Recorder.pass` says (`Moment.now_chunk`), and the end
of a cycle leaves it as it is (`Moment.now_turn`).
-/

namespace Overdub

/-! ## What a chunk decides -/

namespace Track

/-- Ends keeping input aside when an activity no longer does. -/
def endAside (a : Activity) (t : Track) : Track :=
  if t.endsPreRecord a then if a.record then t.promotePreRecord else t.discardPreRecord else t

@[simp] theorem endAside_framesDone (a : Activity) (t : Track) : (t.endAside a).framesDone = t.framesDone := by
  unfold endAside
  split_ifs <;> rfl

/-- The track after a chunk that fits into the cycle. -/
def pass (context : ChunkContext) (t : Track) : Track :=
  let a := t.activityIn context
  let position := t.positionIn context
  let t := t.endAside a
  let t := { t with playedBack := if a.playback then position.toNat? else none }
  let t := if a.record then t.record (t.recordFrom context.lenBefore) context.frames else t
  let t := if a.preRecord then { t with preRecordLength := t.preRecordLength + context.frames } else t
  t.endChunk { a with replace := false } context.frames

section Pass
variable {context : ChunkContext} {t : Track}

theorem endAside_of_not_ends {a : Activity} (h : t.endsPreRecord a = false) : t.endAside a = t :=
  if_neg (Bool.eq_false_iff.mp h)

/-- What a chunk keeps aside comes behind what is there. -/
theorem pass_preRecordLength (context : ChunkContext) (t : Track) :
    (t.pass context).preRecordLength =
      (t.endAside (t.activityIn context)).preRecordLength +
        if (t.activityIn context).preRecord then context.frames else 0 := by
  unfold pass
  dsimp only
  split_ifs <;> rfl

/-- Without recording, the data stays where it is. -/
theorem pass_of_not_record (h : (t.activityIn context).record = false) :
    (t.pass context).startOffset = t.startOffset ∧ (t.pass context).dataLength = t.dataLength := by
  unfold pass endAside
  simp only [h, Bool.false_eq_true, if_false]
  split_ifs <;> exact ⟨rfl, rfl⟩

/-- Recording goes on behind the recorded frames of the loop. -/
theorem pass_of_record (h : (t.activityIn context).record = true) :
    (t.pass context).startOffset = (t.endAside (t.activityIn context)).startOffset ∧
      (t.pass context).dataLength =
        (t.endAside (t.activityIn context)).recordFrom context.lenBefore + context.frames := by
  unfold pass
  simp only [h, if_true]
  split_ifs <;> exact ⟨rfl, rfl⟩

end Pass

/-- A chunk leaves the mode and the ports of the cycle as they are. -/
theorem pass_cycle (context : ChunkContext) (t : Track) :
    (t.pass context).mode = t.mode ∧ (t.pass context).framesDone = t.framesDone + context.frames ∧
      (t.pass context).cycleFrames = t.cycleFrames ∧ (t.pass context).hasInput = t.hasInput ∧
        (t.pass context).hasOutput = t.hasOutput := by
  unfold pass endAside
  dsimp only
  split_ifs <;> exact ⟨rfl, rfl, rfl, rfl, rfl⟩

end Track

namespace Midi.Channel

/-- The chunk interrupts what is playing. -/
def interrupts (a : Activity) (context : ChunkContext) (c : Channel) : Bool :=
  let wrapped := context.posBefore == 0 && decide (context.lenBefore ≤ c.lastPosition)
  let jumped := context.posBefore != c.lastPosition && !wrapped
  c.track.lastActivity.playback && (!a.playback || jumped)

/-- The command that ends keeping input aside. -/
def asideOrders (a : Activity) (t : Track) : List Command :=
  if t.endsPreRecord a then if a.record then [.promotePreRecord] else [.discardPreRecord] else []

/-- Plays `n` frames from a data position on, as far as they may be played. -/
def playOrder (t : Track) (playedUntil : Option Int) (position : Int) (n : Nat) : Command :=
  let skip := min n (clampFrames (t.firstPlayable - position).toNat)
  .playback (t.framesDone + skip) (n - skip) (position + skip) (playedUntil.all fun until_ => position < until_)

/-- The commands that a chunk queues. -/
def orders (context : ChunkContext) (c : Channel) : List Command :=
  let a := c.track.activityIn context
  let t := c.track.endAside a
  let n := context.frames
  let interrupted := c.interrupts a context
  (if interrupted then [.allSoundOff t.framesDone] else []) ++ asideOrders a c.track ++
    (if a.playback then [playOrder t (if interrupted then none else c.playedUntil) (c.track.positionIn context) n]
      else []) ++
    (if a.record then [.record .main t.framesDone n (t.recordFrom context.lenBefore)] else []) ++
    if a.preRecord then [.record .preRecord t.framesDone n t.preRecordLength] else []

/-- Of all commands that a chunk can queue. -/
theorem forall_mem_orders {motive : Command → Prop} {context : ChunkContext} {c : Channel}
    (hsilence : motive (.allSoundOff c.track.framesDone))
    (haside : ∀ command ∈ asideOrders (c.track.activityIn context) c.track, motive command)
    (hplay : ∀ playedUntil, motive (playOrder (c.track.endAside (c.track.activityIn context)) playedUntil
      (c.track.positionIn context) context.frames))
    (hrecord : (c.track.activityIn context).record = true → ∀ frame n position, motive (.record .main frame n position))
    (hkeep : ∀ frame n position, motive (.record .preRecord frame n position)) :
    ∀ command ∈ c.orders context, motive command := by
  have hsome : ∀ (b : Bool) (command : Command), (b = true → motive command) →
      ∀ order ∈ (if b = true then [command] else []), motive order := by
    intro b command h
    cases b with
    | false => exact List.forall_mem_nil _
    | true => exact List.forall_mem_singleton.mpr (h rfl)
  unfold orders
  simp only [List.forall_mem_append, Track.endAside_framesDone]
  exact ⟨⟨⟨⟨hsome _ _ fun _ => hsilence, haside⟩, hsome _ _ fun _ => hplay _⟩,
    hsome _ _ fun h => hrecord h _ _ _⟩, hsome _ _ fun _ => hkeep _ _ _⟩

theorem interrupt_eq (c : Channel) (a : Activity) (context : ChunkContext) :
    c.interrupt a context =
      if c.interrupts a context then
        { c with playedUntil := none, commands := c.commands ++ [.allSoundOff c.track.framesDone] }
      else c := by
  unfold interrupt interrupts
  dsimp only
  split_ifs <;> rfl

theorem endPreRecord_eq (c : Channel) (a : Activity) :
    c.endPreRecord a =
      { c with track := c.track.endAside a, commands := c.commands ++ asideOrders a c.track } := by
  unfold endPreRecord Track.endAside asideOrders
  split_ifs
  · rfl
  · rfl
  · rw [List.append_nil]

/-- A chunk that fits into the cycle queues its commands. -/
theorem process_orders (c : Channel) (context : ChunkContext) (h : c.track.overruns context.frames = false) :
    (c.process context).1 =
      { c with
        track := c.track.pass context
        commands := c.commands ++ c.orders context
        playedUntil :=
          if (c.track.activityIn context).playback then some (c.track.positionIn context + context.frames) else none
        lastPosition := context.posAfter } := by
  unfold process Track.pass orders Track.positionIn
  simp only [h, Bool.false_eq_true, if_false]
  rw [show c.track.permit (c.track.task context.mode context.next context.posBefore).activity =
    c.track.activityIn context from rfl]
  generalize c.track.activityIn context = a
  rw [show c.interrupt { a with replace := false } context = c.interrupt a context from rfl, interrupt_eq,
    show ∀ c : Channel, c.endPreRecord { a with replace := false } = c.endPreRecord a from fun _ => rfl]
  obtain ⟨playback, record, replace, preRecord⟩ := a
  simp only [endPreRecord_eq]
  cases c.interrupts _ context <;> cases playback <;> cases record <;> cases preRecord <;>
    simp [queuePlayback, queueRecord, queuePreRecord, queue, playOrder, Track.endChunk, Track.record,
      Track.recordFrom, Track.firstPlayable]

end Midi.Channel

theorem Activity.preRecord_ofModes (loopMode : LoopMode) (channelMode : ChannelMode) :
    (ofModes loopMode channelMode).preRecord = false := by
  cases channelMode <;> cases loopMode <;> rfl

/-- A channel that records keeps nothing aside. -/
theorem Track.preRecord_of_record {t : Track} {context : ChunkContext} (h : (t.activityIn context).record = true) :
    (t.activityIn context).preRecord = false := by
  simp only [activityIn, permit, task, Bool.and_eq_true, ChunkTask.of_activity] at h
  have hnone := Activity.preRecord_ofModes context.mode t.mode
  simp only [activityIn, permit, task, Bool.and_eq_false_iff]
  left
  unfold ChunkTask.of
  dsimp only
  split
  · exact hnone
  · split_ifs with hahead hkeeps
    · exact hnone
    · simp [h.1] at hkeeps
    · exact hnone

namespace Midi

/-! ## What arrives in a chunk -/

/-- Cutting the front of a list off in two steps. -/
theorem takeWhile_dropWhile_of_imp {α : Type} {p q : α → Bool} (h : ∀ x, p x = true → q x = true) (l : List α) :
    l.takeWhile p ++ (l.dropWhile p).takeWhile q = l.takeWhile q ∧ (l.dropWhile p).dropWhile q = l.dropWhile q := by
  induction l with
  | nil => exact ⟨rfl, rfl⟩
  | cons x rest ih =>
    by_cases hx : p x = true
    · rw [List.takeWhile_cons_of_pos hx, List.dropWhile_cons_of_pos hx, List.takeWhile_cons_of_pos (h x hx),
        List.dropWhile_cons_of_pos (h x hx), List.cons_append, ih.1]
      exact ⟨rfl, ih.2⟩
    · rw [List.takeWhile_cons_of_neg hx, List.dropWhile_cons_of_neg hx]
      exact ⟨rfl, rfl⟩

theorem Message.isBefore_iff {frame : Nat} (hmax : frame ≤ maxFrames) {m : Message} :
    m.isBefore frame = true ↔ m.time.toNat < frame := by
  have hmaxFrames : maxFrames = 2 ^ 32 - 1 := rfl
  rw [isBefore, decide_eq_true_eq, UInt32.lt_iff_toNat_lt, UInt32.toNat_ofNat', Nat.mod_eq_of_lt (by omega)]

theorem Message.isBefore_mono {frame frame' : Nat} (h : frame ≤ frame') (hmax : frame' ≤ maxFrames) (m : Message)
    (hm : m.isBefore frame = true) : m.isBefore frame' = true := by
  rw [isBefore_iff (by omega)] at hm ⊢
  omega

/-- Nothing comes in front of frame 0. -/
theorem Message.cut_zero (messages : List Message) :
    messages.takeWhile (isBefore 0) = [] ∧ messages.dropWhile (isBefore 0) = messages := by
  have hnever : ∀ m : Message, ¬ m.isBefore 0 = true := fun m hm =>
    Nat.not_lt_zero _ ((isBefore_iff (Nat.zero_le _)).mp hm)
  cases messages with
  | nil => exact ⟨rfl, rfl⟩
  | cons m rest => exact ⟨List.takeWhile_cons_of_neg (hnever m), List.dropWhile_cons_of_neg (hnever m)⟩

theorem bytes_excerpt (frame n : Nat) (messages : List Message) :
    (excerpt frame n messages).map (·.bytes) =
      ((messages.dropWhile (Message.isBefore frame)).takeWhile (Message.isBefore (frame + n))).map (·.bytes) := by
  unfold excerpt
  rw [List.map_map]
  rfl

namespace Recorder

theorem hear_append (r : Recorder) (messages more : List Message) :
    r.hear (messages ++ more) = (r.hear messages).hear more := by
  unfold hear
  rw [List.map_append, Tracker.feedAll_append]

/-- Ends keeping input aside when an activity no longer does. -/
def endAside (a : Activity) (t : Track) (r : Recorder) : Recorder :=
  if t.endsPreRecord a then if a.record then r.promote else r.discard else r

/-- What a chunk does in which messages arrive. -/
def pass (t : Track) (context : ChunkContext) (messages : List Message) (r : Recorder) : Recorder :=
  let a := t.activityIn context
  let r := r.endAside a t
  let r :=
    if a.record then r.store .main ((t.endAside a).recordFrom context.lenBefore) messages
    else if a.preRecord then r.store .preRecord (t.endAside a).preRecordLength messages
    else r
  r.hear messages

end Recorder

namespace Intake
variable {frame frame' : Nat} (i : Intake)

/-- What arrives in front of a frame, and then in front of a later one. -/
theorem arrive_arrive (h : frame ≤ frame') (hmax : frame' ≤ maxFrames) :
    (i.arrive frame).arrive frame' = i.arrive frame' := by
  obtain ⟨r, coming⟩ := i
  cases coming with
  | none => rfl
  | some messages =>
    obtain ⟨htake, hdrop⟩ := takeWhile_dropWhile_of_imp (Message.isBefore_mono h hmax) messages
    unfold arrive
    simp only [Option.map_some, Option.getD_some, ← Recorder.hear_append, htake, hdrop]

/-- Nothing arrives in front of a cycle. -/
theorem arrive_zero : i.arrive 0 = i := by
  obtain ⟨r, coming⟩ := i
  cases coming with
  | none => rfl
  | some messages =>
    unfold arrive
    simp only [Option.map_some, Option.getD_some, Message.cut_zero]
    rfl

theorem run_asideOrders (a : Activity) (t : Track) :
    (Channel.asideOrders a t).foldl run i = { i with toRecorder := i.endAside a t } := by
  unfold Channel.asideOrders Recorder.endAside
  split_ifs <;> rfl

theorem arrive_endAside (frame : Nat) (a : Activity) (t : Track) :
    arrive frame { i with toRecorder := i.endAside a t } =
      { i.arrive frame with toRecorder := (i.arrive frame).endAside a t } := by
  unfold arrive Recorder.endAside
  split_ifs <;> rfl

/-- Recording the frames of a chunk hears and stores what arrives in it. -/
theorem arrive_record {messages : List Message} (h : i.coming = some messages) {n : Nat} (hmax : frame + n ≤ maxFrames)
    (target : RecordTarget) (position : Nat) :
    (i.run (.record target frame n position)).arrive (frame + n) =
      ⟨((i.arrive frame).store target position (excerpt frame n messages)).hear (excerpt frame n messages),
        some (messages.dropWhile (Message.isBefore (frame + n)))⟩ := by
  obtain ⟨-, hdrop⟩ :=
    takeWhile_dropWhile_of_imp (Message.isBefore_mono (Nat.le_add_right frame n) hmax) messages
  unfold run
  rw [h]
  dsimp only
  rw [arrive_arrive _ (Nat.le_refl _) hmax]
  unfold arrive Recorder.hear
  rw [h]
  simp only [Option.map_some, Option.getD_some, hdrop, bytes_excerpt]

/-- A chunk of the given frames in which nothing is recorded. -/
theorem arrive_chunk {n : Nat} (hmax : frame + n ≤ maxFrames) :
    i.arrive (frame + n) =
      ⟨(i.arrive frame).hear (excerpt frame n (i.coming.getD [])),
        i.coming.map (·.dropWhile (Message.isBefore (frame + n)))⟩ := by
  rw [← i.arrive_arrive (Nat.le_add_right frame n) hmax]
  obtain ⟨r, coming⟩ := i
  cases coming with
  | none => rfl
  | some messages =>
    obtain ⟨-, hdrop⟩ :=
      takeWhile_dropWhile_of_imp (Message.isBefore_mono (Nat.le_add_right frame n) hmax) messages
    unfold arrive Recorder.hear
    simp only [Option.map_some, Option.getD_some, hdrop, bytes_excerpt]

/-- The commands of a chunk do to the recorder what the chunk does. -/
theorem foldl_orders {c : Channel} {context : ChunkContext} (hinput : c.track.hasInput = i.coming.isSome)
    (hmax : c.track.framesDone + context.frames ≤ maxFrames) :
    let frame := c.track.framesDone
    let n := context.frames
    ((c.orders context).foldl run i).arrive (frame + n) =
      ⟨(i.arrive frame).pass c.track context (excerpt frame n (i.coming.getD [])),
        i.coming.map (·.dropWhile (Message.isBefore (frame + n)))⟩ := by
  intro frame n
  obtain ⟨r, coming⟩ := i
  obtain ⟨-, hrecord, -, hkeep⟩ := c.track.activityIn_ports context
  have hnot := @Track.preRecord_of_record c.track context
  unfold Channel.orders Recorder.pass
  dsimp only
  generalize c.track.activityIn context = a at *
  -- Playing does not change the recorder, so only the end of keeping aside and what is stored are left.
  have hsilent : ∀ (b : Bool) (command : Command) (j : Intake), j.run command = j →
      (if b = true then [command] else []).foldl run j = j := by
    intro b command j h
    cases b with
    | false => rfl
    | true => exact h
  rw [List.foldl_append, List.foldl_append, List.foldl_append, List.foldl_append, hsilent _ (.allSoundOff _) _ rfl,
    run_asideOrders, hsilent _ (Channel.playOrder _ _ _ _) _ rfl, Track.endAside_framesDone]
  have hended := arrive_endAside ⟨r, coming⟩ frame a c.track
  cases hr : a.record with
  | true =>
    obtain ⟨messages, rfl⟩ := Option.isSome_iff_exists.mp (hinput ▸ hrecord hr)
    have hstored := arrive_record ⟨r.endAside a c.track, some messages⟩ rfl hmax .main
      ((c.track.endAside a).recordFrom context.lenBefore)
    rw [hnot hr]
    exact hstored.trans (by rw [hended]; rfl)
  | false =>
    cases hk : a.preRecord with
    | true =>
      obtain ⟨messages, rfl⟩ := Option.isSome_iff_exists.mp (hinput ▸ hkeep hk)
      have hstored := arrive_record ⟨r.endAside a c.track, some messages⟩ rfl hmax .preRecord
        (c.track.endAside a).preRecordLength
      exact hstored.trans (by rw [hended]; rfl)
    | false =>
      have hheard := arrive_chunk ⟨r.endAside a c.track, coming⟩ hmax
      exact hheard.trans (by rw [hended]; rfl)

end Intake

/-! ## Passages of a cycle -/

/-- A chunk with what arrives in it. -/
structure Passage where
  context : ChunkContext
  /-- The messages that arrive, timed from the first frame of the chunk on, if the
  port recorded from takes part. -/
  input : Option (List Message)
  /-- The port played into takes part. -/
  live : Bool

namespace Passage

def messages (p : Passage) : List Message := p.input.getD []

/-- What a channel does with the passage. -/
def activity (p : Passage) (mode : ChannelMode) : Activity :=
  ({ mode, hasInput := p.input.isSome, hasOutput := p.live } : Track).activityIn p.context

/-- How many frames some passages take. -/
def frames (passages : List Passage) : Nat := (passages.map (·.context.frames)).sum

end Passage

namespace Channel.PlayCycle

/-- The chunks use up the cycle, and messages arrive in its frames and in order. -/
structure Valid (k : PlayCycle) : Prop where
  frames_le : k.frames ≤ maxFrames
  pos : ∀ context ∈ k.contexts, 0 < context.frames
  total : (k.contexts.map (·.frames)).sum = k.frames
  inOrder : ∀ messages ∈ k.input, InOrder messages
  inside : ∀ messages ∈ k.input, ∀ m ∈ messages, m.time.toNat < k.frames

/-- The chunk from a frame on. -/
def passageAt (k : PlayCycle) (frame : Nat) (context : ChunkContext) : Passage :=
  ⟨context, k.input.map (excerpt frame context.frames), k.output.isSome⟩

/-- Chunks from a frame on, one after the other. -/
def passagesFrom (k : PlayCycle) : Nat → List ChunkContext → List Passage
  | _, [] => []
  | frame, context :: rest => k.passageAt frame context :: k.passagesFrom (frame + context.frames) rest

def passages (k : PlayCycle) : List Passage := k.passagesFrom 0 k.contexts

end Channel.PlayCycle

/-! ## Moments -/

/-- A channel in the middle of a cycle. -/
structure Moment where
  channel : Channel
  cycle : Channel.PlayCycle
  /-- The frames of all cycles before. -/
  elapsed : Nat
  /-- The messages sent by the cycles before, each with its frame. -/
  sent : List (Nat × List UInt8)

namespace Moment

def intake (m : Moment) : Intake := m.channel.commands.foldl Intake.run ⟨m.channel.recorder, m.cycle.input⟩

/-- The recorder once all that lies in front of the moment is carried out and has
arrived. -/
def now (m : Moment) : Recorder := (m.intake.arrive m.channel.track.framesDone).toRecorder

/-- What the commands decided so far lead to, and what they send. -/
def deck (m : Moment) : Deck × List Message :=
  (m.channel.deck m.cycle.input).runAll m.channel.track.dataLength m.channel.track.hasOutput m.channel.commands

/-- The messages sent up to the moment, each with its frame. -/
def aired (m : Moment) : List (Nat × List UInt8) :=
  m.sent ++ m.deck.2.map fun x => (m.elapsed + x.time.toNat, x.bytes)

/-- The channel once the cycle is at its end. -/
def finish (m : Moment) : Channel := (m.channel.finalize m.cycle.input m.cycle.output).1

/-- The beginning of a cycle. -/
def start (c : Channel) (k : Channel.PlayCycle) (elapsed : Nat) (sent : List (Nat × List UInt8)) : Moment :=
  ⟨c.prepare k.frames k.input.isSome k.output.isSome, k, elapsed, sent⟩

/-- Goes on by a chunk. -/
def chunk (context : ChunkContext) (m : Moment) : Moment := { m with channel := (m.channel.process context).1 }

/-- Goes on to the next cycle. -/
def turn (next : Channel.PlayCycle) (m : Moment) : Moment := start m.finish next (m.elapsed + m.cycle.frames) m.aired

/-- The chunk that comes next. -/
def passage (m : Moment) (context : ChunkContext) : Passage := m.cycle.passageAt m.channel.track.framesDone context

/-- The channel is in the cycle, and has heard at most what lies in front of the moment. -/
structure Sound (m : Moment) : Prop where
  valid : m.cycle.Valid
  hasInput : m.channel.track.hasInput = m.cycle.input.isSome
  hasOutput : m.channel.track.hasOutput = m.cycle.output.isSome
  cycleFrames : m.channel.track.cycleFrames = m.cycle.frames
  framesDone_le : m.channel.track.framesDone ≤ m.cycle.frames
  coming : (m.intake.arrive m.channel.track.framesDone).coming =
    m.cycle.input.map (·.dropWhile (Message.isBefore m.channel.track.framesDone))

variable {m : Moment}

theorem deck_intake (m : Moment) : m.deck.1.intake = m.intake := Deck.runAll_intake _ _ _ _

namespace Sound

theorem coming_isSome (h : m.Sound) : m.channel.track.hasInput = m.intake.coming.isSome := by
  have hsome := congrArg Option.isSome h.coming
  unfold Intake.arrive at hsome
  rw [Option.isSome_map, Option.isSome_map] at hsome
  rw [h.hasInput, hsome]

/-- What is still to come behind a later frame is what arrives in the cycle behind it. -/
theorem coming_map (h : m.Sound) {frame : Nat} (hframe : m.channel.track.framesDone ≤ frame)
    (hmax : frame ≤ maxFrames) :
    m.intake.coming.map (·.dropWhile (Message.isBefore frame)) =
      m.cycle.input.map (·.dropWhile (Message.isBefore frame)) := by
  have hdrop : ∀ messages : List Message,
      (messages.dropWhile (Message.isBefore m.channel.track.framesDone)).dropWhile (Message.isBefore frame) =
        messages.dropWhile (Message.isBefore frame) := fun messages =>
    (takeWhile_dropWhile_of_imp (Message.isBefore_mono hframe hmax) messages).2
  have hcoming := congrArg (Option.map (List.dropWhile (Message.isBefore frame))) h.coming
  unfold Intake.arrive at hcoming
  simp only [Option.map_map, Function.comp_def, hdrop] at hcoming
  exact hcoming

/-- What a chunk records is what arrives in it. -/
theorem excerpt_coming (h : m.Sound) (context : ChunkContext) :
    excerpt m.channel.track.framesDone context.frames (m.intake.coming.getD []) = (m.passage context).messages := by
  have hmax := Nat.le_trans h.framesDone_le h.valid.frames_le
  have hcoming := h.coming_map (Nat.le_refl _) hmax
  unfold passage Channel.PlayCycle.passageAt Passage.messages excerpt
  cases hi : m.intake.coming <;> cases hc : m.cycle.input <;> rw [hi, hc] at hcoming
  · rfl
  · cases hcoming
  · cases hcoming
  · rw [Option.map_some, Option.map_some, Option.some_inj] at hcoming
    simp only [Option.map_some, Option.getD_some, hcoming]

theorem activityIn (h : m.Sound) (context : ChunkContext) :
    m.channel.track.activityIn context = (m.passage context).activity m.channel.track.mode := by
  unfold Passage.activity Track.activityIn Track.task Track.permit passage Channel.PlayCycle.passageAt
  dsimp only
  rw [ChunkTask.of_activity_anywhere _ _ _ context.posBefore _ 0, h.hasInput, h.hasOutput, Option.isSome_map]

theorem fits (h : m.Sound) {context : ChunkContext}
    (hfits : m.channel.track.framesDone + context.frames ≤ m.cycle.frames) :
    m.channel.track.overruns context.frames = false := by
  unfold Track.overruns
  rw [h.cycleFrames]
  exact decide_eq_false (by omega)

theorem chunk_track (h : m.Sound) {context : ChunkContext}
    (hfits : m.channel.track.framesDone + context.frames ≤ m.cycle.frames) :
    (m.chunk context).channel.track = m.channel.track.pass context :=
  congrArg Channel.track (m.channel.process_orders context (h.fits hfits))

/-- A chunk changes the recorder as what arrives in it says. -/
theorem chunk (h : m.Sound) {context : ChunkContext}
    (hfits : m.channel.track.framesDone + context.frames ≤ m.cycle.frames) :
    (m.chunk context).Sound ∧
      (m.chunk context).now = m.now.pass m.channel.track context (m.passage context).messages := by
  have hmax : m.channel.track.framesDone + context.frames ≤ maxFrames := Nat.le_trans hfits h.valid.frames_le
  have hprocess := m.channel.process_orders context (h.fits hfits)
  obtain ⟨hmode, hdone, hcycle, hin, hout⟩ := m.channel.track.pass_cycle context
  have htrack := h.chunk_track hfits
  have hintake : (m.chunk context).intake = (m.channel.orders context).foldl Intake.run m.intake := by
    unfold intake Moment.chunk
    rw [hprocess, List.foldl_append]
    rfl
  have hrun := @Intake.foldl_orders m.intake m.channel context h.coming_isSome hmax
  dsimp only at hrun
  rw [h.excerpt_coming, h.coming_map (Nat.le_add_right _ _) hmax, ← hintake, ← hdone, ← htrack] at hrun
  refine ⟨⟨h.valid, ?_, ?_, ?_, ?_, congrArg Intake.coming hrun⟩, congrArg Intake.toRecorder hrun⟩
  · exact (congrArg Track.hasInput htrack).trans (hin.trans h.hasInput)
  · exact (congrArg Track.hasOutput htrack).trans (hout.trans h.hasOutput)
  · exact (congrArg Track.cycleFrames htrack).trans (hcycle.trans h.cycleFrames)
  · exact Nat.le_trans (Nat.le_of_eq ((congrArg Track.framesDone htrack).trans hdone)) hfits

/-- At the end of a cycle everything has arrived. -/
theorem finish (h : m.Sound) (hend : m.channel.track.framesDone = m.cycle.frames) :
    (m.finish.recorder = m.now ∧ m.finish.player = m.deck.1.player) ∧ m.finish.track = m.channel.track ∧
      m.finish.playedUntil = m.channel.playedUntil ∧ m.finish.lastPosition = m.channel.lastPosition := by
  obtain ⟨⟨hrecorder, hplayer⟩, hkept, -⟩ := @Channel.finalize_deck m.channel m.cycle.input m.cycle.output h.hasOutput
  refine ⟨⟨?_, hplayer⟩, hkept⟩
  have hdrop : (m.intake.coming.getD []).dropWhile (Message.isBefore m.cycle.frames) = [] := by
    have hcoming := h.coming_map (Nat.le_of_eq hend) h.valid.frames_le
    cases hi : m.intake.coming <;> cases hc : m.cycle.input <;> rw [hi, hc] at hcoming
    · rfl
    · cases hcoming
    · cases hcoming
    · rw [Option.map_some, Option.map_some, Option.some_inj] at hcoming
      rw [Option.getD_some, hcoming]
      exact List.dropWhile_eq_nil_iff.mpr fun x hx =>
        (Message.isBefore_iff h.valid.frames_le).mpr (h.valid.inside _ hc x hx)
  have harrived := List.takeWhile_append_dropWhile (p := Message.isBefore m.cycle.frames) (l := m.intake.coming.getD [])
  rw [hdrop, List.append_nil] at harrived
  unfold now Intake.arrive
  rw [hend, harrived]
  refine hrecorder.trans ?_
  rw [show ((m.channel.deck m.cycle.input).runAll m.channel.track.dataLength m.channel.track.hasOutput
    m.channel.commands).1.intake = m.intake from m.deck_intake]

end Sound

theorem start_sound (c : Channel) {k : Channel.PlayCycle} (hvalid : k.Valid) (elapsed : Nat)
    (sent : List (Nat × List UInt8)) : (start c k elapsed sent).Sound :=
  ⟨hvalid, rfl, rfl, rfl, Nat.zero_le _, rfl⟩

/-- A cycle begins with what the one before has left. -/
theorem start_eq (c : Channel) (k : Channel.PlayCycle) (elapsed : Nat) (sent : List (Nat × List UInt8)) :
    (start c k elapsed sent).now = c.recorder ∧ (start c k elapsed sent).deck = (c.deck k.input, []) ∧
      (start c k elapsed sent).aired = sent :=
  ⟨congrArg Intake.toRecorder (Intake.arrive_zero ⟨c.recorder, k.input⟩), rfl, List.append_nil sent⟩

theorem Sound.turn_track (h : m.Sound) (hend : m.channel.track.framesDone = m.cycle.frames)
    (next : Channel.PlayCycle) :
    (m.turn next).channel.track =
      m.channel.track.prepare next.frames next.input.isSome next.output.isSome :=
  congrArg (·.prepare next.frames next.input.isSome next.output.isSome) (h.finish hend).2.1

/-- The end of a cycle leaves the recorder and the player as they are. -/
theorem Sound.turn (h : m.Sound) (hend : m.channel.track.framesDone = m.cycle.frames) {next : Channel.PlayCycle}
    (hnext : next.Valid) :
    (m.turn next).Sound ∧ (m.turn next).now = m.now ∧ (m.turn next).deck.1.player = m.deck.1.player ∧
      (m.turn next).aired = m.aired := by
  obtain ⟨hnow, hdeck, haired⟩ := start_eq m.finish next (m.elapsed + m.cycle.frames) m.aired
  obtain ⟨⟨hrecorder, hplayer⟩, -⟩ := h.finish hend
  refine ⟨start_sound _ hnext _ _, hnow.trans hrecorder, ?_, haired⟩
  exact (congrArg (fun d : Deck × List Message => d.1.player) hdeck).trans hplayer

/-! ## Runs -/

/-- Chunk after chunk and cycle after cycle, along the passages in between. -/
inductive Runs : Moment → List Passage → Moment → Prop
  | stay (m : Moment) : Runs m [] m
  | chunk {m last : Moment} {context : ChunkContext} {passages : List Passage} :
    0 < context.frames → m.channel.track.framesDone + context.frames ≤ m.cycle.frames →
      Runs (m.chunk context) passages last → Runs m (m.passage context :: passages) last
  | turn {m last : Moment} {next : Channel.PlayCycle} {passages : List Passage} :
    m.channel.track.framesDone = m.cycle.frames → next.Valid → Runs (m.turn next) passages last →
      Runs m passages last

namespace Runs
variable {last : Moment} {passages later : List Passage}

theorem sound (h : Runs m passages last) (hsound : m.Sound) : last.Sound := by
  induction h with
  | stay => exact hsound
  | chunk _ hfits _ ih => exact ih (hsound.chunk hfits).1
  | turn hend hnext _ ih => exact ih (hsound.turn hend hnext).1

/-- A run can be cut between any two passages. -/
theorem split (h : Runs m (passages ++ later) last) :
    ∃ middle, Runs m passages middle ∧ Runs middle later last := by
  generalize hall : passages ++ later = all at h
  induction h generalizing passages with
  | stay m =>
    obtain ⟨rfl, rfl⟩ := List.append_eq_nil_iff.mp hall
    exact ⟨m, .stay m, .stay m⟩
  | @chunk m last context rest hpos hfits hrest ih =>
    cases passages with
    | nil =>
      obtain rfl : later = m.passage context :: rest := hall
      exact ⟨m, .stay m, .chunk hpos hfits hrest⟩
    | cons p passages =>
      obtain ⟨rfl, hrest'⟩ := List.cons.inj hall
      obtain ⟨middle, hfirst, hlater⟩ := ih hrest'
      exact ⟨middle, .chunk hpos hfits hfirst, hlater⟩
  | turn hend hnext _ ih =>
    obtain ⟨middle, hfirst, hlater⟩ := ih hall
    exact ⟨middle, .turn hend hnext hfirst, hlater⟩

theorem append {middle : Moment} (h : Runs m passages middle) (hlater : Runs middle later last) :
    Runs m (passages ++ later) last := by
  induction h with
  | stay => exact hlater
  | chunk hpos hfits _ ih => exact .chunk hpos hfits (ih hlater)
  | turn hend hnext _ ih => exact .turn hend hnext (ih hlater)

/-- What holds of a moment and the passages up to there, and is kept by every chunk
and by the end of a cycle, holds at the end of a run. Of the run up to there
everything is known. -/
theorem alongRuns {motive : List Passage → Moment → Prop} (h : Runs m passages last) (hbegin : motive [] m)
    (hchunk : ∀ {before middle context later}, passages = before ++ middle.passage context :: later →
      Runs m before middle → 0 < context.frames → middle.channel.track.framesDone + context.frames ≤ middle.cycle.frames →
        motive before middle → motive (before ++ [middle.passage context]) (middle.chunk context))
    (hturn : ∀ {before middle next}, Runs m before middle → middle.channel.track.framesDone = middle.cycle.frames →
      next.Valid → motive before middle → motive before (middle.turn next)) : motive passages last := by
  -- The passages that are behind are a prefix of those of the whole run.
  suffices hall : ∀ {before middle rest}, Runs middle rest last → Runs m before middle → passages = before ++ rest →
      motive before middle → motive passages last from hall h (.stay m) rfl hbegin
  clear h hbegin
  intro before middle rest hrun
  induction hrun generalizing before with
  | stay =>
    intro _ hpassages hmotive
    rwa [hpassages, List.append_nil]
  | chunk hpos hfits _ ih =>
    intro hfirst hpassages hmotive
    refine ih (hfirst.append (.chunk hpos hfits (.stay _))) ?_ (hchunk hpassages hfirst hpos hfits hmotive)
    rw [hpassages, List.append_assoc]
    rfl
  | turn hend hnext _ ih =>
    intro hfirst hpassages hmotive
    have hturned := hfirst.append (.turn hend hnext (.stay _))
    rw [List.append_nil] at hturned
    exact ih hturned hpassages (hturn hfirst hend hnext hmotive)

/-- What holds of a moment and the passages up to there, and is kept by every chunk
and by the end of a cycle, holds at the end of a run. -/
theorem along {motive : List Passage → Moment → Prop} (h : Runs m passages last) (hsound : m.Sound)
    (hbegin : motive [] m)
    (hchunk : ∀ {before middle context later}, passages = before ++ middle.passage context :: later → middle.Sound →
      0 < context.frames → middle.channel.track.framesDone + context.frames ≤ middle.cycle.frames → motive before middle →
        motive (before ++ [middle.passage context]) (middle.chunk context))
    (hturn : ∀ {before middle next}, middle.Sound → middle.channel.track.framesDone = middle.cycle.frames → next.Valid →
      motive before middle → motive before (middle.turn next)) : motive passages last :=
  h.alongRuns hbegin (fun hpassages hrun => hchunk hpassages (hrun.sound hsound))
    fun hrun => hturn (hrun.sound hsound)

end Runs

/-! ## Cycles as runs -/

/-- Chunks that fit into what is left of the cycle are passages. -/
theorem Sound.runs_contexts (h : m.Sound) {contexts : List ChunkContext} (hpos : ∀ context ∈ contexts, 0 < context.frames)
    (hfits : m.channel.track.framesDone + (contexts.map (·.frames)).sum ≤ m.cycle.frames) :
    Runs m (m.cycle.passagesFrom m.channel.track.framesDone contexts)
        { m with channel := m.channel.advance contexts } ∧
      (m.channel.advance contexts).track.framesDone =
        m.channel.track.framesDone + (contexts.map (·.frames)).sum := by
  induction contexts generalizing m with
  | nil => exact ⟨.stay m, rfl⟩
  | cons context rest ih =>
    rw [List.forall_mem_cons] at hpos
    rw [List.map_cons, List.sum_cons] at hfits ⊢
    have hfit : m.channel.track.framesDone + context.frames ≤ m.cycle.frames := by omega
    have hdone : (m.chunk context).channel.track.framesDone = m.channel.track.framesDone + context.frames :=
      (m.channel.process_progress context (h.fits hfit)).2
    have hrest := ih (h.chunk hfit).1 hpos.2 (by rw [hdone]; exact Nat.add_assoc _ _ _ ▸ hfits)
    rw [hdone, Nat.add_assoc] at hrest
    exact ⟨.chunk hpos.1 hfit hrest.1, hrest.2⟩

/-- A whole cycle. -/
theorem runs_cycle (c : Channel) {k : Channel.PlayCycle} (hvalid : k.Valid) (elapsed : Nat)
    (sent : List (Nat × List UInt8)) :
    Runs (start c k elapsed sent) k.passages ⟨k.decided c, k, elapsed, sent⟩ ∧
      (k.decided c).track.framesDone = k.frames := by
  obtain ⟨hruns, hdone⟩ := (start_sound c hvalid elapsed sent).runs_contexts hvalid.pos (by
    rw [hvalid.total]
    exact Nat.le_of_eq (Nat.zero_add _))
  exact ⟨hruns, hdone.trans (hvalid.total ▸ Nat.zero_add _)⟩

end Moment

namespace Channel

/-- Nothing is lost for want of room in any of some cycles. -/
def LosesNothing : List PlayCycle → Channel → Prop
  | [], _ => True
  | k :: rest, c => k.NothingLost c ∧ LosesNothing rest (k.after c)

/-- What some cycles send, each message with its frame. -/
def broadcast (elapsed : Nat) : List PlayCycle → Channel → List (Nat × List UInt8)
  | [], _ => []
  | k :: rest, c =>
    (k.emitted c).map (fun x => (elapsed + x.time.toNat, x.bytes)) ++
      broadcast (elapsed + k.frames) rest (k.after c)

/-- If nothing is lost, a cycle sends what its commands send. -/
theorem PlayCycle.emitted_eq_deck {k : PlayCycle} {c : Channel} (hroom : k.NothingLost c) (elapsed : Nat)
    (sent : List (Nat × List UInt8)) :
    k.emitted c = (Moment.mk (k.decided c) k elapsed sent).deck.2 := by
  have hlive : (k.decided c).track.hasOutput = k.output.isSome := advance_hasOutput _ _
  refine emitted_of_pushAll (fun output houtput => (finalize_deck (hlive.trans houtput.symm)).2.2) (fun hnone => ?_) hroom
  unfold Moment.deck
  rw [hlive, hnone]
  exact Deck.runAll_mute _ _ _

end Channel

/-- Cycle after cycle. -/
theorem Moment.runs_cycles {c : Channel} {k : Channel.PlayCycle} {cycles : List Channel.PlayCycle}
    (hvalid : ∀ k' ∈ k :: cycles, k'.Valid) (elapsed : Nat) (sent : List (Nat × List UInt8)) :
    ∃ last, Runs (start c k elapsed sent) ((k :: cycles).flatMap Channel.PlayCycle.passages) last ∧
      last.channel.track.framesDone = last.cycle.frames ∧ last.finish = (c.playAll (k :: cycles)).1 ∧
      (Channel.LosesNothing (k :: cycles) c → last.aired = sent ++ c.broadcast elapsed (k :: cycles)) := by
  induction cycles generalizing c k elapsed sent with
  | nil =>
    obtain ⟨hruns, hdone⟩ := runs_cycle c (hvalid k List.mem_cons_self) elapsed sent
    refine ⟨_, by simpa using hruns, hdone, rfl, fun hroom => ?_⟩
    show _ = sent ++ (List.map _ (k.emitted c) ++ [])
    rw [Channel.PlayCycle.emitted_eq_deck hroom.1 elapsed sent, List.append_nil]
    rfl
  | cons next rest ih =>
    rw [List.forall_mem_cons] at hvalid
    obtain ⟨hruns, hdone⟩ := runs_cycle c hvalid.1 elapsed sent
    obtain ⟨last, hlater, hend, hfinish, haired⟩ := ih (c := k.after c) hvalid.2 (elapsed + k.frames)
      (Moment.mk (k.decided c) k elapsed sent).aired
    have hnext := hvalid.2 next List.mem_cons_self
    refine ⟨last, hruns.append (.turn hdone hnext hlater), hend, hfinish, fun hroom => (haired hroom.2).trans ?_⟩
    show sent ++ List.map _ _ ++ _ = sent ++ (List.map _ (k.emitted c) ++ _)
    rw [Channel.PlayCycle.emitted_eq_deck hroom.1 elapsed sent, List.append_assoc]

end Midi

end Overdub
