import Mathlib
import Overdub.Proofs.Reel
/-!
# Deferred work

An audio channel decides chunk by chunk what to do and works at the end of the
cycle. `Channel.view` is the reel that a channel will show once the commands
queued so far have been carried out; the invariant of a cycle, `Channel.Stage`, is
that this is the reel that has worked all along.
-/

namespace Overdub.Audio

namespace Channel

/-! ## Carrying out commands -/

namespace Finish

/-- Both stores grow by buffers of the pool. -/
structure Backed (s : Finish) : Prop where
  store : s.store.Backed s.pool
  preRecord : s.preRecord.Backed s.pool

/-- No command has failed either. -/
structure Sound (s : Finish) : Prop extends s.Backed where
  result : s.result = .ok ()

variable {s : Finish} {b : Buffer} {frame n : Nat}

/-- Not even a command that fails touches what the stores are made of. -/
theorem Backed.run (h : s.Backed) (input : Option Buffer) (command : Command) : (s.run input command).Backed := by
  cases command with
  | copy target frame position n =>
    unfold Finish.run copy
    dsimp only
    split
    · exact ⟨h.store, h.preRecord⟩
    · split
      · exact ⟨h.store, h.preRecord⟩
      · next samples _ =>
        cases target with
        | main =>
          have hwritten := h.store.writeWithinReserve position samples
          exact ⟨hwritten, h.preRecord.of_pool hwritten.silent (s.store.writeWithinReserve_bufferSize _ _ _)⟩
        | preRecord =>
          have hwritten := h.preRecord.writeWithinReserve position samples
          exact ⟨h.store.of_pool hwritten.silent (s.preRecord.writeWithinReserve_bufferSize _ _ _), hwritten⟩
  | playback frame position n gain =>
    unfold Finish.run play
    dsimp only
    split
    · exact ⟨h.store, h.preRecord⟩
    · split <;> exact ⟨h.store, h.preRecord⟩
  | promotePreRecord =>
    exact ⟨h.preRecord.of_pool h.store.release.silent (s.store.release_bufferSize _), h.store.release⟩
  | discardPreRecord =>
    exact ⟨h.store.of_pool h.preRecord.release.silent (s.preRecord.release_bufferSize _), h.preRecord.release⟩

theorem cycleSlice_eq (what : String) (hfit : frame + n ≤ b.length) :
    cycleSlice what b frame n = .ok ((b.drop frame).take n) := by
  simp [cycleSlice, Buffer.slice?, hfit]

/-- A copy stores a piece of the input on one of the tapes. -/
theorem Sound.copy (h : s.Sound) (hn : 0 < n) (hfit : frame + n ≤ b.length) (target : StoreTarget) (position : Nat) :
    let s' := s.run (some b) (.copy target frame position n)
    s'.Sound ∧ s'.output = s.output ∧
      (s'.store.tape, s'.preRecord.tape) =
        match target with
        | .main => (s.store.tape.putAll position (inputFrom (some b) frame n), s.preRecord.tape)
        | .preRecord => (s.store.tape, s.preRecord.tape.putAll position (inputFrom (some b) frame n)) := by
  have hbacked := h.toBacked.run (some b) (.copy target frame position n)
  have hsource : inputFrom (some b) frame n ≠ [] := by
    rw [← List.length_pos_iff, length_inputFrom]
    exact hn
  cases target with
  | main =>
    have hcopy : s.run (some b) (.copy .main frame position n) = { s with
        store := (s.store.writeWithinReserve position (inputFrom (some b) frame n) s.pool).2.1
        pool := (s.store.writeWithinReserve position (inputFrom (some b) frame n) s.pool).2.2 } := by
      simp only [Finish.run, Finish.copy, cycleSlice_eq _ hfit, take_drop_eq_inputFrom hfit]
    rw [hcopy] at hbacked ⊢
    exact ⟨⟨hbacked, h.result⟩, rfl,
      congrArg (fun t => (t, s.preRecord.tape)) (Store.writeWithinReserve_tape h.store position hsource)⟩
  | preRecord =>
    have hcopy : s.run (some b) (.copy .preRecord frame position n) = { s with
        preRecord := (s.preRecord.writeWithinReserve position (inputFrom (some b) frame n) s.pool).2.1
        pool := (s.preRecord.writeWithinReserve position (inputFrom (some b) frame n) s.pool).2.2 } := by
      simp only [Finish.run, Finish.copy, cycleSlice_eq _ hfit, take_drop_eq_inputFrom hfit]
    rw [hcopy] at hbacked ⊢
    exact ⟨⟨hbacked, h.result⟩, rfl,
      congrArg (fun t => (s.store.tape, t)) (Store.writeWithinReserve_tape h.preRecord position hsource)⟩

/-- Playback mixes a piece of the tape into the output. -/
theorem Sound.playback (h : s.Sound) (hb : s.output = some b) (hfit : frame + n ≤ b.length) (input : Option Buffer)
    (position : Nat) (gain : Sample) :
    let s' := s.run input (.playback frame position n gain)
    s'.Sound ∧ s'.store = s.store ∧ s'.preRecord = s.preRecord ∧
      s'.output = some (Buffer.overwrite b frame
        (List.zipWith (fun out x => out + x * gain) ((b.drop frame).take n)
          ((s.store.tape.samples.drop position).take (min n (s.store.tape.samples.length - position))))) := by
  intro s'
  have hstored : s.store.read position (min n (s.store.capacity - position)) =
      (s.store.tape.samples.drop position).take (min n (s.store.tape.samples.length - position)) := by
    rw [← h.store.length_tape, Store.read_eq (by omega)]
  have hplay : s' = { s with output := s'.output, peak := s'.peak } := by
    simp only [s', Finish.run, Finish.play, hb, cycleSlice_eq _ hfit]
  have houtput : s'.output = some (Buffer.overwrite b frame
      (List.zipWith (fun out x => out + x * gain) ((b.drop frame).take n)
        (s.store.read position (min n (s.store.capacity - position))))) := by
    simp only [s', Finish.run, Finish.play, hb, cycleSlice_eq _ hfit]
  rw [hstored] at houtput
  rw [hplay]
  exact ⟨⟨⟨h.store, h.preRecord⟩, h.result⟩, rfl, rfl, houtput⟩

end Finish

/-! ## What the commands lead to -/

/-- The end of the cycle as it would be with the commands queued so far. -/
def carryOut (c : Channel) (input output : Option Buffer) (pool : Pool) : Finish :=
  c.commands.foldl (Finish.run input) ⟨c.store, c.preRecord, pool, output, 0, .ok ()⟩

theorem carryOut_queue (c : Channel) (command : Command) (input output : Option Buffer) (pool : Pool) :
    (c.queue command).carryOut input output pool = (c.carryOut input output pool).run input command := by
  simp [carryOut, queue]

/-- The channel as a reel. Which position was played last and how often the data
has changed do not show. -/
def reel (c : Channel) (output : Option Buffer) : Reel :=
  { track := { c.track with playedBack := none, version := 0 }
    gain := c.gain
    main := c.store.tape
    aside := c.preRecord.tape
    output }

/-- The reel that carrying out the commands leads to. -/
def view (c : Channel) (input output : Option Buffer) (pool : Pool) : Reel :=
  let s := c.carryOut input output pool
  { c with store := s.store, preRecord := s.preRecord }.reel s.output

/-- The commands of a chunk, one activity after the other. -/
theorem process_eq (c : Channel) (context : ChunkContext) (h : c.track.overruns context.frames = false) :
    (c.process context).1 =
      let a := c.track.activityIn context
      let position := c.track.positionIn context
      let c := c.endPreRecord a
      let c := { c with track := { c.track with playedBack := if a.playback then position.toNat? else none } }
      let c := if a.playback then c.queuePlayback position context.frames else c
      let c := if a.record then c.queueRecord context.lenBefore context.frames else c
      let c := if a.replace then (c.queueReplace position context.frames).1 else c
      let c := if a.preRecord then c.queuePreRecord context.frames else c
      { c with track := c.track.endChunk a context.frames } := by
  unfold process Track.positionIn
  simp only [h, Bool.false_eq_true, if_false]
  rw [show c.track.permit (c.track.task context.mode context.next context.posBefore).activity =
    c.track.activityIn context from rfl]
  split_ifs <;> rfl

/-- `n` frames are left of a cycle of which `frame` have been processed, and up to
here the commands lead to the reel `r`. -/
structure Stage (input output : Option Buffer) (pool : Pool) (frame n : Nat) (c : Channel) (r : Reel) : Prop where
  sound : (c.carryOut input output pool).Sound
  view : c.view input output pool = r
  done : c.track.framesDone = frame
  left : frame + n = c.track.cycleFrames
  hasInput : c.track.hasInput = input.isSome
  hasOutput : c.track.hasOutput = output.isSome
  source : input.isSome = true → ∃ b, input = some b ∧ b.length = c.track.cycleFrames
  target : output.isSome = true →
    ∃ b, (c.carryOut input output pool).output = some b ∧ b.length = c.track.cycleFrames

namespace Stage
variable {input output : Option Buffer} {pool : Pool} {frame n : Nat} {c : Channel} {r : Reel}

/-- One more command, and a change of the track that leaves the cycle as it is. -/
theorem queue (h : Stage input output pool frame n c r) (t : Track)
    (ht : t.framesDone = c.track.framesDone ∧ t.cycleFrames = c.track.cycleFrames ∧
      t.hasInput = c.track.hasInput ∧ t.hasOutput = c.track.hasOutput)
    {command : Command} {s : Finish} (hs : (c.carryOut input output pool).run input command = s) (hsound : s.Sound)
    (houtput : s.output.map (·.length) = (c.carryOut input output pool).output.map (·.length)) :
    Stage input output pool frame n ({ c with track := t }.queue command)
      ({ c with track := t, store := s.store, preRecord := s.preRecord }.reel s.output) := by
  obtain ⟨hdone, hcycle, hin, hout⟩ := ht
  have hcarry : ({ c with track := t }.queue command).carryOut input output pool = s :=
    (carryOut_queue _ _ _ _ _).trans hs
  exact
    { sound := hcarry ▸ hsound
      view := by
        unfold Channel.view
        rw [hcarry]
        rfl
      done := hdone.trans h.done
      left := h.left.trans hcycle.symm
      hasInput := hin.trans h.hasInput
      hasOutput := hout.trans h.hasOutput
      source := fun hport => hcycle ▸ h.source hport
      target := fun hport => by
        obtain ⟨b, hb, hlength⟩ := h.target hport
        rw [hb, Option.map_some, hlength, ← hcycle] at houtput
        rw [hcarry]
        exact Option.map_eq_some_iff.mp houtput }

/-- One more copy stores a piece of the input. -/
theorem queueCopy (h : Stage input output pool frame n c r) (hport : input.isSome = true) (t : Track)
    (ht : t.framesDone = c.track.framesDone ∧ t.cycleFrames = c.track.cycleFrames ∧
      t.hasInput = c.track.hasInput ∧ t.hasOutput = c.track.hasOutput)
    {first k : Nat} (hk : 0 < k) (hfit : first + k ≤ frame + n) (target : StoreTarget) (position : Nat) :
    Stage input output pool frame n ({ c with track := t }.queue (.copy target first position k))
      { r.putAll target position (inputFrom input first k) with
        track := { t with playedBack := none, version := 0 } } := by
  obtain ⟨b, rfl, hb⟩ := h.source hport
  obtain ⟨hsound, hout, htapes⟩ := h.sound.copy hk (hb ▸ h.left ▸ hfit) target position
  have hqueued := h.queue t ht rfl hsound (by rw [hout])
  obtain rfl := h.view
  cases target with
  | main =>
    obtain ⟨hmain, haside⟩ := Prod.mk.inj htapes
    simp only [reel, hout, hmain, haside] at hqueued
    exact hqueued
  | preRecord =>
    obtain ⟨hmain, haside⟩ := Prod.mk.inj htapes
    simp only [reel, hout, hmain, haside] at hqueued
    exact hqueued

theorem endPreRecord (h : Stage input output pool frame n c r) (a : Activity) :
    Stage input output pool frame n (c.endPreRecord a) (r.endAside a) := by
  obtain rfl := h.view
  have hends : c.track.endsPreRecord a = true ↔
      (c.view input output pool).track.lastActivity.preRecord = true ∧ ¬ a.preRecord = true := by
    simp [Track.endsPreRecord, Channel.view, reel]
  unfold Channel.endPreRecord Reel.endAside
  by_cases hp : c.track.endsPreRecord a = true
  -- The main store goes back to the pool in the one case, what was kept aside in the other.
  · rw [if_pos hp, if_pos (hends.mp hp)]
    split_ifs
    · exact h.queue c.track.promotePreRecord ⟨rfl, rfl, rfl, rfl⟩ rfl
        ⟨h.sound.run input .promotePreRecord, h.sound.result⟩ rfl
    · exact h.queue c.track.discardPreRecord ⟨rfl, rfl, rfl, rfl⟩ rfl
        ⟨h.sound.run input .discardPreRecord, h.sound.result⟩ rfl
  · rw [if_neg hp, if_neg (mt hends.mpr hp)]
    exact h

theorem queuePlayback (h : Stage input output pool frame n c r) (hport : output.isSome = true) {k : Nat}
    (hk : k ≤ n) (hmax : k ≤ maxFrames) (position : Int) :
    Stage input output pool frame n (c.queuePlayback position k)
      (eachFrame (fun i => Reel.play (frame + i) (position + i)) k r) := by
  obtain ⟨b, hout, hb⟩ := h.target hport
  have hleft := h.left
  have hmix := r.eachFrame_mix frame position k (show frame + k ≤ b.length by omega)
  obtain rfl := h.done
  obtain rfl := h.view
  have hplayed : (c.view input output pool).output = some b := hout
  rw [Reel.eachFrame_play, hplayed, Option.map_some, hmix,
    show (c.view input output pool).track.dataLength = c.track.dataLength from rfl,
    show (c.view input output pool).track.firstPlayable = c.track.firstPlayable from rfl]
  clear hmix
  unfold Channel.queuePlayback
  rw [min_clampFrames hmax]
  dsimp only
  generalize hs : min k (c.track.firstPlayable - position).toNat = skip
  rw [min_clampFrames (Nat.le_trans (Nat.sub_le k skip) hmax)]
  split_ifs with hnone
  -- No frame of the chunk is heard, so nothing is queued.
  · rw [show min (k - skip) (c.track.dataLength - (position + skip).toNat) = 0 by omega]
    simp only [List.take_zero, List.zipWith_nil_left, Buffer.overwrite_nil]
    rw [← hplayed]
    exact h
  · generalize hl : min (k - skip) (c.track.dataLength - (position + skip).toNat) = length
    have hfit : c.track.framesDone + skip + length ≤ b.length := by omega
    obtain ⟨hsound, hstore, hpre, hmixed⟩ := h.sound.playback hout hfit input (position + skip).toNat c.gain
    have hqueued := h.queue c.track ⟨rfl, rfl, rfl, rfl⟩ rfl hsound (by
      rw [hmixed, hout, Option.map_some, Option.map_some, Buffer.length_overwrite])
    simp only [reel, hstore, hpre, hmixed] at hqueued
    exact hqueued

theorem queueRecord (h : Stage input output pool frame n c r) (hport : input.isSome = true) {k : Nat}
    (hpos : 0 < k) (hk : k ≤ n) (loopLength : Nat) :
    Stage input output pool frame n (c.queueRecord loopLength k)
      (eachFrame (fun i => Reel.record input (frame + i) (max loopLength (-c.track.startOffset).toNat + i)) k r) := by
  obtain rfl := h.view
  obtain rfl := h.done
  have hposition : (((max loopLength (-c.track.startOffset).toNat : Nat) : Int) + c.track.startOffset).toNat =
      c.track.recordFrom loopLength := by
    unfold Track.recordFrom
    omega
  rw [Reel.eachFrame_record _ _ _ (show 0 ≤ ((max _ _ : Nat) : Int) + c.track.startOffset by omega) hpos,
    show (c.view input output pool).track.startOffset = c.track.startOffset from rfl, hposition]
  exact h.queueCopy hport (c.track.record (c.track.recordFrom loopLength) k) ⟨rfl, rfl, rfl, rfl⟩ hpos (by omega)
    .main _

theorem queueReplace (h : Stage input output pool frame n c r) (hport : input.isSome = true) {k : Nat}
    (hk : k ≤ n) (hmax : k ≤ maxFrames) (position : Int) :
    Stage input output pool frame n (c.queueReplace position k).1
      (eachFrame (fun i => Reel.replace input (frame + i) (position + i)) k r) := by
  obtain rfl := h.view
  obtain rfl := h.done
  rw [Reel.eachFrame_replace, show (c.view input output pool).track.dataLength = c.track.dataLength from rfl]
  unfold Channel.queueReplace
  rw [min_clampFrames hmax]
  dsimp only
  -- What lies behind the data is an error, but what lies inside is queued all the same.
  rw [apply_ite Prod.fst, ite_self]
  split_ifs with hinside
  · rw [hinside]
    exact h
  · exact h.queueCopy hport { c.track with version := c.track.version + 1 } ⟨rfl, rfl, rfl, rfl⟩
      (Nat.pos_of_ne_zero hinside) (by omega) .main _

theorem queuePreRecord (h : Stage input output pool frame n c r) (hport : input.isSome = true) {k : Nat}
    (hpos : 0 < k) (hk : k ≤ n) :
    Stage input output pool frame n (c.queuePreRecord k)
      (eachFrame (fun i => Reel.keep input (frame + i)) k r) := by
  obtain rfl := h.view
  obtain rfl := h.done
  rw [Reel.eachFrame_keep]
  exact h.queueCopy hport { c.track with preRecordLength := c.track.preRecordLength + k } ⟨rfl, rfl, rfl, rfl⟩ hpos
    (by omega) .preRecord _

theorem ite {p : Prop} [Decidable p] {c' : Channel} {r' : Reel} (h : Stage input output pool frame n c r)
    (h' : p → Stage input output pool frame n c' r') :
    Stage input output pool frame n (if p then c' else c) (if p then r' else r) := by
  split_ifs with hp
  · exact h' hp
  · exact h

theorem endChunk (h : Stage input output pool frame n c r) (a : Activity) {k : Nat} (hk : k ≤ n) :
    Stage input output pool (frame + k) (n - k) { c with track := c.track.endChunk a k } (r.mark a (frame + k)) := by
  obtain rfl := h.done
  obtain rfl := h.view
  have hleft := h.left
  refine ⟨h.sound, rfl, rfl, ?_, h.hasInput, h.hasOutput, h.source, h.target⟩
  show c.track.framesDone + k + (n - k) = c.track.cycleFrames
  omega

/-- One chunk of the channel is one chunk of the reel, recorded from where the data begin if it lies in front of
them. -/
theorem process (h : Stage input output pool frame n c r) {context : ChunkContext} (hpos : 0 < context.frames)
    (hle : context.frames ≤ n) (hmax : context.frames ≤ maxFrames) :
    Stage input output pool (frame + context.frames) (n - context.frames) (c.process context).1
      (r.chunk input (r.anchor context)) := by
  have hleft := h.left
  have hover : c.track.overruns context.frames = false := by
    have hdone := h.done
    rw [Track.overruns, decide_eq_false_iff_not]
    omega
  have htrack : r.track = { c.track with playedBack := none, version := 0 } := by
    rw [← h.view]
    rfl
  have hactivity : r.track.activityIn context = c.track.activityIn context := by
    rw [htrack]
    rfl
  have hposition : r.track.positionIn context = c.track.positionIn context := by
    rw [htrack]
    rfl
  have hframe : r.track.framesDone = frame := by
    rw [htrack]
    exact h.done
  have hoffset : (r.endAside (r.track.activityIn context)).track.startOffset =
      (c.endPreRecord (r.track.activityIn context)).track.startOffset := by
    rw [← (h.endPreRecord (r.track.activityIn context)).view]
    rfl
  have hanchored : (r.track.activityIn context).record = true → (r.anchor context).lenBefore =
      max context.lenBefore (-(c.endPreRecord (r.track.activityIn context)).track.startOffset).toNat := by
    intro hrecord
    rw [← hoffset]
    exact if_pos hrecord
  have hexclusive := c.track.activityIn_exclusive context
  have hchunk : r.chunk input (r.anchor context) = _ := r.chunk_eq (show 0 < (r.anchor context).frames from hpos)
  rw [show r.track.activityIn (r.anchor context) = r.track.activityIn context from rfl,
    show r.track.positionIn (r.anchor context) = r.track.positionIn context from rfl,
    show (r.anchor context).frames = context.frames from rfl] at hchunk
  rw [hactivity] at hanchored hchunk
  rw [hchunk, hposition, hframe, Reel.eachFrame_act _ hexclusive, process_eq c context hover]
  clear hchunk hactivity hoffset
  obtain ⟨hplays, hrecords, hreplaces, hkeeps⟩ := c.track.activityIn_ports context
  rw [h.hasOutput] at hplays
  rw [h.hasInput] at hrecords hreplaces hkeeps
  generalize c.track.activityIn context = a at *
  apply endChunk _ a hle
  -- The activities of the chunk come one after the other, on both sides alike.
  have hended := h.endPreRecord a
  have hplayed : Stage input output pool frame n
      { c.endPreRecord a with track := { (c.endPreRecord a).track with
        playedBack := if a.playback then (c.track.positionIn context).toNat? else none } } (r.endAside a) :=
    ⟨hended.sound, hended.view, hended.done, hended.left, hended.hasInput, hended.hasOutput, hended.source,
      hended.target⟩
  have hplay := hplayed.ite fun ha => hplayed.queuePlayback (hplays ha) hle hmax (c.track.positionIn context)
  have hrecord := hplay.ite fun ha => by
    have hqueued := hplay.queueRecord (hrecords ha) hpos hle context.lenBefore
    rwa [apply_ite Channel.track, queuePlayback_track, ite_self, ← hanchored ha] at hqueued
  have hreplace := hrecord.ite fun ha =>
    hrecord.queueReplace (hreplaces ha) hle hmax (c.track.positionIn context)
  exact hreplace.ite fun ha => hreplace.queuePreRecord (hkeeps ha) hpos hle

/-- One chunk of the channel is one chunk of the reel, unless it is recorded in front of the data. -/
theorem process_anchored (h : Stage input output pool frame n c r) {context : ChunkContext} (hpos : 0 < context.frames)
    (hle : context.frames ≤ n) (hmax : context.frames ≤ maxFrames)
    (hstart : (c.process context).1.track.lastActivity.record = true →
      0 ≤ (c.process context).1.track.startOffset) :
    Stage input output pool (frame + context.frames) (n - context.frames) (c.process context).1
      (r.chunk input context) := by
  have hover : c.track.overruns context.frames = false := by
    have hdone := h.done
    have hleft := h.left
    rw [Track.overruns, decide_eq_false_iff_not]
    omega
  obtain ⟨hlast, hoffset⟩ := c.process_anchor context hover
  have hnext := h.process hpos hle hmax
  rwa [r.anchor_eq_self] at hnext
  rw [hlast, hoffset] at hstart
  rw [← (h.endPreRecord (r.track.activityIn context)).view, ← h.view]
  exact hstart

end Stage

/-! ## Every operation leaves a channel on its pool -/

/-- Both stores grow by buffers of the pool. -/
structure Backed (c : Channel) (pool : Pool) : Prop where
  store : c.store.Backed pool
  preRecord : c.preRecord.Backed pool

theorem new_backed {bufferSize : Nat} {pool : Pool} (hsilent : pool.Sound) (hsize : max 1 bufferSize = pool.bufferSize)
    (mode : ChannelMode) (reserved : Option Nat) : (new bufferSize mode reserved).Backed pool :=
  ⟨Store.opened_backed hsilent hsize reserved, Store.opened_backed hsilent hsize reserved⟩

/-- What happens to another channel of the pool does not matter. -/
theorem Backed.of_pool {c : Channel} {pool pool' : Pool} (h : c.Backed pool) (hsilent : pool'.Sound)
    (hsize : pool'.bufferSize = pool.bufferSize) : c.Backed pool' :=
  ⟨h.store.of_pool hsilent hsize, h.preRecord.of_pool hsilent hsize⟩

/-- Both stores stay as they are. -/
def SameStores (c c' : Channel) : Prop := c'.store = c.store ∧ c'.preRecord = c.preRecord

theorem SameStores.trans {c c' c'' : Channel} (h : c.SameStores c') (h' : c'.SameStores c'') : c.SameStores c'' :=
  ⟨h'.1.trans h.1, h'.2.trans h.2⟩

/-- A step that is taken or not. -/
theorem SameStores.ite {c c' c'' : Channel} {q : Prop} [Decidable q] (h : c.SameStores c') (h' : c'.SameStores c'') :
    c.SameStores (if q then c'' else c') := by
  split_ifs
  · exact h.trans h'
  · exact h

theorem endPreRecord_stores (c : Channel) (a : Activity) : c.SameStores (c.endPreRecord a) := by
  unfold endPreRecord
  split_ifs <;> exact ⟨rfl, rfl⟩

theorem queuePlayback_stores (c : Channel) (position : Int) (n : Nat) : c.SameStores (c.queuePlayback position n) := by
  unfold queuePlayback
  dsimp only
  split_ifs <;> exact ⟨rfl, rfl⟩

theorem queueRecord_stores (c : Channel) (loopLength n : Nat) : c.SameStores (c.queueRecord loopLength n) := ⟨rfl, rfl⟩

theorem queuePreRecord_stores (c : Channel) (n : Nat) : c.SameStores (c.queuePreRecord n) := ⟨rfl, rfl⟩

theorem queueReplace_stores (c : Channel) (position : Int) (n : Nat) : c.SameStores (c.queueReplace position n).1 := by
  unfold queueReplace
  dsimp only
  split_ifs <;> exact ⟨rfl, rfl⟩

/-- Deciding about a chunk does not touch the stores. -/
theorem process_stores (c : Channel) (context : ChunkContext) : c.SameStores (c.process context).1 := by
  by_cases hover : c.track.overruns context.frames = true
  · unfold process
    rw [if_pos hover]
    exact ⟨rfl, rfl⟩
  · rw [process_eq c context (Bool.not_eq_true _ ▸ hover)]
    have hended := c.endPreRecord_stores (c.track.activityIn context)
    have hmarked : c.SameStores { c.endPreRecord (c.track.activityIn context) with
        track := { (c.endPreRecord (c.track.activityIn context)).track with
          playedBack := if (c.track.activityIn context).playback then (c.track.positionIn context).toNat? else none } } :=
      ⟨hended.1, hended.2⟩
    have hplayed := hmarked.ite (q := (c.track.activityIn context).playback = true)
      (queuePlayback_stores _ (c.track.positionIn context) context.frames)
    have hrecorded := hplayed.ite (q := (c.track.activityIn context).record = true)
      (queueRecord_stores _ context.lenBefore context.frames)
    have hreplaced := hrecorded.ite (q := (c.track.activityIn context).replace = true)
      (queueReplace_stores _ (c.track.positionIn context) context.frames)
    have hkept := hreplaced.ite (q := (c.track.activityIn context).preRecord = true)
      (queuePreRecord_stores _ context.frames)
    exact ⟨hkept.1, hkept.2⟩

theorem SameStores.backed {c c' : Channel} {pool : Pool} (hsame : c.SameStores c') (h : c.Backed pool) :
    c'.Backed pool := by
  obtain ⟨hstore, hpreRecord⟩ := hsame
  exact ⟨hstore.symm ▸ h.store, hpreRecord.symm ▸ h.preRecord⟩

theorem process_backed {c : Channel} {pool : Pool} (h : c.Backed pool) (context : ChunkContext) :
    (c.process context).1.Backed pool := (c.process_stores context).backed h

theorem finalize_backed {c : Channel} {pool : Pool} (h : c.Backed pool) (input output : Option Buffer) :
    (c.finalize input output pool).1.Backed (c.finalize input output pool).2.2.1 := by
  suffices hall : ∀ (commands : List Command) (s : Finish), s.Backed →
      (commands.foldl (Finish.run input) s).Backed from
    have hend := hall c.commands ⟨c.store, c.preRecord, pool, output, 0, .ok ()⟩ ⟨h.store, h.preRecord⟩
    ⟨hend.store, hend.preRecord⟩
  intro commands
  induction commands with
  | nil => exact fun _ hs => hs
  | cons command rest ih => exact fun s hs => ih _ (hs.run input command)

theorem load_backed {c : Channel} {pool : Pool} (h : c.Backed pool) (samples : Buffer) :
    (c.load samples pool).1.Backed (c.load samples pool).2 := by
  have hwritten := h.store.release.write 0 samples
  exact ⟨hwritten, h.preRecord.of_pool hwritten.silent
    (((c.store.release pool).1.push_bufferSize (c.store.release pool).2 _).2.trans (c.store.release_bufferSize pool))⟩

theorem clear_backed {c : Channel} {pool : Pool} (h : c.Backed pool) (length : Nat) :
    (c.clear length pool).1.Backed (c.clear length pool).2 := by
  have hmain := h.store.release
  have haside := (h.preRecord.of_pool hmain.silent (c.store.release_bufferSize pool)).release
  have hgrown := (hmain.of_pool haside.silent (c.preRecord.release_bufferSize _)).push
    (min ((c.store.release pool).1.missing length)
      ((c.store.release pool).1.room - (c.store.release pool).1.buffers.length))
  exact ⟨hgrown, haside.of_pool hgrown.silent ((c.store.release pool).1.push_bufferSize _ _).2⟩

theorem adopt_backed {c : Channel} {pool : Pool} (h : c.Backed pool) (ring : CaptureRing)
    (reverseStart keepBefore : Option Nat) :
    (c.adopt ring reverseStart keepBefore pool).1.Backed (c.adopt ring reverseStart keepBefore pool).2 := by
  have hgrown := fun n => h.store.release.push n
  have haside := fun n => h.preRecord.of_pool (hgrown n).silent
    (((c.store.release pool).1.push_bufferSize (c.store.release pool).2 n).2.trans (c.store.release_bufferSize pool))
  exact ⟨⟨(hgrown _).putAt _ _, (hgrown _).silent, (hgrown _).size⟩, haside _⟩

theorem replaceStore_backed {c : Channel} {pool : Pool} (h : c.Backed pool) {store : Store} (hstore : store.Backed pool)
    (length : Nat) (startOffset : Int) :
    (c.replaceStore store length startOffset pool).2.1.Backed (c.replaceStore store length startOffset pool).2.2 := by
  have hreleased := h.store.release
  exact ⟨hstore.of_pool hreleased.silent (c.store.release_bufferSize pool),
    h.preRecord.of_pool hreleased.silent (c.store.release_bufferSize pool)⟩

theorem release_backed {c : Channel} {pool : Pool} (h : c.Backed pool) :
    (c.release pool).1.Backed (c.release pool).2 := by
  have hmain := h.store.release
  have haside := (h.preRecord.of_pool hmain.silent (c.store.release_bufferSize pool)).release
  exact ⟨hmain.of_pool haside.silent (c.preRecord.release_bufferSize _), haside⟩

/-- The states of a channel and its pool, whatever has been done to them and to
the other channels on the pool. -/
inductive Reachable : Channel → Pool → Prop where
  | new (bufferSize target : Nat) (mode : ChannelMode) (reserved : Option Nat) :
    Reachable (new bufferSize mode reserved) (Pool.new bufferSize target)
  | pool {c pool pool'} : Reachable c pool → pool'.Sound → pool'.bufferSize = pool.bufferSize → Reachable c pool'
  | modifyTrack {c pool} (f : Track → Track) : Reachable c pool → Reachable (c.modifyTrack f) pool
  | setGain {c pool} (gain : Sample) : Reachable c pool → Reachable (c.setGain gain) pool
  | prepare {c pool} (frames : Nat) (hasInput hasOutput : Bool) :
    Reachable c pool → Reachable (c.prepare frames hasInput hasOutput) pool
  | process {c pool} (context : ChunkContext) : Reachable c pool → Reachable (c.process context).1 pool
  | finalize {c pool} (input output : Option Buffer) :
    Reachable c pool → Reachable (c.finalize input output pool).1 (c.finalize input output pool).2.2.1
  | load {c pool} (samples : Buffer) : Reachable c pool → Reachable (c.load samples pool).1 (c.load samples pool).2
  | clear {c pool} (length : Nat) : Reachable c pool → Reachable (c.clear length pool).1 (c.clear length pool).2
  | adopt {c pool} (ring : CaptureRing) (reverseStart keepBefore : Option Nat) :
    Reachable c pool →
      Reachable (c.adopt ring reverseStart keepBefore pool).1 (c.adopt ring reverseStart keepBefore pool).2
  | replaceStore {c pool store} (length : Nat) (startOffset : Int) : Reachable c pool → store.Backed pool →
    Reachable (c.replaceStore store length startOffset pool).2.1 (c.replaceStore store length startOffset pool).2.2
  | release {c pool} : Reachable c pool → Reachable (c.release pool).1 (c.release pool).2

theorem Reachable.backed {c : Channel} {pool : Pool} (h : Reachable c pool) : c.Backed pool := by
  induction h with
  | new bufferSize target mode reserved => exact new_backed (Pool.new_sound bufferSize target) rfl mode reserved
  | pool _ hsilent hsize ih => exact ih.of_pool hsilent hsize
  | modifyTrack _ _ ih => exact ⟨ih.store, ih.preRecord⟩
  | setGain _ _ ih => exact ⟨ih.store, ih.preRecord⟩
  | prepare _ _ _ _ ih => exact ⟨ih.store, ih.preRecord⟩
  | process context _ ih => exact process_backed ih context
  | finalize input output _ ih => exact finalize_backed ih input output
  | load samples _ ih => exact load_backed ih samples
  | clear length _ ih => exact clear_backed ih length
  | adopt ring reverseStart keepBefore _ ih => exact adopt_backed ih ring reverseStart keepBefore
  | replaceStore length startOffset _ hstore ih => exact replaceStore_backed ih hstore length startOffset
  | release _ ih => exact release_backed ih

/-! ## A cycle -/

/-- Decides about one chunk after the other. -/
def advance (contexts : List ChunkContext) (c : Channel) : Channel :=
  contexts.foldl (fun c context => (c.process context).1) c

/-- No chunk is recorded into a channel whose start lies in front of its data. -/
def Anchored : List ChunkContext → Channel → Prop
  | [], _ => True
  | context :: rest, c =>
    ((c.process context).1.track.lastActivity.record = true → 0 ≤ (c.process context).1.track.startOffset) ∧
      Anchored rest (c.process context).1

theorem Stage.advance {input output : Option Buffer} {pool : Pool} {frame n : Nat} {c : Channel} {r : Reel}
    (h : Stage input output pool frame n c r) (hmax : n ≤ maxFrames) {contexts : List ChunkContext}
    (hpos : ∀ context ∈ contexts, 0 < context.frames) (hsum : (contexts.map (·.frames)).sum ≤ n)
    (hstart : Anchored contexts c) :
    Stage input output pool (frame + (contexts.map (·.frames)).sum) (n - (contexts.map (·.frames)).sum)
      (c.advance contexts) (r.run input contexts) := by
  induction contexts generalizing frame n c r with
  | nil => exact h
  | cons context rest ih =>
    rw [List.forall_mem_cons] at hpos
    rw [List.map_cons, List.sum_cons] at hsum ⊢
    have hnext := h.process_anchored hpos.1 (by omega) (by omega) hstart.1
    rw [← Nat.add_assoc, ← Nat.sub_sub]
    exact ih hnext (by omega) hpos.2 (by omega) hstart.2

theorem buffer_of_flag {buffer : Option Buffer} {flag : Bool} {n : Nat}
    (h : buffer.map (·.length) = if flag then some n else none) :
    flag = buffer.isSome ∧ (buffer.isSome = true → ∃ b, buffer = some b ∧ b.length = n) := by
  cases buffer with
  | none => cases flag <;> simp_all
  | some b => cases flag <;> simp_all

end Channel

end Overdub.Audio
