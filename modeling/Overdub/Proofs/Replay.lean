import Overdub.Proofs.Player
import Overdub.Proofs.Sequence
/-!
# Playing a recording to a listener

A channel that plays its recording keeps in its output state what its listener has
heard. What carries this over any run is `Replays`, in the middle of a cycle, and
`Rests`, between cycles: once the queued commands are carried out, the listener
follows the output state, and where playback is said to have left off is where the
player stands (`Player.At`). Every chunk that records nothing keeps `Replays`
(`Replays.process`), finalizing a cycle leads back to `Rests`, and a run is one
cycle after the other (`Rests.playAll`).
-/

namespace Overdub.Midi.Channel

/-! ## A chunk -/

/-- The chunk goes on at the data position where playback left off, or playback
starts over: it was interrupted, or the chunk lies in front of that position. -/
def GoesOn (c : Channel) (context : ChunkContext) : Prop :=
  ∀ t, (c.interrupt (c.track.activityIn context) context).playedUntil = some t →
    c.track.positionIn context ≤ t

instance (c : Channel) (context : ChunkContext) : Decidable (c.GoesOn context) :=
  inferInstanceAs (Decidable (∀ t ∈ (c.interrupt (c.track.activityIn context) context).playedUntil,
    c.track.positionIn context ≤ t))

theorem process_eq (c : Channel) (context : ChunkContext) (h : c.track.overruns context.frames = false)
    (hrecord : (c.track.activityIn context).record = false) :
    (c.process context).1 =
      let a := c.track.activityIn context
      let position := c.track.positionIn context
      let c := (c.interrupt a context).endPreRecord a
      let c := { c with track := { c.track with playedBack := if a.playback then position.toNat? else none } }
      let c := if a.playback then c.queuePlayback position context.frames else { c with playedUntil := none }
      let c := if a.preRecord then c.queuePreRecord context.frames else c
      { c with
        track := c.track.endChunk { a with replace := false } context.frames, lastPosition := context.posAfter } := by
  unfold process Track.positionIn
  simp only [h, Bool.false_eq_true, if_false]
  rw [show c.track.permit (c.track.task context.mode context.next context.posBefore).activity =
    c.track.activityIn context from rfl]
  generalize c.track.activityIn context = a at hrecord ⊢
  obtain ⟨playback, record, replace, preRecord⟩ := a
  obtain rfl : record = false := hrecord
  rfl

theorem endPreRecord_kept (c : Channel) (a : Activity) :
    (c.endPreRecord a).track.hasOutput = c.track.hasOutput ∧
      (c.endPreRecord a).playedUntil = c.playedUntil := by
  unfold endPreRecord
  split_ifs <;> exact ⟨rfl, rfl⟩

/-- One more command leads the player on. -/
theorem carried_queue {c c' : Channel} {command : Command} (hcommands : c'.commands = c.commands ++ [command])
    (hplayer : c'.player = c.player) (hscore : c'.score = c.score)
    (hlive : c'.track.hasOutput = c.track.hasOutput) :
    c'.carried =
      ((c.carried.1.carry c.score c.track.hasOutput [command]).1,
        c.carried.2 ++ (c.carried.1.carry c.score c.track.hasOutput [command]).2) := by
  rw [carried, hcommands, hplayer, hscore, hlive, Player.carry_append]
  rfl

/-- The channel plays a score, of which nothing in front of `first` may be played,
to a listener that has heard some messages up to this cycle. -/
structure Replays (s : Score) (first : Nat) (heard : List Message) (c : Channel) : Prop where
  score : c.score = s
  firstPlayable : c.track.firstPlayable = first
  keeps : ∀ command ∈ c.commands, command.keepsContent = true
  follows : ((heard ++ c.carried.2).foldl Tracker.feedMessage .fresh).Follows c.carried.1.output
  stands : ∀ t, c.playedUntil = some t → c.carried.1.At s first t

namespace Replays
variable {s : Score} {first : Nat} {heard : List Message} {c c' : Channel}

/-- What is neither played nor heard may change, and playback may end. -/
theorem change (h : Replays s first heard c) (hcommands : c'.commands = c.commands)
    (hplayer : c'.player = c.player) (hscore : c'.score = c.score)
    (hlive : c'.track.hasOutput = c.track.hasOutput)
    (hfirst : c'.track.firstPlayable = c.track.firstPlayable)
    (huntil : c'.playedUntil = c.playedUntil ∨ c'.playedUntil = none) : Replays s first heard c' := by
  have hcarried : c'.carried = c.carried := by rw [carried, hcommands, hplayer, hscore, hlive]; rfl
  refine ⟨hscore.trans h.score, hfirst.trans h.firstPlayable, hcommands ▸ h.keeps, hcarried ▸ h.follows,
    fun t ht => ?_⟩
  rw [hcarried]
  rcases huntil with huntil | huntil
  · exact h.stands t (huntil.symm.trans ht)
  · cases huntil.symm.trans ht

/-- One more command that keeps the listener in step and takes the player to where
playback is said to be. -/
theorem queue (h : Replays s first heard c) (command : Command) (hkeeps : command.keepsContent = true)
    (hcommands : c'.commands = c.commands ++ [command]) (hplayer : c'.player = c.player)
    (hscore : c'.score = c.score) (hlive : c'.track.hasOutput = c.track.hasOutput)
    (hfirst : c'.track.firstPlayable = c.track.firstPlayable)
    (hfollows : ∀ l : Tracker, l.Follows c.carried.1.output →
      let next := c.carried.1.carry s c.track.hasOutput [command]
      (next.2.foldl Tracker.feedMessage l).Follows next.1.output)
    (hstands : ∀ t, c'.playedUntil = some t → (c.carried.1.carry s c.track.hasOutput [command]).1.At s first t) :
    Replays s first heard c' := by
  have hcarried := carried_queue hcommands hplayer hscore hlive
  rw [h.score] at hcarried
  refine ⟨hscore.trans h.score, hfirst.trans h.firstPlayable, ?_, ?_, hcarried ▸ hstands⟩
  · rw [hcommands, List.forall_mem_append, List.forall_mem_singleton]
    exact ⟨h.keeps, hkeeps⟩
  · rw [hcarried, ← List.append_assoc, List.foldl_append]
    exact hfollows _ h.follows

theorem queueSilent (h : Replays s first heard c) (command : Command) (hkeeps : command.keepsContent = true)
    (hsilent : ∀ p : Player, p.run s command = (p, []))
    (hcommands : c'.commands = c.commands ++ [command]) (hplayer : c'.player = c.player)
    (hscore : c'.score = c.score) (hlive : c'.track.hasOutput = c.track.hasOutput)
    (hfirst : c'.track.firstPlayable = c.track.firstPlayable) (huntil : c'.playedUntil = c.playedUntil) :
    Replays s first heard c' := by
  have hcarry : c.carried.1.carry s c.track.hasOutput [command] = (c.carried.1, []) := by
    cases c.track.hasOutput
    · rfl
    · rw [Player.carry_singleton, hsilent]
  refine h.queue command hkeeps hcommands hplayer hscore hlive hfirst (fun l hl => ?_) fun t ht => ?_
  · rw [hcarry]
    exact hl
  · rw [hcarry]
    exact h.stands t (huntil.symm.trans ht)

theorem interrupt (h : Replays s first heard c) (a : Activity) (context : ChunkContext) :
    Replays s first heard (c.interrupt a context) := by
  unfold Channel.interrupt
  dsimp only
  split_ifs
  · refine h.queue (.allSoundOff c.track.framesDone) rfl rfl rfl rfl rfl rfl (fun l hl => ?_) nofun
    cases c.track.hasOutput
    · exact hl
    · rw [Player.carry_singleton]
      exact Player.follows_allSoundOff hl s _
  · exact h

theorem endPreRecord (h : Replays s first heard c) {a : Activity} (hrecord : a.record = false) :
    Replays s first heard (c.endPreRecord a) := by
  unfold Channel.endPreRecord
  simp only [hrecord, Bool.false_eq_true, if_false]
  split_ifs
  · exact h.queueSilent .discardPreRecord rfl (fun _ => rfl) rfl rfl rfl rfl rfl rfl
  · exact h

theorem queuePlayback (h : Replays s first heard c) (hstart : s.startState.Sound)
    (hlive : c.track.hasOutput = true) {n : Nat} (hn : 0 < n) (hmax : n ≤ maxFrames) {position : Int}
    (hgoes : ∀ t, c.playedUntil = some t → position ≤ t) :
    Replays s first heard (c.queuePlayback position n) := by
  unfold Channel.queuePlayback
  dsimp only
  rw [h.firstPlayable]
  refine h.queue (.playback _ _ _ _) rfl rfl rfl rfl rfl rfl (fun l hl => ?_) fun t ht => ?_
  · rw [hlive, Player.carry_singleton]
    refine Player.follows_play hl hstart (fun hrestart => ?_) _ _ _
    cases huntil : c.playedUntil with
    | none => rw [huntil] at hrestart; cases hrestart
    | some t => exact (h.stands t huntil).restore_sound hstart
  · rw [hlive, Player.carry_singleton]
    obtain rfl := Option.some_inj.mp ht
    exact Player.at_play hn hmax (fun t ht => ⟨h.stands t ht, hgoes t ht⟩) _

theorem playOrStop (h : Replays s first heard c) (hstart : s.startState.Sound) {plays : Bool}
    (hlive : plays = true → c.track.hasOutput = true) {n : Nat} (hn : 0 < n) (hmax : n ≤ maxFrames)
    {position : Int} (hgoes : plays = true → ∀ t, c.playedUntil = some t → position ≤ t) :
    Replays s first heard
      (if plays = true then c.queuePlayback position n else { c with playedUntil := none }) := by
  split_ifs with hplays
  · exact h.queuePlayback hstart (hlive hplays) hn hmax (hgoes hplays)
  · exact h.change rfl rfl rfl rfl rfl (.inr rfl)

theorem keepAside (h : Replays s first heard c) (keeps : Bool) (n : Nat) :
    Replays s first heard (if keeps = true then c.queuePreRecord n else c) := by
  split_ifs
  · exact h.queueSilent (.record .preRecord _ n _) rfl (fun _ => rfl) rfl rfl rfl rfl rfl rfl
  · exact h

/-- A chunk that records nothing keeps the listener in step, and takes the player
to its end if it is played. -/
theorem process (h : Replays s first heard c) (hstart : s.startState.Sound) {context : ChunkContext}
    (hover : c.track.overruns context.frames = false) (hn : 0 < context.frames) (hmax : context.frames ≤ maxFrames)
    (hrecord : (c.track.activityIn context).record = false)
    (hgoes : (c.track.activityIn context).playback = true → c.GoesOn context) :
    Replays s first heard (c.process context).1 := by
  have hplays := (c.track.activityIn_ports context).1
  -- One step of the chunk after the other; of the steps before only what they preserve is used.
  rw [process_eq c context hover hrecord]
  dsimp only
  unfold GoesOn at hgoes
  generalize c.track.activityIn context = a at hrecord hgoes hplays ⊢
  generalize c.track.positionIn context = position at hgoes ⊢
  obtain ⟨hoff, huntil⟩ := endPreRecord_kept (c.interrupt a context) a
  have hended := (h.interrupt a context).endPreRecord hrecord
  generalize (c.interrupt a context).endPreRecord a = c₁ at hended hoff huntil ⊢
  have hplayed : Replays s first heard
      { c₁ with track := { c₁.track with playedBack := if a.playback then position.toNat? else none } } :=
    hended.change rfl rfl rfl rfl rfl (.inl rfl)
  have hlive : a.playback = true → c₁.track.hasOutput = true := fun ha =>
    hoff.trans ((congrArg Track.hasOutput (c.interrupt_track a context)).trans (hplays ha))
  have hplayback := hplayed.playOrStop hstart hlive hn hmax fun ha t ht => hgoes ha t (huntil.symm.trans ht)
  exact (hplayback.keepAside a.preRecord context.frames).change rfl rfl rfl rfl rfl (.inl rfl)

end Replays

/-- A chunk that is played leaves playback off at its end. -/
theorem process_playedUntil {c : Channel} {context : ChunkContext} (hover : c.track.overruns context.frames = false)
    (hrecord : (c.track.activityIn context).record = false) (hplays : (c.track.activityIn context).playback = true) :
    (c.process context).1.playedUntil = some (c.track.positionIn context + context.frames) := by
  rw [process_eq c context hover hrecord]
  simp only [hplays, if_true]
  split_ifs <;> rfl

/-! ## A cycle -/

/-- Decides about one chunk after the other. -/
def advance (contexts : List ChunkContext) (c : Channel) : Channel :=
  contexts.foldl (fun c context => (c.process context).1) c

/-- Chunks that record nothing, in which playback goes on or starts over. -/
def Steady : List ChunkContext → Channel → Prop
  | [], _ => True
  | context :: rest, c =>
    (c.track.activityIn context).record = false ∧
      ((c.track.activityIn context).playback = true → c.GoesOn context) ∧ Steady rest (c.process context).1

/-- A chunk that fits uses up its frames of the cycle. -/
theorem process_left (c : Channel) {context : ChunkContext} (hn : 0 < context.frames)
    (hfits : context.frames ≤ c.track.left) :
    (c.process context).1.track.left = c.track.left - context.frames := by
  obtain ⟨hcycle, hdone⟩ := c.process_progress context (Track.overruns_of_left hn hfits)
  unfold Track.left
  omega

instance decidableSteady : (contexts : List ChunkContext) → (c : Channel) → Decidable (Steady contexts c)
  | [], _ => inferInstanceAs (Decidable True)
  | context :: rest, c =>
    have := decidableSteady rest (c.process context).1
    inferInstanceAs (Decidable (_ ∧ _ ∧ _))

theorem Replays.advance {s : Score} {first : Nat} {heard : List Message} {c : Channel} (h : Replays s first heard c)
    (hstart : s.startState.Sound) {contexts : List ChunkContext} (hpos : ∀ context ∈ contexts, 0 < context.frames)
    (hfits : (contexts.map (·.frames)).sum ≤ c.track.left) (hmax : c.track.left ≤ maxFrames)
    (hsteady : Steady contexts c) : Replays s first heard (c.advance contexts) := by
  induction contexts generalizing c with
  | nil => exact h
  | cons context rest ih =>
    rw [List.forall_mem_cons] at hpos
    rw [List.map_cons, List.sum_cons] at hfits
    have hover := Track.overruns_of_left hpos.1 (by omega : context.frames ≤ c.track.left)
    have hleft := process_left c hpos.1 (by omega)
    have hnext := h.process hstart hover hpos.1 (by omega) hsteady.1 hsteady.2.1
    exact ih hnext hpos.2 (hleft ▸ by omega) (hleft ▸ by omega) hsteady.2.2

theorem process_hasOutput (c : Channel) (context : ChunkContext) :
    (c.process context).1.track.hasOutput = c.track.hasOutput := by
  unfold process
  dsimp only
  split_ifs <;>
    simp [Track.endChunk, endPreRecord_kept, interrupt_track, queuePlayback, queueRecord, queuePreRecord, queue,
      Track.record]

theorem advance_hasOutput (contexts : List ChunkContext) (c : Channel) :
    (c.advance contexts).track.hasOutput = c.track.hasOutput := by
  induction contexts generalizing c with
  | nil => rfl
  | cons context rest ih => exact (ih (c.process context).1).trans (c.process_hasOutput context)

/-- Between two cycles, the channel plays a score to a listener that has heard
some messages. -/
structure Rests (s : Score) (first : Nat) (heard : List Message) (c : Channel) : Prop where
  score : c.score = s
  firstPlayable : c.track.firstPlayable = first
  follows : (heard.foldl Tracker.feedMessage .fresh).Follows c.outputState
  stands : ∀ t, c.playedUntil = some t → c.player.At s first t

theorem Rests.prepare {s : Score} {first : Nat} {heard : List Message} {c : Channel} (h : Rests s first heard c)
    (frames : Nat) (hasInput hasOutput : Bool) : Replays s first heard (c.prepare frames hasInput hasOutput) := by
  have hcarried : (c.prepare frames hasInput hasOutput).carried = (c.player, []) := by
    cases hasOutput <;> rfl
  refine ⟨h.score, h.firstPlayable, nofun, ?_, fun t ht => ?_⟩
  · rw [hcarried, List.append_nil]
    exact h.follows
  · rw [hcarried]
    exact h.stands t ht

theorem Replays.finalize {s : Score} {first : Nat} {heard : List Message} {c : Channel} (h : Replays s first heard c)
    (input : Option (List Message)) {output : Option Outbox} (hlive : c.track.hasOutput = output.isSome) :
    Rests s first (heard ++ c.carried.2) (c.finalize input output).1 := by
  obtain ⟨hkept, hplayer, -⟩ := finalize_eq h.keeps input output hlive
  refine ⟨hkept.score.trans h.score, (congrArg Track.firstPlayable hkept.track).trans h.firstPlayable, ?_,
    fun t ht => ?_⟩
  · rw [show (c.finalize input output).1.outputState = c.carried.1.output from congrArg Player.output hplayer]
    exact h.follows
  · rw [hplayer]
    exact h.stands t (hkept.playedUntil.symm.trans ht)

/-- A cycle of a channel, with the input of its frames and the list that its
messages are appended to. -/
structure PlayCycle where
  frames : Nat
  contexts : List ChunkContext
  input : Option (List Message) := none
  output : Option Outbox := none

namespace PlayCycle

/-- The channel at the end of the cycle, before its commands are carried out. -/
def decided (k : PlayCycle) (c : Channel) : Channel :=
  (c.prepare k.frames k.input.isSome k.output.isSome).advance k.contexts

/-- The channel after the cycle. -/
def after (k : PlayCycle) (c : Channel) : Channel := ((k.decided c).finalize k.input k.output).1

/-- The messages that the cycle has appended to the list. -/
def emitted (k : PlayCycle) (c : Channel) : List Message :=
  (((k.decided c).finalize k.input k.output).2.1.elim [] (·.messages)).drop (k.output.elim 0 (·.messages.length))

/-- Nothing is lost for want of room: with room for one message more, the same
messages would be there. -/
def NothingLost (k : PlayCycle) (c : Channel) : Prop :=
  ∀ out, k.output = some out → out.messages.length ≤ out.capacity ∧
    ((k.decided c).finalize k.input (some { out with capacity := out.capacity + 1 })).2.1.map (·.messages) =
      ((k.decided c).finalize k.input (some out)).2.1.map (·.messages)

instance (k : PlayCycle) (c : Channel) : Decidable (k.NothingLost c) :=
  inferInstanceAs (Decidable (∀ out ∈ k.output, _ ∧ _))

/-- The cycle plays, without overruns and without recording. -/
structure Plays (k : PlayCycle) (c : Channel) : Prop where
  frames_le : k.frames ≤ maxFrames
  pos : ∀ context ∈ k.contexts, 0 < context.frames
  fits : (k.contexts.map (·.frames)).sum ≤ k.frames
  steady : Steady k.contexts (c.prepare k.frames k.input.isSome k.output.isSome)
  room : k.NothingLost c

theorem plays_iff {k : PlayCycle} {c : Channel} :
    k.Plays c ↔ k.frames ≤ maxFrames ∧ (∀ context ∈ k.contexts, 0 < context.frames) ∧
      (k.contexts.map (·.frames)).sum ≤ k.frames ∧
        Steady k.contexts (c.prepare k.frames k.input.isSome k.output.isSome) ∧ k.NothingLost c :=
  ⟨fun ⟨h₁, h₂, h₃, h₄, h₅⟩ => ⟨h₁, h₂, h₃, h₄, h₅⟩, fun ⟨h₁, h₂, h₃, h₄, h₅⟩ => ⟨h₁, h₂, h₃, h₄, h₅⟩⟩

instance (k : PlayCycle) (c : Channel) : Decidable (k.Plays c) := decidable_of_iff _ plays_iff.symm

end PlayCycle

/-- A list that has room for all that the commands can send does not run out of it. -/
theorem PlayCycle.nothingLost {k : PlayCycle} {c : Channel}
    (hkeeps : ∀ command ∈ (k.decided c).commands, command.keepsContent = true)
    (hroom : ∀ out ∈ k.output, out.messages.length +
      (k.decided c).commands.length * (16 * 387 + (k.decided c).storage.events.length) ≤ out.capacity) :
    k.NothingLost c := by
  intro out hout
  have hlive : (k.decided c).track.hasOutput = true := (advance_hasOutput _ _).trans (by rw [hout]; rfl)
  have hfits := hroom out hout
  have hsent := Player.length_carry_le (k.decided c).score (k.decided c).track.hasOutput (k.decided c).player
    (k.decided c).commands
  have hall : ∀ capacity, out.capacity ≤ capacity →
      ((k.decided c).carried.2.take (capacity - out.messages.length)) = (k.decided c).carried.2 := by
    intro capacity hcapacity
    have hbound : (k.decided c).carried.2.length ≤ capacity - out.messages.length :=
      Nat.le_trans hsent (by
        show (k.decided c).commands.length * (16 * 387 + (k.decided c).storage.events.length) ≤ _
        omega)
    exact List.take_of_length_le hbound
  refine ⟨by omega, ?_⟩
  rw [(finalize_eq hkeeps k.input (some out) hlive).2.2,
    (finalize_eq hkeeps k.input (some { out with capacity := out.capacity + 1 }) hlive).2.2]
  simp only [Option.map_some, Outbox.pushAll_messages, hall _ (Nat.le_refl _), hall _ (Nat.le_succ _)]

/-- If nothing is lost, all messages that are sent are appended. -/
theorem PlayCycle.emitted_of_pushAll {k : PlayCycle} {c : Channel} {sent : List Message}
    (hsent : ∀ output : Option Outbox, output.isSome = k.output.isSome →
      ((k.decided c).finalize k.input output).2.1 = output.map (·.pushAll sent))
    (hnone : k.output = none → sent = []) (hroom : k.NothingLost c) : k.emitted c = sent := by
  unfold PlayCycle.emitted
  rw [hsent k.output rfl]
  cases hout : k.output with
  | none => rw [hnone hout]; rfl
  | some out =>
    -- Had the list been full, one message more would have found room in a larger one.
    obtain ⟨hfull, hmore⟩ := hroom out hout
    rw [hsent (some out) (by rw [hout]), hsent (some { out with capacity := out.capacity + 1 }) (by rw [hout]; rfl)]
      at hmore
    simp only [Option.map_some, Option.some_inj, Outbox.pushAll_messages, List.append_cancel_left_eq] at hmore
    have hlength := congrArg List.length hmore
    rw [List.length_take, List.length_take] at hlength
    simp only [Option.map_some, Option.elim_some, Outbox.pushAll_messages, List.drop_left]
    exact List.take_of_length_le (by omega)

theorem PlayCycle.emitted_eq {k : PlayCycle} {c : Channel}
    (hkeeps : ∀ command ∈ (k.decided c).commands, command.keepsContent = true) (hroom : k.NothingLost c) :
    k.emitted c = (k.decided c).carried.2 := by
  have hlive : (k.decided c).track.hasOutput = k.output.isSome := advance_hasOutput _ _
  refine emitted_of_pushAll (fun output houtput => (finalize_eq hkeeps k.input output ?_).2.2) (fun hnone => ?_) hroom
  · rw [hlive, houtput]
  · rw [hnone] at hlive
    simp [carried, hlive, Player.carry]

theorem Rests.decided {s : Score} {first : Nat} {heard : List Message} {c : Channel} (h : Rests s first heard c)
    (hstart : s.startState.Sound) {k : PlayCycle} (hplays : k.Plays c) : Replays s first heard (k.decided c) :=
  (h.prepare k.frames k.input.isSome k.output.isSome).advance hstart hplays.pos hplays.fits hplays.frames_le
    hplays.steady

theorem Rests.after {s : Score} {first : Nat} {heard : List Message} {c : Channel} (h : Rests s first heard c)
    (hstart : s.startState.Sound) {k : PlayCycle} (hplays : k.Plays c) :
    Rests s first (heard ++ k.emitted c) (k.after c) := by
  have hdecided := h.decided hstart hplays
  rw [PlayCycle.emitted_eq hdecided.keeps hplays.room]
  exact hdecided.finalize k.input (advance_hasOutput _ _)

/-! ## A run -/

/-- The channel after some cycles, and all messages it has sent. -/
def playAll (c : Channel) : List PlayCycle → Channel × List Message
  | [] => (c, [])
  | k :: rest =>
    let (ended, sent) := (k.after c).playAll rest
    (ended, k.emitted c ++ sent)

def PlaysAll : List PlayCycle → Channel → Prop
  | [], _ => True
  | k :: rest, c => k.Plays c ∧ PlaysAll rest (k.after c)

instance decidablePlaysAll : (cycles : List PlayCycle) → (c : Channel) → Decidable (PlaysAll cycles c)
  | [], _ => inferInstanceAs (Decidable True)
  | k :: rest, c =>
    have := decidablePlaysAll rest (k.after c)
    inferInstanceAs (Decidable (_ ∧ _))

theorem Rests.playAll {s : Score} {first : Nat} {heard : List Message} {c : Channel} (h : Rests s first heard c)
    (hstart : s.startState.Sound) {cycles : List PlayCycle} (hplays : PlaysAll cycles c) :
    Rests s first (heard ++ (c.playAll cycles).2) (c.playAll cycles).1 := by
  induction cycles generalizing c heard with
  | nil => exact (List.append_nil heard).symm ▸ h
  | cons k rest ih =>
    have hrest := ih (h.after hstart hplays.1) hplays.2
    rwa [List.append_assoc] at hrest

theorem playAll_concat (c : Channel) (cycles : List PlayCycle) (last : PlayCycle) :
    (c.playAll (cycles ++ [last])).1 = last.after (c.playAll cycles).1 := by
  induction cycles generalizing c with
  | nil => rfl
  | cons k rest ih => exact ih (k.after c)

theorem playsAll_concat {c : Channel} {cycles : List PlayCycle} {last : PlayCycle} :
    PlaysAll (cycles ++ [last]) c ↔ PlaysAll cycles c ∧ last.Plays (c.playAll cycles).1 := by
  induction cycles generalizing c with
  | nil => exact ⟨fun h => ⟨trivial, h.1⟩, fun h => ⟨h.2, trivial⟩⟩
  | cons k rest ih => exact (and_congr_right fun _ => ih).trans and_assoc.symm

theorem Steady.last {contexts : List ChunkContext} {context : ChunkContext} {c : Channel}
    (h : Steady (contexts ++ [context]) c) : ((c.advance contexts).track.activityIn context).record = false := by
  induction contexts generalizing c with
  | nil => exact h.1
  | cons first rest ih => exact ih h.2.2

/-- Chunks that fit use up the frames of the cycle. -/
theorem advance_left {contexts : List ChunkContext} {c : Channel} (hpos : ∀ context ∈ contexts, 0 < context.frames)
    (hfits : (contexts.map (·.frames)).sum ≤ c.track.left) :
    (c.advance contexts).track.left = c.track.left - (contexts.map (·.frames)).sum := by
  induction contexts generalizing c with
  | nil => rfl
  | cons context rest ih =>
    rw [List.forall_mem_cons] at hpos
    rw [List.map_cons, List.sum_cons] at hfits ⊢
    have hleft := process_left c hpos.1 (by omega)
    have hrest := ih hpos.2 (c := (c.process context).1) (by omega)
    show (advance rest (c.process context).1).track.left = _
    omega

/-- In a cycle that ends with a played chunk, playback leaves off at its end. -/
theorem PlayCycle.Plays.playedUntil {k : PlayCycle} {c : Channel} (h : k.Plays c) {contexts : List ChunkContext}
    {context : ChunkContext} (hcontexts : k.contexts = contexts ++ [context])
    (hplays : (((c.prepare k.frames k.input.isSome k.output.isSome).advance contexts).track.activityIn
      context).playback = true) :
    (k.decided c).playedUntil =
      some (((c.prepare k.frames k.input.isSome k.output.isSome).advance contexts).track.positionIn context +
        context.frames) := by
  have hpos := h.pos
  have hfits := h.fits
  have hsteady := h.steady
  rw [hcontexts] at hpos hfits hsteady
  rw [List.forall_mem_append, List.forall_mem_singleton] at hpos
  rw [List.map_append, List.sum_append, List.map_singleton, List.sum_singleton] at hfits
  have hframes : (c.prepare k.frames k.input.isSome k.output.isSome).track.left = k.frames := Nat.sub_zero _
  have hleft := advance_left (c := c.prepare k.frames k.input.isSome k.output.isSome) hpos.1 (by omega)
  have hfit : context.frames ≤
      ((c.prepare k.frames k.input.isSome k.output.isSome).advance contexts).track.left := by omega
  unfold PlayCycle.decided advance
  rw [hcontexts, List.foldl_append]
  exact process_playedUntil (Track.overruns_of_left hpos.2 hfit) hsteady.last hplays

theorem takeWhile_eq_filter {events : List Message} (h : InOrder events) (time : UInt32) :
    events.takeWhile (·.time < time) = events.filter (·.time < time) := by
  induction events with
  | nil => rfl
  | cons m rest ih =>
    obtain ⟨hfirst, hrest⟩ := List.pairwise_cons.mp h
    by_cases hm : m.time < time
    · rw [List.takeWhile_cons_of_pos (by simpa using hm), List.filter_cons_of_pos (by simpa using hm), ih hrest]
    · have hnone : rest.filter (·.time < time) = [] := List.filter_eq_nil_iff.mpr fun e he hlt =>
        hm (UInt32.lt_of_le_of_lt (hfirst e he) (of_decide_eq_true hlt))
      rw [List.takeWhile_cons_of_neg (by simpa using hm), List.filter_cons_of_neg (by simpa using hm), hnone]

end Overdub.Midi.Channel
