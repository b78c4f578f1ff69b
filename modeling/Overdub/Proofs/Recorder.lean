import Overdub.Proofs.Player
import Overdub.Proofs.Sequence
/-!
# Recording messages

A `Recorder` is the part of a MIDI channel that recording changes: its two storages
with the state that each of them starts from, and the state of its input. An `Intake`
is a recorder with the messages of the cycle that have not arrived yet, and a `Deck`
is an intake with a `Player`. What the commands of a cycle do to a channel is what
they do to its deck (`Finish.foldl_run_deck`), and the deck does not depend on what
has been decided since (`Deck.runAll`).
-/

namespace Overdub.Midi

/-! ## Storing as much as there is room for -/

namespace Storage

/-- Stores a message unless it is refused. -/
def keep (s : Storage) (m : Message) : Storage :=
  match s.append m with
  | .ok s => s
  | .error _ => s

/-- Stores messages in turn, except those that are refused. -/
def keepAll (s : Storage) (messages : List Message) : Storage := messages.foldl keep s

theorem keepAll_append (s : Storage) (messages more : List Message) :
    s.keepAll (messages ++ more) = (s.keepAll messages).keepAll more := List.foldl_append

/-- A message that is not older than the last one is stored if there is room. -/
theorem keep_cases (s : Storage) (m : Message) :
    s.keep m = s ∨
      s.keep m = { s with events := s.events ++ [m] } ∧ ∀ last ∈ s.lastTime, last ≤ m.time := by
  unfold keep append
  split_ifs with hfull
  · exact .inl rfl
  · cases hlast : s.lastTime with
    | none => exact .inr ⟨rfl, nofun⟩
    | some last =>
      dsimp only
      split_ifs with holder
      · exact .inl rfl
      · exact .inr ⟨rfl, fun _ h => Option.some_inj.mp h ▸ UInt32.not_lt.mp holder⟩

/-- What is stored comes behind what was there, and no message is stored twice. -/
theorem exists_keepAll (s : Storage) (messages : List Message) :
    ∃ kept, kept.Sublist messages ∧ s.keepAll messages = { s with events := s.events ++ kept } := by
  induction messages generalizing s with
  | nil => exact ⟨[], .slnil, by simp [keepAll]⟩
  | cons m rest ih =>
    obtain ⟨kept, hkept, heq⟩ := ih (s.keep m)
    rcases s.keep_cases m with hsame | ⟨hmore, -⟩
    · exact ⟨kept, hkept.cons m, heq.trans (by rw [hsame])⟩
    · refine ⟨m :: kept, hkept.cons_cons m, heq.trans ?_⟩
      rw [hmore, ← List.append_cons]

theorem inOrder_keep {s : Storage} (h : InOrder s.events) (m : Message) : InOrder (s.keep m).events := by
  rcases s.keep_cases m with hsame | ⟨hmore, hlast⟩
  · exact hsame.symm ▸ h
  · rw [hmore]
    refine List.pairwise_append.mpr ⟨h, List.pairwise_singleton _ _, fun e he x hx => ?_⟩
    obtain rfl := List.mem_singleton.mp hx
    -- In order, no event is later than the last one.
    obtain ⟨rest, last, hevents⟩ := (List.eq_nil_or_concat s.events).resolve_left (List.ne_nil_of_mem he)
    rw [List.concat_eq_append] at hevents
    have hle : last.time ≤ x.time := hlast _ (by rw [lastTime, hevents, List.getLast?_concat]; rfl)
    rw [hevents] at h he
    rcases List.mem_append.mp he with he | he
    · exact UInt32.le_trans ((List.pairwise_append.mp h).2.2 e he last List.mem_cons_self) hle
    · exact List.mem_singleton.mp he ▸ hle

theorem inOrder_keepAll {s : Storage} (h : InOrder s.events) (messages : List Message) :
    InOrder (s.keepAll messages).events := by
  induction messages generalizing s with
  | nil => exact h
  | cons m rest ih => exact ih (inOrder_keep h m)

/-- Messages in order are stored as far as there is room for them. -/
theorem keepAll_eq {s : Storage} {messages : List Message} (hroom : s.events.length ≤ s.capacity)
    (horder : InOrder (s.events ++ messages)) :
    s.keepAll messages =
      { s with events := s.events ++ messages.take (s.capacity - s.events.length) } := by
  induction messages generalizing s with
  | nil => simp [keepAll]
  | cons m rest ih =>
    show (s.keep m).keepAll rest = _
    have hrest : InOrder (s.events ++ rest) :=
      List.Pairwise.sublist (List.Sublist.append_left (List.sublist_cons_self m rest) s.events) horder
    by_cases hfull : s.events.length = s.capacity
    · have hsame : s.keep m = s := by
        unfold keep append
        rw [if_pos hfull]
      rw [hsame, ih hroom hrest, hfull, Nat.sub_self, List.take_zero, List.take_zero]
    · rw [List.append_cons] at horder
      have hmore : s.keep m = { s with events := s.events ++ [m] } := by
        unfold keep
        rw [append_eq (by omega) (List.pairwise_append.mp horder).1]
      obtain ⟨left, hleft⟩ : ∃ left, s.capacity - s.events.length = left + 1 :=
        ⟨s.capacity - s.events.length - 1, by omega⟩
      have hlength : (s.events ++ [m]).length = s.events.length + 1 := by simp
      rw [hmore, ih (by simpa [hlength] using (by omega)) horder]
      simp only [hlength, hleft, show s.capacity - (s.events.length + 1) = left by omega, List.take_succ_cons,
        List.append_assoc, List.singleton_append]

end Storage

/-! ## Recorders -/

/-- Messages timed from zero on, behind a data position. -/
def placedAt (position : UInt32) (messages : List Message) : List Message :=
  messages.map fun m => m.withTime (position + m.time)

/-- What recording changes of a channel. -/
structure Recorder where
  main : Storage
  aside : Storage
  startState : Tracker
  asideState : Tracker
  input : Tracker

namespace Recorder

/-- Messages arrive. -/
def hear (messages : List Message) (r : Recorder) : Recorder :=
  { r with input := r.input.feedAll (messages.map (·.bytes)) }

/-- Stores messages from a data position on, in place of what was there. Data that
begin there start from the present state of the input. -/
def store (target : RecordTarget) (position : Nat) (messages : List Message) (r : Recorder) : Recorder :=
  let position := Score.timeOf position
  match target with
  | .main =>
    { r with
      main := (r.main.truncateFrom position).keepAll (placedAt position messages)
      startState := if position = 0 then r.input else r.startState }
  | .preRecord =>
    { r with
      aside := (r.aside.truncateFrom position).keepAll (placedAt position messages)
      asideState := if position = 0 then r.input else r.asideState }

/-- What was kept aside becomes the data. -/
def promote (r : Recorder) : Recorder :=
  { r with main := r.aside, aside := r.main.clear, startState := r.asideState }

/-- What was kept aside is dropped. -/
def discard (r : Recorder) : Recorder := { r with aside := r.aside.clear }

/-- Both storages are in order. -/
structure Sorted (r : Recorder) : Prop where
  main : InOrder r.main.events
  aside : InOrder r.aside.events

theorem inOrder_truncateFrom {s : Storage} (h : InOrder s.events) (time : UInt32) :
    InOrder (s.truncateFrom time).events := List.Pairwise.sublist (List.takeWhile_sublist _) h

theorem Sorted.store {r : Recorder} (h : r.Sorted) (target : RecordTarget) (position : Nat)
    (messages : List Message) : (r.store target position messages).Sorted := by
  cases target with
  | main => exact ⟨Storage.inOrder_keepAll (inOrder_truncateFrom h.main _) _, h.aside⟩
  | preRecord => exact ⟨h.main, Storage.inOrder_keepAll (inOrder_truncateFrom h.aside _) _⟩

end Recorder

/-! ## What arrives in the course of a cycle -/

/-- A recorder with the messages of the cycle that have not arrived yet. -/
structure Intake extends Recorder where
  coming : Option (List Message)

/-- A message comes in front of a frame. -/
def Message.isBefore (frame : Nat) (m : Message) : Bool := m.time < UInt32.ofNat frame

/-- The messages of `n` frames from a frame on, timed from that frame on. -/
def excerpt (frame n : Nat) (messages : List Message) : List Message :=
  ((messages.dropWhile (Message.isBefore frame)).takeWhile (Message.isBefore (frame + n))).map fun m =>
    m.withTime (m.time - UInt32.ofNat frame)

namespace Intake

/-- The messages in front of a frame arrive. -/
def arrive (frame : Nat) (i : Intake) : Intake where
  toRecorder := i.hear ((i.coming.getD []).takeWhile (Message.isBefore frame))
  coming := i.coming.map (·.dropWhile (Message.isBefore frame))

/-- Carries out a command as far as it records. -/
def run (i : Intake) : Command → Intake
  | .allSoundOff .. | .playback .. => i
  | .record target frame n position =>
    match i.coming with
    | none => i
    | some messages =>
      let i := i.arrive frame
      { i with toRecorder := i.store target position (excerpt frame n messages) }.arrive (frame + n)
  | .promotePreRecord => { i with toRecorder := i.promote }
  | .discardPreRecord => { i with toRecorder := i.discard }

theorem run_sorted {i : Intake} (h : i.Sorted) (command : Command) : (i.run command).Sorted := by
  have harrive : ∀ {i : Intake} (frame : Nat), i.Sorted → (i.arrive frame).Sorted := fun _ h => ⟨h.main, h.aside⟩
  cases command with
  | allSoundOff | playback => exact h
  | record target frame n position =>
    unfold run
    dsimp only
    split
    · exact h
    · exact harrive _ ((harrive frame h).store target position _)
  | promotePreRecord => exact ⟨h.aside, List.Pairwise.nil⟩
  | discardPreRecord => exact ⟨h.main, List.Pairwise.nil⟩

end Intake

/-! ## Decks -/

/-- What the commands of a cycle change of a channel. -/
structure Deck where
  intake : Intake
  player : Player

namespace Deck

/-- What is played of data of the given length. -/
def score (length : Nat) (d : Deck) : Score := ⟨d.intake.main, d.intake.startState, length⟩

/-- The command replaces what is played, so that playing starts over. -/
def replaces (d : Deck) : Command → Bool
  | .record .main .. => d.intake.coming.isSome
  | .promotePreRecord => true
  | .record .preRecord .. | .allSoundOff .. | .playback .. | .discardPreRecord => false

/-- Carries out a command, and hands out what it sends. -/
def run (length : Nat) (live : Bool) (d : Deck) (command : Command) : Deck × List Message :=
  let (player, sent) := d.player.carry (d.score length) live [command]
  (⟨d.intake.run command, if d.replaces command then { player with cursor := .start } else player⟩, sent)

/-- Carries out commands in turn. -/
def runAll (length : Nat) (live : Bool) (d : Deck) : List Command → Deck × List Message
  | [] => (d, [])
  | command :: rest =>
    let (d, sent) := d.run length live command
    let (d, more) := d.runAll length live rest
    (d, sent ++ more)

theorem runAll_append (length : Nat) (live : Bool) (d : Deck) (commands more : List Command) :
    d.runAll length live (commands ++ more) =
      (((d.runAll length live commands).1.runAll length live more).1,
        (d.runAll length live commands).2 ++ ((d.runAll length live commands).1.runAll length live more).2) := by
  induction commands generalizing d with
  | nil => simp [runAll]
  | cons first rest ih => simp [runAll, ih]

/-- With an output, a command that plays is carried out by the player. -/
theorem run_live (length : Nat) {d : Deck} {command : Command} (hintake : d.intake.run command = d.intake)
    (hreplaces : d.replaces command = false) :
    d.run length true command =
      ({ d with player := (d.player.run (d.score length) command).1 }, (d.player.run (d.score length) command).2) := by
  unfold run
  rw [Player.carry_singleton, hintake, hreplaces]
  rfl

/-- A command that does not play sends nothing. -/
theorem run_silent {command : Command} (h : ∀ (s : Score) (p : Player), p.run s command = (p, [])) (length : Nat)
    (live : Bool) (d : Deck) :
    d.run length live command =
      (⟨d.intake.run command, if d.replaces command then { d.player with cursor := .start } else d.player⟩, []) := by
  have hcarry : d.player.carry (d.score length) live [command] = (d.player, []) := by
    cases live with
    | false => rfl
    | true => rw [Player.carry_singleton, h]
  unfold run
  rw [hcarry]

/-- Recording does not depend on what is played. -/
theorem runAll_intake (length : Nat) (live : Bool) (d : Deck) (commands : List Command) :
    (d.runAll length live commands).1.intake = commands.foldl Intake.run d.intake := by
  induction commands generalizing d with
  | nil => rfl
  | cons first rest ih => exact ih (d.run length live first).1

/-- Without an output nothing is sent. -/
theorem runAll_mute (length : Nat) (d : Deck) (commands : List Command) : (d.runAll length false commands).2 = [] := by
  induction commands generalizing d with
  | nil => rfl
  | cons first rest ih => exact ih (d.run length false first).1

/-- Commands that leave the data as it is are carried out by the player. -/
theorem runAll_of_keeps (length : Nat) (live : Bool) (d : Deck) {commands : List Command}
    (h : ∀ command ∈ commands, command.keepsContent = true) :
    (d.runAll length live commands).1.score length = d.score length ∧
      (d.runAll length live commands).1.player = (d.player.carry (d.score length) live commands).1 ∧
      (d.runAll length live commands).2 = (d.player.carry (d.score length) live commands).2 := by
  have hstep : ∀ {d : Deck} {command : Command}, command.keepsContent = true →
      (d.run length live command).1.score length = d.score length ∧ d.replaces command = false := by
    intro d command hkeeps
    cases command with
    | allSoundOff | playback | discardPreRecord => exact ⟨rfl, rfl⟩
    | promotePreRecord => exact Bool.noConfusion hkeeps
    | record target frame n position =>
      cases target with
      | main => exact Bool.noConfusion hkeeps
      | preRecord =>
        refine ⟨?_, rfl⟩
        show Score.mk (d.intake.run _).main (d.intake.run _).startState length = _
        unfold Intake.run
        dsimp only
        split <;> rfl
  -- From the end: the last command finds the player that all others have led to.
  induction commands using List.reverseRecOn with
  | nil => cases live <;> exact ⟨rfl, rfl, rfl⟩
  | append_singleton rest command ih =>
    rw [List.forall_mem_append, List.forall_mem_singleton] at h
    obtain ⟨hscore, hplayer, hsent⟩ := ih h.1
    obtain ⟨hkept, hreplaces⟩ := hstep (d := (d.runAll length live rest).1) h.2
    rw [runAll_append, Player.carry_append, ← hplayer, ← hsent, ← hscore]
    refine ⟨hkept, ?_, ?_⟩
    · simp only [runAll, run, hreplaces, Bool.false_eq_true, if_false]
    · simp only [runAll, run, List.append_nil]

end Deck

/-! ## The commands of a channel -/

namespace Channel

def recorder (c : Channel) : Recorder := ⟨c.storage, c.preRecord, c.startState, c.preRecordStartState, c.inputState⟩

/-- The channel with another recorder. -/
def withRecorder (c : Channel) (r : Recorder) : Channel :=
  { c with
    storage := r.main, preRecord := r.aside, startState := r.startState, preRecordStartState := r.asideState
    inputState := r.input }

theorem hear_eq (c : Channel) (messages : List Message) :
    c.hear messages = c.withRecorder (c.recorder.hear messages) := by
  unfold hear withRecorder Recorder.hear
  rw [Tracker.foldl_feedMessage]
  rfl

/-- Storing messages is hearing them and keeping those that are accepted. -/
theorem storeEvents_eq (c : Channel) (target : RecordTarget) (shift : UInt32) (messages : List Message) :
    (c.storeEvents target shift messages).1 =
      match target with
      | .main => { c.hear messages with storage := c.storage.keepAll (placedAt shift messages) }
      | .preRecord => { c.hear messages with preRecord := c.preRecord.keepAll (placedAt shift messages) } := by
  induction messages generalizing c with
  | nil => cases target <;> rfl
  | cons m rest ih =>
    have hkeep : ∀ s : Storage, s.keepAll (placedAt shift (m :: rest)) =
        (s.keep (m.withTime (shift + m.time))).keepAll (placedAt shift rest) := fun _ => rfl
    have hhear : c.hear (m :: rest) = (c.hear [m]).hear rest := rfl
    unfold storeEvents
    simp only [hkeep, hhear]
    unfold Storage.keep
    cases target with
    | main =>
      dsimp only
      rw [show (c.hear [m]).storage = c.storage from rfl]
      cases c.storage.append (m.withTime (shift + m.time)) with
      | error => exact ih (c.hear [m])
      | ok storage => exact ih { c.hear [m] with storage }
    | preRecord =>
      dsimp only
      rw [show (c.hear [m]).preRecord = c.preRecord from rfl]
      cases c.preRecord.append (m.withTime (shift + m.time)) with
      | error => exact ih (c.hear [m])
      | ok preRecord => exact ih { c.hear [m] with preRecord }

theorem placedAt_excerpt (position : UInt32) (frame : Nat) (messages : List Message) :
    placedAt position (messages.map fun m => m.withTime (m.time - UInt32.ofNat frame)) =
      placedAt (position - UInt32.ofNat frame) messages := by
  unfold placedAt
  rw [List.map_map]
  refine List.map_congr_left fun m _ => congrArg (Message.mk · m.bytes _ _) ?_
  show position + (m.time - UInt32.ofNat frame) = position - UInt32.ofNat frame + m.time
  grind

/-- Recording hears what arrives up to the end of its frames, and stores what
arrives in them. -/
theorem runRecord_eq (c : Channel) (input : List Message) (target : RecordTarget) (frame n position : Nat) :
    let i := (Intake.mk c.recorder (some input)).run (.record target frame n position)
    (c.runRecord input target frame n position).1 =
        { c.withRecorder i.toRecorder with
          cursor := match target with
            | .main => .start
            | .preRecord => c.cursor } ∧
      some (c.runRecord input target frame n position).2.1 = i.coming := by
  intro i
  have hstored := placedAt_excerpt (Score.timeOf position) frame
    ((input.dropWhile (Message.isBefore frame)).takeWhile (Message.isBefore (frame + n)))
  unfold runRecord
  cases target with
  | main =>
    simp only [storeEvents_eq, hear_eq]
    exact ⟨congrArg (fun events => ({ c.withRecorder i.toRecorder with
      storage := (c.storage.truncateFrom (Score.timeOf position)).keepAll events
      cursor := .start } : Channel)) hstored.symm, rfl⟩
  | preRecord =>
    simp only [storeEvents_eq, hear_eq]
    exact ⟨congrArg (fun events => ({ c.withRecorder i.toRecorder with
      preRecord := (c.preRecord.truncateFrom (Score.timeOf position)).keepAll events } : Channel)) hstored.symm, rfl⟩

/-- The part of the channel that the commands of a cycle change, given the messages
still to arrive. -/
def deck (c : Channel) (coming : Option (List Message)) : Deck := ⟨⟨c.recorder, coming⟩, c.player⟩

/-- The channel with another deck. -/
def withDeck (c : Channel) (d : Deck) : Channel := (c.withRecorder d.intake.toRecorder).withPlayer d.player

namespace Finish

def deck (s : Finish) : Deck := s.channel.deck s.input

theorem note_eq (s : Finish) (result : Except Overdub.Error Unit) :
    (s.note result).channel = s.channel ∧ (s.note result).input = s.input ∧ (s.note result).output = s.output := by
  rcases result with _ | _ <;> exact ⟨rfl, rfl, rfl⟩

/-- A command does what it does to the deck. -/
theorem run_deck (s : Finish) (command : Command) :
    let ran := s.deck.run s.channel.track.dataLength s.output.isSome command
    (s.run command).channel = s.channel.withDeck ran.1 ∧ (s.run command).input = ran.1.intake.coming ∧
      (s.run command).output = s.output.map (·.pushAll ran.2) := by
  obtain ⟨c, input, output, triggered, result⟩ := s
  cases command with
  | allSoundOff frame =>
    cases output with
    | none => exact ⟨rfl, rfl, rfl⟩
    | some out =>
      rw [Option.isSome_some, Deck.run_live _ rfl rfl]
      unfold run Player.run
      dsimp only
      generalize Message.short (.ofNat frame) 0xB0 Event.allSoundOff 0 = m
      exact ⟨rfl, rfl, rfl⟩
  | playback frame n position restart =>
    cases output with
    | none => exact ⟨rfl, rfl, rfl⟩
    | some out =>
      obtain ⟨hchannel, hpushed⟩ := c.runPlayback_eq out frame n position restart
      rw [Option.isSome_some, Deck.run_live _ rfl rfl]
      simp only [run, hchannel, hpushed]
      exact ⟨rfl, rfl, rfl⟩
  | record target frame n position =>
    rw [Deck.run_silent (fun _ _ => rfl)]
    cases input with
    | none => cases target <;> cases output <;> exact ⟨rfl, rfl, rfl⟩
    | some input =>
      obtain ⟨hchannel, hcoming⟩ := c.runRecord_eq input target frame n position
      simp only [run, (note_eq _ _).1, (note_eq _ _).2.1, (note_eq _ _).2.2, hchannel, hcoming]
      cases target <;> cases output <;> exact ⟨rfl, rfl, rfl⟩
  | promotePreRecord => cases output <;> exact ⟨rfl, rfl, rfl⟩
  | discardPreRecord => cases output <;> exact ⟨rfl, rfl, rfl⟩

/-- Carrying out commands in turn does what they do to the deck. -/
theorem foldl_run_deck (s : Finish) (commands : List Command) :
    let ran := s.deck.runAll s.channel.track.dataLength s.output.isSome commands
    (commands.foldl run s).channel = s.channel.withDeck ran.1 ∧ (commands.foldl run s).input = ran.1.intake.coming ∧
      (commands.foldl run s).output = s.output.map (·.pushAll ran.2) := by
  induction commands generalizing s with
  | nil =>
    obtain ⟨c, input, output, triggered, result⟩ := s
    cases output <;> exact ⟨rfl, rfl, rfl⟩
  | cons command rest ih =>
    obtain ⟨hchannel, hinput, houtput⟩ := s.run_deck command
    have hdeck : (s.run command).deck =
        (s.deck.run s.channel.track.dataLength s.output.isSome command).1 := by
      unfold deck
      rw [hchannel, hinput]
      rfl
    obtain ⟨hchannel', hinput', houtput'⟩ := ih (s.run command)
    rw [hdeck, houtput, Option.isSome_map, hchannel] at hchannel' hinput' houtput'
    refine ⟨hchannel', hinput', houtput'.trans ?_⟩
    rw [Option.map_map]
    exact congrArg (Option.map · s.output) (funext fun out => (out.pushAll_append _ _).symm)

end Finish

/-- Finalizing leaves the channel with the deck that its commands lead to, once all
messages have arrived. -/
theorem finalize_runs (c : Channel) (input : Option (List Message)) (output : Option Outbox) :
    let ran := (c.deck input).runAll c.track.dataLength output.isSome c.commands
    let ended := (c.finalize input output).1
    (ended.recorder = ran.1.intake.hear (ran.1.intake.coming.getD []) ∧ ended.player = ran.1.player) ∧
      (ended.track = c.track ∧ ended.playedUntil = c.playedUntil ∧ ended.lastPosition = c.lastPosition) ∧
      (c.finalize input output).2.1 = output.map (·.pushAll ran.2) := by
  obtain ⟨hchannel, hinput, houtput⟩ := Finish.foldl_run_deck ⟨c, input, output, 0, .ok ()⟩ c.commands
  unfold finalize
  simp only [hear_eq, hchannel, hinput]
  exact ⟨⟨rfl, rfl⟩, ⟨rfl, rfl, rfl⟩, houtput⟩

/-- At the end of a cycle the channel has the deck that its commands lead to, once
all messages have arrived. -/
theorem finalize_deck {c : Channel} {input : Option (List Message)} {output : Option Outbox}
    (hlive : c.track.hasOutput = output.isSome) :
    let ran := (c.deck input).runAll c.track.dataLength c.track.hasOutput c.commands
    let ended := (c.finalize input output).1
    (ended.recorder = ran.1.intake.hear (ran.1.intake.coming.getD []) ∧ ended.player = ran.1.player) ∧
      (ended.track = c.track ∧ ended.playedUntil = c.playedUntil ∧ ended.lastPosition = c.lastPosition) ∧
      (c.finalize input output).2.1 = output.map (·.pushAll ran.2) := by
  rw [hlive]
  exact c.finalize_runs input output

end Channel

end Overdub.Midi
