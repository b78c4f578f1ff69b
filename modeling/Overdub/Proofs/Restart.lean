import Overdub.Proofs.Handling
/-!
# A chunk in the middle of a cycle

What the chunks of a cycle decide is carried out at its end, one chunk after the
other. `PlayCycle.upTo` is what the commands of the first chunks lead to then, so
that what a single chunk does can be told between one `upTo` and the next
(`PlayCycle.upTo_append`).

A chunk may silence what was played before; apart from that it does what its
`further` commands say. If it is not played, those send nothing
(`Channel.further_silent`), and if it is, they play its frames (`Deck.runAll_further`):
a player that starts over brings the listener to the state of the content at the
position it has reached (`Player.play_rewound`).
-/

namespace Overdub.Midi

/-! ## Commands that do not play -/

namespace Command

def plays : Command → Bool
  | .playback .. => true
  | .allSoundOff _ | .record .. | .promotePreRecord | .discardPreRecord => false

/-- The command sends nothing. -/
def silent : Command → Bool
  | .allSoundOff _ | .playback .. => false
  | .record .. | .promotePreRecord | .discardPreRecord => true

end Command

namespace Player

theorem run_silent {command : Command} (h : command.silent = true) (s : Score) (p : Player) : p.run s command = (p, []) := by
  cases command with
  | allSoundOff | playback => exact Bool.noConfusion h
  | record | promotePreRecord | discardPreRecord => rfl

end Player

namespace Deck

theorem runAll_cons (length : Nat) (live : Bool) (d : Deck) (command : Command) (rest : List Command) :
    d.runAll length live (command :: rest) =
      (((d.run length live command).1.runAll length live rest).1,
        (d.run length live command).2 ++ ((d.run length live command).1.runAll length live rest).2) := rfl

theorem runAll_silent {commands : List Command} (h : ∀ command ∈ commands, command.silent = true) (length : Nat)
    (live : Bool) (d : Deck) :
    (d.runAll length live commands).2 = [] ∧ (d.runAll length live commands).1.player.output = d.player.output := by
  induction commands generalizing d with
  | nil => exact ⟨rfl, rfl⟩
  | cons command rest ih =>
    rw [List.forall_mem_cons] at h
    have hrun := run_silent (Player.run_silent h.1) length live d
    obtain ⟨hsent, houtput⟩ := ih h.2 (d.run length live command).1
    refine ⟨?_, houtput.trans ?_⟩
    · rw [runAll_cons, hsent, hrun]
      rfl
    · rw [hrun]
      dsimp only
      split_ifs <;> rfl

/-- Commands that neither play nor change the data leave the player where it is. -/
theorem runAll_idle {commands : List Command}
    (h : ∀ command ∈ commands, command.keepsContent = true ∧ command.plays = false) (length : Nat) (live : Bool)
    (d : Deck) :
    let ran := (d.runAll length live commands).1
    (ran.intake.main = d.intake.main ∧ ran.intake.startState = d.intake.startState) ∧
      ran.player.cursor = d.player.cursor ∧ ran.player.restore = d.player.restore := by
  intro ran
  obtain ⟨hscore, hplayer, -⟩ := runAll_of_keeps length live d fun command hmem => (h command hmem).1
  refine ⟨⟨congrArg Score.storage hscore, congrArg Score.startState hscore⟩, ?_⟩
  rw [show ran.player = _ from hplayer]
  generalize d.score length = s
  generalize d.player = p
  cases live with
  | false => exact ⟨rfl, rfl⟩
  | true =>
    show (p.runAll s commands).1.cursor = p.cursor ∧ (p.runAll s commands).1.restore = p.restore
    clear ran hscore hplayer
    induction commands generalizing p with
    | nil => exact ⟨rfl, rfl⟩
    | cons command rest ih =>
      rw [List.forall_mem_cons] at h
      have hkept : (p.run s command).1.cursor = p.cursor ∧ (p.run s command).1.restore = p.restore := by
        cases command with
        | playback => exact Bool.noConfusion h.1.2
        | allSoundOff frame =>
          unfold Player.run
          dsimp only
          generalize Message.short (.ofNat frame) 0xB0 Event.allSoundOff 0 = m
          exact ⟨rfl, rfl⟩
        | record | promotePreRecord | discardPreRecord => exact ⟨rfl, rfl⟩
      obtain ⟨hcursor, hrestore⟩ := ih h.2 (p.run s command).1
      exact ⟨hcursor.trans hkept.1, hrestore.trans hkept.2⟩

end Deck

/-! ## Listeners of a deck -/

namespace Deck.Leads

theorem self {l : Tracker} {d : Deck} (h : d.Leads l) : d.Leads d.player.output :=
  ⟨h.sorted, h.sound, h.restore, .refl _⟩

/-- A deck that has sent one message more. -/
theorem hear {l : Tracker} {d : Deck} (h : d.Leads l) (m : Message) :
    Leads (d.player.output.feedMessage m)
      { d with player := { d.player with output := d.player.output.feedMessage m } } :=
  ⟨h.sorted, h.sound, h.restore, .refl _⟩

end Deck.Leads

/-! ## A player that starts over -/

namespace Player
variable {s : Score} {first : Nat} {position : Int} {n : Nat}

/-- A player that starts over brings its listener to the state of the score at the
position it reaches, and plays on from there. -/
theorem play_rewound (hn : 0 < n) (hmax : n ≤ maxFrames) (hreach : first < position + n) (hstart : s.startState.Sound)
    (frame : Nat) (p : Player) :
    let skip := min n (clampFrames (first - position).toNat)
    let a := (max position first).toNat
    let b := min (position + n).toNat (max s.dataLength a)
    let played := p.play s (frame + skip) (n - skip) (position + skip) true
    played.1.output = s.stateAt b ∧
      ∃ restored rest, played.2 = restored ++ rest ∧
        (∀ l : Tracker, l.Follows p.output → (restored.foldl Tracker.feedMessage l).Follows (s.stateAt a)) ∧
        rest.foldl Tracker.feedMessage (s.stateAt a) = s.stateAt b := by
  intro skip a b played
  have hplayed : played = _ := play_reaching hn hmax hreach frame true p
  have hready : (p.rewind s).ReadyAt s a := .inl ⟨rfl, rfl⟩
  obtain ⟨-, hcursor, houtput⟩ := hready.caughtUp (.ofNat (frame + skip))
  have hsent := sendUpTo_stateAt (b := b) hcursor houtput (by omega) (.ofNat (frame + skip) - Score.timeOf a)
  rw [if_pos rfl] at hplayed
  rw [hplayed]
  refine ⟨hsent.2, _, _, rfl, fun l hl => ?_, ?_⟩
  · rw [← houtput]
    refine follows_catchUp (p := (p.rewind s).passOver s (Score.timeOf a)) hl (restore_passOver ?_ _) _
    rintro state hstate
    exact Option.some_inj.mp hstate ▸ hstart
  · unfold sendUpTo
    rw [List.foldl_map, ← houtput]
    exact hsent.2

end Player

/-! ## What a chunk decides -/

namespace Channel

/-- Silences the listener if the chunk interrupts what was playing. -/
def silence (context : ChunkContext) (c : Channel) : List Command :=
  if c.interrupts (c.track.activityIn context) context then [.allSoundOff c.track.framesDone] else []

/-- Where playback can go on. -/
def left (context : ChunkContext) (c : Channel) : Option Int :=
  if c.interrupts (c.track.activityIn context) context then none else c.playedUntil

/-- The chunk starts playing over: it interrupts what was played before, or nothing
was, or it lies in front of where that left off. -/
def startsOver (context : ChunkContext) (c : Channel) : Bool :=
  (c.left context).all fun until_ => c.track.positionIn context < until_

/-- What a chunk queues once its listener is silenced. -/
def further (context : ChunkContext) (c : Channel) : List Command :=
  let a := c.track.activityIn context
  let t := c.track.endAside a
  asideOrders a c.track ++
    ((if a.playback then [playOrder t (c.left context) (c.track.positionIn context) context.frames] else []) ++
    ((if a.record then [.record .main t.framesDone context.frames (t.recordFrom context.lenBefore)] else []) ++
    if a.preRecord then [.record .preRecord t.framesDone context.frames t.preRecordLength] else []))

theorem orders_eq (context : ChunkContext) (c : Channel) : c.orders context = c.silence context ++ c.further context := by
  unfold orders silence further left
  simp only [Track.endAside_framesDone, List.append_assoc]

theorem silence_idle {context : ChunkContext} {c : Channel} :
    ∀ command ∈ c.silence context, command.keepsContent = true ∧ command.plays = false := by
  unfold silence
  split_ifs
  · exact List.forall_mem_singleton.mpr ⟨rfl, rfl⟩
  · exact List.forall_mem_nil _

/-- Of the commands of a chunk but for the silence in front of them. -/
theorem forall_mem_further {motive : Command → Prop} {context : ChunkContext} {c : Channel}
    (haside : ∀ command ∈ asideOrders (c.track.activityIn context) c.track, motive command)
    (hplay : (c.track.activityIn context).playback = true → ∀ frame n position restart,
      motive (.playback frame n position restart))
    (hrecord : (c.track.activityIn context).record = true → ∀ frame n position, motive (.record .main frame n position))
    (hkeep : ∀ frame n position, motive (.record .preRecord frame n position)) :
    ∀ command ∈ c.further context, motive command := by
  have hsome : ∀ (b : Bool) (command : Command), (b = true → motive command) →
      ∀ order ∈ (if b = true then [command] else []), motive order := by
    intro b command h
    cases b with
    | false => exact List.forall_mem_nil _
    | true => exact List.forall_mem_singleton.mpr (h rfl)
  unfold further
  simp only [List.forall_mem_append]
  exact ⟨haside, hsome _ _ fun h => hplay h _ _ _ _, hsome _ _ fun h => hrecord h _ _ _, hsome _ _ fun _ => hkeep _ _ _⟩

section Chunk
variable {context : ChunkContext} {c : Channel}

theorem mem_asideOrders {a : Activity} {t : Track} {command : Command} (h : command ∈ asideOrders a t) :
    a.record = true ∧ command = .promotePreRecord ∨ a.record = false ∧ command = .discardPreRecord := by
  unfold asideOrders at h
  split_ifs at h with _ hrecord
  · exact .inl ⟨hrecord, List.mem_singleton.mp h⟩
  · exact .inr ⟨Bool.eq_false_iff.mpr hrecord, List.mem_singleton.mp h⟩
  · exact absurd h List.not_mem_nil

/-- A chunk that is not played sends nothing further. -/
theorem further_silent (h : (c.track.activityIn context).playback = false) :
    ∀ command ∈ c.further context, command.silent = true := by
  refine forall_mem_further (fun command hmem => ?_) (fun hplay => ?_) (fun _ _ _ _ => rfl) fun _ _ _ => rfl
  · rcases mem_asideOrders hmem with ⟨-, rfl⟩ | ⟨-, rfl⟩ <;> rfl
  · rw [h] at hplay
    cases hplay

/-- The commands of a chunk that does not record leave the data as it is. -/
theorem orders_keepsContent (hrecord : (c.track.activityIn context).record = false) :
    ∀ command ∈ c.orders context, command.keepsContent = true := by
  refine forall_mem_orders rfl (fun command hmem => ?_) (fun _ => rfl) (fun hrecord' => ?_) fun _ _ _ => rfl
  · rcases mem_asideOrders hmem with ⟨hrecord', -⟩ | ⟨-, rfl⟩
    · rw [hrecord] at hrecord'
      cases hrecord'
    · rfl
  · rw [hrecord] at hrecord'
    cases hrecord'

/-- A chunk that plays does so once its listener is silenced, and does nothing else
that the player could notice. -/
theorem runAll_further (hplays : (c.track.activityIn context).playback = true) (s : Score) (p : Player) :
    let position := c.track.positionIn context
    let skip := min context.frames (clampFrames (c.track.firstPlayable - position).toNat)
    p.runAll s (c.further context) =
      p.play s (c.track.framesDone + skip) (context.frames - skip) (position + skip) (c.startsOver context) := by
  intro position skip
  have hrecord := ((c.track.activityIn_exclusive context).1 hplays).1
  have hended : (c.track.endAside (c.track.activityIn context)).firstPlayable = c.track.firstPlayable := by
    unfold Track.endAside
    simp only [hrecord, Bool.false_eq_true, if_false]
    split_ifs <;> rfl
  have haside : ∀ p : Player, p.runAll s (asideOrders (c.track.activityIn context) c.track) = (p, []) := fun p => by
    refine Player.runAll_silent fun command hmem p => ?_
    rcases mem_asideOrders hmem with ⟨-, rfl⟩ | ⟨-, rfl⟩ <;> rfl
  have hkeep : ∀ (b : Bool) (n frame position : Nat) (p : Player),
      p.runAll s (if b = true then [.record .preRecord frame n position] else []) = (p, []) := fun b n frame position p => by
    cases b <;> rfl
  unfold further playOrder
  simp only [hplays, hrecord, if_true, Bool.false_eq_true, if_false, Player.runAll_append, haside, hkeep, hended,
    Track.endAside_framesDone, List.nil_append, List.append_nil, Player.runAll]
  rfl

end Chunk

end Channel

namespace Deck

/-- A chunk that is played plays its frames, from a data position on. -/
theorem runAll_further {c : Channel} {context : ChunkContext} (hplays : (c.track.activityIn context).playback = true)
    (length : Nat) (d : Deck) :
    let position := c.track.positionIn context
    let skip := min context.frames (clampFrames (c.track.firstPlayable - position).toNat)
    let played := d.player.play (d.score length) (c.track.framesDone + skip) (context.frames - skip) (position + skip)
      (c.startsOver context)
    (d.runAll length true (c.further context)).1.player = played.1 ∧
      (d.runAll length true (c.further context)).2 = played.2 := by
  intro position skip played
  have hrecord := ((c.track.activityIn_exclusive context).1 hplays).1
  obtain ⟨-, hplayer, hsent⟩ := runAll_of_keeps length true d fun command hmem =>
    Channel.orders_keepsContent hrecord command (by rw [Channel.orders_eq]; exact List.mem_append_right _ hmem)
  have hcarried : d.player.carry (d.score length) true (c.further context) = played :=
    Channel.runAll_further hplays (d.score length) d.player
  rw [hcarried] at hplayer hsent
  exact ⟨hplayer, hsent⟩

/-- A chunk that starts over brings the listener to where it is in the score. -/
theorem runAll_further_over {c : Channel} {context : ChunkContext} {l : Tracker} {d : Deck} (h : d.Leads l)
    (hpos : 0 < context.frames) (hmax : context.frames ≤ maxFrames)
    (hplays : (c.track.activityIn context).playback = true)
    (hreach : c.track.firstPlayable < c.track.positionIn context + context.frames)
    (hover : c.startsOver context = true) (length : Nat) :
    let s := d.score length
    let a := (max (c.track.positionIn context) c.track.firstPlayable).toNat
    let b := min (c.track.positionIn context + context.frames).toNat (max s.dataLength a)
    let ran := d.runAll length true (c.further context)
    ran.1.player.output = s.stateAt b ∧
      ∃ restored rest, ran.2 = restored ++ rest ∧
        (∀ l : Tracker, l.Follows d.player.output → (restored.foldl Tracker.feedMessage l).Follows (s.stateAt a)) ∧
        rest.foldl Tracker.feedMessage (s.stateAt a) = s.stateAt b := by
  intro s a b ran
  obtain ⟨hplayer, hsent⟩ := runAll_further hplays length d
  rw [hover] at hplayer hsent
  obtain ⟨houtput, restored, rest, hplayed, hheard⟩ :=
    Player.play_rewound (s := s) hpos hmax hreach h.sound.startState c.track.framesDone d.player
  exact ⟨(congrArg Player.output hplayer).trans houtput, restored, rest, hsent.trans hplayed, hheard⟩

end Deck

/-! ## The chunks of a cycle -/

namespace Channel

/-- The commands that some chunks queue. -/
def ordersIn : List ChunkContext → Channel → List Command
  | [], _ => []
  | context :: rest, c =>
    (if c.track.overruns context.frames then [] else c.orders context) ++ ordersIn rest (c.process context).1

theorem process_commands (c : Channel) (context : ChunkContext) :
    (c.process context).1.commands =
      c.commands ++ if c.track.overruns context.frames then [] else c.orders context := by
  cases h : c.track.overruns context.frames with
  | true =>
    unfold process
    simp [h]
  | false =>
    rw [process_orders c context h]
    rfl

theorem advance_commands (contexts : List ChunkContext) (c : Channel) :
    (c.advance contexts).commands = c.commands ++ c.ordersIn contexts := by
  induction contexts generalizing c with
  | nil => exact (List.append_nil _).symm
  | cons context rest ih =>
    show (advance rest (c.process context).1).commands = _
    rw [ih, process_commands, ordersIn, List.append_assoc]

theorem advance_append (contexts more : List ChunkContext) (c : Channel) :
    c.advance (contexts ++ more) = (c.advance contexts).advance more := List.foldl_append

theorem advance_deck (contexts : List ChunkContext) (c : Channel) (coming : Option (List Message)) :
    (c.advance contexts).deck coming = c.deck coming := by
  induction contexts generalizing c with
  | nil => rfl
  | cons context rest ih => exact (ih (c.process context).1).trans (c.process_deck context coming)

/-- Of some chunks, all that the channel does is such. -/
def Each (P : Activity → Bool) : List ChunkContext → Channel → Prop
  | [], _ => True
  | context :: rest, c => P (c.track.activityIn context) = true ∧ Each P rest (c.process context).1

instance decidableEach (P : Activity → Bool) : (contexts : List ChunkContext) → (c : Channel) → Decidable (Each P contexts c)
  | [], _ => inferInstanceAs (Decidable True)
  | context :: rest, c =>
    have := decidableEach P rest (c.process context).1
    inferInstanceAs (Decidable (_ ∧ _))

/-- While nothing is played, nothing is interrupted either, and nothing is sent. -/
theorem ordersIn_silent {contexts : List ChunkContext} {c : Channel} (h : Each (fun a => !a.playback) contexts c)
    (hlast : c.track.lastActivity.playback = false) : ∀ command ∈ c.ordersIn contexts, command.silent = true := by
  induction contexts generalizing c with
  | nil => exact List.forall_mem_nil _
  | cons context rest ih =>
    have hidle : (c.track.activityIn context).playback = false := by simpa using h.1
    unfold ordersIn
    refine List.forall_mem_append.mpr ⟨?_, ih h.2 ?_⟩
    · split_ifs
      · exact List.forall_mem_nil _
      · have hgoes : c.interrupts (c.track.activityIn context) context = false := by simp [interrupts, hlast]
        rw [orders_eq, silence, hgoes]
        exact further_silent hidle
    · cases hover : c.track.overruns context.frames with
      | true =>
        unfold process
        rw [if_pos hover]
        exact hlast
      | false =>
        rw [process_orders c context hover]
        exact hidle

/-- While nothing is played or recorded, no command plays or changes the data. -/
theorem ordersIn_idle {contexts : List ChunkContext} {c : Channel}
    (h : Each (fun a => !a.playback && !a.record) contexts c) :
    ∀ command ∈ c.ordersIn contexts, command.keepsContent = true ∧ command.plays = false := by
  induction contexts generalizing c with
  | nil => exact List.forall_mem_nil _
  | cons context rest ih =>
    obtain ⟨hplayback, hrecord⟩ : (c.track.activityIn context).playback = false ∧
        (c.track.activityIn context).record = false := by simpa using h.1
    unfold ordersIn
    refine List.forall_mem_append.mpr ⟨?_, ih h.2⟩
    split_ifs
    · exact List.forall_mem_nil _
    · intro command hmem
      refine ⟨orders_keepsContent hrecord command hmem, ?_⟩
      rw [orders_eq] at hmem
      rcases List.mem_append.mp hmem with hmem | hmem
      · exact (silence_idle command hmem).2
      · have hsilent := further_silent hplayback command hmem
        cases command with
        | playback => exact Bool.noConfusion hsilent
        | allSoundOff | record | promotePreRecord | discardPreRecord => rfl

namespace PlayCycle
variable (k : PlayCycle) (c : Channel)

/-- The channel at the beginning of the cycle. -/
def started : Channel := c.prepare k.frames k.input.isSome k.output.isSome

/-- What the commands of the first chunks lead to when they are carried out at the
end of the cycle, and what they send. -/
def upTo (contexts : List ChunkContext) : Deck × List Message :=
  (c.deck k.input).runAll (k.decided c).track.dataLength k.output.isSome ((k.started c).advance contexts).commands

theorem upTo_append (contexts more : List ChunkContext) :
    k.upTo c (contexts ++ more) =
      let ran := (k.upTo c contexts).1.runAll (k.decided c).track.dataLength k.output.isSome
        (((k.started c).advance contexts).ordersIn more)
      (ran.1, (k.upTo c contexts).2 ++ ran.2) := by
  unfold upTo
  rw [advance_append, advance_commands more, Deck.runAll_append]

/-- One chunk more that fits. -/
theorem upTo_concat {contexts : List ChunkContext} {context : ChunkContext}
    (hfits : ((k.started c).advance contexts).track.overruns context.frames = false) :
    k.upTo c (contexts ++ [context]) =
      let ran := (k.upTo c contexts).1.runAll (k.decided c).track.dataLength k.output.isSome
        (((k.started c).advance contexts).orders context)
      (ran.1, (k.upTo c contexts).2 ++ ran.2) := by
  rw [upTo_append]
  unfold ordersIn ordersIn
  rw [hfits, if_neg Bool.false_ne_true, List.append_nil]

theorem finalize_upTo :
    (k.after c).player = (k.upTo c k.contexts).1.player ∧
      ((k.decided c).finalize k.input k.output).2.1 = k.output.map (·.pushAll (k.upTo c k.contexts).2) := by
  obtain ⟨⟨-, hplayer⟩, -, houtput⟩ := (k.decided c).finalize_runs k.input k.output
  have hdeck : (k.decided c).deck k.input = c.deck k.input := (k.started c).advance_deck k.contexts k.input
  rw [hdeck] at hplayer houtput
  exact ⟨hplayer, houtput⟩

/-- If nothing is lost, the cycle has appended all that its chunks send. -/
theorem emitted_upTo {k : PlayCycle} {c : Channel} (hroom : k.NothingLost c) : k.emitted c = (k.upTo c k.contexts).2 := by
  refine emitted_of_pushAll (fun output houtput => ?_) (fun hnone => ?_) hroom
  · obtain ⟨-, -, hpushed⟩ := (k.decided c).finalize_runs k.input output
    rw [show (k.decided c).deck k.input = c.deck k.input from (k.started c).advance_deck k.contexts k.input, houtput]
      at hpushed
    exact hpushed
  · unfold upTo
    rw [hnone]
    exact Deck.runAll_mute _ _ _

/-- A listener keeps in step with all that some chunks send. -/
theorem leads_upTo {k : PlayCycle} {c : Channel} {l : Tracker} (h : c.AtRest l) (contexts : List ChunkContext) :
    (k.upTo c contexts).1.Leads ((k.upTo c contexts).2.foldl Tracker.feedMessage l) :=
  (h.leads k.input).runAll _ _ _

/-- A cycle is three kinds of actions. -/
theorem after_eq :
    k.after c = c.after (.prepare k.frames k.input.isSome k.output.isSome :: k.contexts.map .process ++
      [.finalize k.input k.output]) := by
  unfold Channel.after PlayCycle.after PlayCycle.decided Channel.advance
  rw [List.cons_append, List.foldl_cons, List.foldl_append, List.foldl_map]
  rfl

theorem reachable_after {k : PlayCycle} {c : Channel} (h : c.Reachable) : (k.after c).Reachable := by
  rw [after_eq]
  exact h.after _

end PlayCycle

/-- A cycle of one chunk, four frames of a loop of eight. -/
def half (mode : LoopMode) (posBefore posAfter : Nat) : PlayCycle where
  frames := 4
  contexts := [⟨mode, {}, 4, posBefore, posAfter, 8, 8⟩]
  output := some ⟨16384, []⟩

/-- A channel that plays while a note is held from before its recording. -/
def holding (status : UInt8) : Channel :=
  (half .playing 0 4).after ((new 8 .direct).after [.replace (.load [⟨-1, [status, 64, 90]⟩] 8)])

theorem holding_reachable (status : UInt8) : (holding status).Reachable :=
  PlayCycle.reachable_after ⟨8, .direct, _, rfl⟩

end Channel

end Overdub.Midi
