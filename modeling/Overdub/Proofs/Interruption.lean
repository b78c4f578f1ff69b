import Overdub.Proofs.Restart
/-!
# What an interruption releases

A chunk interrupts what was played before it if it does not play, or plays elsewhere
than the loop has come to. The channel then sends one message: all sound off, on the
first MIDI channel. Nothing that was held there is held any longer. What is held on
the other fifteen MIDI channels is left alone until playback starts over, which brings
them all to the state of the content where it does (`interruption_releases_first`).
-/

namespace Overdub.Midi

/-! ## Silence on the first MIDI channel -/

/-- The message that silences the first MIDI channel. -/
def allSoundOffAt (frame : Nat) : Message := .short (.ofNat frame) 0xB0 Event.allSoundOff 0

/-- The deck once it has silenced the first MIDI channel. -/
def Deck.silenced (frame : Nat) (d : Deck) : Deck :=
  { d with player := { d.player with output := d.player.output.feedMessage (allSoundOffAt frame) } }

theorem Deck.output_silenced (frame : Nat) (d : Deck) :
    (d.silenced frame).player.output = d.player.output.feedMessage (allSoundOffAt frame) := by
  -- Closing this by definition alone would have the message parsed on both sides.
  rw [Deck.silenced]

theorem Deck.score_silenced (length frame : Nat) (d : Deck) : (d.silenced frame).score length = d.score length := by
  unfold Deck.silenced Deck.score
  rfl

theorem Deck.run_allSoundOff (length frame : Nat) (d : Deck) :
    d.run length true (.allSoundOff frame) = (d.silenced frame, [allSoundOffAt frame]) :=
  Deck.run_live length rfl rfl

/-- What an event does to the notes depends on the notes only. -/
theorem Voice.apply_notes {v w : Voice} (h : v.notes = w.notes) (e : Event) : (v.apply e).notes = (w.apply e).notes := by
  cases e with
  | noteOn | noteOff => simp only [apply, h]
  | controlChange channel cc value =>
    unfold apply
    dsimp only
    split_ifs
    · rfl
    · exact h
    · exact h
  | polyPressure | programChange | channelPressure | pitchWheel => exact h

namespace Tracker

theorem feed_notes {t u : Tracker} {channel : Fin 16} (h : (t.voices.get channel).notes = (u.voices.get channel).notes)
    (bytes : List UInt8) : ((t.feed bytes).voices.get channel).notes = ((u.feed bytes).voices.get channel).notes := by
  unfold feed
  cases Event.parse bytes with
  | none => exact h
  | some e =>
    rw [Option.elim_some, Option.elim_some, apply_voices, apply_voices, Vector.get_setAt, Vector.get_setAt]
    split_ifs with hchannel
    · subst hchannel
      exact Voice.apply_notes h e
    · exact h

/-- The notes held after some messages depend on the notes held before. -/
theorem feedMessages_notes {t u : Tracker} {channel : Fin 16}
    (h : (t.voices.get channel).notes = (u.voices.get channel).notes) (messages : List Message) :
    ((messages.foldl feedMessage t).voices.get channel).notes =
      ((messages.foldl feedMessage u).voices.get channel).notes := by
  induction messages generalizing t u with
  | nil => exact h
  | cons m rest ih => exact ih (feed_notes h m.bytes)

theorem get_allSoundOff (t : Tracker) (frame : Nat) (channel : Fin 16) :
    (t.feedMessage (allSoundOffAt frame)).voices.get channel =
      if channel = 0 then { t.voices.get 0 with notes := .replicate 128 0 } else t.voices.get channel := by
  have hparse : Event.parse (allSoundOffAt frame).bytes = some (.controlChange 0 Event.allSoundOff 0) := by
    show Event.parse [0xB0, Event.allSoundOff, 0] = _
    decide
  have hvoices : (t.feedMessage (allSoundOffAt frame)).voices =
      Vector.setAt t.voices 0 { t.voices.get 0 with notes := .replicate 128 0 } := by
    unfold feedMessage feed
    rw [hparse, Option.elim_some]
    exact t.releaseChannel_voices 0
  rw [hvoices, Vector.get_setAt]
  simp only [eq_comm]

/-- Silence leaves no notes on the first MIDI channel but those that are started after it. -/
theorem notes_after_allSoundOff (t : Tracker) (frame : Nat) (messages : List Message) :
    ((messages.foldl feedMessage (t.feedMessage (allSoundOffAt frame))).voices.get 0).notes =
      ((messages.foldl feedMessage .fresh).voices.get 0).notes := by
  refine feedMessages_notes ?_ messages
  rw [get_allSoundOff, if_pos rfl]
  exact (congrArg Voice.notes (show Tracker.fresh.voices.get 0 = .fresh from Vector.getElem_replicate _)).symm

end Tracker

/-! ## Interruptions -/

namespace Channel

/-- What is queued from a chunk on, but for the silence in front of it. -/
def furtherIn (context : ChunkContext) (later : List ChunkContext) (c : Channel) : List Command :=
  c.further context ++ (c.process context).1.ordersIn later

section Chunk
variable {c : Channel} {context : ChunkContext}

theorem ordersIn_interrupted {later : List ChunkContext} (hfits : c.track.overruns context.frames = false)
    (hinterrupts : c.interrupts (c.track.activityIn context) context = true) :
    c.ordersIn (context :: later) = .allSoundOff c.track.framesDone :: c.furtherIn context later := by
  unfold ordersIn
  rw [hfits, orders_eq, silence, if_pos hinterrupts]
  rfl

/-- If nothing is played from a chunk on, nothing more is sent. -/
theorem furtherIn_silent {later : List ChunkContext} (hfits : c.track.overruns context.frames = false)
    (h : Each (fun a => !a.playback) (context :: later) c) : ∀ command ∈ c.furtherIn context later, command.silent = true := by
  have hquiet : (c.track.activityIn context).playback = false := by simpa using h.1
  have hlast : (c.process context).1.track.lastActivity.playback = false := by
    rw [process_orders c context hfits]
    exact hquiet
  exact List.forall_mem_append.mpr ⟨further_silent hquiet, ordersIn_silent h.2 hlast⟩

/-- A chunk that starts over brings the listener to the state of the content, and what
is played behind it goes on from there. -/
theorem runAll_furtherIn {d : Deck} {l : Tracker} (h : d.Leads l) (hpos : 0 < context.frames)
    (hmax : context.frames ≤ maxFrames) (hplays : (c.track.activityIn context).playback = true)
    (hreach : c.track.firstPlayable < c.track.positionIn context + context.frames)
    (hover : c.startsOver context = true) (later : List ChunkContext) (length : Nat) :
    let reached := (d.score length).stateAt (max (c.track.positionIn context) c.track.firstPlayable).toNat
    let ran := d.runAll length true (c.furtherIn context later)
    ∃ restored rest, ran.2 = restored ++ rest ∧
      (∀ l : Tracker, l.Follows d.player.output → (restored.foldl Tracker.feedMessage l).Follows reached) ∧
      (rest.foldl Tracker.feedMessage reached).Follows ran.1.player.output := by
  intro reached ran
  let started := (d.runAll length true (c.further context)).1
  obtain ⟨houtput, restored, played, hsent, hrestored, hreached⟩ :=
    Deck.runAll_further_over h hpos hmax hplays hreach hover length
  have hlater := ((h.runAll length true (c.further context)).self.runAll length true
    ((c.process context).1.ordersIn later)).follows
  have hran : ran = ((started.runAll length true ((c.process context).1.ordersIn later)).1,
      (restored ++ played) ++ (started.runAll length true ((c.process context).1.ordersIn later)).2) := by
    rw [← hsent]
    exact Deck.runAll_append ..
  rw [hran]
  refine ⟨restored, _, List.append_assoc .., hrestored, ?_⟩
  rw [List.foldl_append, hreached, ← houtput]
  exact hlater

end Chunk

/-- From a chunk that interrupts what was played before it on, a cycle runs the deck
that is silenced. -/
theorem PlayCycle.upTo_interrupted (k : PlayCycle) (c : Channel) (houtput : k.output.isSome = true)
    {earlier later : List ChunkContext} {context : ChunkContext} :
    let before := (k.started c).advance earlier
    before.track.overruns context.frames = false →
      before.interrupts (before.track.activityIn context) context = true →
        let ran := ((k.upTo c earlier).1.silenced before.track.framesDone).runAll (k.decided c).track.dataLength true
          (before.furtherIn context later)
        k.upTo c (earlier ++ context :: later) =
          (ran.1, (k.upTo c earlier).2 ++ allSoundOffAt before.track.framesDone :: ran.2) := by
  intro before hfits hinterrupts ran
  rw [upTo_append, houtput, ordersIn_interrupted hfits hinterrupts, Deck.runAll_cons, Deck.run_allSoundOff]
  rfl

/-- Whatever was played up to a chunk that interrupts it: the message sent first is
the one that silences the first MIDI channel, where afterwards only those notes are
held that have been started since. If nothing is played in the rest of the cycle,
nothing else is sent, and the other MIDI channels are left as they were. If the chunk
plays, and reaches what may be played, what is sent next brings a listener on all MIDI
channels to the state of the content there, so that nothing is held from before. -/
theorem interruption_releases_first {c : Channel} (hc : c.Reachable) {k : PlayCycle} (houtput : k.output.isSome = true)
    {earlier later : List ChunkContext} {context : ChunkContext} (hcontexts : k.contexts = earlier ++ context :: later)
    (hpos : 0 < context.frames) (hmax : context.frames ≤ maxFrames)
    (hfits : ((k.started c).advance earlier).track.overruns context.frames = false)
    (hinterrupts : ((k.started c).advance earlier).interrupts
      (((k.started c).advance earlier).track.activityIn context) context = true) :
    let before := (k.started c).advance earlier
    let silence := allSoundOffAt before.track.framesDone
    let held := (k.upTo c earlier).1.player.output
    let ended := (k.after c).outputState
    ∃ since, (k.upTo c k.contexts).2 = (k.upTo c earlier).2 ++ silence :: since ∧
      (k.NothingLost c → k.emitted c = (k.upTo c earlier).2 ++ silence :: since) ∧
      (ended.voices.get 0).notes = ((since.foldl Tracker.feedMessage .fresh).voices.get 0).notes ∧
      (Each (fun a => !a.playback) (context :: later) before →
        since = [] ∧ ∀ channel, ended.voices.get channel =
          if channel = 0 then { held.voices.get 0 with notes := .replicate 128 0 } else held.voices.get channel) ∧
      ((before.track.activityIn context).playback = true →
        before.track.firstPlayable < before.track.positionIn context + context.frames →
          let content := (k.upTo c earlier).1.score (k.decided c).track.dataLength
          let reached := content.stateAt (max (before.track.positionIn context) before.track.firstPlayable).toNat
          ∃ restored rest, since = restored ++ rest ∧
            (∀ l : Tracker, l.Follows (held.feedMessage silence) →
              (restored.foldl Tracker.feedMessage l).Follows reached) ∧
            (rest.foldl Tracker.feedMessage reached).Follows ended) := by
  intro before silence held ended
  -- Once it is silenced, the deck runs what the chunk and those behind it have queued further.
  let silenced := (k.upTo c earlier).1.silenced before.track.framesDone
  let ran := silenced.runAll (k.decided c).track.dataLength true (before.furtherIn context later)
  have hsilenced : silenced.Leads (held.feedMessage silence) := (PlayCycle.leads_upTo hc.atRest earlier).self.hear silence
  have hrun : k.upTo c k.contexts = (ran.1, (k.upTo c earlier).2 ++ silence :: ran.2) := by
    rw [hcontexts]
    exact k.upTo_interrupted c houtput hfits hinterrupts
  have hsent : (k.upTo c k.contexts).2 = (k.upTo c earlier).2 ++ silence :: ran.2 := congrArg Prod.snd hrun
  have hended : ended = ran.1.player.output :=
    (congrArg Player.output (k.finalize_upTo c).1).trans (congrArg (·.1.player.output) hrun)
  refine ⟨ran.2, hsent, fun hroom => (PlayCycle.emitted_upTo hroom).trans hsent, ?_, fun hidle => ?_,
    fun hplays hreach => ?_⟩
  · have hfollows : (ran.2.foldl Tracker.feedMessage (held.feedMessage silence)).Follows ran.1.player.output :=
      (hsilenced.runAll _ _ _).follows
    rw [hended, ← (hfollows 0).notes]
    exact held.notes_after_allSoundOff before.track.framesDone ran.2
  · obtain ⟨hnothing, hsame⟩ := Deck.runAll_silent (furtherIn_silent hfits hidle) (k.decided c).track.dataLength true silenced
    refine ⟨hnothing, fun channel => ?_⟩
    rw [hended, hsame]
    exact held.get_allSoundOff before.track.framesDone channel
  · have hover : before.startsOver context = true := by
      rw [startsOver, left, if_pos hinterrupts]
      rfl
    obtain ⟨restored, rest, hsplit, hrestored, hreached⟩ :=
      runAll_furtherIn hsilenced hpos hmax hplays hreach hover later (k.decided c).track.dataLength
    rw [hended]
    rw [Deck.score_silenced] at hrestored hreached
    rw [Deck.output_silenced] at hrestored
    exact ⟨restored, rest, hsplit, hrestored, hreached⟩

/-- A note on the first MIDI channel is released when the loop is stopped. -/
theorem interruption_releases_first_stopped :
    let c := holding 0x90
    let stop := half .stopped 0 0
    let context : ChunkContext := ⟨.stopped, {}, 4, 0, 0, 8, 8⟩
    (stop.started c).interrupts ((stop.started c).track.activityIn context) context = true ∧
      (c.outputState.voices.get 0).notes.get 64 = 90 ∧
      ((stop.after c).outputState.voices.get 0).notes = .replicate 128 0 := by
  intro c stop context
  have hinterrupts : (stop.started c).interrupts ((stop.started c).track.activityIn context) context = true := by
    decide +kernel
  have hcontexts : stop.contexts = [] ++ context :: [] := rfl
  obtain ⟨since, -, -, -, hidle, -⟩ := interruption_releases_first (holding_reachable 0x90) (k := stop) rfl hcontexts
    (by decide) (by decide) (by decide +kernel) hinterrupts
  have hvoices := (hidle (by decide +kernel)).2 0
  rw [if_pos rfl] at hvoices
  exact ⟨hinterrupts, by decide +kernel, congrArg Voice.notes hvoices⟩

/-- A note on the second MIDI channel is still held then. -/
theorem second_channel_held_after_stop :
    let c := holding 0x91
    let stop := half .stopped 0 0
    let context : ChunkContext := ⟨.stopped, {}, 4, 0, 0, 8, 8⟩
    c.Reachable ∧ stop.NothingLost c ∧
      (stop.started c).interrupts ((stop.started c).track.activityIn context) context = true ∧
      (c.outputState.voices.get 1).notes.get 64 = 90 ∧ ((stop.after c).outputState.voices.get 1).notes.get 64 = 90 := by
  intro c stop context
  refine ⟨holding_reachable 0x91, PlayCycle.nothingLost (by decide +kernel) (by decide +kernel), ?_, ?_, ?_⟩
  all_goals decide +kernel

end Channel

end Overdub.Midi
