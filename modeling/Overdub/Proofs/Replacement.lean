import Overdub.Proofs.Restart
/-!
# Playing content that was replaced

Replacing the content of a channel that plays leaves the notes of the old content
held: the output state is as it was. What releases them is a restart, so all depends
on whether the next chunk that is played starts over (`startsOver`). Clearing makes
sure of that, because nothing is left of where playback left off. Loading and adopting
do not: a chunk that goes on where the old content left off sends the new events only
(`replaced_content_played`).
-/

namespace Overdub.Midi

/-- The events of a score from one data position up to another. -/
def Score.between (s : Score) (a b : Nat) : List Message := (s.before b).drop (s.before a).length

/-- A player that goes on with its cursor in front of the first event passes over what
lies in front of the position it reaches, which counts only if a state is still to be
restored. -/
theorem Player.play_on {s : Score} {first : Nat} {position : Int} {n : Nat} (hn : 0 < n) (hmax : n ≤ maxFrames)
    (hreach : first < position + n) {p : Player} (hcursor : p.cursor = .start) (frame : Nat) :
    let skip := min n (clampFrames (first - position).toNat)
    let a := (max position first).toNat
    let b := min (position + n).toNat (max s.dataLength a)
    (p.play s (frame + skip) (n - skip) (position + skip) false).1.output =
      match p.restore with
      | none => (s.between a b).foldl Tracker.feedMessage p.output
      | some pending => (s.before b).foldl Tracker.feedMessage pending := by
  intro skip a b
  obtain ⟨hskipped, hindex⟩ :=
    s.seek (a := 0) (b := a) (c := p.cursor) (by rw [hcursor, before_zero]; rfl) (Nat.zero_le a)
  rw [before_zero, List.nil_append] at hskipped
  have hplay : p.play s (frame + skip) (n - skip) (position + skip) false = _ := play_reaching hn hmax hreach frame false p
  rw [hplay, if_neg Bool.false_ne_true]
  unfold passOver catchUp sendUpTo
  cases hrestore : p.restore with
  | none =>
    obtain ⟨hplayed, -⟩ := s.seek (b := b) hindex (by omega)
    dsimp only [Option.map_none]
    rw [Score.between, ← hplayed, List.drop_left]
  | some pending =>
    obtain ⟨hplayed, -⟩ := s.seek (b := b) hindex (by omega)
    dsimp only [Option.map_some]
    rw [hskipped, ← hplayed, List.foldl_append]

namespace Channel

section Chunk
variable {c : Channel} {context : ChunkContext} {l : Tracker} {d : Deck}

/-- A chunk that starts over brings the listener to where it is in the score. -/
theorem runAll_startsOver (h : d.Leads l) (hpos : 0 < context.frames) (hmax : context.frames ≤ maxFrames)
    (hplays : (c.track.activityIn context).playback = true)
    (hreach : c.track.firstPlayable < c.track.positionIn context + context.frames)
    (hover : c.startsOver context = true) (length : Nat) :
    let s := d.score length
    let a := (max (c.track.positionIn context) c.track.firstPlayable).toNat
    let b := min (c.track.positionIn context + context.frames).toNat (max s.dataLength a)
    let ran := d.runAll length true (c.orders context)
    ran.1.player.output = s.stateAt b ∧
      ∃ restored rest, ran.2 = restored ++ rest ∧
        ∀ l : Tracker, l.Follows d.player.output →
          (restored.foldl Tracker.feedMessage l).Follows (s.stateAt a) ∧
            ((restored ++ rest).foldl Tracker.feedMessage l).Follows (s.stateAt b) := by
  intro s a b ran
  let silenced := d.runAll length true (c.silence context)
  have hran : ran = ((silenced.1.runAll length true (c.further context)).1,
      silenced.2 ++ (silenced.1.runAll length true (c.further context)).2) := by
    show d.runAll length true (c.orders context) = _
    rw [orders_eq, Deck.runAll_append]
  obtain ⟨⟨hmain, hstart⟩, -⟩ := Deck.runAll_idle silence_idle length true d
  have hscore : silenced.1.score length = s := congrArg₂ (Score.mk · · length) hmain hstart
  obtain ⟨houtput, restored, rest, hsent, hrestored, hreached⟩ :=
    Deck.runAll_further_over (h.runAll length true (c.silence context)).self hpos hmax hplays hreach hover length
  rw [hscore] at houtput hrestored hreached
  rw [hran]
  refine ⟨houtput, silenced.2 ++ restored, rest, ?_, fun l hl => ?_⟩
  · rw [List.append_assoc]
    exact congrArg (silenced.2 ++ ·) hsent
  · have hl : d.Leads l := ⟨h.sorted, h.sound, h.restore, hl⟩
    have hstate := hrestored _ (hl.runAll length true (c.silence context)).follows
    rw [← List.foldl_append] at hstate
    refine ⟨hstate, ?_⟩
    rw [List.foldl_append, ← hreached]
    exact hstate.feedMessages rest

/-- A chunk that goes on does not. -/
theorem runAll_goesOn (hcursor : d.player.cursor = .start) (hpos : 0 < context.frames) (hmax : context.frames ≤ maxFrames)
    (hplays : (c.track.activityIn context).playback = true)
    (hreach : c.track.firstPlayable < c.track.positionIn context + context.frames)
    (hover : c.startsOver context = false) (length : Nat) :
    let s := d.score length
    let a := (max (c.track.positionIn context) c.track.firstPlayable).toNat
    let b := min (c.track.positionIn context + context.frames).toNat (max s.dataLength a)
    (d.runAll length true (c.orders context)).1.player.output =
      match d.player.restore with
      | none => (s.between a b).foldl Tracker.feedMessage d.player.output
      | some pending => (s.before b).foldl Tracker.feedMessage pending := by
  intro s a b
  obtain ⟨hplayer, -⟩ := Deck.runAll_further hplays length d
  have hgoes : c.interrupts (c.track.activityIn context) context = false := by
    cases hinterrupts : c.interrupts (c.track.activityIn context) context with
    | false => rfl
    | true =>
      rw [startsOver, left, hinterrupts] at hover
      cases hover
  rw [hover] at hplayer
  rw [orders_eq, silence, hgoes, if_neg Bool.false_ne_true, List.nil_append, hplayer]
  exact Player.play_on hpos hmax hreach hcursor c.track.framesDone

end Chunk

/-- New content is played from its first event on, to the same listener. -/
theorem replace_player (c : Channel) (r : Replacement) :
    ((c.replace r).1.restore = c.restore ∧ (c.replace r).1.outputState = c.outputState) ∧
      ((c.replace r).2 = .ok () → (c.replace r).1.cursor = .start) := by
  cases r with
  | clear length => exact ⟨⟨rfl, rfl⟩, fun _ => rfl⟩
  | load events length =>
    unfold replace
    dsimp only
    cases hload : c.load events length with
    | error => exact ⟨⟨rfl, rfl⟩, nofun⟩
    | ok loaded =>
      obtain ⟨content, -, rfl⟩ := load_ok hload
      exact ⟨⟨rfl, rfl⟩, fun _ => rfl⟩
  | adopt ring left reverseStart keepBefore =>
    unfold replace adopt
    dsimp only
    split
    · exact ⟨⟨rfl, rfl⟩, nofun⟩
    · exact ⟨⟨rfl, rfl⟩, fun _ => rfl⟩

/-! ## Until playback goes on -/

/-- What a chunk that neither plays nor records does. -/
def idle (a : Activity) : Bool := !a.playback && !a.record

/-- Cycles in which nothing is played or recorded. -/
def IdleAll : List PlayCycle → Channel → Prop
  | [], _ => True
  | k :: rest, c => Each idle k.contexts (k.started c) ∧ IdleAll rest (k.after c)

/-- The content is the same, and its player waits where it was. Playback may have ended. -/
structure Waits (content c : Channel) : Prop where
  storage : c.storage = content.storage
  startState : c.startState = content.startState
  cursor : c.cursor = content.cursor
  restore : c.restore = content.restore
  playedUntil : c.playedUntil = content.playedUntil ∨ c.playedUntil = none

section Waits
variable {content c : Channel}

theorem advance_playedUntil {contexts : List ChunkContext} (h : Each idle contexts c) :
    (c.advance contexts).playedUntil = c.playedUntil ∨ (c.advance contexts).playedUntil = none := by
  induction contexts generalizing c with
  | nil => exact .inl rfl
  | cons context rest ih =>
    have hidle : (c.track.activityIn context).playback = false := by
      have hboth := h.1
      unfold idle at hboth
      simp only [Bool.and_eq_true, Bool.not_eq_true'] at hboth
      exact hboth.1
    have hprocess : (c.process context).1.playedUntil = c.playedUntil ∨ (c.process context).1.playedUntil = none := by
      cases hover : c.track.overruns context.frames with
      | true =>
        unfold process
        rw [if_pos hover]
        exact .inl rfl
      | false =>
        rw [process_orders c context hover, hidle]
        exact .inr rfl
    rcases ih h.2 with hrest | hrest
    · exact hprocess.imp hrest.trans hrest.trans
    · exact .inr hrest

/-- The idle chunks of a cycle leave the player where it is. -/
theorem upTo_idle {k : PlayCycle} {contexts : List ChunkContext} (h : Each idle contexts (k.started c)) :
    let d := (k.upTo c contexts).1
    (d.intake.main = c.storage ∧ d.intake.startState = c.startState) ∧
      d.player.cursor = c.cursor ∧ d.player.restore = c.restore := by
  have hcommands : ((k.started c).advance contexts).commands = (k.started c).ordersIn contexts :=
    (advance_commands contexts (k.started c)).trans (List.nil_append _)
  unfold PlayCycle.upTo
  rw [hcommands]
  exact Deck.runAll_idle (ordersIn_idle h) _ _ (c.deck k.input)

theorem Waits.after (h : Waits content c) {k : PlayCycle} (hidle : Each idle k.contexts (k.started c)) :
    Waits content (k.after c) := by
  obtain ⟨⟨hrecorder, -⟩, ⟨-, huntil, -⟩, -⟩ := (k.decided c).finalize_runs k.input k.output
  rw [show (k.decided c).deck k.input = c.deck k.input from (k.started c).advance_deck k.contexts k.input] at hrecorder
  obtain ⟨⟨hmain, hstart⟩, hcursor, hrestore⟩ := upTo_idle hidle
  have hplayer := (k.finalize_upTo c).1
  refine ⟨?_, ?_, ?_, ?_, ?_⟩
  · exact (congrArg Recorder.main hrecorder).trans (hmain.trans h.storage)
  · exact (congrArg Recorder.startState hrecorder).trans (hstart.trans h.startState)
  · exact (congrArg Player.cursor hplayer).trans (hcursor.trans h.cursor)
  · exact (congrArg Player.restore hplayer).trans (hrestore.trans h.restore)
  · rcases advance_playedUntil hidle with hdecided | hdecided
    · exact h.playedUntil.imp (huntil.trans hdecided).trans (huntil.trans hdecided).trans
    · exact .inr (huntil.trans hdecided)

theorem Waits.playAll (h : Waits content c) {cycles : List PlayCycle} (hidle : IdleAll cycles c) :
    Waits content (c.playAll cycles).1 := by
  induction cycles generalizing c with
  | nil => exact h
  | cons k rest ih => exact ih (h.after hidle.1) hidle.2

end Waits

theorem reachable_playAll {c : Channel} (h : c.Reachable) (cycles : List PlayCycle) : (c.playAll cycles).1.Reachable := by
  induction cycles generalizing c with
  | nil => exact h
  | cons k rest ih => exact ih (PlayCycle.reachable_after h)

/-- The content of a channel is replaced, and after cycles in which nothing is played
or recorded comes a chunk that is played and reaches what may be played. After clearing
it starts over. If it does, the listener is brought to the state of the new content at
the position reached and hears the new events from there on, so that only notes of the
new content are held. If it does not, the new events come on top of what is held, or of
the state that an earlier restart has still to restore. -/
theorem replaced_content_played {c : Channel} (hc : c.Reachable) {r : Replacement} (hr : (c.replace r).2 = .ok ())
    {cycles : List PlayCycle} (hcycles : IdleAll cycles (c.replace r).1) {k : PlayCycle}
    {earlier later : List ChunkContext} {context : ChunkContext} (hcontexts : k.contexts = earlier ++ context :: later)
    (hpos : 0 < context.frames) (hmax : context.frames ≤ maxFrames) :
    let content := (c.replace r).1
    let rested := (content.playAll cycles).1
    let before := (k.started rested).advance earlier
    let first := before.track.firstPlayable
    let stop := before.track.positionIn context + context.frames
    Each idle earlier (k.started rested) → before.track.overruns context.frames = false →
      (before.track.activityIn context).playback = true → first < stop →
      let s : Score := ⟨content.storage, content.startState, (k.decided rested).track.dataLength⟩
      let a := (max (before.track.positionIn context) first).toNat
      let b := min stop.toNat (max s.dataLength a)
      let held := (k.upTo rested earlier).1.player.output
      let ended := (k.upTo rested (earlier ++ [context])).1.player.output
      (later = [] → (k.after rested).outputState = ended) ∧
        (∀ length, r = .clear length → before.startsOver context = true) ∧
        (before.startsOver context = true →
          ended = s.stateAt b ∧
            ∃ restored rest,
              (k.upTo rested (earlier ++ [context])).2 = (k.upTo rested earlier).2 ++ (restored ++ rest) ∧
                ∀ l : Tracker, l.Follows held →
                  (restored.foldl Tracker.feedMessage l).Follows (s.stateAt a) ∧
                    ((restored ++ rest).foldl Tracker.feedMessage l).Follows (s.stateAt b)) ∧
        (before.startsOver context = false →
          ended =
            match c.restore with
            | none => (s.between a b).foldl Tracker.feedMessage held
            | some pending => (s.before b).foldl Tracker.feedMessage pending) := by
  intro content rested before first stop hearlier hfits hplays hreach s a b held ended
  obtain ⟨⟨hpending, -⟩, hrewound⟩ := c.replace_player r
  have hwaits : Waits content rested := Waits.playAll ⟨rfl, rfl, rfl, rfl, .inl rfl⟩ hcycles
  have hreachable : rested.Reachable := reachable_playAll (hc.after [.replace r]) cycles
  -- The deck after the idle chunks: the content is new, and the player waits in front of it.
  obtain ⟨⟨hmain, hstart⟩, hcursor, hrestore⟩ := upTo_idle hearlier
  have hleads : (k.upTo rested earlier).1.Leads held := (PlayCycle.leads_upTo hreachable.atRest earlier).self
  have hscore : (k.upTo rested earlier).1.score s.dataLength = s :=
    congrArg₂ (Score.mk · · s.dataLength) (hmain.trans hwaits.storage) (hstart.trans hwaits.startState)
  have hlive : k.output.isSome = true := by
    have houtput := (before.track.activityIn_ports context).1 hplays
    rwa [show before.track.hasOutput = k.output.isSome from advance_hasOutput _ _] at houtput
  have hran : k.upTo rested (earlier ++ [context]) =
      let ran := (k.upTo rested earlier).1.runAll s.dataLength true (before.orders context)
      (ran.1, (k.upTo rested earlier).2 ++ ran.2) := by
    rw [k.upTo_concat rested hfits, hlive]
  refine ⟨fun hlater => ?_, ?_, fun hover => ?_, fun hover => ?_⟩
  · rw [hlater] at hcontexts
    unfold ended
    rw [← hcontexts]
    exact congrArg Player.output (k.finalize_upTo rested).1
  · rintro length rfl
    have hnone : rested.playedUntil = none := hwaits.playedUntil.elim id id
    have hbefore : before.playedUntil = none := (advance_playedUntil hearlier).elim (Eq.trans · hnone) id
    unfold startsOver left
    rw [hbefore, ite_self]
    rfl
  · have hplayed := runAll_startsOver hleads hpos hmax hplays hreach hover s.dataLength
    rw [hscore] at hplayed
    unfold ended
    rw [hran]
    obtain ⟨houtput, restored, rest, hsent, hheard⟩ := hplayed
    exact ⟨houtput, restored, rest, congrArg _ hsent, hheard⟩
  · have hplayed := runAll_goesOn (d := (k.upTo rested earlier).1) (hcursor.trans (hwaits.cursor.trans (hrewound hr))) hpos
      hmax hplays hreach hover s.dataLength
    rw [hscore, hrestore, hwaits.restore, hpending] at hplayed
    unfold ended
    rw [hran]
    exact hplayed

/-- A note of the old content is released when the content is cleared, but not when
it is replaced by a sequence without events. -/
theorem replaced_content_played_silence :
    let c := holding 0x90
    let k := half .playing 4 8
    (c.outputState.voices.get 0).notes.get 64 = 90 ∧ (k.after (c.replace (.clear 8)).1).outputState = .fresh ∧
      (k.after (c.replace (.load [] 8)).1).outputState = c.outputState := by
  intro c k
  have hrestore : c.restore = none := by decide +kernel
  have hnone : ∀ content : Channel, IdleAll [] content := fun _ => trivial
  have hcontexts : k.contexts = [] ++ (⟨.playing, {}, 4, 4, 8, 8, 8⟩ : ChunkContext) :: [] := rfl
  obtain ⟨hended, hclear, hover, -⟩ := replaced_content_played (holding_reachable 0x90) (r := .clear 8) rfl
    (hnone _) hcontexts (by decide) (by decide) trivial (by decide +kernel) (by decide +kernel) (by decide +kernel)
  obtain ⟨hended', -, -, hgoes⟩ := replaced_content_played (holding_reachable 0x90) (r := .load [] 8) rfl
    (hnone _) hcontexts (by decide) (by decide) trivial (by decide +kernel) (by decide +kernel) (by decide +kernel)
  have hheld := hgoes (by decide +kernel)
  rw [hrestore] at hheld
  exact ⟨by decide +kernel, (hended rfl).trans (hover (hclear 8 rfl)).1, (hended' rfl).trans hheld⟩

end Channel

end Overdub.Midi
