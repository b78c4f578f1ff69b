import Overdub.Proofs.StartState
/-!
# What a channel sends

Whatever a channel records and plays, at every moment of a run it knows what a
listener of all that it has sent so far holds, and all of that lies in front of the
moment (`Moment.Broadcasts`). The first is so because every command keeps a listener
in step (`Deck.Leads.run`), the second because a command sends within its frames
(`Player.run_time`) and a chunk queues commands within its own ones
(`Channel.orders_within`).
-/

namespace Overdub.Midi

/-! ## Times -/

/-- An event behind `start`, sent at its time behind `frame`. -/
theorem Message.shift_toNat {m : Message} {frame start : Nat} (hstart : start ≤ m.time.toNat)
    (hend : frame + (m.time.toNat - start) ≤ maxFrames) :
    (UInt32.ofNat frame - UInt32.ofNat start + m.time).toNat = frame + (m.time.toNat - start) := by
  have hmaxFrames : maxFrames = 2 ^ 32 - 1 := rfl
  have hsub := Message.time_sub hstart
  have hframe : (UInt32.ofNat frame).toNat = frame := UInt32.toNat_ofNat_of_lt' (by unfold UInt32.size; omega)
  have hsum : UInt32.ofNat frame - UInt32.ofNat start + m.time = UInt32.ofNat frame + (m.time - UInt32.ofNat start) := by
    grind
  rw [hsum, UInt32.toNat_add, hframe, hsub, Nat.mod_eq_of_lt (by omega)]

/-- What is still in front of a cursor that has sought a time. -/
theorem Cursor.drop_seek (s : Storage) (c : Cursor) (time : UInt32) :
    s.events.drop (c.seek s time).1.index = (s.events.drop c.index).dropWhile (·.time < time) := by
  show s.events.drop (c.index + ((s.events.drop c.index).takeWhile (·.time < time)).length) = _
  rw [← List.drop_drop]
  exact drop_length_takeWhile _ _

/-- In order, a cursor that has sought a time has everything behind it still in front. -/
theorem Cursor.seek_le {s : Storage} (h : InOrder s.events) (c : Cursor) (time : UInt32) :
    ∀ e ∈ s.events.drop (c.seek s time).1.index, time ≤ e.time := by
  intro e he
  rw [drop_seek, InOrder.dropWhile_before (h.sublist (List.drop_sublist _ _))] at he
  exact of_decide_eq_true (List.mem_filter.mp he).2

/-- The command sends from one frame on and in front of another one. -/
def Command.Within (first last : Nat) : Command → Prop
  | .allSoundOff frame => first ≤ frame ∧ frame < last
  | .playback frame n _ _ => first ≤ frame ∧ frame + n ≤ last
  | .record .. | .promotePreRecord | .discardPreRecord => True

theorem Command.Within.mono {command : Command} {first last first' last' : Nat} (h : command.Within first last)
    (hfirst : first' ≤ first) (hlast : last ≤ last') : command.Within first' last' := by
  cases command with
  | allSoundOff | playback =>
    unfold Within at h ⊢
    omega
  | record | promotePreRecord | discardPreRecord => trivial

namespace Player
variable {s : Score}

theorem catchUp_time (frame : UInt32) (p : Player) : ∀ m ∈ (p.catchUp frame).2, m.time = frame := by
  unfold catchUp
  split
  · exact List.forall_mem_nil _
  · intro m hm
    obtain ⟨bytes, -, hbytes⟩ := List.mem_filterMap.mp hm
    unfold Message.ofBytes at hbytes
    split_ifs at hbytes <;> cases hbytes
    rfl

theorem catchUp_cursor (frame : UInt32) (p : Player) : (p.catchUp frame).1.cursor = p.cursor := by
  unfold catchUp
  split <;> rfl

theorem sendUpTo_time {p : Player} {frame start stop : Nat} (hstop : stop ≤ maxFrames)
    (hbehind : ∀ e ∈ s.storage.events.drop p.cursor.index, start ≤ e.time.toNat)
    (hmax : frame + (stop - start) ≤ maxFrames) :
    ∀ m ∈ (p.sendUpTo s (.ofNat frame - .ofNat start) (.ofNat stop)).2,
      frame ≤ m.time.toNat ∧ m.time.toNat < frame + (stop - start) := by
  intro m hm
  obtain ⟨e, he, rfl⟩ := List.mem_map.mp hm
  have hge := hbehind e ((List.takeWhile_sublist _).subset he)
  have hlt : e.time.toNat < stop :=
    (Message.isBefore_iff hstop).mp (List.mem_takeWhile_imp (p := Message.isBefore stop) he)
  rw [Message.time_withTime, Message.shift_toNat hge (by omega)]
  omega

/-- What is played is the state to be restored, and behind it what is stored between two data
positions. -/
theorem play_cases (h : InOrder s.storage.events) {frame n : Nat} (hmax : frame + n ≤ maxFrames) (position : Int)
    (restart : Bool) (p : Player) :
    (p.play s frame n position restart).2 = [] ∨
      ∃ (cued : Player) (skip start stop : Nat), skip < n ∧ stop ≤ start + (n - skip) ∧ stop ≤ maxFrames ∧
        (∀ e ∈ s.storage.events.drop (cued.catchUp (.ofNat (frame + skip))).1.cursor.index, start ≤ e.time.toNat) ∧
          (p.play s frame n position restart).2 =
            (cued.catchUp (.ofNat (frame + skip))).2 ++ ((cued.catchUp (.ofNat (frame + skip))).1.sendUpTo s
              (.ofNat (frame + skip) - .ofNat start) (.ofNat stop)).2 := by
  have hmaxFrames : maxFrames = 2 ^ 32 - 1 := rfl
  unfold play
  dsimp only
  generalize (if restart = true then p.rewind s else p) = cued
  have hskip : min n (clampFrames (-position).toNat) ≤ n := Nat.min_le_left _ _
  generalize min n (clampFrames (-position).toNat) = skip at hskip
  split_ifs with hnothing
  · exact .inl rfl
  · generalize hstart : clampFrames (position + skip).toNat = start
    generalize hstop : min (clampFrames (start + (n - skip))) _ = stop
    have hstart : start ≤ maxFrames := hstart ▸ Nat.min_le_right _ _
    have hend : stop ≤ start + (n - skip) ∧ stop ≤ maxFrames := by
      unfold clampFrames at hstop
      omega
    refine .inr ⟨cued.passOver s (.ofNat start), skip, start, stop, by omega, hend.1, hend.2, fun e he => ?_, rfl⟩
    rw [catchUp_cursor] at he
    have hle := Cursor.seek_le h cued.cursor (.ofNat start) e he
    rwa [UInt32.le_iff_toNat_le, UInt32.toNat_ofNat', Nat.mod_eq_of_lt (by omega)] at hle

/-- What is played within some frames is sent within them. -/
theorem play_time (h : InOrder s.storage.events) {frame n : Nat} (hmax : frame + n ≤ maxFrames) (position : Int)
    (restart : Bool) (p : Player) :
    ∀ m ∈ (p.play s frame n position restart).2, frame ≤ m.time.toNat ∧ m.time.toNat < frame + n := by
  have hmaxFrames : maxFrames = 2 ^ 32 - 1 := rfl
  rcases play_cases h hmax position restart p with hnothing | ⟨cued, skip, start, stop, hskip, hend, hstop, hbehind, hsent⟩
  · rw [hnothing]
    exact List.forall_mem_nil _
  · rw [hsent, List.forall_mem_append]
    refine ⟨fun m hm => ?_, fun m hm => ?_⟩
    · rw [catchUp_time _ _ m hm, UInt32.toNat_ofNat', Nat.mod_eq_of_lt (by omega)]
      omega
    · have hbounds : frame + skip ≤ m.time.toNat ∧ m.time.toNat < frame + skip + (stop - start) :=
        sendUpTo_time hstop hbehind (by omega) m hm
      omega

/-- A command sends within its frames. -/
theorem run_time (h : InOrder s.storage.events) {command : Command} {first last : Nat}
    (hwithin : command.Within first last) (hmax : last ≤ maxFrames) (p : Player) :
    ∀ m ∈ (p.run s command).2, first ≤ m.time.toNat ∧ m.time.toNat < last := by
  cases command with
  | allSoundOff frame =>
    have hmaxFrames : maxFrames = 2 ^ 32 - 1 := rfl
    have hframe : first ≤ frame ∧ frame < last := hwithin
    refine List.forall_mem_singleton.mpr ?_
    show first ≤ (UInt32.ofNat frame).toNat ∧ (UInt32.ofNat frame).toNat < last
    rwa [UInt32.toNat_ofNat', Nat.mod_eq_of_lt (by omega)]
  | playback frame n position restart =>
    have hframes : first ≤ frame ∧ frame + n ≤ last := hwithin
    intro m hm
    have hsent := play_time h (by omega) position restart p m hm
    omega
  | record | promotePreRecord | discardPreRecord => exact List.forall_mem_nil _

/-- What is still to be restored stays a state that messages can lead to. -/
theorem restore_run (hstart : s.startState.Sound) {p : Player} (hrestore : ∀ state, p.restore = some state → state.Sound)
    (command : Command) : ∀ state, (p.run s command).1.restore = some state → state.Sound := by
  unfold run
  cases command with
  | allSoundOff frame =>
    dsimp only
    generalize Message.short (.ofNat frame) 0xB0 Event.allSoundOff 0 = m
    exact hrestore
  | playback frame n position restart =>
    dsimp only [play]
    generalize hcued : (if restart = true then p.rewind s else p) = cued
    split_ifs with hnothing
    · rw [← hcued]
      split_ifs
      · rintro state hstate
        exact Option.some_inj.mp hstate ▸ hstart
      · exact hrestore
    · intro state hstate
      cases (catchUp_restore _ _).symm.trans hstate
  | record | promotePreRecord | discardPreRecord => exact hrestore

end Player

/-! ## Decks -/

namespace Recorder

/-- All states of the recorder are states that messages can lead to. -/
structure Sound (r : Recorder) : Prop where
  startState : r.startState.Sound
  asideState : r.asideState.Sound
  input : r.input.Sound

theorem Sound.hear {r : Recorder} (h : r.Sound) (messages : List Message) : (r.hear messages).Sound := by
  refine ⟨h.startState, h.asideState, ?_⟩
  show (r.input.feedAll _).Sound
  rw [← Tracker.foldl_feedMessage]
  exact h.input.feedMessages messages

theorem Sound.store {r : Recorder} (h : r.Sound) (target : RecordTarget) (position : Nat) (messages : List Message) :
    (r.store target position messages).Sound := by
  cases target with
  | main =>
    refine ⟨?_, h.asideState, h.input⟩
    show Tracker.Sound (if _ then _ else _)
    split_ifs
    exacts [h.input, h.startState]
  | preRecord =>
    refine ⟨h.startState, ?_, h.input⟩
    show Tracker.Sound (if _ then _ else _)
    split_ifs
    exacts [h.input, h.asideState]

end Recorder

theorem Intake.run_sound {i : Intake} (h : i.Sound) (command : Command) : (i.run command).Sound := by
  cases command with
  | allSoundOff | playback => exact h
  | record target frame n position =>
    unfold run
    dsimp only
    split
    · exact h
    · exact ((h.hear _).store target position _).hear _
  | promotePreRecord => exact ⟨h.asideState, h.asideState, h.input⟩
  | discardPreRecord => exact ⟨h.startState, h.asideState, h.input⟩

namespace Deck

/-- A listener follows what the deck has sent. -/
structure Leads (l : Tracker) (d : Deck) : Prop where
  sorted : d.intake.Sorted
  sound : d.intake.Sound
  restore : ∀ state, d.player.restore = some state → state.Sound
  follows : l.Follows d.player.output

variable {l : Tracker} {d : Deck}

/-- A listener keeps in step with every command. -/
theorem Leads.run (h : Leads l d) (length : Nat) (live : Bool) (command : Command) :
    Leads ((d.run length live command).2.foldl Tracker.feedMessage l) (d.run length live command).1 := by
  have hstart : (d.score length).startState.Sound := h.sound.startState
  have hplayed : (∀ state, (d.player.carry (d.score length) live [command]).1.restore = some state → state.Sound) ∧
      ((d.player.carry (d.score length) live [command]).2.foldl Tracker.feedMessage l).Follows
        (d.player.carry (d.score length) live [command]).1.output := by
    cases live with
    | false => exact ⟨h.restore, h.follows⟩
    | true =>
      rw [Player.carry_singleton]
      refine ⟨Player.restore_run hstart h.restore command, ?_⟩
      cases command with
      | allSoundOff frame => exact Player.follows_allSoundOff h.follows (d.score length) frame
      | playback frame n position restart =>
        exact Player.follows_play h.follows hstart (fun _ => h.restore) frame n position
      | record | promotePreRecord | discardPreRecord => exact h.follows
  -- Starting over changes the cursor only.
  refine ⟨Intake.run_sorted h.sorted command, Intake.run_sound h.sound command, ?_, ?_⟩
  · unfold Deck.run
    dsimp only
    split_ifs <;> exact hplayed.1
  · unfold Deck.run
    dsimp only
    split_ifs <;> exact hplayed.2

theorem Leads.runAll (h : Leads l d) (length : Nat) (live : Bool) (commands : List Command) :
    Leads ((d.runAll length live commands).2.foldl Tracker.feedMessage l) (d.runAll length live commands).1 := by
  induction commands generalizing l d with
  | nil => exact h
  | cons command rest ih =>
    have hrest := ih (h.run length live command)
    rw [← List.foldl_append] at hrest
    exact hrest

theorem runAll_time (h : d.intake.Sorted) (length : Nat) (live : Bool) {commands : List Command} {first last : Nat}
    (hwithin : ∀ command ∈ commands, command.Within first last) (hmax : last ≤ maxFrames) :
    ∀ m ∈ (d.runAll length live commands).2, first ≤ m.time.toNat ∧ m.time.toNat < last := by
  induction commands generalizing d with
  | nil => exact List.forall_mem_nil _
  | cons command rest ih =>
    rw [List.forall_mem_cons] at hwithin
    refine List.forall_mem_append.mpr ⟨?_, ih (Intake.run_sorted h command) hwithin.2⟩
    cases live with
    | false => exact List.forall_mem_nil _
    | true =>
      show ∀ m ∈ (d.player.carry _ true [command]).2, _
      rw [Player.carry_singleton]
      exact Player.run_time h.main hwithin.1 hmax d.player

end Deck

/-! ## Moments -/

/-- The commands of a chunk send within its frames. -/
theorem Channel.orders_within (c : Channel) {context : ChunkContext} (hpos : 0 < context.frames) :
    ∀ command ∈ c.orders context, command.Within c.track.framesDone (c.track.framesDone + context.frames) := by
  refine forall_mem_orders ⟨Nat.le_refl _, Nat.lt_add_of_pos_right hpos⟩ ?_ (fun playedUntil => ?_)
    (fun _ _ _ _ => trivial) fun _ _ _ => trivial
  · unfold asideOrders
    split_ifs
    exacts [List.forall_mem_singleton.mpr trivial, List.forall_mem_singleton.mpr trivial, List.forall_mem_nil _]
  · unfold playOrder Command.Within
    rw [Track.endAside_framesDone]
    omega

namespace Moment
variable {m last : Moment} {passages : List Passage}

/-- A listener follows what has been sent, all of which lies in front of the moment. -/
structure Broadcasts (m : Moment) : Prop where
  leads : (m.channel.deck m.cycle.input).Leads (Tracker.fresh.feedAll (m.sent.map (·.2)))
  sent : ∀ x ∈ m.sent, x.1 < m.elapsed
  commands : ∀ command ∈ m.channel.commands, command.Within 0 m.channel.track.framesDone

namespace Broadcasts

/-- The listener of all that has been sent up to the moment. -/
theorem aired (h : m.Broadcasts) : m.deck.1.Leads (Tracker.fresh.feedAll (m.aired.map (·.2))) := by
  have hleads := h.leads.runAll m.channel.track.dataLength m.channel.track.hasOutput m.channel.commands
  have hbytes : m.aired.map (·.2) = m.sent.map (·.2) ++ m.deck.2.map (·.bytes) := by
    unfold Moment.aired
    rw [List.map_append, List.map_map]
    rfl
  rw [hbytes, Tracker.feedAll_append, ← Tracker.foldl_feedMessage]
  exact hleads

theorem aired_lt (h : m.Broadcasts) (hsound : m.Sound) :
    ∀ x ∈ m.aired, x.1 < m.elapsed + m.channel.track.framesDone := by
  have hmax := Nat.le_trans hsound.framesDone_le hsound.valid.frames_le
  refine List.forall_mem_append.mpr ⟨fun x hx => Nat.lt_add_right _ (h.sent x hx), fun x hx => ?_⟩
  obtain ⟨y, hy, rfl⟩ := List.mem_map.mp hx
  exact Nat.add_lt_add_left (Deck.runAll_time h.leads.sorted _ _ h.commands hmax y hy).2 _

theorem chunk (h : m.Broadcasts) (hsound : m.Sound) {context : ChunkContext} (hpos : 0 < context.frames)
    (hfits : m.channel.track.framesDone + context.frames ≤ m.cycle.frames) : (m.chunk context).Broadcasts := by
  have hprocess := m.channel.process_orders context (hsound.fits hfits)
  have hdone := (m.channel.track.pass_cycle context).2.1
  refine ⟨?_, h.sent, ?_⟩
  · unfold Moment.chunk
    rw [hprocess]
    exact h.leads
  · rw [hsound.chunk_track hfits, hdone]
    unfold Moment.chunk
    rw [hprocess]
    refine List.forall_mem_append.mpr ⟨fun command hcommand => ?_, fun command hcommand => ?_⟩
    · exact (h.commands command hcommand).mono (Nat.le_refl _) (Nat.le_add_right _ _)
    · exact (m.channel.orders_within hpos command hcommand).mono (Nat.zero_le _) (Nat.le_refl _)

theorem turn (h : m.Broadcasts) (hsound : m.Sound) (hend : m.channel.track.framesDone = m.cycle.frames)
    (next : Channel.PlayCycle) : (m.turn next).Broadcasts := by
  obtain ⟨⟨hrecorder, hplayer⟩, -⟩ := hsound.finish hend
  have haired := h.aired
  have hlt := h.aired_lt hsound
  rw [hend] at hlt
  have hintake := m.deck_intake
  have hnow : m.finish.recorder = m.deck.1.intake.hear ((m.intake.coming.getD []).takeWhile
      (Message.isBefore m.channel.track.framesDone)) := by
    rw [hrecorder, hintake]
    rfl
  have hdeck : (m.turn next).channel.deck next.input = ⟨⟨m.finish.recorder, next.input⟩, m.finish.player⟩ := rfl
  refine ⟨?_, hlt, List.forall_mem_nil _⟩
  show Deck.Leads _ ((m.turn next).channel.deck next.input)
  rw [hdeck, hnow, hplayer]
  exact ⟨⟨haired.sorted.main, haired.sorted.aside⟩, haired.sound.hear _, haired.restore, haired.follows⟩

end Broadcasts

theorem Runs.broadcasts (h : Runs m passages last) (hsound : m.Sound) (hbegin : m.Broadcasts) : last.Broadcasts :=
  h.along (motive := fun _ => Broadcasts) hsound hbegin (fun _ hsound hpos hfits hbefore => hbefore.chunk hsound hpos hfits)
    fun hsound hend _ hbefore => hbefore.turn hsound hend _

theorem Runs.mode (h : Runs m passages last) (hsound : m.Sound) : last.channel.track.mode = m.channel.track.mode := by
  refine h.along (motive := fun _ middle => middle.channel.track.mode = m.channel.track.mode) hsound rfl ?_ ?_
  · intro before middle context later _ hsound _ hfits hbefore
    rw [hsound.chunk_track hfits, (middle.channel.track.pass_cycle context).1, hbefore]
  · intro before middle next hsound hend _ hbefore
    rw [hsound.turn_track hend next]
    exact hbefore

theorem Sound.chunk_clock (h : m.Sound) {context : ChunkContext}
    (hfits : m.channel.track.framesDone + context.frames ≤ m.cycle.frames) :
    (m.chunk context).elapsed + (m.chunk context).channel.track.framesDone =
      m.elapsed + m.channel.track.framesDone + context.frames := by
  rw [h.chunk_track hfits, (m.channel.track.pass_cycle context).2.1, Nat.add_assoc]
  rfl

theorem turn_clock (hend : m.channel.track.framesDone = m.cycle.frames) (next : Channel.PlayCycle) :
    (m.turn next).elapsed + (m.turn next).channel.track.framesDone = m.elapsed + m.channel.track.framesDone := by
  rw [hend]
  rfl

/-- A channel without data has sent nothing. -/
theorem broadcasts_start (capacity : Nat) (mode : ChannelMode) (k : Channel.PlayCycle) :
    (start (.new capacity mode) k 0 []).Broadcasts where
  leads :=
    { sorted := ⟨List.Pairwise.nil, List.Pairwise.nil⟩
      sound := ⟨Tracker.fresh_sound, Tracker.fresh_sound, Tracker.fresh_sound⟩
      restore := nofun
      follows := .refl _ }
  sent := List.forall_mem_nil _
  commands := List.forall_mem_nil _

/-- A run takes as long as its passages. -/
theorem Runs.clock (h : Runs m passages last) (hsound : m.Sound) :
    last.elapsed + last.channel.track.framesDone =
      m.elapsed + m.channel.track.framesDone + Passage.frames passages := by
  refine h.along (motive := fun before middle => middle.elapsed + middle.channel.track.framesDone =
    m.elapsed + m.channel.track.framesDone + Passage.frames before) hsound rfl ?_ ?_
  · intro before middle context later _ hsound _ hfits hbefore
    rw [hsound.chunk_clock hfits, hbefore, Passage.frames_concat, Nat.add_assoc]
    rfl
  · intro before middle next _ hend _ hbefore
    rw [turn_clock hend, hbefore]

end Moment

end Overdub.Midi
