import Overdub.Midi.Channel
import Overdub.Proofs.Channels
import Overdub.Proofs.Listener
/-!
# Playing stored events

What a MIDI channel plays is its `Score`, and a `Player` is the part of the
channel that playing changes: the cursor, the state that a restart has still to
restore, and the output state. The commands of a cycle move the player and send
messages (`Player.run`), which is all that `Finish.run` does with them.

A player that left off at a data position is `At` that position: either nothing
could be played so far and the start state waits to be restored, or the output
state is the start state and all events up to there.
-/

namespace Overdub.Midi

/-! ## Sending -/

namespace Outbox

/-- Appends messages, as far as there is room. -/
def pushAll (o : Outbox) (messages : List Message) : Outbox := messages.foldl (fun o m => (o.push m).1) o

theorem pushAll_append (o : Outbox) (messages more : List Message) :
    o.pushAll (messages ++ more) = (o.pushAll messages).pushAll more := List.foldl_append

theorem pushAll_messages (o : Outbox) (messages : List Message) :
    (o.pushAll messages).messages = o.messages ++ messages.take (o.capacity - o.messages.length) := by
  induction messages generalizing o with
  | nil => simp [pushAll]
  | cons m rest ih =>
    show ((o.push m).1.pushAll rest).messages = _
    rw [ih]
    unfold push
    split_ifs with hroom
    · obtain ⟨left, hleft⟩ : ∃ left, o.capacity - o.messages.length = left + 1 :=
        ⟨o.capacity - o.messages.length - 1, by omega⟩
      have hrest : o.capacity - (o.messages ++ [m]).length = left := by
        rw [List.length_append, List.length_singleton]
        omega
      simp only [hrest, hleft, List.take_succ_cons, List.append_assoc, List.singleton_append]
    · simp [show o.capacity - o.messages.length = 0 by omega]

end Outbox

/-! ## Scores -/

/-- What a channel plays, and what playing leaves as it is. -/
structure Score where
  storage : Storage
  startState : Tracker
  dataLength : Nat

namespace Score

/-- The time that stands for a data position. -/
def timeOf (position : Nat) : UInt32 := .ofNat (clampFrames position)

theorem timeOf_toNat (position : Nat) : (timeOf position).toNat = min position maxFrames := by
  have hlt : clampFrames position < 2 ^ 32 := by
    have hmax : maxFrames = 2 ^ 32 - 1 := rfl
    unfold clampFrames
    omega
  rw [timeOf, UInt32.toNat_ofNat', Nat.mod_eq_of_lt hlt]
  rfl

theorem timeOf_mono {a b : Nat} (h : a ≤ b) : timeOf a ≤ timeOf b := by
  rw [UInt32.le_iff_toNat_le, timeOf_toNat, timeOf_toNat]
  omega

/-- The events in front of a data position. -/
def before (s : Score) (position : Nat) : List Message := s.storage.events.takeWhile (·.time < timeOf position)

/-- The state of a listener that has heard the start state and all events in front
of a data position. -/
def stateAt (s : Score) (position : Nat) : Tracker := (s.before position).foldl Tracker.feedMessage s.startState

end Score

theorem takeWhile_append_takeWhile {α : Type} {p q : α → Bool} (h : ∀ x, p x = true → q x = true) (l : List α) :
    l.takeWhile p ++ (l.drop (l.takeWhile p).length).takeWhile q = l.takeWhile q := by
  induction l with
  | nil => rfl
  | cons x rest ih =>
    by_cases hx : p x = true
    · rw [List.takeWhile_cons_of_pos hx, List.takeWhile_cons_of_pos (h x hx)]
      simpa using ih
    · rw [List.takeWhile_cons_of_neg hx]
      rfl

/-- A cursor that has passed the events in front of one position passes on to
those in front of a later one. -/
theorem Score.seek {s : Score} {c : Cursor} {a b : Nat} (hcursor : c.index = (s.before a).length) (h : a ≤ b) :
    s.before a ++ (c.seek s.storage (timeOf b)).2 = s.before b ∧
      (c.seek s.storage (timeOf b)).1.index = (s.before b).length := by
  have hmono : ∀ m : Message, decide (m.time < timeOf a) = true → decide (m.time < timeOf b) = true := fun m hm =>
    decide_eq_true (UInt32.lt_of_lt_of_le (of_decide_eq_true hm) (timeOf_mono h))
  have happend : s.before a ++ (c.seek s.storage (timeOf b)).2 = s.before b := by
    unfold Cursor.seek
    dsimp only
    rw [hcursor]
    exact takeWhile_append_takeWhile hmono s.storage.events
  refine ⟨happend, ?_⟩
  rw [← happend, List.length_append, ← hcursor]
  rfl

/-! ## Players -/

/-- What playing changes of a channel. -/
structure Player where
  cursor : Cursor
  restore : Option Tracker
  output : Tracker

namespace Player

/-- Goes back in front of the first event, with the start state to be restored. -/
def rewind (s : Score) (p : Player) : Player := { p with cursor := .start, restore := some s.startState }

/-- Passes over the events in front of a time, which count towards a state that is
still to be restored. -/
def passOver (s : Score) (time : UInt32) (p : Player) : Player :=
  let (cursor, skipped) := p.cursor.seek s.storage time
  { p with cursor, restore := p.restore.map fun state => skipped.foldl Tracker.feedMessage state }

/-- Restores the state that a restart waits for. -/
def catchUp (frame : UInt32) (p : Player) : Player × List Message :=
  match p.restore with
  | none => (p, [])
  | some state =>
    ({ p with restore := none, output := state },
      (state.diff p.output).filterMap fun bytes => (Message.ofBytes frame bytes).toOption)

/-- Sends the events in front of a time. -/
def sendUpTo (s : Score) (shift time : UInt32) (p : Player) : Player × List Message :=
  let (cursor, played) := p.cursor.seek s.storage time
  ({ p with cursor, output := played.foldl Tracker.feedMessage p.output },
    played.map fun m => m.withTime (shift + m.time))

/-- Plays `n` frames from a data position on. -/
def play (s : Score) (frame n : Nat) (position : Int) (restart : Bool) (p : Player) : Player × List Message :=
  let p := if restart then p.rewind s else p
  let skip := min n (clampFrames (-position).toNat)
  let frame := UInt32.ofNat (frame + skip)
  let position := position + skip
  if n = skip ∨ position < 0 then (p, [])
  else
    let start := clampFrames position.toNat
    let stop := min (clampFrames (start + (n - skip))) (clampFrames (max s.dataLength position.toNat))
    let (p, restored) := (p.passOver s (.ofNat start)).catchUp frame
    let (p, played) := p.sendUpTo s (frame - UInt32.ofNat start) (.ofNat stop)
    (p, restored ++ played)

/-- Carries out a command as far as it plays. -/
def run (s : Score) (p : Player) : Command → Player × List Message
  | .allSoundOff frame =>
    let m := Message.short (.ofNat frame) 0xB0 Event.allSoundOff 0
    ({ p with output := p.output.feedMessage m }, [m])
  | .playback frame n position restart => p.play s frame n position restart
  | .record .. | .promotePreRecord | .discardPreRecord => (p, [])

/-- Carries out commands in turn. -/
def runAll (s : Score) (p : Player) : List Command → Player × List Message
  | [] => (p, [])
  | command :: rest =>
    let (p, sent) := p.run s command
    let (p, more) := p.runAll s rest
    (p, sent ++ more)

theorem runAll_append (s : Score) (p : Player) (commands more : List Command) :
    p.runAll s (commands ++ more) =
      (((p.runAll s commands).1.runAll s more).1, (p.runAll s commands).2 ++ ((p.runAll s commands).1.runAll s more).2) := by
  induction commands generalizing p with
  | nil => simp [runAll]
  | cons first rest ih => simp [runAll, ih]

/-- Commands that neither move the player nor send anything. -/
theorem runAll_silent {s : Score} {p : Player} {commands : List Command}
    (h : ∀ command ∈ commands, ∀ p : Player, p.run s command = (p, [])) : p.runAll s commands = (p, []) := by
  induction commands with
  | nil => rfl
  | cons command rest ih =>
    rw [List.forall_mem_cons] at h
    simp only [runAll, h.1, ih h.2, List.append_nil]

/-- Carries out commands if there is an output. -/
def carry (s : Score) (live : Bool) (p : Player) (commands : List Command) : Player × List Message :=
  if live then p.runAll s commands else (p, [])

theorem carry_append (s : Score) (live : Bool) (p : Player) (commands more : List Command) :
    p.carry s live (commands ++ more) =
      (((p.carry s live commands).1.carry s live more).1,
        (p.carry s live commands).2 ++ ((p.carry s live commands).1.carry s live more).2) := by
  cases live with
  | false => rfl
  | true => exact runAll_append s p commands more

theorem carry_singleton (s : Score) (p : Player) (command : Command) :
    p.carry s true [command] = p.run s command := by simp [carry, runAll]

/-! ### How much is sent -/

theorem length_play_le (s : Score) (frame n : Nat) (position : Int) (restart : Bool) (p : Player) :
    (p.play s frame n position restart).2.length ≤ 16 * 387 + s.storage.events.length := by
  have hcatchUp : ∀ (frame : UInt32) (p : Player), (p.catchUp frame).2.length ≤ 16 * 387 := by
    intro frame p
    unfold catchUp
    split
    · exact Nat.zero_le _
    · exact Nat.le_trans (List.length_filterMap_le _ _) (Tracker.length_diff_le _ _)
  have hsendUpTo : ∀ (shift time : UInt32) (p : Player),
      (p.sendUpTo s shift time).2.length ≤ s.storage.events.length := by
    intro shift time p
    unfold sendUpTo Cursor.seek
    rw [List.length_map]
    exact ((List.takeWhile_sublist _).trans (List.drop_sublist _ _)).length_le
  unfold play
  dsimp only
  generalize (if restart = true then p.rewind s else p) = cued
  split_ifs
  · exact Nat.zero_le _
  · rw [List.length_append]
    exact Nat.add_le_add (hcatchUp _ _) (hsendUpTo _ _ _)

/-- What the commands of a cycle can send at most. -/
theorem length_carry_le (s : Score) (live : Bool) (p : Player) (commands : List Command) :
    (p.carry s live commands).2.length ≤ commands.length * (16 * 387 + s.storage.events.length) := by
  have hrun : ∀ (p : Player) (command : Command),
      (p.run s command).2.length ≤ 16 * 387 + s.storage.events.length := by
    intro p command
    cases command with
    | allSoundOff frame =>
      show 1 ≤ _
      omega
    | playback frame n position restart => exact length_play_le s frame n position restart p
    | record | promotePreRecord | discardPreRecord => exact Nat.zero_le _
  cases live with
  | false => exact Nat.zero_le _
  | true =>
    unfold carry
    rw [if_pos rfl]
    induction commands generalizing p with
    | nil => exact Nat.zero_le _
    | cons command rest ih =>
      have hfirst := hrun p command
      have hrest := ih (p.run s command).1
      show ((p.run s command).2 ++ ((p.run s command).1.runAll s rest).2).length ≤ _
      rw [List.length_append, List.length_cons, Nat.succ_mul]
      omega

/-! ### What the listener hears -/

theorem follows_catchUp {p : Player} {l : Tracker} (hl : l.Follows p.output)
    (hrestore : ∀ state, p.restore = some state → state.Sound) (frame : UInt32) :
    ((p.catchUp frame).2.foldl Tracker.feedMessage l).Follows (p.catchUp frame).1.output := by
  unfold catchUp
  split
  · exact hl
  · next state hstate =>
    rw [Tracker.foldl_diff_messages]
    exact hl.feedAll_diff (hrestore state hstate)

theorem follows_sendUpTo {p : Player} {l : Tracker} (hl : l.Follows p.output) (s : Score) (shift time : UInt32) :
    ((p.sendUpTo s shift time).2.foldl Tracker.feedMessage l).Follows (p.sendUpTo s shift time).1.output := by
  unfold sendUpTo
  rw [List.foldl_map]
  exact hl.feedMessages _

theorem restore_passOver {s : Score} {p : Player} (hrestore : ∀ state, p.restore = some state → state.Sound)
    (time : UInt32) : ∀ state, (p.passOver s time).restore = some state → state.Sound := by
  intro state hstate
  obtain ⟨old, hold, rfl⟩ := Option.map_eq_some_iff.mp hstate
  exact (hrestore old hold).feedMessages _

theorem follows_allSoundOff {p : Player} {l : Tracker} (hl : l.Follows p.output) (s : Score) (frame : Nat) :
    let silenced := p.run s (.allSoundOff frame)
    (silenced.2.foldl Tracker.feedMessage l).Follows silenced.1.output := by
  unfold run
  dsimp only
  generalize Message.short (.ofNat frame) 0xB0 Event.allSoundOff 0 = m
  exact hl.feed m.bytes

/-- A player keeps its listener in step while it plays. -/
theorem follows_play {s : Score} {p : Player} {l : Tracker} (hl : l.Follows p.output) (hstart : s.startState.Sound)
    {restart : Bool} (hrestore : restart = false → ∀ state, p.restore = some state → state.Sound) (frame n : Nat)
    (position : Int) :
    let played := p.play s frame n position restart
    (played.2.foldl Tracker.feedMessage l).Follows played.1.output := by
  unfold play
  dsimp only
  generalize hcued : (if restart = true then p.rewind s else p) = cued
  have houtput : cued.output = p.output := by
    rw [← hcued]
    split_ifs <;> rfl
  have hsound : ∀ state, cued.restore = some state → state.Sound := by
    cases restart with
    | false => exact hcued ▸ hrestore rfl
    | true =>
      rintro state hstate
      rw [← hcued] at hstate
      exact Option.some_inj.mp hstate ▸ hstart
  rw [← houtput] at hl
  split_ifs with hnothing
  · exact hl
  · dsimp only
    rw [List.foldl_append]
    exact follows_sendUpTo (follows_catchUp (p := cued.passOver s _) hl (restore_passOver hsound _) _) s _ _

/-! ### Where the player stands -/

/-- The player left off at a data position, where nothing in front of `first` may
be played. -/
structure At (s : Score) (first : Nat) (p : Player) (position : Int) : Prop where
  /-- Nothing could be played so far. -/
  pending : position ≤ first → p.restore = some s.startState ∧ p.cursor = .start
  restored : first < position → p.restore = none
  /-- The listener has heard all events up to here. -/
  heard : first < position → position ≤ s.dataLength →
    p.cursor.index = (s.before position.toNat).length ∧ p.output = s.stateAt position.toNat

/-- A player that is to play from a data position on. -/
def ReadyAt (s : Score) (p : Player) (position : Nat) : Prop :=
  p.restore = some s.startState ∧ p.cursor = .start ∨
    p.restore = none ∧ p.cursor.index = (s.before position).length ∧ p.output = s.stateAt position

theorem before_zero (s : Score) : s.before 0 = [] := by
  unfold Score.before
  have hnever : ∀ m : Message, ¬ m.time < Score.timeOf 0 := fun m hm => by
    rw [UInt32.lt_iff_toNat_lt, Score.timeOf_toNat] at hm
    omega
  cases s.storage.events with
  | nil => rfl
  | cons m rest => exact List.takeWhile_cons_of_neg (by simpa using hnever m)

theorem catchUp_restore (frame : UInt32) (p : Player) : (p.catchUp frame).1.restore = none := by
  unfold catchUp
  split
  · next h => exact h
  · rfl

/-- A player that passes over and catches up is where it should be. -/
theorem ReadyAt.caughtUp {s : Score} {p : Player} {position : Nat} (h : p.ReadyAt s position) (frame : UInt32) :
    let caught := ((p.passOver s (Score.timeOf position)).catchUp frame).1
    caught.restore = none ∧ caught.cursor.index = (s.before position).length ∧
      caught.output = s.stateAt position := by
  unfold passOver catchUp
  dsimp only
  rcases h with ⟨hrestore, hcursor⟩ | ⟨hrestore, hcursor, houtput⟩
  · obtain ⟨hskipped, hindex⟩ :=
      s.seek (a := 0) (c := p.cursor) (by rw [hcursor, before_zero]; rfl) (Nat.zero_le position)
    rw [before_zero, List.nil_append] at hskipped
    rw [hrestore, hskipped]
    exact ⟨rfl, hindex, rfl⟩
  · obtain ⟨-, hindex⟩ := s.seek hcursor (Nat.le_refl position)
    rw [hrestore]
    exact ⟨rfl, hindex, houtput⟩

theorem sendUpTo_stateAt {s : Score} {p : Player} {a b : Nat} (hcursor : p.cursor.index = (s.before a).length)
    (houtput : p.output = s.stateAt a) (h : a ≤ b) (shift : UInt32) :
    let sent := (p.sendUpTo s shift (Score.timeOf b)).1
    sent.cursor.index = (s.before b).length ∧ sent.output = s.stateAt b := by
  obtain ⟨hplayed, hindex⟩ := s.seek hcursor h
  refine ⟨hindex, ?_⟩
  unfold sendUpTo Score.stateAt
  dsimp only
  rw [← hplayed, List.foldl_append, houtput]
  rfl

theorem At.restore_sound {s : Score} {first : Nat} {p : Player} {position : Int} (h : p.At s first position)
    (hstart : s.startState.Sound) : ∀ state, p.restore = some state → state.Sound := by
  intro state hstate
  rcases le_or_gt position (first : Int) with hle | hlt
  · rw [(h.pending hle).1] at hstate
    exact Option.some_inj.mp hstate ▸ hstart
  · rw [h.restored hlt] at hstate
    cases hstate

/-- Playing `n` frames from a data position on, of which nothing in front of `first`
may be played: what lies in front of both is passed over, then the listener catches
up, then the events up to the end are sent. -/
theorem play_reaching {s : Score} {first : Nat} {position : Int} {n : Nat} (hn : 0 < n)
    (hmax : n ≤ maxFrames) (hreach : first < position + n) (frame : Nat) (restart : Bool) (p : Player) :
    let skip := min n (clampFrames (first - position).toNat)
    let a := (max position first).toNat
    let b := min (position + n).toNat (max s.dataLength a)
    let caught := ((if restart = true then p.rewind s else p).passOver s (Score.timeOf a)).catchUp (.ofNat (frame + skip))
    let sent := caught.1.sendUpTo s (.ofNat (frame + skip) - Score.timeOf a) (Score.timeOf b)
    p.play s (frame + skip) (n - skip) (position + skip) restart = (sent.1, caught.2 ++ sent.2) := by
  intro skip a b
  have hskip : skip = min n (first - position).toNat := min_clampFrames hmax _
  have ha : position + skip = a := by omega
  have hnone : min (n - skip) (clampFrames (-(a : Int)).toNat) = 0 := by
    simp [clampFrames]
  have hzero : ((a : Int) + (0 : Nat)).toNat = a := by omega
  have hstop : min (clampFrames (clampFrames a + (n - skip))) (clampFrames (max s.dataLength a)) = clampFrames b := by
    unfold clampFrames
    omega
  unfold play
  dsimp only
  rw [ha, hnone, if_neg (by omega), hzero, Nat.sub_zero, Nat.add_zero, hstop]
  rfl

/-- Playing `n` frames from a data position on, from which what may not be played
is left out, takes a player to their end. It goes on from where it left off, or
it starts over. -/
theorem at_play {s : Score} {first : Nat} {p : Player} {left : Option Int} {position : Int} {n : Nat} (hn : 0 < n)
    (hmax : n ≤ maxFrames) (hleft : ∀ t, left = some t → p.At s first t ∧ position ≤ t) (frame : Nat) :
    let skip := min n (clampFrames (first - position).toNat)
    (p.play s (frame + skip) (n - skip) (position + skip) (left.all fun t => position < t)).1.At s first
      (position + n) := by
  intro skip
  have hskip : skip = min n (first - position).toNat := min_clampFrames hmax _
  generalize hrestart : (left.all fun t => position < t) = restart
  generalize hcued : (if restart = true then p.rewind s else p) = cued
  -- A player that does not start over goes on exactly where it left off.
  have hcue : cued = p.rewind s ∨ cued = p ∧ p.At s first position := by
    rw [← hcued, ← hrestart]
    split_ifs with hrestart
    · exact .inl rfl
    · cases left with
      | none => exact absurd rfl hrestart
      | some t =>
        obtain ⟨hat, hle⟩ := hleft t rfl
        have hge : ¬ position < t := by simpa using hrestart
        obtain rfl : position = t := by omega
        exact .inr ⟨rfl, hat⟩
  have hpending : position ≤ first → cued.restore = some s.startState ∧ cued.cursor = .start := by
    intro hle
    rcases hcue with rfl | ⟨rfl, hat⟩
    · exact ⟨rfl, rfl⟩
    · exact hat.pending hle
  rcases Int.lt_or_le first (position + n) with hreach | hall
  · rw [play_reaching hn hmax hreach, hcued]
    refine ⟨fun hle => by omega, fun _ => catchUp_restore _ _, fun _ hinside => ?_⟩
    have hready : cued.ReadyAt s (max position first).toNat := by
      rcases le_or_gt position (first : Int) with hle | hlt
      · exact .inl (hpending hle)
      · rw [Int.max_eq_left (Int.le_of_lt hlt)]
        rcases hcue with rfl | ⟨rfl, hat⟩
        · exact .inl ⟨rfl, rfl⟩
        · obtain ⟨hcursor, houtput⟩ := hat.heard hlt (by omega)
          exact .inr ⟨hat.restored hlt, hcursor, houtput⟩
    obtain ⟨-, hcursor, houtput⟩ := hready.caughtUp (.ofNat (frame + skip))
    have hend : min (position + n).toNat (max s.dataLength (max position first).toNat) = (position + n).toNat := by
      omega
    rw [hend]
    exact sendUpTo_stateAt hcursor houtput (by omega) (.ofNat (frame + skip) - Score.timeOf (max position first).toNat)
  -- All is skipped: the player still waits in front of what it may play.
  · unfold play
    dsimp only
    rw [hcued, show n - skip = 0 by omega, if_pos (.inl (Nat.zero_min _).symm)]
    exact ⟨fun _ => hpending (by omega), fun hlt => by omega, fun hlt => by omega⟩

end Player

/-! ## What the commands of a cycle do -/

/-- Whether the command leaves the recorded data as it is. -/
def Command.keepsContent : Command → Bool
  | .record .main .. | .promotePreRecord => false
  | .record .preRecord .. | .allSoundOff .. | .playback .. | .discardPreRecord => true

namespace Channel

def score (c : Channel) : Score := ⟨c.storage, c.startState, c.track.dataLength⟩

def player (c : Channel) : Player := ⟨c.cursor, c.restore, c.outputState⟩

/-- The recorded data and what the loop decided about it are the same. -/
structure Kept (c c' : Channel) : Prop where
  track : c'.track = c.track
  playedUntil : c'.playedUntil = c.playedUntil
  storage : c'.storage = c.storage
  startState : c'.startState = c.startState

theorem Kept.refl (c : Channel) : Kept c c := ⟨rfl, rfl, rfl, rfl⟩

theorem Kept.trans {c₁ c₂ c₃ : Channel} (h : Kept c₁ c₂) (h' : Kept c₂ c₃) : Kept c₁ c₃ :=
  ⟨h'.track.trans h.track, h'.playedUntil.trans h.playedUntil, h'.storage.trans h.storage,
    h'.startState.trans h.startState⟩

theorem Kept.score {c c' : Channel} (h : Kept c c') : c'.score = c.score := by
  simp only [Channel.score, h.track, h.storage, h.startState]

theorem sendEvents_eq (c : Channel) (out : Outbox) (shift : UInt32) (events : List Message) :
    (c.sendEvents out shift events).1 =
        { c with outputState := events.foldl Tracker.feedMessage c.outputState } ∧
      (c.sendEvents out shift events).2.1 = out.pushAll (events.map fun m => m.withTime (shift + m.time)) := by
  induction events generalizing c out with
  | nil => exact ⟨rfl, rfl⟩
  | cons m rest ih => exact ih _ _

/-- The channel with another player. -/
def withPlayer (c : Channel) (p : Player) : Channel :=
  { c with cursor := p.cursor, restore := p.restore, outputState := p.output }

theorem kept_withPlayer (c : Channel) (p : Player) : Kept c (c.withPlayer p) := ⟨rfl, rfl, rfl, rfl⟩

theorem player_withPlayer (c : Channel) (p : Player) : (c.withPlayer p).player = p := rfl

theorem send_eq (c : Channel) (out : Outbox) (m : Message) :
    c.send out m =
      (c.withPlayer { c.player with output := c.outputState.feedMessage m }, out.pushAll [m], (out.push m).2) := rfl

theorem sendRestore_eq (c : Channel) (out : Outbox) (frame : UInt32) :
    c.sendRestore out frame = (c.withPlayer (c.player.catchUp frame).1, out.pushAll (c.player.catchUp frame).2) := by
  obtain ⟨track, storage, preRecord, cursor, playedUntil, lastPosition, inputState, startState, preRecordStartState,
    outputState, restore, commands, status⟩ := c
  cases restore <;> rfl

/-- A channel plays as its player does. -/
theorem runPlayback_eq (c : Channel) (out : Outbox) (frame n : Nat) (position : Int) (restart : Bool) :
    let played := c.player.play c.score frame n position restart
    (c.runPlayback out frame n position restart).1 = c.withPlayer played.1 ∧
      (c.runPlayback out frame n position restart).2.1 = out.pushAll played.2 := by
  have hcued : (if restart = true then { c with cursor := .start, restore := some c.startState } else c) =
      c.withPlayer (if restart = true then c.player.rewind c.score else c.player) := by
    split_ifs <;> rfl
  unfold runPlayback Player.play
  dsimp only
  rw [hcued]
  generalize (if restart = true then c.player.rewind c.score else c.player) = cued
  split_ifs with hnothing
  · exact ⟨rfl, rfl⟩
  · simp only [sendRestore_eq, Outbox.pushAll_append]
    exact sendEvents_eq _ _ _ _

/-- Storing what is kept aside does not touch what is played. -/
theorem storeEvents_preRecord {c c' : Channel} (hkept : Kept c c') (hplayer : c'.player = c.player) (shift : UInt32)
    (messages : List Message) :
    Kept c (c'.storeEvents .preRecord shift messages).1 ∧
      (c'.storeEvents .preRecord shift messages).1.player = c.player := by
  induction messages generalizing c' with
  | nil => exact ⟨hkept, hplayer⟩
  | cons m rest ih =>
    have hheard : Kept c (c'.hear [m]) := ⟨hkept.track, hkept.playedUntil, hkept.storage, hkept.startState⟩
    unfold storeEvents
    dsimp only
    split
    · exact ih hheard hplayer
    · exact ih ⟨hheard.track, hheard.playedUntil, hheard.storage, hheard.startState⟩ hplayer

theorem runRecord_preRecord (c : Channel) (input : List Message) (frame n position : Nat) :
    Kept c (c.runRecord input .preRecord frame n position).1 ∧
      (c.runRecord input .preRecord frame n position).1.player = c.player := by
  unfold runRecord
  refine storeEvents_preRecord ?_ ?_ _ _
  · exact ⟨rfl, rfl, rfl, rfl⟩
  · rfl

namespace Finish

/-- Keeping input aside does not play. -/
theorem run_preRecord (s : Finish) (frame n position : Nat) :
    Kept s.channel (s.run (.record .preRecord frame n position)).channel ∧
      (s.run (.record .preRecord frame n position)).channel.player = s.channel.player ∧
      (s.run (.record .preRecord frame n position)).output = s.output := by
  have hnote : ∀ (s : Finish) (result : Except Overdub.Error Unit),
      (s.note result).channel = s.channel ∧ (s.note result).output = s.output := by
    rintro s (_ | _) <;> exact ⟨rfl, rfl⟩
  cases hinput : s.input with
  | none =>
    simp only [run, hinput]
    exact ⟨.refl _, rfl, rfl⟩
  | some input =>
    obtain ⟨hkept, hplayer⟩ := s.channel.runRecord_preRecord input frame n position
    simp only [run, hinput, (hnote _ _).1, (hnote _ _).2]
    exact ⟨hkept, hplayer, trivial⟩

/-- With an output, a command that leaves the data as it is does what the player does. -/
theorem run_eq {s : Finish} {command : Command} (hkeeps : command.keepsContent = true) {out : Outbox}
    (hout : s.output = some out) :
    Kept s.channel (s.run command).channel ∧
      (s.run command).channel.player = (s.channel.player.run s.channel.score command).1 ∧
      (s.run command).output = some (out.pushAll (s.channel.player.run s.channel.score command).2) := by
  cases command with
  | allSoundOff frame =>
    simp only [run, hout, send_eq, Player.run]
    exact ⟨kept_withPlayer _ _, player_withPlayer _ _, trivial⟩
  | playback frame n position restart =>
    obtain ⟨hchannel, hpushed⟩ := s.channel.runPlayback_eq out frame n position restart
    simp only [run, hout, hchannel, hpushed]
    exact ⟨⟨rfl, rfl, rfl, rfl⟩, rfl, rfl⟩
  | record target frame n position =>
    cases target with
    | main => exact Bool.noConfusion hkeeps
    | preRecord =>
      obtain ⟨hkept, hplayer, houtput⟩ := s.run_preRecord frame n position
      exact ⟨hkept, hplayer, houtput.trans hout⟩
  | promotePreRecord => exact Bool.noConfusion hkeeps
  | discardPreRecord => exact ⟨⟨rfl, rfl, rfl, rfl⟩, rfl, hout⟩

theorem run_eq_of_none {s : Finish} {command : Command} (hkeeps : command.keepsContent = true)
    (hout : s.output = none) :
    Kept s.channel (s.run command).channel ∧ (s.run command).channel.player = s.channel.player ∧
      (s.run command).output = none := by
  cases command with
  | allSoundOff frame =>
    simp only [run, hout]
    exact ⟨.refl _, rfl, hout⟩
  | playback frame n position restart =>
    simp only [run, hout]
    exact ⟨.refl _, rfl, hout⟩
  | record target frame n position =>
    cases target with
    | main => exact Bool.noConfusion hkeeps
    | preRecord =>
      obtain ⟨hkept, hplayer, houtput⟩ := s.run_preRecord frame n position
      exact ⟨hkept, hplayer, houtput.trans hout⟩
  | promotePreRecord => exact Bool.noConfusion hkeeps
  | discardPreRecord => exact ⟨⟨rfl, rfl, rfl, rfl⟩, rfl, hout⟩

/-- Carrying out commands that leave the data as it is does what the player does. -/
theorem foldl_run_eq {s : Finish} {commands : List Command}
    (hkeeps : ∀ command ∈ commands, command.keepsContent = true) :
    let carried := s.channel.player.carry s.channel.score s.output.isSome commands
    Kept s.channel (commands.foldl run s).channel ∧ (commands.foldl run s).channel.player = carried.1 ∧
      (commands.foldl run s).output = s.output.map (·.pushAll carried.2) := by
  -- From the end: the last command finds the player that all others have led to.
  induction commands using List.reverseRecOn with
  | nil => cases hout : s.output <;> exact ⟨.refl _, rfl, hout⟩
  | append_singleton rest command ih =>
    rw [List.forall_mem_append, List.forall_mem_singleton] at hkeeps
    obtain ⟨hkept, hplayer, houtput⟩ := ih hkeeps.1
    rw [List.foldl_append, List.foldl_cons, List.foldl_nil, Player.carry_append]
    cases hout : s.output with
    | none =>
      rw [hout] at hplayer houtput
      obtain ⟨hkept', hplayer', hout'⟩ := run_eq_of_none hkeeps.2 houtput
      exact ⟨hkept.trans hkept', hplayer'.trans hplayer, hout'⟩
    | some out =>
      rw [hout] at hplayer houtput
      obtain ⟨hkept', hplayer', hout'⟩ := run_eq hkeeps.2 houtput
      rw [hplayer, hkept.score] at hplayer' hout'
      rw [Option.isSome_some, Player.carry_singleton]
      refine ⟨hkept.trans hkept', hplayer', hout'.trans ?_⟩
      rw [Option.map_some, Outbox.pushAll_append]
      rfl

end Finish

/-- The player that the commands queued so far lead to, and the messages they send. -/
def carried (c : Channel) : Player × List Message := c.player.carry c.score c.track.hasOutput c.commands

/-- At the end of a cycle the channel is where its player is. -/
theorem finalize_eq {c : Channel} (hkeeps : ∀ command ∈ c.commands, command.keepsContent = true)
    (input : Option (List Message)) (output : Option Outbox) (hlive : c.track.hasOutput = output.isSome) :
    Kept c (c.finalize input output).1 ∧ (c.finalize input output).1.player = c.carried.1 ∧
      (c.finalize input output).2.1 = output.map (·.pushAll c.carried.2) := by
  obtain ⟨hkept, hplayer, houtput⟩ :=
    Finish.foldl_run_eq (s := ⟨c, input, output, 0, .ok ()⟩) hkeeps
  unfold carried
  rw [hlive]
  exact ⟨⟨hkept.track, hkept.playedUntil, hkept.storage, hkept.startState⟩, hplayer, houtput⟩

end Channel

end Overdub.Midi
