import Overdub.Proofs.Restart
import Overdub.Proofs.Timeline
/-!
# Recording messages and playing them back

A channel without data records a take and plays it from the beginning. Once the take
is recorded the channel is `Poised`: however its loop is played in the meantime,
playback from the beginning finds a player that waits in front of the first event.
From there on it `Echoes` the take: up to the position that is reached, each event
has been sent at its frame. For both there is a lemma for one chunk, one for the end
of a cycle, and one for a run, and `take_is_echoed` puts them together.
-/

namespace Overdub.Midi

/-! ## Players -/

namespace Player
variable {s : Score} {p : Player}

/-- The player waits in front of the first event, with the start state still to be
restored. -/
def Waits (s : Score) (p : Player) : Prop := p.restore = some s.startState ∧ p.cursor = .start

/-- The player goes on at a data position, where its listener has heard the start
state and all events so far. -/
structure PlayedTo (s : Score) (position : Nat) (p : Player) : Prop where
  restore : p.restore = none
  cursor : p.cursor.index = (s.before position).length
  output : p.output = s.stateAt position

/-- The player as it begins to play. -/
def cue (s : Score) (restart : Bool) (p : Player) : Player := if restart then p.rewind s else p

theorem output_cue (s : Score) (restart : Bool) (p : Player) : (p.cue s restart).output = p.output := by
  unfold cue
  split_ifs <;> rfl

theorem waits_cue {left : Option Int} {position : Int} (h : ∀ t, left = some t → t ≤ position → p.Waits s) :
    (p.cue s (left.all fun t => position < t)).Waits s := by
  unfold cue
  split_ifs with hrestart
  · exact ⟨rfl, rfl⟩
  · cases left with
    | none => exact absurd rfl hrestart
    | some t => exact h t rfl (by simpa using hrestart)

/-- In front of the data a player waits, whether it starts over or not. -/
theorem waits_play {left : Option Int} {position : Int} {n : Nat} (hmax : n ≤ maxFrames) (hend : position + n ≤ 0)
    (hleft : ∀ t, left = some t → t ≤ position → p.Waits s) (frame : Nat) :
    let skip := min n (clampFrames ((0 : Nat) - position).toNat)
    (p.play s (frame + skip) (n - skip) (position + skip) (left.all fun t => position < t)).1.Waits s := by
  intro skip
  have hskip : skip = n := by
    show min n _ = n
    rw [min_clampFrames hmax]
    omega
  unfold play
  rw [hskip, Nat.sub_self]
  dsimp only
  rw [if_pos (.inl (Nat.zero_min _).symm)]
  exact waits_cue hleft

/-- A player that is ready at a data position restores what is to be restored, and
sends the events from there on, each at its time. -/
theorem play_ready {a n frame : Nat} {restart : Bool} (hready : (p.cue s restart).ReadyAt s a)
    (horder : InOrder s.storage.events) (hn : 0 < n) (hinside : a + n ≤ s.dataLength) (hmax : s.dataLength ≤ maxFrames)
    (hframe : frame + n ≤ maxFrames) :
    let caught := ((p.cue s restart).passOver s (Score.timeOf a)).catchUp (.ofNat frame)
    let played := p.play s frame n a restart
    played.1.PlayedTo s (a + n) ∧
      ∃ events, s.before a ++ events = s.before (a + n) ∧ (∀ e ∈ events, a ≤ e.time.toNat) ∧
        played.2.map (fun m => (m.time.toNat, m.bytes)) =
          caught.2.map (fun m => (m.time.toNat, m.bytes)) ++
            events.map fun e => (frame + (e.time.toNat - a), e.bytes) := by
  intro caught played
  have hnone : min n (clampFrames (-(a : Int)).toNat) = 0 := by
    simp [clampFrames]
  have hzero : ((a : Int) + (0 : Nat)).toNat = a := by omega
  have hstart : clampFrames a = a := Nat.min_eq_left (by omega)
  have hstop : min (clampFrames (a + n)) (clampFrames (max s.dataLength a)) = clampFrames (a + n) := by
    unfold clampFrames
    omega
  have htime : UInt32.ofNat a = Score.timeOf a := congrArg UInt32.ofNat hstart.symm
  obtain ⟨hrestore, hcursor, houtput⟩ := hready.caughtUp (.ofNat frame)
  obtain ⟨hevents, -⟩ := s.seek hcursor (Nat.le_add_right a n)
  obtain ⟨hindex, hstate⟩ := sendUpTo_stateAt hcursor houtput (Nat.le_add_right a n) (.ofNat frame - Score.timeOf a)
  have hplayed : played = ((caught.1.sendUpTo s (.ofNat frame - Score.timeOf a) (Score.timeOf (a + n))).1,
      caught.2 ++ (caught.1.sendUpTo s (.ofNat frame - Score.timeOf a) (Score.timeOf (a + n))).2) := by
    show p.play s frame n a restart = _
    unfold play
    dsimp only
    rw [hnone, if_neg (by omega), hzero, Nat.sub_zero, Nat.add_zero, hstart, hstop, htime]
    rfl
  have hbehind : ∀ e ∈ (caught.1.cursor.seek s.storage (Score.timeOf (a + n))).2,
      a ≤ e.time.toNat ∧ e.time.toNat < a + n := by
    intro e he
    have hlt := List.mem_takeWhile_imp (p := fun m : Message => decide (m.time < Score.timeOf (a + n))) he
    have hle := (List.takeWhile_sublist _).subset he
    rw [show caught.1.cursor = _ from catchUp_cursor _ _] at hle
    have hge := Cursor.seek_le horder (p.cue s restart).cursor (Score.timeOf a) e hle
    rw [UInt32.le_iff_toNat_le, Score.timeOf_toNat, Nat.min_eq_left (by omega)] at hge
    exact ⟨hge, (Storage.lt_timeOf (by omega)).mp (of_decide_eq_true hlt)⟩
  rw [hplayed]
  refine ⟨⟨hrestore, hindex, hstate⟩, _, hevents, fun e he => (hbehind e he).1, ?_⟩
  rw [List.map_append]
  refine congrArg (_ ++ ·) ?_
  unfold sendUpTo
  rw [List.map_map]
  refine List.map_congr_left fun e he => Prod.ext ?_ rfl
  have hbounds := hbehind e he
  show (UInt32.ofNat frame - Score.timeOf a + e.time).toNat = _
  rw [← htime]
  exact Message.shift_toNat hbounds.1 (by omega)

/-- A player that waits restores the start state. -/
theorem caught_waits (h : p.Waits s) {frame : Nat} (hframe : frame ≤ maxFrames) :
    ((p.passOver s (Score.timeOf 0)).catchUp (.ofNat frame)).2.map (fun m => (m.time.toNat, m.bytes)) =
      (s.startState.diff p.output).map (frame, ·) := by
  have hmaxFrames : maxFrames = 2 ^ 32 - 1 := rfl
  have hnothing : (p.cursor.seek s.storage (Score.timeOf 0)).2 = [] := by
    rw [h.2]
    exact before_zero s
  have hbytes : ((p.passOver s (Score.timeOf 0)).catchUp (.ofNat frame)).2.map (·.bytes) = s.startState.diff p.output := by
    unfold passOver catchUp
    rw [h.1]
    dsimp only [Option.map_some]
    rw [hnothing]
    exact Tracker.bytes_diff_messages _ _ _
  rw [← hbytes, List.map_map]
  refine List.map_congr_left fun m hm => Prod.ext ?_ rfl
  show m.time.toNat = frame
  rw [catchUp_time _ _ m hm, UInt32.toNat_ofNat', Nat.mod_eq_of_lt (by omega)]

end Player

/-! ## A chunk that does not record -/

namespace Channel
variable {c : Channel} {context : ChunkContext}

/-- A chunk that plays does so once its listener is silenced. -/
theorem carry_orders (hplays : (c.track.activityIn context).playback = true) (s : Score) (p : Player) :
    let silenced := p.runAll s (c.silence context)
    let position := c.track.positionIn context
    let skip := min context.frames (clampFrames (c.track.firstPlayable - position).toNat)
    let played := silenced.1.play s (c.track.framesDone + skip) (context.frames - skip) (position + skip)
      ((c.left context).all fun t => position < t)
    p.carry s c.track.hasOutput (c.orders context) = (played.1, silenced.2 ++ played.2) := by
  unfold Player.carry
  rw [(c.track.activityIn_ports context).1 hplays, if_pos rfl, orders_eq, Player.runAll_append, runAll_further hplays,
    startsOver]

end Channel

/-- The output is there while the loop goes on in a mode in which the channel plays. -/
structure Passage.Plays (p : Passage) (mode : ChannelMode) : Prop where
  live : p.live = true
  playback : (Activity.ofModes p.context.mode mode).playback = true
  advances : p.context.posAfter = p.context.posBefore + p.context.frames

theorem Passage.Plays.activity {p : Passage} {mode : ChannelMode} (h : p.Plays mode) :
    (p.activity mode).playback = true ∧ (p.activity mode).record = false := by
  have hplays : (p.activity mode).playback = true := by
    simp [Passage.activity, Track.activityIn, Track.permit, Track.task, (ChunkTask.of_playback h.playback _ _ _).1,
      h.live]
  exact ⟨hplays, ((Track.activityIn_exclusive _ _).1 hplays).1⟩

namespace Moment
variable {m last : Moment} {context : ChunkContext} {passages : List Passage}

/-- What is played at the moment. -/
def score (m : Moment) : Score := m.deck.1.score m.channel.track.dataLength

theorem score_eq (m : Moment) : m.score = ⟨m.now.main, m.now.startState, m.channel.track.dataLength⟩ := by
  unfold score Deck.score
  rw [m.deck_intake]
  rfl

/-- A chunk that does not record is carried out by the player. -/
theorem Sound.chunk_plays (h : m.Sound) (hfits : m.channel.track.framesDone + context.frames ≤ m.cycle.frames)
    (hrecord : (m.channel.track.activityIn context).record = false) :
    let carried := m.deck.1.player.carry m.score m.channel.track.hasOutput (m.channel.orders context)
    (m.chunk context).score = m.score ∧ (m.chunk context).deck.1.player = carried.1 ∧
      (m.chunk context).aired = m.aired ++ carried.2.map fun x => (m.elapsed + x.time.toNat, x.bytes) := by
  intro carried
  obtain ⟨-, hlength⟩ := Track.pass_of_not_record hrecord
  have hlive := (m.channel.track.pass_cycle context).2.2.2.2
  have hdeck : (m.chunk context).deck =
      (m.channel.deck m.cycle.input).runAll m.channel.track.dataLength m.channel.track.hasOutput
        (m.channel.commands ++ m.channel.orders context) := by
    unfold deck
    rw [h.chunk_track hfits, hlength, hlive]
    unfold Moment.chunk
    rw [m.channel.process_orders context (h.fits hfits)]
    rfl
  rw [Deck.runAll_append] at hdeck
  obtain ⟨hscore, hplayer, hsent⟩ := Deck.runAll_of_keeps m.channel.track.dataLength
    m.channel.track.hasOutput m.deck.1 (Channel.orders_keepsContent hrecord)
  refine ⟨?_, (congrArg (·.1.player) hdeck).trans hplayer, ?_⟩
  · unfold score
    rw [h.chunk_track hfits, hlength, hdeck]
    exact hscore
  · unfold aired
    rw [hdeck, List.map_append, ← List.append_assoc]
    exact congrArg (fun sent => _ ++ List.map _ sent) hsent

/-- The end of a cycle leaves what is played as it is. -/
theorem Sound.turn_score (h : m.Sound) (hend : m.channel.track.framesDone = m.cycle.frames)
    {next : Channel.PlayCycle} (hnext : next.Valid) : (m.turn next).score = m.score := by
  rw [score_eq, score_eq, (h.turn hend hnext).2.1, h.turn_track hend next]
  rfl

/-! ### Waiting for playback to begin -/

/-- Nothing has been played, unless playback starts over at the beginning of the loop. -/
structure Poised (mode : ChannelMode) (s : Score) (m : Moment) : Prop where
  mode : m.channel.track.mode = mode
  startOffset : m.channel.track.startOffset = 0
  score : m.score = s
  waits : ∀ t, m.channel.playedUntil = some t → t ≤ 0 → m.deck.1.player.Waits s

variable {mode : ChannelMode} {s : Score}

theorem firstPlayable_eq (h : m.channel.track.startOffset = 0) : m.channel.track.firstPlayable = 0 := by
  unfold Track.firstPlayable
  rw [h]
  omega


theorem Poised.rest (h : Poised mode s m) (hsound : m.Sound) (hpos : 0 < context.frames)
    (hfits : m.channel.track.framesDone + context.frames ≤ m.cycle.frames)
    (hrests : ((m.passage context).activity mode).record = false) : Poised mode s (m.chunk context) := by
  rw [← h.mode, ← hsound.activityIn] at hrests
  obtain ⟨hmode, -⟩ := m.channel.track.pass_cycle context
  obtain ⟨hoffset, -⟩ := Track.pass_of_not_record hrests
  obtain ⟨hscore, hplayer, -⟩ := hsound.chunk_plays hfits hrests
  have htrack := hsound.chunk_track hfits
  refine ⟨?_, ?_, hscore.trans h.score, ?_⟩
  · rw [htrack, hmode, h.mode]
  · rw [htrack, hoffset, h.startOffset]
  · intro t huntil ht
    have hprocess := m.channel.process_orders context (hsound.fits hfits)
    have huntil' : (if (m.channel.track.activityIn context).playback = true then
        some (m.channel.track.positionIn context + context.frames) else none) = some t :=
      (congrArg Channel.playedUntil hprocess).symm.trans huntil
    split_ifs at huntil' with hplays
    obtain rfl := Option.some_inj.mp huntil'
    have hcarry := Channel.carry_orders hplays m.score m.deck.1.player
    dsimp only at hcarry
    rw [firstPlayable_eq h.startOffset] at hcarry
    rw [hplayer, hcarry, h.score]
    refine Player.waits_play (Nat.le_trans (Nat.le_of_add_left_le hfits) hsound.valid.frames_le) ht ?_ _
    intro t' ht' hle
    unfold Channel.left at ht'
    unfold Channel.silence
    split_ifs at ht' ⊢
    exact h.waits t' ht' (by omega)

theorem Poised.turn (h : Poised mode s m) (hsound : m.Sound) (hend : m.channel.track.framesDone = m.cycle.frames)
    {next : Channel.PlayCycle} (hnext : next.Valid) : Poised mode s (m.turn next) := by
  obtain ⟨-, -, hplayer, -⟩ := hsound.turn hend hnext
  obtain ⟨-, -, huntil, -⟩ := hsound.finish hend
  have htrack := hsound.turn_track hend next
  refine ⟨?_, ?_, (hsound.turn_score hend hnext).trans h.score, ?_⟩
  · rw [htrack]
    exact h.mode
  · rw [htrack]
    exact h.startOffset
  · intro t ht hle
    rw [hplayer]
    exact h.waits t (huntil.symm.trans ht) hle

/-- A loop that has just been recorded has not been played. -/
theorem Runs.stopped (h : Runs m passages last) (hsound : m.Sound) (hmode : m.channel.track.mode = mode)
    (hrecords : ∀ p ∈ passages, (p.activity mode).record = true) (hsome : passages ≠ []) :
    last.channel.playedUntil = none := by
  refine h.alongRuns (motive := fun before middle => before ≠ [] → middle.channel.playedUntil = none)
    (fun hnone => absurd rfl hnone) ?_ ?_ hsome
  · rintro before middle context later rfl hrun _ hfits - -
    have hsound := hrun.sound hsound
    have hrecord := hrecords (middle.passage context) (by simp)
    rw [← hmode, ← hrun.mode ‹_›, ← hsound.activityIn] at hrecord
    have hnot : (middle.channel.track.activityIn context).playback = false := by
      cases hplays : (middle.channel.track.activityIn context).playback with
      | false => rfl
      | true => rw [((middle.channel.track.activityIn_exclusive context).1 hplays).1] at hrecord; cases hrecord
    refine (congrArg Channel.playedUntil (middle.channel.process_orders context (hsound.fits hfits))).trans ?_
    rw [hnot]
    rfl
  · rintro before middle next hrun hend - huntil hsome
    exact ((hrun.sound hsound).finish hend).2.2.1.trans (huntil hsome)

/-! ### Playing from the beginning of the loop -/

theorem Sound.plays (h : m.Sound) (hplays : (m.passage context).Plays mode) (hmode : m.channel.track.mode = mode) :
    (m.channel.track.activityIn context).playback = true ∧ (m.channel.track.activityIn context).record = false ∧
      m.channel.track.positionIn context = context.posBefore + m.channel.track.startOffset := by
  subst hmode
  obtain ⟨htask, hposition⟩ := ChunkTask.of_playback hplays.playback context.next context.posBefore
    m.channel.track.startOffset
  have hactivity : (m.channel.track.activityIn context).playback = true := by
    rw [h.activityIn]
    exact hplays.activity.1
  exact ⟨hactivity, ((m.channel.track.activityIn_exclusive context).1 hactivity).1, hposition⟩

/-- A chunk that plays silences its listener if it interrupts what was playing,
restores what is to be restored, and sends its events. -/
theorem Sound.chunk_ready (h : m.Sound) (hpos : 0 < context.frames)
    (hfits : m.channel.track.framesDone + context.frames ≤ m.cycle.frames) (hplays : (m.passage context).Plays mode)
    (hmode : m.channel.track.mode = mode) (hoffset : m.channel.track.startOffset = 0)
    (horder : InOrder m.score.storage.events) {a : Nat} (hat : context.posBefore = a)
    (hinside : a + context.frames ≤ m.score.dataLength) (hmax : m.score.dataLength ≤ maxFrames) :
    let frame := m.channel.track.framesDone
    let silenced := m.deck.1.player.runAll m.score (m.channel.silence context)
    let cued := silenced.1.cue m.score ((m.channel.left context).all fun t => (a : Int) < t)
    let caught := (cued.passOver m.score (Score.timeOf a)).catchUp (.ofNat frame)
    cued.ReadyAt m.score a →
      (m.chunk context).deck.1.player.PlayedTo m.score (a + context.frames) ∧
        ∃ events, m.score.before a ++ events = m.score.before (a + context.frames) ∧
          (∀ e ∈ events, a ≤ e.time.toNat) ∧
          (m.chunk context).aired = m.aired ++
            ((silenced.2 ++ caught.2).map (fun x => (m.elapsed + x.time.toNat, x.bytes)) ++
              events.map fun e => (m.elapsed + (frame + (e.time.toNat - a)), e.bytes)) := by
  intro frame silenced cued caught hready
  obtain ⟨hplayback, hrecord, hposition⟩ := h.plays hplays hmode
  obtain ⟨-, hplayer, haired⟩ := h.chunk_plays hfits hrecord
  have hcarry := Channel.carry_orders hplayback m.score m.deck.1.player
  have hnothing : min context.frames (clampFrames ((0 : Nat) - (a : Int)).toNat) = 0 := by
    simp [clampFrames]
  dsimp only at hcarry
  rw [firstPlayable_eq hoffset, hposition, hoffset, Int.add_zero, hat, hnothing, Nat.add_zero, Nat.sub_zero,
    Int.natCast_zero, Int.add_zero] at hcarry
  obtain ⟨hplayed, events, hevents, hbehind, hsent⟩ := Player.play_ready hready horder hpos hinside hmax
    (Nat.le_trans hfits h.valid.frames_le)
  rw [hplayer, haired, hcarry]
  refine ⟨hplayed, events, hevents, hbehind, ?_⟩
  have hsent' := congrArg (List.map fun x : Nat × List UInt8 => (m.elapsed + x.1, x.2)) hsent
  simp only [List.map_append, List.map_map, Function.comp_def] at hsent' ⊢
  rw [hsent', List.append_assoc]

/-- The channel has played its loop from the beginning up to a position, starting at
a frame with what has been sent by then. -/
structure Echoes (mode : ChannelMode) (s : Score) (base : List (Nat × List UInt8)) (start position : Nat)
    (m : Moment) : Prop where
  mode : m.channel.track.mode = mode
  startOffset : m.channel.track.startOffset = 0
  score : m.score = s
  playing : m.channel.track.lastActivity.playback = true
  lastPosition : m.channel.lastPosition = position
  playedUntil : m.channel.playedUntil = some (position : Int)
  player : m.deck.1.player.PlayedTo s position
  aired : m.aired = base ++ (s.before position).map fun e => (start + e.time.toNat, e.bytes)

variable {base : List (Nat × List UInt8)} {start position : Nat}

theorem Echoes.turn (h : Echoes mode s base start position m) (hsound : m.Sound)
    (hend : m.channel.track.framesDone = m.cycle.frames) {next : Channel.PlayCycle} (hnext : next.Valid) :
    Echoes mode s base start position (m.turn next) := by
  obtain ⟨-, -, hplayer, haired⟩ := hsound.turn hend hnext
  obtain ⟨-, -, huntil, hlast⟩ := hsound.finish hend
  have htrack := hsound.turn_track hend next
  refine ⟨?_, ?_, (hsound.turn_score hend hnext).trans h.score, ?_, hlast.trans h.lastPosition,
    huntil.trans h.playedUntil, ?_, haired.trans h.aired⟩
  · rw [htrack]
    exact h.mode
  · rw [htrack]
    exact h.startOffset
  · rw [htrack]
    exact h.playing
  · rw [hplayer]
    exact h.player

/-- What a chunk that plays leaves behind. -/
theorem Sound.echoes (h : m.Sound) (hfits : m.channel.track.framesDone + context.frames ≤ m.cycle.frames)
    (hplays : (m.passage context).Plays mode) (hmode : m.channel.track.mode = mode)
    (hoffset : m.channel.track.startOffset = 0) (hat : context.posBefore = position)
    (hplayer : (m.chunk context).deck.1.player.PlayedTo m.score (position + context.frames))
    (haired : (m.chunk context).aired =
      base ++ (m.score.before (position + context.frames)).map fun e => (start + e.time.toNat, e.bytes)) :
    Echoes mode m.score base start (position + context.frames) (m.chunk context) := by
  obtain ⟨hplayback, hrecord, hposition⟩ := h.plays hplays hmode
  have hprocess := m.channel.process_orders context (h.fits hfits)
  have htrack := h.chunk_track hfits
  refine ⟨?_, ?_, (h.chunk_plays hfits hrecord).1, ?_, ?_, ?_, hplayer, haired⟩
  · rw [htrack, (m.channel.track.pass_cycle context).1, hmode]
  · rw [htrack, (Track.pass_of_not_record hrecord).1, hoffset]
  · rw [htrack]
    exact hplayback
  · refine (congrArg Channel.lastPosition hprocess).trans ?_
    exact hplays.advances.trans (by rw [← hat]; rfl)
  · refine (congrArg Channel.playedUntil hprocess).trans ?_
    rw [hplayback, if_pos rfl, hposition, hoffset, hat]
    simp

/-- The listener is silenced at the first frame of the chunk, if at all. -/
theorem exists_silence (m : Moment) (context : ChunkContext) (hmax : m.channel.track.framesDone ≤ maxFrames) :
    let silenced := m.deck.1.player.runAll m.score (m.channel.silence context)
    ∃ silence, (silence = [] ∨ silence = [[0xB0, Event.allSoundOff, 0]]) ∧
      silenced.2.map (fun x => (m.elapsed + x.time.toNat, x.bytes)) =
        silence.map (m.elapsed + m.channel.track.framesDone, ·) ∧
      silenced.1.output = m.deck.1.player.output.feedAll silence := by
  have hmaxFrames : maxFrames = 2 ^ 32 - 1 := rfl
  have hframe : (UInt32.ofNat m.channel.track.framesDone).toNat = m.channel.track.framesDone := by
    rw [UInt32.toNat_ofNat', Nat.mod_eq_of_lt (by omega)]
  unfold Channel.silence
  split_ifs
  · refine ⟨_, .inr rfl, ?_⟩
    simp only [Player.runAll, Player.run, List.append_nil, List.map_singleton]
    -- Only time and bytes of the message matter.
    generalize hm : Message.short (.ofNat m.channel.track.framesDone) 0xB0 Event.allSoundOff 0 = x
    have hbytes : x.bytes = [0xB0, Event.allSoundOff, 0] := hm ▸ rfl
    have htime : x.time = .ofNat m.channel.track.framesDone := hm ▸ rfl
    rw [htime, hframe, hbytes]
    refine ⟨rfl, ?_⟩
    rw [← hbytes]
    rfl
  · exact ⟨[], .inl rfl, rfl, rfl⟩

/-- The first chunk restores the start state. -/
theorem Poised.play (h : Poised mode s m) (hsound : m.Sound) (hpos : 0 < context.frames)
    (hfits : m.channel.track.framesDone + context.frames ≤ m.cycle.frames) (hplays : (m.passage context).Plays mode)
    (horder : InOrder s.storage.events) (hat : context.posBefore = 0) (hinside : context.frames ≤ s.dataLength)
    (hmax : s.dataLength ≤ maxFrames) (hstart : m.elapsed + m.channel.track.framesDone = start) :
    ∃ silence, (silence = [] ∨ silence = [[0xB0, Event.allSoundOff, 0]]) ∧
      Echoes mode s
        (m.aired ++ (silence ++ s.startState.diff (m.deck.1.player.output.feedAll silence)).map (start, ·)) start
        context.frames (m.chunk context) := by
  obtain rfl := h.score
  have hframe := Nat.le_trans (Nat.le_of_add_right_le hfits) hsound.valid.frames_le
  have hready := hsound.chunk_ready hpos hfits hplays h.mode h.startOffset horder hat (by omega) hmax
  obtain ⟨silence, hsilence, hsilenced, houtput⟩ := m.exists_silence context hframe
  dsimp only at hready
  -- Whether playback starts over or not, nothing has been played yet.
  have hwaits : ((m.deck.1.player.runAll m.score (m.channel.silence context)).1.cue m.score
      ((m.channel.left context).all fun t => ((0 : Nat) : Int) < t)).Waits m.score := by
    refine Player.waits_cue fun t ht hle => ?_
    unfold Channel.left at ht
    unfold Channel.silence
    split_ifs at ht ⊢
    exact h.waits t ht hle
  obtain ⟨hplayed, events, hevents, -, haired⟩ := hready (.inl hwaits)
  have hcaught := congrArg (List.map fun x : Nat × List UInt8 => (m.elapsed + x.1, x.2))
    (Player.caught_waits hwaits hframe)
  rw [List.map_map, List.map_map, Player.output_cue, houtput] at hcaught
  simp only [Function.comp_def] at hcaught
  rw [Nat.zero_add] at hplayed hevents
  refine ⟨silence, hsilence, ?_⟩
  refine Nat.zero_add context.frames ▸ hsound.echoes hfits hplays h.mode h.startOffset hat ?_ ?_
  · rwa [Nat.zero_add]
  · rw [Nat.zero_add, haired, ← hevents, Player.before_zero, List.map_append, hsilenced, hcaught, ← hstart]
    simp only [List.map_append, List.append_assoc, List.nil_append, Nat.sub_zero, Nat.add_assoc]

/-- The next chunk goes on where playback left off. -/
theorem Echoes.play (h : Echoes mode s base start position m) (hsound : m.Sound) (hpos : 0 < context.frames)
    (hfits : m.channel.track.framesDone + context.frames ≤ m.cycle.frames) (hplays : (m.passage context).Plays mode)
    (horder : InOrder s.storage.events) (hat : context.posBefore = position)
    (hinside : position + context.frames ≤ s.dataLength) (hmax : s.dataLength ≤ maxFrames)
    (hclock : m.elapsed + m.channel.track.framesDone = start + position) :
    Echoes mode s base start (position + context.frames) (m.chunk context) := by
  obtain rfl := h.score
  have hgoes : m.channel.interrupts (m.channel.track.activityIn context) context = false := by
    unfold Channel.interrupts
    rw [hat, h.lastPosition, (hsound.plays hplays h.mode).1]
    simp
  have hsilence : m.channel.silence context = [] := by
    unfold Channel.silence
    rw [hgoes]
    rfl
  have hleft : m.channel.left context = some (position : Int) := by
    unfold Channel.left
    rw [hgoes]
    exact h.playedUntil
  have hready := hsound.chunk_ready hpos hfits hplays h.mode h.startOffset horder hat hinside hmax
  dsimp only at hready
  rw [hsilence, hleft] at hready
  have hcue : ∀ p : Player, (p.runAll m.score []).1.cue m.score
      ((some (position : Int)).all fun t => (position : Int) < t) = p := fun p => by
    simp [Player.runAll, Player.cue]
  obtain ⟨hplayed, events, hevents, hbehind, haired⟩ :=
    hready (.inr (by rw [hcue]; exact ⟨h.player.restore, h.player.cursor, h.player.output⟩))
  have hnothing : ∀ time frame, ((m.deck.1.player.passOver m.score time).catchUp frame).2 = [] := fun time frame => by
    unfold Player.passOver Player.catchUp
    rw [h.player.restore]
    rfl
  refine hsound.echoes hfits hplays h.mode h.startOffset hat hplayed ?_
  rw [haired, hcue, hnothing, h.aired, ← hevents]
  simp only [Player.runAll, List.map_append, List.map_nil, List.nil_append, List.append_assoc]
  refine congrArg (base ++ ·) (congrArg (_ ++ ·) (List.map_congr_left fun e he => Prod.ext ?_ rfl))
  have hge := hbehind e he
  dsimp only
  omega

/-! ### Runs -/

theorem Poised.restAll (h : Poised mode s m) (hrun : Runs m passages last) (hsound : m.Sound)
    (hrests : ∀ p ∈ passages, (p.activity mode).record = false) : Poised mode s last := by
  refine hrun.along (motive := fun _ middle => Poised mode s middle) hsound h ?_
    fun hsound hend hnext hbefore => hbefore.turn hsound hend hnext
  rintro before middle context later rfl hsound hpos hfits hbefore
  exact hbefore.rest hsound hpos hfits (hrests _ (by simp))

/-- Playing the loop from the beginning restores the start state, and then sends the
events of the frames that are played. -/
theorem Poised.playAll (h : Poised mode s m) (hrun : Runs m passages last) (hsound : m.Sound) (hsome : passages ≠ [])
    (hplays : ∀ p ∈ passages, p.Plays mode) (hfollow : Passage.Follow (·.posBefore) 0 passages)
    (horder : InOrder s.storage.events) (hinside : Passage.frames passages ≤ s.dataLength)
    (hmax : s.dataLength ≤ maxFrames) (hstart : m.elapsed + m.channel.track.framesDone = start) :
    ∃ silence, (silence = [] ∨ silence = [[0xB0, Event.allSoundOff, 0]]) ∧
      Echoes mode s
        (m.aired ++ (silence ++ s.startState.diff (m.deck.1.player.output.feedAll silence)).map (start, ·)) start
        (Passage.frames passages) last := by
  -- Only the first chunk restores anything.
  have hall := hrun.alongRuns (motive := fun before middle =>
    before = [] ∧ Poised mode s middle ∧ middle.aired = m.aired ∧ middle.deck.1.player = m.deck.1.player ∨
      before ≠ [] ∧ ∃ silence, (silence = [] ∨ silence = [[0xB0, Event.allSoundOff, 0]]) ∧
        Echoes mode s
          (m.aired ++ (silence ++ s.startState.diff (m.deck.1.player.output.feedAll silence)).map (start, ·)) start
          (Passage.frames before) middle)
    (.inl ⟨rfl, h, rfl, rfl⟩) ?_ ?_
  · exact (hall.resolve_left fun hnone => hsome hnone.1).2
  · rintro before middle context later rfl hfirst hpos hfits hbefore
    have hclock := hfirst.clock hsound
    rw [hstart] at hclock
    have hsound := hfirst.sound hsound
    have hat := hfollow.at
    have hplay := hplays (middle.passage context) (by simp)
    rw [List.append_cons, Passage.frames_append, Passage.frames_concat] at hinside
    rw [Passage.frames_concat]
    refine .inr ⟨by simp, ?_⟩
    rcases hbefore with ⟨rfl, hpoised, haired, hplayer⟩ | ⟨hne, silence, hsilence, hechoes⟩
    · obtain ⟨silence, hsilence, hechoes⟩ := hpoised.play hsound hpos hfits hplay horder hat
        (Nat.le_trans (Nat.le_add_left _ _) (Nat.le_of_add_right_le hinside)) hmax hclock
      rw [haired, hplayer, ← Nat.zero_add context.frames] at hechoes
      exact ⟨silence, hsilence, hechoes⟩
    · exact ⟨silence, hsilence, hechoes.play hsound hpos hfits hplay horder (hat.trans (Nat.zero_add _))
        (Nat.le_of_add_right_le hinside) hmax hclock⟩
  · rintro before middle next hfirst hend hnext hbefore
    have hsound := hfirst.sound hsound
    rcases hbefore with ⟨rfl, hpoised, haired, hplayer⟩ | ⟨hne, silence, hsilence, hechoes⟩
    · obtain ⟨-, -, hplayer', haired'⟩ := hsound.turn hend hnext
      exact .inl ⟨rfl, hpoised.turn hsound hend hnext, haired'.trans haired, hplayer'.trans hplayer⟩
    · exact .inr ⟨hne, silence, hsilence, hechoes.turn hsound hend hnext⟩

/-- What is sent without recording comes behind what has been sent. -/
theorem Runs.aired_later (h : Runs m passages last) (hsound : m.Sound) (hbegin : m.Broadcasts)
    (hmode : m.channel.track.mode = mode) (hrests : ∀ p ∈ passages, (p.activity mode).record = false) :
    ∃ more, last.aired = m.aired ++ more ∧ ∀ x ∈ more, m.elapsed + m.channel.track.framesDone ≤ x.1 := by
  refine h.alongRuns (motive := fun _ middle =>
    ∃ more, middle.aired = m.aired ++ more ∧ ∀ x ∈ more, m.elapsed + m.channel.track.framesDone ≤ x.1)
    ⟨[], (List.append_nil _).symm, List.forall_mem_nil _⟩ ?_ ?_
  · rintro before middle context later rfl hrun hpos hfits ⟨more, haired, hlater⟩
    have hclock := hrun.clock hsound
    have hbroadcasts := hrun.broadcasts hsound hbegin
    have hrest := hrests (middle.passage context) (by simp)
    rw [← hmode, ← hrun.mode hsound, ← (hrun.sound hsound).activityIn] at hrest
    obtain ⟨-, -, hsent⟩ := (hrun.sound hsound).chunk_plays hfits hrest
    have htimes := Deck.runAll_time hbroadcasts.aired.sorted middle.channel.track.dataLength
      middle.channel.track.hasOutput (middle.channel.orders_within hpos)
      (Nat.le_trans hfits (hrun.sound hsound).valid.frames_le)
    rw [(Deck.runAll_of_keeps _ _ _ (Channel.orders_keepsContent hrest)).2.2] at htimes
    rw [haired, List.append_assoc] at hsent
    refine ⟨_, hsent, List.forall_mem_append.mpr ⟨hlater, fun x hx => ?_⟩⟩
    obtain ⟨y, hy, rfl⟩ := List.mem_map.mp hx
    have hframe := (htimes y hy).1
    dsimp only
    omega
  · rintro before middle next hrun hend hnext hmore
    obtain ⟨-, -, -, haired⟩ := (hrun.sound hsound).turn hend hnext
    rwa [haired]

end Moment

theorem Tracker.Follows.feedAll {l t : Tracker} (h : l.Follows t) (messages : List (List UInt8)) :
    (l.feedAll messages).Follows (t.feedAll messages) := by
  induction messages generalizing l t with
  | nil => exact h
  | cons bytes rest ih => exact ih (h.feed bytes)

/-! ## A take that is played -/

namespace Passage

/-- What there is to play once a take is recorded into empty data. -/
def takeScore (capacity : Nat) (before taken : List Passage) : Score :=
  ⟨⟨capacity, placed 0 taken⟩, Tracker.fresh.feedAll (heard before), frames taken⟩

variable {capacity : Nat} {before taken : List Passage}

/-- All of a take lies in front of its end. -/
theorem before_takeScore (hsound : ∀ p ∈ taken, p.Sound) (hmax : frames taken ≤ maxFrames) :
    (takeScore capacity before taken).before (frames taken) = placed 0 taken := by
  refine List.takeWhile_eq_self_iff.mpr fun e he => decide_eq_true ((Storage.lt_timeOf hmax).mpr ?_)
  have hbounds := mem_placed hsound (Nat.zero_add _ ▸ hmax) e he
  omega

end Passage

namespace Channel

/-- A run of cycles in which a channel without data records a take, and plays it from
the beginning to the end. -/
structure RoundTrip (capacity : Nat) (mode : ChannelMode) (cycles : List PlayCycle)
    (before taken between playing rest : List Passage) : Prop where
  valid : ∀ k ∈ cycles, k.Valid
  passages : cycles.flatMap PlayCycle.passages = before ++ taken ++ between ++ playing ++ rest
  idle : ∀ p ∈ before, (p.activity mode).record = false ∧ (p.activity mode).preRecord = false
  records : ∀ p ∈ taken, (p.activity mode).record = true
  nonempty : taken ≠ []
  /-- The loop is empty when the recording begins. -/
  fromEmpty : Passage.Follow (·.lenBefore) 0 taken
  /-- The take stays within the times there are. -/
  inTime : Passage.frames taken ≤ maxFrames
  room : (Passage.heard taken).length ≤ capacity
  pauses : ∀ p ∈ between, (p.activity mode).record = false
  plays : ∀ p ∈ playing, p.Plays mode
  fromStart : Passage.Follow (·.posBefore) 0 playing
  toEnd : Passage.frames playing = Passage.frames taken
  rests : ∀ p ∈ rest, (p.activity mode).record = false
  nothingLost : LosesNothing cycles (new capacity mode)

namespace RoundTrip
variable {capacity : Nat} {mode : ChannelMode} {cycles : List PlayCycle} {before taken between playing rest : List Passage}

theorem toRecords (h : RoundTrip capacity mode cycles before taken between playing rest) :
    Records (new capacity mode) cycles before [] taken (between ++ playing ++ rest) where
  valid := h.valid
  startOffset := Int.le_refl 0
  nothingAside := ⟨rfl, rfl⟩
  passages := by simp only [h.passages, List.append_nil, List.append_assoc]
  idle := h.idle
  keeps := List.forall_mem_nil _
  records := h.records
  nonempty := h.nonempty
  fromEmpty := h.fromEmpty
  rests := by
    simp only [List.forall_mem_append]
    exact ⟨⟨h.pauses, fun p hp => (h.plays p hp).activity.2⟩, h.rests⟩
  inTime := by
    show 0 + _ ≤ _
    rw [Nat.zero_add]
    exact h.inTime

/-- The data after the take. -/
theorem score_eq (h : RoundTrip capacity mode cycles before taken between playing rest) {m : Moment}
    (htaken : m.HasTaken (new capacity mode) (Passage.heard before) [] taken) :
    m.score = Passage.takeScore capacity before taken := by
  have hsound := h.toRecords.sound
  simp only [List.forall_mem_append] at hsound
  have hlength : (Passage.placed 0 taken).length ≤ capacity := by
    have hroom := h.room
    rwa [← Passage.bytes_placed 0, List.length_map] at hroom
  have hkept := @Storage.keepAll_eq (.empty capacity) (Passage.placed 0 taken) (Nat.zero_le _)
    (Passage.inOrder_placed hsound.1.2 (Nat.zero_add _ ▸ h.inTime))
  have hbase : (new capacity mode).takeBase [] = .empty capacity := Storage.truncateFrom_zero _
  have hstart : (new capacity mode).takeStart [] = 0 := rfl
  rw [Moment.score_eq, htaken.main, htaken.startState, htaken.dataLength, hbase, hstart, hkept, Nat.zero_add]
  unfold Passage.takeScore
  rw [List.take_of_length_le (by exact hlength)]
  rfl

/-- What arrives, and the part of it that the take stores. -/
theorem arrivals (h : RoundTrip capacity mode cycles before taken between playing rest) :
    let stream := PlayCycle.arrivals 0 cycles
    let start := Passage.frames before
    (stream.filter fun x => start ≤ x.1 ∧ x.1 < start + Passage.frames taken) =
        (Passage.placed 0 taken).map (fun e => (start + e.time.toNat, e.bytes)) ∧
      (stream.filter (·.1 < start)).map (·.2) = Passage.heard before ∧
      stream.map (·.2) = Passage.heard (before ++ taken ++ (between ++ playing ++ rest)) := by
  intro stream start
  have hsound := h.toRecords.sound
  rw [List.append_nil] at hsound
  have hstream : stream = Passage.timeline 0 (before ++ taken ++ (between ++ playing ++ rest)) := by
    rw [show stream = _ from PlayCycle.arrivals_eq h.valid 0, h.passages]
    simp only [List.append_assoc]
  obtain ⟨hbefore, htaken⟩ := Passage.filter_timeline 0 hsound
  have hplaced := @Passage.placed_timeline 0 taken (fun p hp => hsound p (by simp [hp])) (Nat.zero_add _ ▸ h.inTime)
  refine ⟨?_, ?_, ?_⟩
  · rw [Passage.timeline_add, ← hplaced, List.map_map, ← hstream] at htaken
    simp only [Nat.zero_add] at htaken
    exact htaken.trans (List.map_congr_left fun e _ => Prod.ext (Nat.add_comm _ _) rfl)
  · rw [← hstream, Nat.zero_add] at hbefore
    rw [← Passage.bytes_timeline 0 before]
    exact congrArg (List.map (·.2)) hbefore
  · rw [hstream, Passage.bytes_timeline]

/-- The moment at which playback of the loop begins, and what is sent from there on. -/
theorem exists_replay (h : RoundTrip capacity mode cycles before taken between playing rest) :
    let s := Passage.takeScore capacity before taken
    let start := Passage.frames before + Passage.frames taken + Passage.frames between
    ∃ earlier listener more silence, (∀ x ∈ earlier, x.1 < start) ∧
      (Tracker.fresh.feedAll (earlier.map (·.2))).Follows listener ∧
      (∀ x ∈ more, start + Passage.frames taken ≤ x.1) ∧
      (silence = [] ∨ silence = [[0xB0, Event.allSoundOff, 0]]) ∧
      (new capacity mode).broadcast 0 cycles =
        earlier ++ (silence ++ s.startState.diff (listener.feedAll silence)).map (start, ·) ++
          s.storage.events.map (fun e => (start + e.time.toNat, e.bytes)) ++ more := by
  intro s start
  have hsounds := h.toRecords.sound
  simp only [List.forall_mem_append] at hsounds
  obtain ⟨⟨-, hsoundTaken⟩, -⟩ := hsounds
  obtain ⟨k, middle, last, hk, hfront, htaken, hrest, -, -, haired⟩ := h.toRecords.exists_moment
  have hbegin := Moment.start_sound (new capacity mode) hk 0 []
  have hquiet := Moment.broadcasts_start capacity mode k
  have hmiddle := hfront.sound hbegin
  obtain ⟨second, hbefore, htake⟩ := hfront.split
  obtain ⟨fourth, hearlier, hlater⟩ := hrest.split
  obtain ⟨third, hbetween, hplaying⟩ := hearlier.split
  have hthird := hbetween.sound hmiddle
  -- The loop has been recorded, and then it waits until playback begins.
  have huntil := htake.stopped (hbefore.sound hbegin) (hbefore.mode hbegin) h.records h.nonempty
  have hpoised : Moment.Poised mode s middle :=
    ⟨htaken.mode, htaken.startOffset, h.score_eq htaken, by rw [huntil]; nofun⟩
  have hclock := (hfront.append hbetween).clock hbegin
  have hstart : third.elapsed + third.channel.track.framesDone = start := by
    rw [hclock, List.append_nil, Passage.frames_append, Passage.frames_append]
    exact Nat.zero_add _
  have hsome : playing ≠ [] := by
    rintro rfl
    have hafter := Passage.frames_pos hsoundTaken h.nonempty
    have hend := h.toEnd
    rw [← hend] at hafter
    exact Nat.lt_irrefl _ hafter
  obtain ⟨silence, hsilence, hechoes⟩ := (hpoised.restAll hbetween hmiddle h.pauses).playAll hplaying hthird hsome h.plays
    h.fromStart (Passage.inOrder_placed hsoundTaken (Nat.zero_add _ ▸ h.inTime)) (Nat.le_of_eq h.toEnd) h.inTime hstart
  have hthirdQuiet := (hfront.append hbetween).broadcasts hbegin hquiet
  obtain ⟨more, hmore, hbehind⟩ := hlater.aired_later (hplaying.sound hthird)
    (hplaying.broadcasts hthird hthirdQuiet) hechoes.mode h.rests
  have hend : fourth.elapsed + fourth.channel.track.framesDone = start + Passage.frames taken := by
    rw [hplaying.clock hthird, hstart, h.toEnd]
  refine ⟨third.aired, third.deck.1.player.output, more, silence, ?_, hthirdQuiet.aired.follows, hend ▸ hbehind, hsilence, ?_⟩
  · exact hstart ▸ hthirdQuiet.aired_lt hthird
  · rw [← haired h.nothingLost, hmore, hechoes.aired, h.toEnd, Passage.before_takeScore hsoundTaken h.inTime]
    rfl

/-- What the channel keeps once the run is over. -/
theorem ended (h : RoundTrip capacity mode cycles before taken between playing rest) :
    let ended := ((new capacity mode).playAll cycles).1
    ended.score = Passage.takeScore capacity before taken ∧
      ended.inputState = Tracker.fresh.feedAll (Passage.heard (before ++ taken ++ (between ++ playing ++ rest))) := by
  intro ended
  obtain ⟨k, middle, last, hk, hfront, htaken, hrest, hend, hfinish, -⟩ := h.toRecords.exists_moment
  have hbegin := Moment.start_sound (new capacity mode) hk 0 []
  have hmiddle := hfront.sound hbegin
  obtain ⟨⟨hrecorder, -⟩, htrack, -⟩ := (hrest.sound hmiddle).finish hend
  rw [hfinish] at hrecorder htrack
  constructor
  · rw [← h.score_eq (htaken.restAll hrest hmiddle h.toRecords.rests), Moment.score_eq, ← hrecorder, ← htrack]
    rfl
  · have hinput := (hfront.append hrest).input hbegin
    rw [← hrecorder, List.append_nil, (Moment.start_eq _ k 0 []).1] at hinput
    exact hinput

end RoundTrip

/-- What is recorded is played back: the messages of the take, in order and at the
frames that they have within the take. Before them, the listener is led to the state
that the input had when the take began. -/
theorem take_is_echoed {capacity : Nat} {mode : ChannelMode} {cycles : List PlayCycle}
    {before taken between playing rest : List Passage}
    (h : RoundTrip capacity mode cycles before taken between playing rest) :
    let c := new capacity mode
    let ended := (c.playAll cycles).1
    let stream := PlayCycle.arrivals 0 cycles
    let sent := c.broadcast 0 cycles
    let start := Passage.frames before
    let length := Passage.frames taken
    let replay := start + length + Passage.frames between
    (stream.filter fun x => start ≤ x.1 ∧ x.1 < start + length) =
        ended.storage.events.map (fun e => (start + e.time.toNat, e.bytes)) ∧
      ended.track.dataLength = length ∧
      ended.startState = Tracker.fresh.feedAll ((stream.filter (·.1 < start)).map (·.2)) ∧
      ended.inputState = Tracker.fresh.feedAll (stream.map (·.2)) ∧
      ∃ silence listener, (silence = [] ∨ silence = [[0xB0, Event.allSoundOff, 0]]) ∧
        (Tracker.fresh.feedAll ((sent.filter (·.1 < replay)).map (·.2) ++ silence)).Follows listener ∧
        (sent.filter fun x => replay ≤ x.1 ∧ x.1 < replay + length) =
          (silence ++ ended.startState.diff listener).map (replay, ·) ++
            ended.storage.events.map fun e => (replay + e.time.toNat, e.bytes) := by
  intro c ended stream sent start length replay
  obtain ⟨htaken, hbefore, hall⟩ := h.arrivals
  obtain ⟨hscore, hinput⟩ := h.ended
  have hstorage : ended.storage = ⟨capacity, Passage.placed 0 taken⟩ := congrArg Score.storage hscore
  have hstate : ended.startState = Tracker.fresh.feedAll (Passage.heard before) := congrArg Score.startState hscore
  obtain ⟨earlier, listener, more, silence, hearlier, hfollows, hmore, hsilence, hsent⟩ := h.exists_replay
  have hsounds := h.toRecords.sound
  simp only [List.forall_mem_append] at hsounds
  have hafter := Passage.frames_pos hsounds.1.2 h.nonempty
  -- Restoring takes no time, and all events lie within the take.
  have hmiddle : ∀ x ∈ (silence ++ ended.startState.diff (listener.feedAll silence)).map (replay, ·) ++
      ended.storage.events.map (fun e => (replay + e.time.toNat, e.bytes)),
      replay ≤ x.1 ∧ x.1 < replay + length := by
    refine List.forall_mem_append.mpr
      ⟨List.forall_mem_map.mpr fun _ _ => ⟨Nat.le_refl _, Nat.lt_add_of_pos_right hafter⟩,
        List.forall_mem_map.mpr fun e he => ⟨Nat.le_add_right _ _, Nat.add_lt_add_left ?_ _⟩⟩
    rw [hstorage] at he
    have hbounds := Passage.mem_placed hsounds.1.2 (Nat.zero_add _ ▸ h.inTime) e he
    omega
  obtain ⟨hcutEarlier, hcutReplay⟩ := filter_cut hearlier hmiddle hmore (Nat.le_add_right _ _)
  have hsent' : sent = earlier ++ ((silence ++ ended.startState.diff (listener.feedAll silence)).map (replay, ·) ++
      ended.storage.events.map fun e => (replay + e.time.toNat, e.bytes)) ++ more := by
    rw [show sent = _ from hsent, hstate, hstorage]
    simp only [List.append_assoc]
    rfl
  rw [← hsent'] at hcutEarlier hcutReplay
  refine ⟨by rw [hstorage]; exact htaken, congrArg Score.dataLength hscore, by rw [hbefore]; exact hstate,
    by rw [hall]; exact hinput, silence, listener.feedAll silence, hsilence, ?_, hcutReplay⟩
  rw [hcutEarlier, Tracker.feedAll_append]
  exact hfollows.feedAll silence

/-- A note is recorded across the end of a cycle, and played in two chunks. -/
theorem take_is_echoed_in_two_chunks :
    let volume : Message := .short 1 0xB0 7 80
    let begins : Message := .short 3 0x90 60 100
    let ends : Message := .short 0 0x80 60 0
    let resting (n length : Nat) : ChunkContext := ⟨.stopped, {}, n, 0, 0, length, length⟩
    let recording (n length : Nat) : ChunkContext := ⟨.recording, {}, n, 0, 0, length, length + n⟩
    let playing (n position : Nat) : ChunkContext := ⟨.playing, {}, n, position, position + n, 4, 4⟩
    let first : PlayCycle := { frames := 5, contexts := [resting 2 0, recording 3 0], input := some [volume, begins] }
    let second : PlayCycle := { frames := 4, contexts := [recording 1 3, resting 3 4], input := some [ends] }
    let third : PlayCycle :=
      { frames := 5, contexts := [playing 3 0, playing 1 3, resting 1 4], output := some ⟨32768, []⟩ }
    let cycles := [first, second, third]
    let ended := ((new 8 .direct).playAll cycles).1
    let sent := (new 8 .direct).broadcast 0 cycles
    [(3, begins.bytes), (5, ends.bytes)] = ended.storage.events.map (fun e => (2 + e.time.toNat, e.bytes)) ∧
      ended.startState = Tracker.fresh.feedAll [volume.bytes] ∧
      ∃ silence listener, (sent.filter fun x => 9 ≤ x.1 ∧ x.1 < 13) =
        (silence ++ ended.startState.diff listener).map (9, ·) ++
          ended.storage.events.map fun e => (9 + e.time.toNat, e.bytes) := by
  intro volume begins ends resting recording playing first second third cycles ended sent
  have hfirst : first.Valid := ⟨by decide, by decide, by decide, by decide, by decide⟩
  have hsecond : second.Valid := ⟨by decide, by decide, by decide, by decide, by decide⟩
  have hthird : third.Valid := ⟨by decide, by decide, by decide, nofun, nofun⟩
  have hroom : third.NothingLost (second.after (first.after (new 8 .direct))) :=
    PlayCycle.nothingLost (by decide +kernel) (by decide +kernel)
  have hround : RoundTrip 8 .direct cycles
      [first.passageAt 0 (resting 2 0)] [first.passageAt 2 (recording 3 0), second.passageAt 0 (recording 1 3)]
      [second.passageAt 1 (resting 3 4)] [third.passageAt 0 (playing 3 0), third.passageAt 3 (playing 1 3)]
      [third.passageAt 4 (resting 1 4)] :=
    { valid := by simpa [cycles] using ⟨hfirst, hsecond, hthird⟩
      passages := rfl
      idle := List.forall_mem_singleton.mpr ⟨rfl, rfl⟩
      records := List.forall_mem_cons.mpr ⟨rfl, List.forall_mem_singleton.mpr rfl⟩
      nonempty := nofun
      fromEmpty := ⟨rfl, rfl, trivial⟩
      inTime := by decide
      room := by decide
      pauses := List.forall_mem_singleton.mpr rfl
      plays := List.forall_mem_cons.mpr ⟨⟨rfl, rfl, rfl⟩, List.forall_mem_singleton.mpr ⟨rfl, rfl, rfl⟩⟩
      fromStart := ⟨rfl, rfl, trivial⟩
      toEnd := rfl
      rests := List.forall_mem_singleton.mpr rfl
      nothingLost := ⟨nofun, nofun, hroom, trivial⟩ }
  obtain ⟨htaken, -, hstate, -, silence, listener, -, -, hsent⟩ := take_is_echoed hround
  exact ⟨htaken, hstate, silence, listener, hsent⟩

/-- A dry channel records its take but does not send it while its loop plays: the wet
signal already carries the sound. -/
theorem dry_take_is_not_echoed :
    let begins : Message := .short 1 0x90 60 100
    let recording : ChunkContext := ⟨.recording, {}, 2, 0, 0, 0, 2⟩
    let playing : ChunkContext := ⟨.playing, {}, 2, 0, 2, 2, 2⟩
    let first : PlayCycle := { frames := 2, contexts := [recording], input := some [begins] }
    let second : PlayCycle := { frames := 2, contexts := [playing], output := some ⟨8, []⟩ }
    let c := new 8 .dry
    first.Valid ∧ second.Valid ∧ LosesNothing [first, second] c ∧
      (c.playAll [first, second]).1.storage.events = [begins] ∧ (c.playAll [first, second]).1.track.dataLength = 2 ∧
        (2 + begins.time.toNat, begins.bytes) ∉ c.broadcast 0 [first, second] := by
  intro begins recording playing first second c
  have hfirst : first.Valid := ⟨by decide, by decide, by decide, by decide, by decide⟩
  have hsecond : second.Valid := ⟨by decide, by decide, by decide, nofun, nofun⟩
  have hroom : second.NothingLost (first.after c) := by decide +kernel
  have hnothing : c.broadcast 0 [first, second] = [] := by decide +kernel
  refine ⟨hfirst, hsecond, ⟨nofun, hroom, trivial⟩, by decide +kernel, by decide +kernel, ?_⟩
  rw [hnothing]
  exact List.not_mem_nil

end Channel

end Overdub.Midi
