import Overdub.Proofs.Splice
/-!
# Recording a take and playing it

A take is what a channel records while its loop records, behind what it has kept
aside for it. What comes of it is followed through four phases, each of which may be
cut up into chunks and cycles in any way: nothing has been kept aside yet or some
samples have (`Reel.Awaits`), some of the take has been recorded (`Reel.HasTaken`),
and from then on pieces that neither record nor replace leave it as it is. For each
phase there is a lemma for one piece and one for a list of them.

A tape `Holds` samples from a position on, as far as there is room for them. A write
adds what it covers and leaves what lies in front of it.
-/

namespace Overdub

namespace Audio

/-! ## What a tape holds -/

namespace Tape

/-- The samples that there is room for. -/
def reserved (t : Tape) : Nat := t.room * t.size

/-- From a position on, as far as there is room, the samples lie on the tape. -/
def Holds (t : Tape) (position : Nat) (source : Buffer) : Prop :=
  ∀ i < source.length, position + i < t.reserved → t.samples[position + i]? = source[i]?

theorem holds_nil (t : Tape) (position : Nat) : t.Holds position [] := nofun

variable {t : Tape} {position : Nat} {source : Buffer}

theorem Holds.append (h : t.Holds position source) {more : Buffer} (hmore : t.Holds (position + source.length) more) :
    t.Holds position (source ++ more) := by
  intro i hi hroom
  rw [List.length_append] at hi
  by_cases hfirst : i < source.length
  · rw [List.getElem?_append_left hfirst]
    exact h i hfirst hroom
  · have hlater := hmore (i - source.length) (by omega) (by omega)
    rw [show position + source.length + (i - source.length) = position + i by omega] at hlater
    rw [List.getElem?_append_right (by omega), hlater]

theorem min_le_extent (hsize : 0 < t.size) (n : Nat) : min n t.reserved ≤ t.extent n := by
  have hblocks := le_blocksFor_mul n hsize
  unfold extent reserved
  omega

theorem putAll_frame (t : Tape) (position : Nat) (source : Buffer) :
    (t.putAll position source).size = t.size ∧ (t.putAll position source).room = t.room := by
  induction source generalizing t position with
  | nil => exact ⟨rfl, rfl⟩
  | cons x rest ih => exact ih (t.put position x) (position + 1)

theorem putAll_reserved (t : Tape) (position : Nat) (source : Buffer) :
    (t.putAll position source).reserved = t.reserved := by
  obtain ⟨hsize, hroom⟩ := t.putAll_frame position source
  rw [reserved, reserved, hsize, hroom]

/-- What has been written lies on the tape. -/
theorem putAll_holds (hsize : 0 < t.size) (position : Nat) (source : Buffer) :
    (t.putAll position source).Holds position source := by
  intro i hi hroom
  rw [putAll_reserved] at hroom
  have hextent := min_le_extent hsize (position + source.length)
  have hgrown := t.length_grow (position + source.length)
  rw [putAll_eq_overwrite t hsize position (List.ne_nil_of_length_pos (by omega))]
  show (Buffer.overwrite _ position source)[position + i]? = _
  rw [Buffer.getElem?_overwrite, if_pos (by omega), Nat.add_sub_cancel_left]

/-- What lies in front of a write stays. -/
theorem Holds.putAll (h : t.Holds position source) (hsize : 0 < t.size) {later : Nat}
    (hlater : position + source.length ≤ later) (more : Buffer) : (t.putAll later more).Holds position source := by
  intro i hi hroom
  rw [putAll_reserved] at hroom
  have hstored := h i hi hroom
  by_cases hmore : more = []
  · rw [hmore]
    exact hstored
  · have hlength : position + i < t.samples.length := by
      rw [List.getElem?_eq_getElem hi] at hstored
      exact (List.getElem?_eq_some_iff.mp hstored).1
    rw [putAll_eq_overwrite t hsize later hmore]
    show (Buffer.overwrite _ later more)[position + i]? = _
    rw [Buffer.getElem?_overwrite, if_neg (by omega), grow, List.getElem?_append_left hlength, hstored]

/-- A tape with room for so many samples, which holds no more than that. -/
structure Fits (t : Tape) (room : Nat) : Prop where
  size_pos : 0 < t.size
  reserved : t.reserved = room
  length_le : t.samples.length ≤ room

theorem Fits.putAll {room : Nat} (h : t.Fits room) (position : Nat) (source : Buffer) :
    (t.putAll position source).Fits room := by
  refine ⟨(t.putAll_frame position source).1 ▸ h.size_pos, (t.putAll_reserved position source).trans h.reserved, ?_⟩
  by_cases hsource : source = []
  · rw [hsource]
    exact h.length_le
  · have hlength := h.length_le
    have hgrown := t.length_grow (position + source.length)
    have hextent : t.extent (position + source.length) ≤ t.reserved := Nat.min_le_right _ _
    rw [h.reserved] at hextent
    rw [putAll_eq_overwrite t h.size_pos position hsource]
    show (Buffer.overwrite _ position source).length ≤ room
    rw [Buffer.length_overwrite]
    omega

/-- Past the room there is silence. -/
theorem Fits.sample {room : Nat} (h : t.Fits room) (hholds : t.Holds position source) {i : Nat}
    (hi : i < source.length) :
    some (t.samples[position + i]?.getD 0) = if position + i < room then source[i]? else some 0 := by
  split_ifs with hroom
  · rw [hholds i hi (h.reserved.symm ▸ hroom), List.getElem?_eq_getElem hi]
    rfl
  · have hlength := h.length_le
    rw [List.getElem?_eq_none (by omega)]
    rfl

end Tape

theorem Store.Sound.fits {s : Store} (h : s.Sound) : s.tape.Fits s.reserved where
  size_pos := h.size_pos
  reserved := rfl
  length_le := h.length_tape ▸ Nat.mul_le_mul_right s.bufferSize h.room

/-! ## What a piece is for -/

namespace Piece

/-- The samples of the input, piece by piece. -/
def recorded (pieces : List Piece) : Buffer := pieces.flatMap (·.input.getD [])

/-- The samples of the output, piece by piece. -/
def heard (pieces : List Piece) : Buffer := pieces.flatMap (·.output.getD [])

/-- The buffers cover the chunk, which is not empty. -/
structure Sound (p : Piece) : Prop where
  pos : 0 < p.context.frames
  input : ∀ b ∈ p.input, b.length = p.context.frames
  output : ∀ b ∈ p.output, b.length = p.context.frames

/-- What a channel does with the piece. -/
def activity (p : Piece) (mode : ChannelMode) : Activity :=
  ({ mode, hasInput := p.input.isSome, hasOutput := p.output.isSome } : Track).activityIn p.context

/-- The input is there while the loop does not record yet but is about to. -/
structure LeadsIn (p : Piece) : Prop where
  input : p.input.isSome = true
  mode : p.context.mode ≠ .recording
  imminent : ∃ eta, p.context.next.imminent? = some (.recording, eta)

/-- The input is there while the loop records. -/
structure Records (p : Piece) : Prop where
  input : p.input.isSome = true
  mode : p.context.mode = .recording

/-- The output is there while the loop is in a mode in which the channel plays. -/
structure Plays (p : Piece) (mode : ChannelMode) : Prop where
  output : p.output.isSome = true
  playback : (Activity.ofModes p.context.mode mode).playback = true

/-- The pieces follow each other in some position of the loop. -/
def Follow (position : ChunkContext → Nat) : Nat → List Piece → Prop
  | _, [] => True
  | start, p :: rest => position p.context = start ∧ Follow position (start + p.context.frames) rest

variable {p : Piece} {mode : ChannelMode}

theorem LeadsIn.activity (h : p.LeadsIn) (hmode : mode ≠ .disabled) :
    (p.activity mode).record = false ∧ (p.activity mode).preRecord = true := by
  obtain ⟨hinput, hnot, eta, himminent⟩ := h
  have hnow : (Activity.ofModes p.context.mode mode).record = false := by
    revert hnot
    cases mode <;> cases p.context.mode <;> decide
  have hsoon : Activity.ofModes .recording mode = { record := true } := by
    revert hmode
    cases mode <;> decide
  simp [Piece.activity, Track.activityIn, Track.permit, Track.task, ChunkTask.of, himminent, hnow, hsoon, hinput]

theorem Records.activity (h : p.Records) (hmode : mode ≠ .disabled) : p.activity mode = { record := true } := by
  have hnow : Activity.ofModes .recording mode = { record := true } := by
    revert hmode
    cases mode <;> decide
  have htask : (ChunkTask.of p.context.mode p.context.next p.context.posBefore 0 mode).activity =
      { record := true } := by
    unfold ChunkTask.of
    rw [h.mode, hnow]
    cases p.context.next.imminent? <;> simp [Activity.isIdle]
  simp [Piece.activity, Track.activityIn, Track.permit, Track.task, htask, h.input]

theorem Plays.task (h : p.Plays mode) (position : Nat) (startOffset : Int) :
    let task := ChunkTask.of p.context.mode p.context.next position startOffset mode
    task.activity.playback = true ∧ task.position = position + startOffset :=
  ChunkTask.of_playback h.playback _ _ _

theorem Plays.activity (h : p.Plays mode) :
    (p.activity mode).playback = true ∧ (p.activity mode).record = false ∧ (p.activity mode).replace = false := by
  have hplays : (p.activity mode).playback = true := by
    simp [Piece.activity, Track.activityIn, Track.permit, Track.task, (h.task _ _).1, h.output]
  exact ⟨hplays, (Track.activityIn_exclusive _ _).1 hplays⟩

end Piece

/-- The pieces of a cycle are sound. -/
theorem cut_sound {input output : Option Buffer} {frame n : Nat} {contexts : List ChunkContext}
    (hpos : ∀ context ∈ contexts, 0 < context.frames) (hsum : frame + (contexts.map (·.frames)).sum ≤ n)
    (hinput : ∀ b ∈ input, b.length = n) (houtput : ∀ b ∈ output, b.length = n) :
    ∀ p ∈ cut input output frame contexts, p.Sound := by
  induction contexts generalizing frame with
  | nil => exact List.forall_mem_nil _
  | cons context rest ih =>
    rw [List.forall_mem_cons] at hpos
    rw [List.map_cons, List.sum_cons] at hsum
    have hpart : ∀ {buffer : Option Buffer}, (∀ b ∈ buffer, b.length = n) →
        ∀ b ∈ buffer.map (·.part frame context.frames), b.length = context.frames := by
      intro buffer hlength b hb
      obtain ⟨whole, hwhole, rfl⟩ := Option.mem_map.mp hb
      rw [Buffer.part, List.length_take, List.length_drop, hlength whole hwhole]
      omega
    exact List.forall_mem_cons.mpr ⟨⟨hpos.1, hpart hinput, hpart houtput⟩, ih hpos.2 (by omega)⟩

theorem Cycle.Valid.pieces {k : Cycle} (h : k.Valid) : ∀ p ∈ k.pieces, p.Sound :=
  cut_sound h.pos (Nat.le_of_eq (Nat.zero_add _)) h.input h.output

/-! ## What a piece does -/

namespace Reel
variable {p : Piece} (r : Reel)

theorem activityIn_load (p : Piece) : (r.load p).track.activityIn p.context = p.activity r.track.mode := by
  unfold Piece.activity Track.activityIn Track.task
  rw [ChunkTask.of_activity_anywhere _ _ _ p.context.posBefore _ 0]
  rfl

/-- A piece carries out its activities one after the other. -/
theorem pass_eq (hpos : 0 < p.context.frames) :
    r.pass p =
      (let a := p.activity r.track.mode
        let position := (r.load p).track.positionIn p.context
        let n := p.context.frames
        let r := (r.load p).endAside a
        let r := if a.playback then eachFrame (fun i => play (0 + i) (position + i)) n r else r
        let r := if a.record then eachFrame (fun i => record p.input (0 + i) (p.context.lenBefore + i)) n r else r
        let r := if a.replace then eachFrame (fun i => replace p.input (0 + i) (position + i)) n r else r
        if a.preRecord then eachFrame (fun i => keep p.input (0 + i)) n r else r).mark
          (p.activity r.track.mode) p.context.frames := by
  have hexclusive : (p.activity r.track.mode).Exclusive := Track.activityIn_exclusive _ _
  rw [pass, chunk_eq _ hpos, activityIn_load, show (r.load p).track.framesDone = 0 from rfl,
    eachFrame_act _ hexclusive, Nat.zero_add]

theorem length_input (hsound : p.Sound) (hinput : p.input.isSome = true) :
    (p.input.getD []).length = p.context.frames := by
  obtain ⟨b, hb⟩ := Option.isSome_iff_exists.mp hinput
  rw [hb]
  exact hsound.input b hb

/-- The input of a piece, as it is recorded. -/
theorem inputFrom_piece (hsound : p.Sound) (hinput : p.input.isSome = true) :
    inputFrom p.input 0 p.context.frames = p.input.getD [] := by
  obtain ⟨b, hb⟩ := Option.isSome_iff_exists.mp hinput
  have hlength := hsound.input b hb
  rw [hb, ← hlength, ← take_drop_eq_inputFrom (Nat.le_of_eq (Nat.zero_add _))]
  simp

/-- Without a recording, what has been kept aside is at most dropped. -/
theorem endAside_of_not_record {a : Activity} (h : a.record = false) :
    ∃ aside n, r.endAside a = { r with aside, track := { r.track with preRecordLength := n } } := by
  unfold endAside
  simp only [h, Bool.false_eq_true, if_false]
  split_ifs
  · exact ⟨r.aside.erase, 0, rfl⟩
  · exact ⟨r.aside, r.track.preRecordLength, rfl⟩

/-- What a piece that does not record leaves as it is. -/
theorem pass_of_not_record (hpos : 0 < p.context.frames) (h : (p.activity r.track.mode).record = false) :
    let r' := r.pass p
    r'.gain = r.gain ∧ r'.track.mode = r.track.mode ∧ r'.track.startOffset = r.track.startOffset ∧
      r'.track.dataLength = r.track.dataLength ∧
        ∃ position source, r'.main = r.main.putAll position source ∧
          ((p.activity r.track.mode).replace = false → source = []) := by
  intro r'
  obtain ⟨aside, n, hended⟩ := (r.load p).endAside_of_not_record h
  have hpass := r.pass_eq hpos
  simp only [hended, h, Bool.false_eq_true, if_false, eachFrame_play, eachFrame_replace, eachFrame_keep] at hpass
  subst r'
  rw [hpass]
  generalize p.activity r.track.mode = a
  cases hreplace : a.replace with
  | false =>
    simp only [Bool.false_eq_true, if_false]
    split_ifs <;> exact ⟨rfl, rfl, rfl, rfl, 0, [], rfl, fun _ => rfl⟩
  | true =>
    simp only [if_true]
    split_ifs <;> exact ⟨rfl, rfl, rfl, rfl, _, _, rfl, nofun⟩

/-- Keeping aside goes on behind what has been kept. -/
theorem pass_of_keep (hsound : p.Sound) (hinput : p.input.isSome = true)
    (h : (p.activity r.track.mode).record = false ∧ (p.activity r.track.mode).preRecord = true) :
    let r' := r.pass p
    r'.track.lastActivity.preRecord = true ∧
      r'.track.preRecordLength = r.track.preRecordLength + (p.input.getD []).length ∧
        r'.aside = r.aside.putAll r.track.preRecordLength (p.input.getD []) := by
  intro r'
  have hended : (r.load p).endAside (p.activity r.track.mode) = r.load p := if_neg fun hends => hends.2 h.2
  have hpass := r.pass_eq hsound.pos
  simp only [hended, h, Bool.false_eq_true, if_false, if_true, eachFrame_play, eachFrame_replace, eachFrame_keep,
    inputFrom_piece hsound hinput] at hpass
  subst r'
  rw [hpass, length_input hsound hinput]
  refine ⟨h.2, ?_⟩
  split_ifs <;> exact ⟨rfl, rfl⟩

/-- A piece that neither records nor keeps aside leaves nothing aside. -/
theorem pass_of_idle (hpos : 0 < p.context.frames)
    (h : (p.activity r.track.mode).record = false ∧ (p.activity r.track.mode).preRecord = false)
    (hlast : r.track.lastActivity.preRecord = false) :
    let r' := r.pass p
    r'.track.lastActivity.preRecord = false ∧ r'.track.preRecordLength = r.track.preRecordLength ∧
      r'.aside = r.aside := by
  intro r'
  have hended : (r.load p).endAside (p.activity r.track.mode) = r.load p :=
    if_neg fun hends => absurd (hlast.symm.trans hends.1) (by decide)
  have hpass := r.pass_eq hpos
  simp only [hended, h, Bool.false_eq_true, if_false, eachFrame_play, eachFrame_replace] at hpass
  subst r'
  rw [hpass]
  refine ⟨h.2, ?_⟩
  split_ifs <;> exact ⟨rfl, rfl⟩

/-- Recording stores the input behind the recorded frames of the loop. -/
theorem pass_of_record (hsound : p.Sound) (hinput : p.input.isSome = true)
    (h : p.activity r.track.mode = { record := true }) {position : Nat}
    (hposition : p.context.lenBefore + ((r.load p).endAside { record := true }).track.startOffset = position) :
    let ready := (r.load p).endAside { record := true }
    r.pass p = mark { record := true } p.context.frames
      { ready with
        main := ready.main.putAll position (p.input.getD [])
        track := { ready.track with dataLength := position + (p.input.getD []).length } } := by
  intro ready
  have hlength := length_input hsound hinput
  have hready : p.context.lenBefore + ready.track.startOffset = position := hposition
  have hpass := r.pass_eq hsound.pos
  simp only [h, Bool.false_eq_true, if_false, if_true] at hpass
  rw [eachFrame_record ready 0 p.context.lenBefore (by omega) hsound.pos, inputFrom_piece hsound hinput, hready,
    ← hlength] at hpass
  rw [hpass, hlength]
  rfl

/-- Playing adds what is heard to the output, frame by frame. -/
theorem pass_of_play (hsound : p.Sound) (h : p.Plays r.track.mode) :
    let first := p.context.posBefore + r.track.startOffset
    (r.pass p).output.getD [] =
      (p.output.getD []).mapIdx fun i x => (r.heard (first + i)).elim x fun y => x + y * r.gain := by
  intro first
  obtain ⟨hplays, hrecord, hreplace⟩ := h.activity
  obtain ⟨b, hb⟩ := Option.isSome_iff_exists.mp h.output
  have hposition : (r.load p).track.positionIn p.context = first := (h.task _ _).2
  obtain ⟨aside, kept, hended⟩ := (r.load p).endAside_of_not_record hrecord
  have hpass := r.pass_eq hsound.pos
  simp only [hended, hplays, hrecord, hreplace, Bool.false_eq_true, if_false, if_true, eachFrame_play, eachFrame_keep,
    hposition] at hpass
  have houtput : (r.pass p).output =
      (r.load p).output.map (eachFrame (fun i => r.mix (0 + i) (first + i)) p.context.frames) := by
    rw [hpass]
    split_ifs <;> rfl
  have hlength := hsound.output b hb
  rw [houtput, show (r.load p).output = p.output from rfl, hb]
  apply List.ext_getElem?
  intro j
  show (eachFrame (fun i => r.mix (0 + i) (first + i)) p.context.frames b)[j]? = _
  rw [getElem?_mix, List.getElem?_mapIdx]
  split_ifs with hj
  · rfl
  · have hbehind : b[j]? = none := List.getElem?_eq_none (by omega)
    show b[j]? = (b[j]?).map _
    rw [hbehind]
    rfl

end Reel

/-! ## A take -/

namespace Channel

/-- Where in the data a take begins, given what has been kept aside for it. -/
def takeStart (c : Channel) (pre : Buffer) : Nat := if pre.isEmpty then c.track.startOffset.toNat else pre.length

/-- How many samples there is room for in the store that the take ends up in. -/
def takeRoom (c : Channel) (pre : Buffer) : Nat := if pre.isEmpty then c.store.reserved else c.preRecord.reserved

end Channel

namespace Reel

/-- A reel of the channel that keeps samples aside and has not begun to record. -/
structure Awaits (c : Channel) (pre : Buffer) (r : Reel) : Prop where
  mode : r.track.mode = c.track.mode
  gain : r.gain = c.gain
  startOffset : r.track.startOffset = c.track.startOffset
  main : r.main.Fits c.store.reserved
  aside : r.aside.Fits c.preRecord.reserved
  keeps : r.track.lastActivity.preRecord = !pre.isEmpty
  kept : r.track.preRecordLength = pre.length
  holds : r.aside.Holds 0 pre

/-- A reel of the channel that holds the beginning of a take. -/
structure Takes (c : Channel) (pre taken : Buffer) (r : Reel) : Prop where
  mode : r.track.mode = c.track.mode
  gain : r.gain = c.gain
  startOffset : r.track.startOffset = c.takeStart pre
  main : r.main.Fits (c.takeRoom pre)
  lead : r.main.Holds 0 pre
  holds : r.main.Holds (c.takeStart pre) taken

/-- A reel of the channel whose data ends with a take. -/
structure HasTaken (c : Channel) (pre taken : Buffer) (r : Reel) : Prop extends Takes c pre taken r where
  dataLength : r.track.dataLength = c.takeStart pre + taken.length

variable {c : Channel} {pre taken : Buffer} {r : Reel} {p : Piece}

theorem Awaits.atRest (h : Awaits c pre r) : Awaits c pre r.atRest :=
  ⟨h.mode, h.gain, h.startOffset, h.main, h.aside, h.keeps, h.kept, h.holds⟩

theorem HasTaken.atRest (h : HasTaken c pre taken r) : HasTaken c pre taken r.atRest :=
  ⟨⟨h.mode, h.gain, h.startOffset, h.main, h.lead, h.holds⟩, h.dataLength⟩

theorem Awaits.idle (h : Awaits c [] r) (hsound : p.Sound)
    (hidle : (p.activity c.track.mode).record = false ∧ (p.activity c.track.mode).preRecord = false) :
    Awaits c [] (r.pass p) := by
  rw [← h.mode] at hidle
  obtain ⟨hgain, hmode, hoffset, -, position, source, hmain, -⟩ := r.pass_of_not_record hsound.pos hidle.1
  obtain ⟨hlast, hkept, haside⟩ := r.pass_of_idle hsound.pos hidle h.keeps
  exact
    { mode := hmode.trans h.mode
      gain := hgain.trans h.gain
      startOffset := hoffset.trans h.startOffset
      main := hmain ▸ h.main.putAll position source
      aside := haside ▸ h.aside
      keeps := hlast
      kept := hkept.trans h.kept
      holds := Tape.holds_nil _ _ }

theorem Awaits.keep (h : Awaits c pre r) (hsound : p.Sound) (hlead : p.LeadsIn)
    (hdisabled : c.track.mode ≠ .disabled) : Awaits c (pre ++ p.input.getD []) (r.pass p) := by
  have hactivity := hlead.activity hdisabled
  rw [← h.mode] at hactivity
  obtain ⟨hgain, hmode, hoffset, -, position, source, hmain, -⟩ := r.pass_of_not_record hsound.pos hactivity.1
  obtain ⟨hlast, hkept, haside⟩ := r.pass_of_keep hsound hlead.input hactivity
  rw [h.kept] at hkept haside
  have hsome : (pre ++ p.input.getD []).isEmpty = false := by
    have hlength := length_input hsound hlead.input
    rw [List.isEmpty_eq_false_iff, ← List.length_pos_iff, List.length_append]
    have hpos := hsound.pos
    omega
  exact
    { mode := hmode.trans h.mode
      gain := hgain.trans h.gain
      startOffset := hoffset.trans h.startOffset
      main := hmain ▸ h.main.putAll position source
      aside := haside ▸ h.aside.putAll _ _
      keeps := hlast.trans (congrArg not hsome).symm
      kept := hkept.trans List.length_append.symm
      holds := by
        rw [haside]
        refine (h.holds.putAll h.aside.size_pos (Nat.le_of_eq (Nat.zero_add _)) _).append ?_
        rw [Nat.zero_add]
        exact Tape.putAll_holds h.aside.size_pos _ _ }

/-- When the loop begins to record, what was kept aside becomes the data. -/
theorem Awaits.begin (h : Awaits c pre r) (hstart : 0 ≤ c.track.startOffset) (p : Piece) :
    Takes c pre [] ((r.load p).endAside { record := true }) := by
  have hkeeps : (r.load p).track.lastActivity.preRecord = !pre.isEmpty := h.keeps
  unfold endAside
  -- The reel knows that something was kept aside by the last activity, not by what is there.
  cases hpre : pre.isEmpty with
  | true =>
    rw [hpre] at hkeeps
    obtain rfl := List.isEmpty_iff.mp hpre
    rw [if_neg fun hends => absurd (hkeeps.symm.trans hends.1) (by decide)]
    exact
      { mode := h.mode
        gain := h.gain
        startOffset := by
          show r.track.startOffset = (c.track.startOffset.toNat : Int)
          rw [h.startOffset, Int.toNat_of_nonneg hstart]
        main := h.main
        lead := Tape.holds_nil _ _
        holds := Tape.holds_nil _ _ }
  | false =>
    rw [hpre] at hkeeps
    rw [if_pos ⟨hkeeps, by decide⟩, if_pos rfl]
    exact
      { mode := h.mode
        gain := h.gain
        startOffset := by
          show (r.track.preRecordLength : Int) = c.takeStart pre
          rw [h.kept, Channel.takeStart, hpre]
          rfl
        main := by
          rw [Channel.takeRoom, hpre]
          exact h.aside
        lead := h.holds
        holds := Tape.holds_nil _ _ }

theorem HasTaken.goOn (h : HasTaken c pre taken r) (hlast : r.track.lastActivity.preRecord = false) (p : Piece) :
    Takes c pre taken ((r.load p).endAside { record := true }) := by
  unfold endAside
  rw [if_neg fun hends => absurd (hlast.symm.trans hends.1) (by decide)]
  exact ⟨h.mode, h.gain, h.startOffset, h.main, h.lead, h.holds⟩

theorem length_pre_le_takeStart (c : Channel) (pre : Buffer) : pre.length ≤ c.takeStart pre := by
  unfold Channel.takeStart
  split_ifs with hpre
  · rw [List.isEmpty_iff.mp hpre]
    exact Nat.zero_le _
  · exact Nat.le_refl _

/-- A recorded piece goes on where the take has got to. -/
theorem Takes.record (h : Takes c pre taken ((r.load p).endAside { record := true })) (hsound : p.Sound)
    (hrecords : p.Records) (hmode : r.track.mode ≠ .disabled) (hposition : p.context.lenBefore = taken.length) :
    HasTaken c pre (taken ++ p.input.getD []) (r.pass p) ∧ (r.pass p).track.lastActivity.preRecord = false := by
  have hstart : p.context.lenBefore + ((r.load p).endAside { record := true }).track.startOffset =
      (c.takeStart pre + taken.length : Nat) := by
    rw [h.startOffset, hposition]
    omega
  have hpass := r.pass_of_record hsound hrecords.input (hrecords.activity hmode) hstart
  have hlead := length_pre_le_takeStart c pre
  rw [hpass]
  refine ⟨⟨⟨h.mode, h.gain, h.startOffset, h.main.putAll _ _, ?_, ?_⟩, ?_⟩, rfl⟩
  · exact h.lead.putAll h.main.size_pos (by omega) _
  · exact (h.holds.putAll h.main.size_pos (Nat.le_refl _) _).append (Tape.putAll_holds h.main.size_pos _ _)
  · show c.takeStart pre + taken.length + _ = _
    rw [List.length_append, Nat.add_assoc]

/-- Pieces that neither record nor replace leave the take as it is. -/
theorem HasTaken.rest (h : HasTaken c pre taken r) (hsound : p.Sound)
    (hrests : (p.activity c.track.mode).record = false ∧ (p.activity c.track.mode).replace = false) :
    HasTaken c pre taken (r.pass p) := by
  rw [← h.mode] at hrests
  obtain ⟨hgain, hmode, hoffset, hlength, position, source, hmain, hnone⟩ :=
    r.pass_of_not_record hsound.pos hrests.1
  rw [hnone hrests.2] at hmain
  have hkept : (r.pass p).main = r.main := hmain
  exact
    { mode := hmode.trans h.mode
      gain := hgain.trans h.gain
      startOffset := hoffset.trans h.startOffset
      main := hkept ▸ h.main
      lead := hkept ▸ h.lead
      holds := hkept ▸ h.holds
      dataLength := hlength.trans h.dataLength }

/-- What is heard at a position of the loop. -/
theorem HasTaken.heard (h : HasTaken c pre taken r) (i : Nat) :
    r.heard (i + r.track.startOffset) = if c.takeStart pre + i < c.takeRoom pre then taken[i]? else none := by
  have hposition : ((i : Int) + r.track.startOffset).toNat = c.takeStart pre + i := by
    rw [h.startOffset]
    omega
  unfold Reel.heard
  rw [hposition, h.startOffset, h.dataLength]
  by_cases hi : i < taken.length
  · rw [if_pos (by omega)]
    split_ifs with hroom
    · exact h.holds i hi (h.main.reserved.symm ▸ hroom)
    · have hlength := h.main.length_le
      exact List.getElem?_eq_none (by omega)
  · rw [if_neg (by omega), List.getElem?_eq_none (by omega), ite_self]

/-- Playing a piece goes through the take, sample by sample. -/
theorem HasTaken.play (h : HasTaken c pre taken r) (hsound : p.Sound) (hplays : p.Plays c.track.mode) :
    (r.pass p).output.getD [] =
      (p.output.getD []).mapIdx fun i x =>
        let position := p.context.posBefore + i
        if position < taken.length ∧ c.takeStart pre + position < c.takeRoom pre then
          x + taken.getD position 0 * c.gain
        else x := by
  rw [r.pass_of_play hsound (h.mode.symm ▸ hplays), h.gain]
  refine congrArg (fun f => (p.output.getD []).mapIdx f) (funext₂ fun i x => ?_)
  have hposition : (p.context.posBefore : Int) + r.track.startOffset + i =
      (p.context.posBefore + i : Nat) + r.track.startOffset := by
    omega
  rw [hposition, h.heard]
  generalize p.context.posBefore + i = position
  dsimp only
  by_cases hinside : position < taken.length
  · simp only [hinside, true_and, List.getElem?_eq_getElem, List.getD_eq_getElem _ _ hinside]
    split_ifs <;> rfl
  · rw [List.getElem?_eq_none (by omega), ite_self, if_neg (fun hand => hinside hand.1)]
    rfl

/-! ### Piece after piece -/

variable {pieces : List Piece}

theorem Awaits.idleAll (h : Awaits c [] r) (hsound : ∀ p ∈ pieces, p.Sound)
    (hidle : ∀ p ∈ pieces, (p.activity c.track.mode).record = false ∧ (p.activity c.track.mode).preRecord = false) :
    Awaits c [] (r.passAll pieces).1 := by
  induction pieces generalizing r with
  | nil => exact h.atRest
  | cons p rest ih =>
    rw [List.forall_mem_cons] at hsound hidle
    exact ih (h.idle hsound.1 hidle.1) hsound.2 hidle.2

theorem Awaits.keepAll (h : Awaits c pre r) (hdisabled : c.track.mode ≠ .disabled) (hsound : ∀ p ∈ pieces, p.Sound)
    (hlead : ∀ p ∈ pieces, p.LeadsIn) : Awaits c (pre ++ Piece.recorded pieces) (r.passAll pieces).1 := by
  induction pieces generalizing r pre with
  | nil => exact (List.append_nil pre).symm ▸ h.atRest
  | cons p rest ih =>
    rw [List.forall_mem_cons] at hsound hlead
    have hrest := ih (h.keep hsound.1 hlead.1 hdisabled) hsound.2 hlead.2
    rwa [List.append_assoc] at hrest

theorem HasTaken.recordAll (h : HasTaken c pre taken r) (hlast : r.track.lastActivity.preRecord = false)
    (hdisabled : c.track.mode ≠ .disabled) (hsound : ∀ p ∈ pieces, p.Sound) (hrecords : ∀ p ∈ pieces, p.Records)
    (hfollow : Piece.Follow (·.lenBefore) taken.length pieces) :
    HasTaken c pre (taken ++ Piece.recorded pieces) (r.passAll pieces).1 := by
  induction pieces generalizing r taken with
  | nil => exact (List.append_nil taken).symm ▸ h.atRest
  | cons p rest ih =>
    rw [List.forall_mem_cons] at hsound hrecords
    obtain ⟨hnext, hquiet⟩ := (h.goOn hlast p).record hsound.1 hrecords.1 (h.mode ▸ hdisabled) hfollow.1
    have hlength := length_input hsound.1 hrecords.1.input
    have hrest := ih hnext hquiet hsound.2 hrecords.2 (by
      rw [List.length_append, hlength]
      exact hfollow.2)
    rwa [List.append_assoc] at hrest

theorem Awaits.recordAll (h : Awaits c pre r) (hstart : 0 ≤ c.track.startOffset)
    (hdisabled : c.track.mode ≠ .disabled) (hsome : pieces ≠ []) (hsound : ∀ p ∈ pieces, p.Sound)
    (hrecords : ∀ p ∈ pieces, p.Records)
    (hfollow : Piece.Follow (·.lenBefore) 0 pieces) :
    HasTaken c pre (Piece.recorded pieces) (r.passAll pieces).1 := by
  cases pieces with
  | nil => exact absurd rfl hsome
  | cons p rest =>
    rw [List.forall_mem_cons] at hsound hrecords
    -- Only the first piece ends what is kept aside.
    obtain ⟨hfirst, hquiet⟩ := (h.begin hstart p).record hsound.1 hrecords.1 (h.mode ▸ hdisabled) hfollow.1
    have hlength := length_input hsound.1 hrecords.1.input
    exact hfirst.recordAll hquiet hdisabled hsound.2 hrecords.2 (by
      rw [List.nil_append, hlength, ← Nat.zero_add p.context.frames]
      exact hfollow.2)

theorem HasTaken.restAll (h : HasTaken c pre taken r) (hsound : ∀ p ∈ pieces, p.Sound)
    (hrests : ∀ p ∈ pieces, (p.activity c.track.mode).record = false ∧ (p.activity c.track.mode).replace = false) :
    HasTaken c pre taken (r.passAll pieces).1 := by
  induction pieces generalizing r with
  | nil => exact h.atRest
  | cons p rest ih =>
    rw [List.forall_mem_cons] at hsound hrests
    exact ih (h.rest hsound.1 hrests.1) hsound.2 hrests.2

theorem HasTaken.playAll (h : HasTaken c pre taken r) (hsound : ∀ p ∈ pieces, p.Sound)
    (hplays : ∀ p ∈ pieces, p.Plays c.track.mode) {q : Nat} (hfollow : Piece.Follow (·.posBefore) q pieces) :
    Piece.heard (r.passAll pieces).2 =
      (Piece.heard pieces).mapIdx fun i x =>
        if q + i < taken.length ∧ c.takeStart pre + (q + i) < c.takeRoom pre then x + taken.getD (q + i) 0 * c.gain
        else x := by
  induction pieces generalizing r q with
  | nil => rfl
  | cons p rest ih =>
    rw [List.forall_mem_cons] at hsound hplays
    have hfirst := h.play hsound.1 hplays.1
    have hrest := ih (h.rest hsound.1 hplays.1.activity.2) hsound.2 hplays.2 hfollow.2
    obtain ⟨b, hb⟩ := Option.isSome_iff_exists.mp hplays.1.output
    have hlength : (p.output.getD []).length = p.context.frames := by
      rw [hb]
      exact hsound.1.output b hb
    have hposition : p.context.posBefore = q := hfollow.1
    rw [hposition] at hfirst
    show (r.pass p).output.getD [] ++ Piece.heard ((r.pass p).passAll rest).2 =
      (p.output.getD [] ++ Piece.heard rest).mapIdx _
    rw [List.mapIdx_append, hfirst, hrest, hlength]
    refine congrArg (_ ++ ·) (congrArg (fun f => (Piece.heard rest).mapIdx f) (funext₂ fun i x => ?_))
    rw [show q + p.context.frames + i = q + (i + p.context.frames) by omega]

end Reel

namespace Channel

theorem getElem?_data {c : Channel} {i : Nat} (h : i < c.track.dataLength) :
    c.data[i]? = some (c.store.tape.samples[i]?.getD 0) := by
  have hdata : c.data = Buffer.fit c.track.dataLength c.store.tape.samples := by
    rw [data, Store.toBuffer, Store.read, Store.gather_eq]
    rfl
  rw [hdata, Buffer.fit, List.getElem?_append, List.length_take, List.getElem?_take, if_pos h]
  by_cases hi : i < c.store.tape.samples.length
  · rw [if_pos (by omega), List.getElem?_eq_getElem hi]
    rfl
  · rw [if_neg (by omega), List.getElem?_eq_none (Nat.le_of_not_lt hi), silence, List.getElem?_replicate,
      if_pos (by omega)]
    rfl

/-- A run of cycles in which a take is recorded, behind what is kept aside for it,
and played. -/
structure RoundTrip (c : Channel) (cycles : List Cycle) (before preRoll take between playing : List Piece)
    (q : Nat) : Prop where
  backed : ∀ k ∈ cycles, c.Backed k.pool
  valid : ∀ k ∈ cycles, k.Valid
  enabled : c.track.mode ≠ .disabled
  startOffset : 0 ≤ c.track.startOffset
  /-- Nothing is kept aside at first. -/
  nothingAside : c.track.preRecordLength = 0 ∧ c.track.lastActivity.preRecord = false
  pieces : cycles.flatMap Cycle.pieces = before ++ preRoll ++ take ++ between ++ playing
  idle : ∀ p ∈ before, (p.activity c.track.mode).record = false ∧ (p.activity c.track.mode).preRecord = false
  leads : ∀ p ∈ preRoll, p.LeadsIn
  records : ∀ p ∈ take, p.Records
  nonempty : take ≠ []
  /-- The loop is empty when the recording begins. -/
  fromEmpty : Piece.Follow (·.lenBefore) 0 take
  rests : ∀ p ∈ between, (p.activity c.track.mode).record = false ∧ (p.activity c.track.mode).replace = false
  plays : ∀ p ∈ playing, p.Plays c.track.mode
  fromPosition : Piece.Follow (·.posBefore) q playing

end Channel

end Audio

end Overdub
