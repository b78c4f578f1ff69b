import Overdub.Proofs.Adoption
import Overdub.Proofs.Chronicle
/-!
# Audio and MIDI of one take stay in step

A loop adopts its audio from one ring and its MIDI from another. The audio loses
whole buffers in front, and the start of the loop moves with them. The messages keep
their distance from the start of their own window, and that is told by a sample count
that starts over. Even so, a sample and a message that were captured at the same
frame come to lie at the same position of the loop: as far ahead of its start, or
behind it, as the capture had still to go then (`adopted_in_step`).

The audio side is the window of a ring (`Audio.CaptureRing.Hears`). For the MIDI side
no order of the messages is asked for: whatever a ring keeps are entries of the
chronicle (`Midi.CaptureRing.Keeps`), and each is placed by its age.
-/

namespace Overdub

namespace Midi.CaptureRing

/-- What a ring keeps are entries of the chronicle, in the order of it. -/
structure Keeps (r : CaptureRing) (l : Chronicle) (depth : UInt32) (kept : List (Nat × Message)) : Prop where
  depth_eq : r.depth = depth
  start : r.start = .ofNat l.start
  stop : r.stop = .ofNat l.total
  sublist : kept.Sublist l.entries
  events : r.events = kept.map stamped

variable {r : CaptureRing} {l : Chronicle} {depth : UInt32} {kept : List (Nat × Message)}

theorem Keeps.nextCycle (h : r.Keeps l depth kept) (frames : UInt32) :
    ∃ kept, (r.nextCycle frames).1.Keeps (l.nextCycle frames) depth kept := by
  let tooOld (m : Message) : Bool := r.depth < r.stop + frames - m.time
  exact
    ⟨kept.dropWhile (tooOld ∘ stamped),
      { depth_eq := h.depth_eq
        start := h.stop
        stop := by
          show r.stop + frames = .ofNat (l.total + frames.toNat)
          rw [h.stop, UInt32.ofNat_add, UInt32.ofNat_toNat]
        sublist := (List.dropWhile_sublist _).trans h.sublist
        events := by
          show r.events.dropWhile tooOld = _
          rw [h.events, List.dropWhile_map] }⟩

theorem Keeps.put (h : r.Keeps l depth kept) (m : Message) : ∃ kept, (r.put m).1.Keeps (l.put m) depth kept := by
  have hstamp : m.withTime (r.start + m.time) = stamped (l.start + m.time.toNat, m) := by
    rw [stamped, h.start, UInt32.ofNat_add, UInt32.ofNat_toNat]
  obtain ⟨left, hleft, hsub⟩ : ∃ left : List (Nat × Message),
      (if r.capacity ≤ r.events.length then r.events.tail else r.events) = left.map stamped ∧ left.Sublist kept := by
    split_ifs
    · exact ⟨kept.tail, by rw [h.events, List.map_tail], List.tail_sublist _⟩
    · exact ⟨kept, h.events, .refl _⟩
  have hevents : (r.put m).1.events =
      if r.capacity = 0 then left.map stamped else left.map stamped ++ [m.withTime (r.start + m.time)] := by
    rw [← hleft]
    rfl
  rw [hstamp] at hevents
  split_ifs at hevents
  · exact ⟨left, h.depth_eq, h.start, h.stop, (hsub.trans h.sublist).trans (List.sublist_append_left _ _), hevents⟩
  · refine ⟨left ++ [(l.start + m.time.toNat, m)], h.depth_eq, h.start, h.stop,
      (hsub.trans h.sublist).append (.refl _), ?_⟩
    rw [hevents, List.map_append]
    rfl

theorem Keeps.putAll (h : r.Keeps l depth kept) (messages : List Message) :
    ∃ kept, (messages.foldl (fun r m => (r.put m).1) r).Keeps (messages.foldl .put l) depth kept := by
  induction messages generalizing r l kept with
  | nil => exact ⟨kept, h⟩
  | cons m rest ih =>
    obtain ⟨kept, h⟩ := h.put m
    exact ih h

theorem Keeps.capture (h : r.Keeps l depth kept) (c : CaptureCycle) :
    ∃ kept, (r.capture c).Keeps (l.note c) depth kept := by
  obtain ⟨kept, h⟩ := h.nextCycle c.frames
  exact h.putAll c.messages

theorem Keeps.captureAll (h : r.Keeps l depth kept) (cycles : List CaptureCycle) :
    ∃ kept, (cycles.foldl CaptureRing.capture r).Keeps (cycles.foldl .note l) depth kept := by
  induction cycles generalizing r l kept with
  | nil => exact ⟨kept, h⟩
  | cons c rest ih =>
    obtain ⟨kept, h⟩ := h.capture c
    exact ih h

theorem empty_keeps (depth : UInt32) (capacity : Nat) : (empty depth capacity).Keeps {} depth [] :=
  ⟨rfl, rfl, rfl, .refl _, rfl⟩

/-- A ring that follows the chronicle keeps entries of which the age can be told. -/
theorem Follows.keeps {capacity : Nat} (h : r.Follows l capacity depth) :
    ∃ kept, r.Keeps l depth kept ∧ ∀ e ∈ kept, e.1 ≤ l.total ∧ l.age e < 2 ^ 31 := by
  obtain ⟨gone, kept, hlast, hevents, -, hyoung⟩ := h.events
  have hsub := sublist_of_last hlast
  exact ⟨kept, ⟨h.depth_eq, h.start, h.stop, hsub, hevents⟩, fun e he => ⟨h.past e (hsub.subset he), hyoung e he⟩⟩

/-- The window places each message that it shows by its age. -/
theorem Keeps.window (h : r.Keeps l depth kept) :
    ∃ shown : List (Nat × Message), shown.Sublist kept ∧
      r.window = shown.map (fun e => e.2.withTime (depth - r.age (stamped e))) ∧
      ∀ e ∈ shown, r.age (stamped e) ≤ depth := by
  obtain rfl := h.depth_eq
  refine ⟨kept.filter fun e => r.age (stamped e) ≤ r.depth, List.filter_sublist, ?_, fun e he => ?_⟩
  · unfold CaptureRing.window
    rw [h.events, List.filter_map, List.map_map]
    refine List.map_congr_left fun e _ => ?_
    show e.2.withTime ((stamped e).time - (r.stop - r.depth)) = e.2.withTime (r.depth - (r.stop - (stamped e).time))
    congr 1
    grind
  · exact of_decide_eq_true (List.mem_filter.mp he).2

/-- A channel that adopts a ring stores messages of the window, placed by their age. -/
theorem Keeps.adopt (h : r.Keeps l depth kept) {c c' : Channel} {tail : Tracker} {reverseStart keepBefore : Option Nat}
    (hok : c.adopt ⟨r, tail⟩ reverseStart keepBefore = (c', .ok ())) :
    c'.track.startOffset = ((reverseStart.elim 0 (depth.toNat - ·) : Nat) : Int) ∧
      ∃ stored : List (Nat × Message), stored.Sublist kept ∧
        c'.storage.events = stored.map (fun e => e.2.withTime (depth - r.age (stamped e))) ∧
        ∀ e ∈ stored, r.age (stamped e) ≤ depth := by
  obtain rfl := h.depth_eq
  obtain ⟨shown, hsub, hwindow, hyoung⟩ := h.window
  unfold Channel.adopt at hok
  split at hok
  · cases hok
  · next storage hsnapshot =>
    obtain ⟨rfl, -⟩ := Prod.mk.inj hok
    have hstorage : storage.events = r.window := Storage.appendAll_ok hsnapshot
    refine ⟨rfl, ?_⟩
    generalize (UInt32.ofNat _ : UInt32) = front
    refine ⟨shown.dropWhile fun e => (e.2.withTime (r.depth - r.age (stamped e))).time < front,
      (List.dropWhile_sublist _).trans hsub, ?_, fun e he => hyoung e ((List.dropWhile_sublist _).subset he)⟩
    show storage.events.dropWhile _ = _
    rw [hstorage, hwindow, List.dropWhile_map]
    rfl

/-- A message that is young enough to tell its age lies as far behind the start of the
window as the window is longer than it is old. -/
theorem Keeps.toNat_placed (h : r.Keeps l depth kept) {e : Nat × Message} (hpast : e.1 ≤ l.total)
    (hyoung : l.total - e.1 < 2 ^ 32) (hle : r.age (stamped e) ≤ depth) :
    (depth - r.age (stamped e)).toNat + (l.total - e.1) = depth.toNat := by
  have hage : (r.age (stamped e)).toNat = l.total - e.1 := by
    unfold age
    rw [h.stop, toNat_sub_stamped hpast hyoung]
  rw [UInt32.toNat_sub_of_le _ _ hle, ← hage]
  exact Nat.sub_add_cancel (UInt32.le_iff_toNat_le.mp hle)

end Midi.CaptureRing

/-! ## Both inputs of a take -/

/-- One cycle of input: the samples and the messages that came with it. -/
structure InputCycle extends Midi.CaptureCycle where
  samples : Audio.Buffer
  length_samples : samples.length = frames.toNat

/-- The position of the loop at which a data position lies. -/
def Track.loopPosition (t : Track) (position : Nat) : Int := position - t.startOffset

namespace InputCycle

/-- The messages of all cycles with the frames at which they were captured. -/
def chronicle (input : List InputCycle) : Midi.Chronicle := input.foldl (fun l c => l.note c.toCaptureCycle) {}

def samplesOf (input : List InputCycle) : Audio.Buffer := (input.map (·.samples)).flatten

/-- How many frames were captured. -/
def total (input : List InputCycle) : Nat := (input.map (·.frames.toNat)).sum

/-- The sample captured at a frame. There was silence before the first one. -/
def sampleAt (input : List InputCycle) (frame : Int) : Audio.Sample :=
  if frame < 0 then 0 else (samplesOf input).getD frame.toNat 0

/-- The rings into which the input goes. -/
def audioRing (input : List InputCycle) (depth : Nat) (pool : Audio.Pool) : Audio.CaptureRing :=
  input.foldl (fun r c => r.put c.samples) (Audio.CaptureRing.new depth pool).1

def midiRing (input : List InputCycle) (depth : UInt32) (capacity : Nat) : Midi.CaptureRing :=
  input.foldl (fun r c => r.capture c.toCaptureCycle) (.empty depth capacity)

/-- The sample count of the messages tells the age of all that can lie in both windows:
the samples do not go back further than it counts, as with the depth of a port, or
everything is younger than half of it. -/
def Countable (input : List InputCycle) (audioDepth : Nat) (midiDepth : UInt32) : Prop :=
  audioDepth < 2 ^ 32 ∨ midiDepth.toNat < 2 ^ 31 ∧ ∀ c ∈ input, c.toCaptureCycle.Valid

variable {input : List InputCycle} {depth : UInt32} {capacity : Nat}

theorem midiRing_eq : midiRing input depth capacity =
    (input.map (·.toCaptureCycle)).foldl Midi.CaptureRing.capture (.empty depth capacity) := by
  rw [List.foldl_map]
  rfl

theorem chronicle_eq : chronicle input = (input.map (·.toCaptureCycle)).foldl Midi.Chronicle.note {} := by
  rw [List.foldl_map]
  rfl

theorem length_samplesOf (input : List InputCycle) : (samplesOf input).length = total input := by
  simp only [samplesOf, total, List.length_flatten, List.map_map]
  congr 1
  exact List.map_congr_left fun c _ => c.length_samples

theorem total_note (l : Midi.Chronicle) (c : Midi.CaptureCycle) : (l.note c).total = l.total + c.frames.toNat := by
  have hputs : ∀ (messages : List Midi.Message) (l : Midi.Chronicle), (messages.foldl .put l).total = l.total := by
    intro messages
    induction messages with
    | nil => exact fun l => rfl
    | cons m rest ih => exact fun l => ih (l.put m)
  exact hputs c.messages _

theorem total_chronicle (input : List InputCycle) : (chronicle input).total = total input := by
  have hnotes : ∀ (input : List InputCycle) (l : Midi.Chronicle),
      (input.foldl (fun l c => l.note c.toCaptureCycle) l).total = l.total + total input := by
    intro input
    induction input with
    | nil => exact fun l => rfl
    | cons c rest ih =>
      intro l
      rw [List.foldl_cons, ih, total_note, total, total, List.map_cons, List.sum_cons, Nat.add_assoc]
  exact (hnotes input {}).trans (Nat.zero_add _)

theorem audioRing_hears {depth : Nat} {pool : Audio.Pool} (hpool : pool.Sound) (hsize : 0 < pool.bufferSize)
    (input : List InputCycle) : (audioRing input depth pool).Hears (samplesOf input) := by
  have hputs : ∀ (input : List InputCycle) {r : Audio.CaptureRing} {past : Audio.Buffer}, r.Hears past →
      (input.foldl (fun r c => r.put c.samples) r).Hears (past ++ samplesOf input) := by
    intro input
    induction input with
    | nil => exact fun h => by rwa [samplesOf, List.map_nil, List.flatten_nil, List.append_nil]
    | cons c rest ih =>
      intro r past h
      have hnext := ih (h.put c.samples)
      rwa [List.append_assoc] at hnext
  exact hputs input (Audio.CaptureRing.new_hears depth hpool hsize)

/-- Position `i` of a window of `depth` samples was captured `depth - i` frames before the end. -/
theorem window_sampleAt {depth i : Nat} (hi : i < depth) :
    ((Audio.silence depth ++ samplesOf input).rtake depth)[i]? =
      some (sampleAt input (total input + i - depth)) := by
  have hlength := length_samplesOf input
  rw [List.rtake, List.getElem?_drop, List.length_append, Audio.silence, List.length_replicate, hlength,
    Nat.add_sub_cancel_left]
  unfold sampleAt
  by_cases hfront : total input + i < depth
  · rw [List.getElem?_append_left (by rw [List.length_replicate]; omega), if_pos (by omega)]
    exact List.getElem?_replicate_of_lt hfront
  · rw [List.getElem?_append_right (by rw [List.length_replicate]; omega), List.length_replicate, if_neg (by omega),
      List.getD_eq_getElem?_getD, show ((total input + i - depth : Int)).toNat = total input + i - depth by omega,
      List.getElem?_eq_getElem (by omega)]
    rfl

/-- Whatever came when, the ring keeps entries of the chronicle, and where ages can be told
those that share a frame with the window of samples are as old as that. -/
theorem midiRing_keeps (capacity : Nat) {audioDepth : Nat} (hcount : Countable input audioDepth depth) :
    ∃ kept, (midiRing input depth capacity).Keeps (chronicle input) depth kept ∧
      ∀ e ∈ kept, e.1 < total input → total input - e.1 ≤ audioDepth → total input - e.1 < 2 ^ 32 := by
  rw [midiRing_eq, chronicle_eq]
  rcases hcount with hdepth | ⟨hdepth, hvalid⟩
  · obtain ⟨kept, hkept⟩ := (Midi.CaptureRing.empty_keeps depth capacity).captureAll (input.map (·.toCaptureCycle))
    exact ⟨kept, hkept, fun e _ _ hle => Nat.lt_of_le_of_lt hle hdepth⟩
  · have hvalid : ∀ c ∈ input.map (·.toCaptureCycle), c.Valid := List.forall_mem_map.mpr hvalid
    have hfollows := (Midi.CaptureRing.follows_empty depth capacity).cycles hdepth hvalid
    obtain ⟨kept, hkept, hyoung⟩ := hfollows.keeps
    refine ⟨kept, hkept, fun e he _ _ => ?_⟩
    have hage := (hyoung e he).2
    rw [Midi.Chronicle.age, ← chronicle_eq, total_chronicle] at hage
    omega

theorem audioRing_depth (input : List InputCycle) (depth : Nat) (pool : Audio.Pool) :
    (audioRing input depth pool).depth = depth := by
  have hputs : ∀ (input : List InputCycle) (r : Audio.CaptureRing),
      (input.foldl (fun r c => r.put c.samples) r).depth = r.depth := by
    intro input
    induction input with
    | nil => exact fun _ => rfl
    | cons c rest ih => exact fun r => (ih (r.put c.samples)).trans (r.put_depth c.samples)
  exact hputs input _

/-! ## The take -/

open Audio.Channel (historyBefore trimmedFront trimmed_mul_le) in
/-- An adopted sample lies at the loop position that is as far from `r` as the sample was
captured before the end. -/
theorem adopted_sample (input : List InputCycle) {depth r : Nat} (hr : r ≤ depth) {ringPool pool : Audio.Pool}
    (hpool : ringPool.Sound) (hsize : 0 < ringPool.bufferSize) {audio : Audio.Channel} (haudio : audio.Backed pool)
    (keepBefore : Option Nat) :
    let adopted := (audio.adopt (audioRing input depth ringPool) (some r) keepBefore pool).1
    ∀ i < min adopted.track.dataLength adopted.store.capacity,
      adopted.data[i]? = some (sampleAt input (total input - (r - adopted.track.loopPosition i))) ∧
        (r : Int) - adopted.track.loopPosition i ≤ depth ∧ 0 < (r : Int) - adopted.track.loopPosition i := by
  intro adopted i hi
  have hhears : (audioRing input depth ringPool).Hears (samplesOf input) := audioRing_hears hpool hsize input
  have hdepth := audioRing_depth input depth ringPool
  obtain ⟨hdata, hlength, hstart, -⟩ :=
    Audio.Channel.adopt_fitting haudio hhears.toSound (some r) keepBefore
  have htrimmed : trimmedFront (historyBefore depth (some r)) (audioRing input depth ringPool).bufferSize keepBefore ≤
      depth - r := by
    cases keepBefore with
    | none => exact Nat.zero_le _
    | some keep => exact trimmed_mul_le (depth - r) keep hhears.size_pos
  rw [hhears.window_eq, hdepth] at hdata
  rw [hdepth] at hlength hstart
  generalize trimmedFront _ _ _ = trimmed at hdata hlength hstart htrimmed
  have hstart : adopted.track.startOffset = ((depth - r - trimmed : Nat) : Int) := hstart
  rw [hlength] at hi
  have hread := congrArg (fun data : Audio.Buffer => data[i]?) hdata
  rw [List.getElem?_take_of_lt hi, List.getElem?_take_of_lt hi, List.getElem?_drop, window_sampleAt (by omega)] at hread
  unfold Track.loopPosition
  rw [hstart]
  refine ⟨hread.trans ?_, by omega, by omega⟩
  congr 2
  omega

end InputCycle

end Overdub
