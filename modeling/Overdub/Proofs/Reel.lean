import Overdub.Proofs.Channels
import Overdub.Proofs.Tape
/-!
# Channels frame by frame

A `Reel` is an audio channel that has no command queue: it takes one frame after
the other and carries out at once what the frame is for, on the tapes of the two
stores and on the output. `Reel.step` says what a single frame does. For a whole
chunk the effect of each activity has a closed form, in which a piece of the
input is stored at once and the playable part of the data is mixed in at once.
-/

namespace Overdub

/-- Does something for each of `n` frames in turn. -/
def eachFrame {α : Type} (f : Nat → α → α) : Nat → α → α
  | 0, x => x
  | n + 1, x => f n (eachFrame f n x)

/-- Two things done in each frame can be done one after the other if they do not
depend on each other. -/
theorem eachFrame_comp {α : Type} {f g : Nat → α → α} (h : ∀ i j x, f i (g j x) = g j (f i x)) (n : Nat)
    (x : α) :
    eachFrame (fun i x => g i (f i x)) n x = eachFrame g n (eachFrame f n x) := by
  have hpast : ∀ i m x, f i (eachFrame g m x) = eachFrame g m (f i x) := by
    intro i m
    induction m with
    | zero => exact fun _ => rfl
    | succ m ih => exact fun x => (h i m _).trans (congrArg (g m) (ih x))
  induction n with
  | zero => rfl
  | succ n ih =>
    show g n (f n _) = g n (eachFrame g n (f n _))
    rw [ih, hpast]

theorem eachFrame_id {α : Type} (n : Nat) (x : α) : eachFrame (fun _ x => x) n x = x := by
  induction n with
  | zero => rfl
  | succ n ih => exact ih

namespace Audio

/-- The input sample of a frame. -/
def inputAt (input : Option Buffer) (frame : Nat) : Sample := (input.getD []).getD frame 0

/-- The input samples of `n` frames. -/
def inputFrom (input : Option Buffer) (frame n : Nat) : Buffer :=
  (List.range n).map fun i => inputAt input (frame + i)

theorem inputFrom_succ (input : Option Buffer) (frame n : Nat) :
    inputFrom input frame (n + 1) = inputFrom input frame n ++ [inputAt input (frame + n)] := by
  simp [inputFrom, List.range_succ]

@[simp] theorem length_inputFrom (input : Option Buffer) (frame n : Nat) : (inputFrom input frame n).length = n := by
  simp [inputFrom]

theorem take_drop_eq_inputFrom {b : Buffer} {frame n : Nat} (h : frame + n ≤ b.length) :
    (b.drop frame).take n = inputFrom (some b) frame n := by
  induction n with
  | zero => rfl
  | succ n ih =>
    have hlt : frame + n < b.length := by omega
    rw [inputFrom_succ, ← ih (by omega), List.take_add_one, List.getElem?_drop, List.getElem?_eq_getElem hlt]
    simp [inputAt, hlt]

/-- An audio channel that works frame by frame. -/
structure Reel where
  track : Track
  gain : Sample
  main : Tape
  /-- What has been kept aside. -/
  aside : Tape
  output : Option Buffer

namespace Reel

/-- Ends keeping input aside in the first frame that no longer does: when a
recording begins, what was kept aside becomes its data. -/
def endAside (a : Activity) (r : Reel) : Reel :=
  if r.track.lastActivity.preRecord ∧ ¬ a.preRecord then
    if a.record then
      { r with
        main := r.aside
        aside := r.main.erase
        track := { r.track with
          dataLength := r.track.preRecordLength, startOffset := r.track.preRecordLength, preRecordLength := 0 } }
    else { r with aside := r.aside.erase, track := { r.track with preRecordLength := 0 } }
  else r

/-- The sample that is heard at a data position, if one may be played there and
one is stored there. -/
def heard (r : Reel) (position : Int) : Option Sample :=
  if max (r.track.startOffset - r.track.prePlay) 0 ≤ position ∧ position < r.track.dataLength then
    r.main.samples[position.toNat]?
  else none

/-- Adds what is heard to a frame of the output. -/
def mix (r : Reel) (frame : Nat) (position : Int) (output : Buffer) : Buffer :=
  (r.heard position).elim output fun x => output.modify frame (· + x * r.gain)

/-- Plays one frame. -/
def play (frame : Nat) (position : Int) (r : Reel) : Reel := { r with output := r.output.map (r.mix frame position) }

/-- Records one frame behind `loopLength` recorded ones. -/
def record (input : Option Buffer) (frame loopLength : Nat) (r : Reel) : Reel :=
  let position := (loopLength + r.track.startOffset).toNat
  { r with
    main := r.main.put position (inputAt input frame)
    track := { r.track with dataLength := position + 1 } }

/-- Overwrites one frame of the data. -/
def replace (input : Option Buffer) (frame : Nat) (position : Int) (r : Reel) : Reel :=
  if 0 ≤ position ∧ position < r.track.dataLength then
    { r with main := r.main.put position.toNat (inputAt input frame) }
  else r

/-- Keeps one frame aside. -/
def keep (input : Option Buffer) (frame : Nat) (r : Reel) : Reel :=
  { r with
    aside := r.aside.put r.track.preRecordLength (inputAt input frame)
    track := { r.track with preRecordLength := r.track.preRecordLength + 1 } }

/-- Does what a frame is for. -/
def act (input : Option Buffer) (a : Activity) (frame : Nat) (position : Int) (loopLength : Nat) (r : Reel) : Reel :=
  let r := if a.playback then r.play frame position else r
  let r := if a.record then r.record input frame loopLength else r
  let r := if a.replace then r.replace input frame position else r
  if a.preRecord then r.keep input frame else r

/-- Notes what the frames up to `done` were for. -/
def mark (a : Activity) (done : Nat) (r : Reel) : Reel :=
  { r with track := { r.track with lastActivity := a, framesDone := done } }

/-- The next frame of the cycle, which lies at `position` in the data and comes
after `loopLength` frames of the loop. -/
def step (input : Option Buffer) (a : Activity) (position : Int) (loopLength : Nat) (r : Reel) : Reel :=
  ((r.endAside a).act input a r.track.framesDone position loopLength).mark a (r.track.framesDone + 1)

/-- The frames of a chunk. -/
def chunk (input : Option Buffer) (context : ChunkContext) (r : Reel) : Reel :=
  eachFrame
    (fun i => step input (r.track.activityIn context) (r.track.positionIn context + i) (context.lenBefore + i))
    context.frames r

/-- The frames of several chunks. -/
def run (input : Option Buffer) (contexts : List ChunkContext) (r : Reel) : Reel :=
  contexts.foldl (fun r context => r.chunk input context) r

/-! ## A chunk as a whole -/

variable {input : Option Buffer} {a : Activity} (r : Reel)

theorem endAside_mark (n : Nat) : (r.mark a n).endAside a = r.mark a n :=
  if_neg fun h => h.2 h.1

theorem play_mark (a : Activity) (done frame : Nat) (position : Int) :
    (r.mark a done).play frame position = (r.play frame position).mark a done := rfl

theorem record_mark (a : Activity) (done frame loopLength : Nat) :
    (r.mark a done).record input frame loopLength = (r.record input frame loopLength).mark a done := rfl

theorem replace_mark (a : Activity) (done frame : Nat) (position : Int) :
    (r.mark a done).replace input frame position = (r.replace input frame position).mark a done := by
  show (if 0 ≤ position ∧ position < r.track.dataLength then _ else _) = mark a done (if _ then _ else _)
  split_ifs <;> rfl

theorem keep_mark (a : Activity) (done frame : Nat) :
    (r.mark a done).keep input frame = (r.keep input frame).mark a done := rfl

theorem act_mark (a' : Activity) (done frame : Nat) (position : Int) (loopLength : Nat) :
    (r.mark a' done).act input a frame position loopLength =
      (r.act input a frame position loopLength).mark a' done := by
  unfold act
  split_ifs <;> simp only [play_mark, record_mark, replace_mark, keep_mark]

/-- Within a chunk only the first frame can end keeping input aside, and the last
one says what the chunk was for. -/
theorem chunk_eq {context : ChunkContext} (hn : 0 < context.frames) :
    r.chunk input context =
      (eachFrame
        (fun i => act input (r.track.activityIn context) (r.track.framesDone + i)
          (r.track.positionIn context + i) (context.lenBefore + i))
        context.frames (r.endAside (r.track.activityIn context))).mark
          (r.track.activityIn context) (r.track.framesDone + context.frames) := by
  unfold chunk
  generalize r.track.activityIn context = a, r.track.positionIn context = position
  obtain ⟨n, hn⟩ : ∃ n, context.frames = n + 1 := ⟨context.frames - 1, by omega⟩
  rw [hn]
  clear hn
  induction n with
  | zero => rfl
  | succ n ih =>
    rw [eachFrame, ih, step, endAside_mark, act_mark]
    rfl

/-- Keeping aside does not touch what the other activities work on. -/
theorem keep_replace (frame frame' : Nat) (position : Int) :
    (r.keep input frame).replace input frame' position = (r.replace input frame' position).keep input frame := by
  show (if 0 ≤ position ∧ position < r.track.dataLength then _ else _) = keep input frame (if _ then _ else _)
  split_ifs <;> rfl

/-- A chunk carries out its activities one after the other. -/
theorem eachFrame_act (h : a.Exclusive) (frame : Nat) (position : Int) (loopLength n : Nat) :
    eachFrame (fun i => act input a (frame + i) (position + i) (loopLength + i)) n r =
      let r := if a.playback then eachFrame (fun i => play (frame + i) (position + i)) n r else r
      let r := if a.record then eachFrame (fun i => record input (frame + i) (loopLength + i)) n r else r
      let r := if a.replace then eachFrame (fun i => replace input (frame + i) (position + i)) n r else r
      if a.preRecord then eachFrame (fun i => keep input (frame + i)) n r else r := by
  have hkeep : ∀ {f : Nat → Reel → Reel},
      (∀ i j x, f i (x.keep input (frame + j)) = (f i x).keep input (frame + j)) →
      eachFrame (fun i r => (f i r).keep input (frame + i)) n r =
        eachFrame (fun i => keep input (frame + i)) n (eachFrame f n r) :=
    fun hf => eachFrame_comp hf n r
  obtain ⟨playback, record, replace, preRecord⟩ := a
  obtain ⟨hplay, hrecord⟩ := h
  unfold act
  -- At most one of the three is done, and keeping aside may come on top of it.
  cases playback with
  | true =>
    obtain ⟨rfl, rfl⟩ := hplay rfl
    cases preRecord with
    | false => rfl
    | true => exact hkeep fun _ _ _ => rfl
  | false =>
    cases record with
    | true =>
      obtain rfl := hrecord rfl
      cases preRecord with
      | false => rfl
      | true => exact hkeep fun _ _ _ => rfl
    | false =>
      cases replace with
      | true =>
        cases preRecord with
        | false => rfl
        | true => exact hkeep fun _ _ x => x.keep_replace _ _ _
      | false =>
        cases preRecord with
        | false => exact eachFrame_id n r
        | true => rfl

/-- The chunk as it is recorded: in front of the data it is recorded from where they begin. -/
def anchor (context : ChunkContext) (r : Reel) : ChunkContext :=
  let a := r.track.activityIn context
  { context with
    lenBefore :=
      if a.record then max context.lenBefore (-(r.endAside a).track.startOffset).toNat else context.lenBefore }

theorem anchor_eq_self {context : ChunkContext} (h : (r.track.activityIn context).record = true →
    0 ≤ (r.endAside (r.track.activityIn context)).track.startOffset) : r.anchor context = context := by
  have hlength : (r.anchor context).lenBefore = context.lenBefore := by
    unfold anchor
    dsimp only
    split_ifs with hrecord
    · have hstart := h hrecord
      omega
    · rfl
  unfold anchor at hlength ⊢
  dsimp only at hlength ⊢
  rw [hlength]

/-! ## Activities as a whole -/

/-- Stores samples on one of the tapes. -/
def putAll (target : StoreTarget) (position : Nat) (source : Buffer) (r : Reel) : Reel :=
  match target with
  | .main => { r with main := r.main.putAll position source }
  | .preRecord => { r with aside := r.aside.putAll position source }

theorem eachFrame_keep (frame n : Nat) :
    eachFrame (fun i => keep input (frame + i)) n r =
      { r with
        aside := r.aside.putAll r.track.preRecordLength (inputFrom input frame n)
        track := { r.track with preRecordLength := r.track.preRecordLength + n } } := by
  induction n with
  | zero => rfl
  | succ n ih =>
    rw [eachFrame, ih, inputFrom_succ, Tape.putAll_concat, length_inputFrom]
    rfl

theorem eachFrame_record (frame loopLength : Nat) (h : 0 ≤ loopLength + r.track.startOffset) {n : Nat} (hn : 0 < n) :
    eachFrame (fun i => record input (frame + i) (loopLength + i)) n r =
      { r with
        main := r.main.putAll (loopLength + r.track.startOffset).toNat (inputFrom input frame n)
        track := { r.track with dataLength := (loopLength + r.track.startOffset).toNat + n } } := by
  induction n with
  | zero => exact absurd hn (by decide)
  | succ n ih =>
    rcases Nat.eq_zero_or_pos n with rfl | hn
    · rfl
    · have hposition : (((loopLength + n : Nat) : Int) + r.track.startOffset).toNat =
          (loopLength + r.track.startOffset).toNat + n := by
        omega
      rw [eachFrame, ih hn, inputFrom_succ, Tape.putAll_concat, length_inputFrom]
      simp only [record, hposition]
      rfl

/-- Replacing starts where the data starts and ends where it ends. -/
theorem eachFrame_replace (frame : Nat) (position : Int) (n : Nat) :
    eachFrame (fun i => replace input (frame + i) (position + i)) n r =
      { r with
        main := r.main.putAll position.toNat
          (inputFrom input (frame + min n (-position).toNat)
            (min (n - min n (-position).toNat) (r.track.dataLength - position.toNat))) } := by
  induction n with
  | zero => simp [eachFrame, inputFrom, Tape.putAll]
  | succ n ih =>
    rw [eachFrame, ih, replace]
    dsimp only
    split_ifs with h
    -- The frame lies inside the data, so it continues those before it.
    · have hskip : min (n + 1) (-position).toNat = min n (-position).toNat := by omega
      have hinside : min (n + 1 - min n (-position).toNat) (r.track.dataLength - position.toNat) =
          min (n - min n (-position).toNat) (r.track.dataLength - position.toNat) + 1 := by
        omega
      have hposition : position.toNat + min (n - min n (-position).toNat) (r.track.dataLength - position.toNat) =
          (position + n).toNat := by
        omega
      have hframe : frame + min n (-position).toNat +
          min (n - min n (-position).toNat) (r.track.dataLength - position.toNat) = frame + n := by
        omega
      rw [hskip, hinside, inputFrom_succ, Tape.putAll_concat, length_inputFrom, hposition, hframe]
    · have hinside : min (n + 1 - min (n + 1) (-position).toNat) (r.track.dataLength - position.toNat) =
          min (n - min n (-position).toNat) (r.track.dataLength - position.toNat) := by
        omega
      rw [hinside]
      by_cases hskip : min (n + 1) (-position).toNat = min n (-position).toNat
      · rw [hskip]
      · rw [show n - min n (-position).toNat = 0 by omega, Nat.zero_min]
        rfl

/-- What is heard of `n` frames is mixed into the output. -/
theorem eachFrame_play (frame : Nat) (position : Int) (n : Nat) :
    eachFrame (fun i => play (frame + i) (position + i)) n r =
      { r with output := r.output.map (eachFrame (fun i => r.mix (frame + i) (position + i)) n) } := by
  induction n with
  | zero => simp [eachFrame]
  | succ n ih =>
    rw [eachFrame, ih, play]
    dsimp only
    rw [Option.map_map]
    rfl

theorem getElem?_mix (frame : Nat) (position : Int) (n : Nat) (output : Buffer) (j : Nat) :
    (eachFrame (fun i => r.mix (frame + i) (position + i)) n output)[j]? =
      if frame ≤ j ∧ j < frame + n then
        output[j]?.map fun out => (r.heard (position + (j - frame : Nat))).elim out fun x => out + x * r.gain
      else output[j]? := by
  induction n with
  | zero =>
    rw [if_neg (by omega)]
    rfl
  | succ n ih =>
    rw [eachFrame]
    by_cases hj : j = frame + n
    -- The frame itself is mixed into, and it was not mixed into before.
    · subst hj
      rw [if_neg (by omega)] at ih
      rw [if_pos (by omega), mix, Nat.add_sub_cancel_left]
      cases r.heard (position + n) with
      | none => simpa using ih
      | some x => simp [ih]
    · have hother : ∀ b : Buffer, (r.mix (frame + n) (position + n) b)[j]? = b[j]? := by
        intro b
        unfold mix
        cases r.heard (position + n) with
        | none => rfl
        | some x => simp [Ne.symm hj]
      rw [hother, ih]
      split_ifs <;> first | rfl | omega

/-- Playback skips the frames in front of what may be played and ends where the
data ends or no sample is stored any more. The frames in between are mixed in as
one piece. -/
theorem eachFrame_mix (frame : Nat) (position : Int) (n : Nat) {output : Buffer} (hfit : frame + n ≤ output.length) :
    let skip := min n (r.track.firstPlayable - position).toNat
    let start := (position + skip).toNat
    let length := min (n - skip) (r.track.dataLength - start)
    eachFrame (fun i => r.mix (frame + i) (position + i)) n output =
      Buffer.overwrite output (frame + skip)
        (List.zipWith (fun out x => out + x * r.gain) ((output.drop (frame + skip)).take length)
          ((r.main.samples.drop start).take (min length (r.main.samples.length - start)))) := by
  intro skip start length
  have hfirst : (r.track.firstPlayable : Int) = max (r.track.startOffset - r.track.prePlay) 0 := by
    unfold Track.firstPlayable
    omega
  apply List.ext_getElem?
  intro j
  rw [getElem?_mix, Buffer.getElem?_overwrite]
  simp only [List.length_zipWith, List.length_take, List.length_drop, List.getElem?_zipWith, List.getElem?_take,
    List.getElem?_drop]
  by_cases hj : frame ≤ j ∧ j < frame + n
  · rw [if_pos hj]
    -- Inside the piece the frame is heard, in front of it and behind it nothing is.
    by_cases hin : frame + skip ≤ j ∧ j < frame + skip + min length (r.main.samples.length - start)
    · have hheard : r.heard (position + (j - frame : Nat)) = r.main.samples[start + (j - (frame + skip))]? := by
        rw [heard, if_pos (by omega)]
        congr 1
        omega
      have hstored : start + (j - (frame + skip)) < r.main.samples.length := by omega
      rw [if_pos (by omega), hheard, List.getElem?_eq_getElem hstored, if_pos (by omega), if_pos (by omega),
        show frame + skip + (j - (frame + skip)) = j by omega,
        List.getElem?_eq_getElem (show j < output.length by omega)]
      rfl
    · have hheard : r.heard (position + (j - frame : Nat)) = none := by
        unfold heard
        split_ifs with hplayable
        · exact List.getElem?_eq_none (by omega)
        · rfl
      rw [if_neg (by omega), hheard]
      simp
  · rw [if_neg hj, if_neg (by omega)]

end Reel

end Audio

end Overdub
