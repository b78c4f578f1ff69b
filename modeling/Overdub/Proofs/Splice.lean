import Overdub.Proofs.Trades
/-!
# Cycles end to end

What is recorded or played goes on over many cycles, and one cycle may hold the end
of one thing and the beginning of another. `Cycle.pieces` cuts the buffers of a
cycle up into the parts of its chunks, and `Channel.playThrough` takes a channel
through one cycle after the other.

Where a cycle ends makes no difference to the channel: it comes out as if every
chunk had been a cycle of its own (`playThrough_eq`). In the middle of a cycle, that
is what a `Reel.window` sees of it.
-/

namespace Overdub.Audio

/-! ## Parts of a cycle -/

namespace Buffer

/-- The samples at `frame` to `frame + n`, as far as there are any. -/
def part (b : Buffer) (frame n : Nat) : Buffer := (b.drop frame).take n

theorem getElem?_part (b : Buffer) (frame n i : Nat) :
    (b.part frame n)[i]? = if i < n then b[frame + i]? else none := by
  unfold part
  rw [List.getElem?_take, List.getElem?_drop]

theorem part_modify_inside (b : Buffer) (frame n i : Nat) (f : Sample → Sample) :
    part (b.modify (frame + i) f) frame n = (b.part frame n).modify i f := by
  apply List.ext_getElem?
  intro j
  simp only [getElem?_part, List.getElem?_modify, Nat.add_left_cancel_iff]
  split_ifs <;> rfl

theorem part_modify_outside (b : Buffer) {frame n i : Nat} (h : i < frame ∨ frame + n ≤ i) (f : Sample → Sample) :
    part (b.modify i f) frame n = b.part frame n := by
  apply List.ext_getElem?
  intro j
  simp only [getElem?_part, List.getElem?_modify]
  split_ifs <;> first | rfl | omega | simp

end Buffer

theorem inputAt_part (input : Option Buffer) {frame n i : Nat} (h : i < n) :
    inputAt (input.map (·.part frame n)) i = inputAt input (frame + i) := by
  cases input with
  | none => rfl
  | some b =>
    show ((b.part frame n)[i]?).getD 0 = (b[frame + i]?).getD 0
    rw [Buffer.getElem?_part, if_pos h]

/-- A chunk with its part of the buffers of its cycle. -/
structure Piece where
  context : ChunkContext
  input : Option Buffer
  output : Option Buffer

/-- A chunk from frame `frame` of a cycle on. -/
def Piece.ofCycle (input output : Option Buffer) (frame : Nat) (context : ChunkContext) : Piece :=
  ⟨context, input.map (·.part frame context.frames), output.map (·.part frame context.frames)⟩

/-- Cuts the buffers of a cycle up into the parts of chunks, from frame `frame` on. -/
def cut (input output : Option Buffer) : Nat → List ChunkContext → List Piece
  | _, [] => []
  | frame, context :: rest =>
    .ofCycle input output frame context :: cut input output (frame + context.frames) rest

/-- Only what lies behind the first frame matters. -/
theorem cut_congr {input output output' : Option Buffer} {first : Nat}
    (h : ∀ frame n, first ≤ frame → output.map (·.part frame n) = output'.map (·.part frame n))
    (contexts : List ChunkContext) : cut input output first contexts = cut input output' first contexts := by
  induction contexts generalizing first with
  | nil => rfl
  | cons context rest ih =>
    unfold cut Piece.ofCycle
    rw [h first _ (Nat.le_refl _), ih fun frame n hframe => h frame n (by omega)]

/-! ## A chunk as a cycle of its own -/

namespace Reel

/-- What a chunk of `n` frames from frame `frame` on sees of the cycle. -/
def window (frame n : Nat) (r : Reel) : Reel :=
  { r with
    track := { r.track with cycleFrames := n, framesDone := r.track.framesDone - frame }
    output := r.output.map (·.part frame n) }

section Window
variable {input : Option Buffer} {a : Activity} {frame n : Nat} (r : Reel)

theorem endAside_window : (r.endAside a).window frame n = (r.window frame n).endAside a := by
  show window frame n (if r.track.lastActivity.preRecord = true ∧ ¬ a.preRecord = true then _ else _) =
    if r.track.lastActivity.preRecord = true ∧ ¬ a.preRecord = true then _ else _
  split_ifs <;> rfl

theorem mark_window (done : Nat) : (r.mark a (frame + done)).window frame n = (r.window frame n).mark a done := by
  simp only [mark, window, Nat.add_sub_cancel_left]

theorem play_window (i : Nat) (position : Int) :
    (r.play (frame + i) position).window frame n = (r.window frame n).play i position := by
  have hmix : ∀ b : Buffer, (r.mix (frame + i) position b).part frame n =
      (r.window frame n).mix i position (b.part frame n) := by
    intro b
    show ((r.heard position).elim b _ : Buffer).part frame n = (r.heard position).elim (b.part frame n) _
    cases r.heard position with
    | none => rfl
    | some x => exact b.part_modify_inside frame n i _
  simp only [play, window, Option.map_map]
  congr 1
  exact congrArg (Option.map · r.output) (funext hmix)

variable {i : Nat} (h : i < n)
include h

theorem record_window (loopLength : Nat) :
    (r.record input (frame + i) loopLength).window frame n =
      (r.window frame n).record (input.map (·.part frame n)) i loopLength := by
  unfold record
  rw [inputAt_part input h]
  rfl

theorem replace_window (position : Int) :
    (r.replace input (frame + i) position).window frame n =
      (r.window frame n).replace (input.map (·.part frame n)) i position := by
  unfold replace
  rw [inputAt_part input h]
  show window frame n (if 0 ≤ position ∧ position < r.track.dataLength then _ else _) =
    if 0 ≤ position ∧ position < r.track.dataLength then _ else _
  split_ifs <;> rfl

theorem keep_window :
    (r.keep input (frame + i)).window frame n = (r.window frame n).keep (input.map (·.part frame n)) i := by
  unfold keep
  rw [inputAt_part input h]
  rfl

theorem act_window (position : Int) (loopLength : Nat) :
    (r.act input a (frame + i) position loopLength).window frame n =
      (r.window frame n).act (input.map (·.part frame n)) a i position loopLength := by
  unfold act
  split_ifs <;> simp only [play_window, record_window _ h, replace_window _ h, keep_window _ h]

end Window

section Step
variable {input : Option Buffer} {a : Activity} {frame n : Nat} (r : Reel)

/-- A step inside the window is a step of what the window sees. -/
theorem step_window (hfirst : frame ≤ r.track.framesDone) (hlast : r.track.framesDone < frame + n) (position : Int)
    (loopLength : Nat) :
    (r.step input a position loopLength).window frame n =
      (r.window frame n).step (input.map (·.part frame n)) a position loopLength := by
  obtain ⟨i, hi⟩ := Nat.exists_eq_add_of_le hfirst
  have hdone : (r.window frame n).track.framesDone = i := by
    show r.track.framesDone - frame = i
    omega
  unfold step
  rw [hdone, hi, Nat.add_assoc, mark_window, act_window _ (by omega), endAside_window]

/-- Ending what is kept aside does not touch the ports and the output. -/
theorem endAside_ports (a : Activity) :
    (r.endAside a).track.hasInput = r.track.hasInput ∧ (r.endAside a).track.hasOutput = r.track.hasOutput ∧
      (r.endAside a).output = r.output := by
  unfold endAside
  split_ifs <;> exact ⟨rfl, rfl, rfl⟩

theorem replace_rest (i : Nat) (position : Int) :
    (r.replace input i position).track = r.track ∧ (r.replace input i position).output = r.output := by
  unfold replace
  split_ifs <;> exact ⟨rfl, rfl⟩

theorem step_outside (h : r.track.framesDone < frame ∨ frame + n ≤ r.track.framesDone) (position : Int)
    (loopLength : Nat) :
    (r.step input a position loopLength).output.map (·.part frame n) = r.output.map (·.part frame n) := by
  have hmix : ∀ (r' : Reel) (b : Buffer), (r'.mix r.track.framesDone position b).part frame n = b.part frame n := by
    intro r' b
    unfold mix
    cases r'.heard position with
    | none => rfl
    | some x => exact b.part_modify_outside h _
  have hplayed : ∀ r' : Reel, ((r'.play r.track.framesDone position).output).map (·.part frame n) =
      r'.output.map (·.part frame n) := by
    intro r'
    show Option.map _ (r'.output.map _) = _
    rw [Option.map_map]
    exact congrArg (Option.map · r'.output) (funext (hmix r'))
  show ((r.endAside a).act input a r.track.framesDone position loopLength).output.map _ = _
  rw [← (r.endAside_ports a).2.2]
  generalize r.endAside a = r' at *
  unfold act
  dsimp only
  split_ifs <;> simp only [keep, record, (replace_rest _ _ _).2, hplayed]

theorem step_ports (input : Option Buffer) (a : Activity) (position : Int) (loopLength : Nat) :
    let r' := r.step input a position loopLength
    r'.track.hasInput = r.track.hasInput ∧ r'.track.hasOutput = r.track.hasOutput ∧
      r'.output.isSome = r.output.isSome := by
  obtain ⟨hin, hout, houtput⟩ := r.endAside_ports a
  rw [← hin, ← hout, ← houtput]
  show ((r.endAside a).act input a r.track.framesDone position loopLength).track.hasInput = _ ∧
    ((r.endAside a).act input a r.track.framesDone position loopLength).track.hasOutput = _ ∧
      ((r.endAside a).act input a r.track.framesDone position loopLength).output.isSome = _
  generalize r.endAside a = r'
  unfold act
  dsimp only
  split_ifs <;> simp only [keep, record, play, replace_rest, Option.isSome_map, and_self]

end Step

section Chunk
variable {input : Option Buffer} {context : ChunkContext} {frame n : Nat} (r : Reel)

/-- What every frame of a chunk keeps, the whole chunk keeps. -/
theorem chunk_induction (input : Option Buffer) (context : ChunkContext) {motive : Nat → Reel → Prop}
    (hzero : motive 0 r) (hstep : ∀ m r', m < context.frames → motive m r' → ∀ position loopLength,
      motive (m + 1) (step input (r.track.activityIn context) position loopLength r')) :
    motive context.frames (r.chunk input context) := by
  suffices hall : ∀ m ≤ context.frames, motive m (eachFrame (fun i =>
      step input (r.track.activityIn context) (r.track.positionIn context + i) (context.lenBefore + i)) m r) from
    hall _ (Nat.le_refl _)
  intro m
  induction m with
  | zero => exact fun _ => hzero
  | succ m ih => exact fun hm => hstep m _ (by omega) (ih (by omega)) _ _

theorem chunk_framesDone (input : Option Buffer) (context : ChunkContext) :
    (r.chunk input context).track.framesDone = r.track.framesDone + context.frames :=
  r.chunk_induction input context (motive := fun m r' => r'.track.framesDone = r.track.framesDone + m) rfl
    fun _ _ _ h _ _ => congrArg (· + 1) h

theorem chunk_ports (input : Option Buffer) (context : ChunkContext) :
    (r.chunk input context).track.hasInput = r.track.hasInput ∧
      (r.chunk input context).track.hasOutput = r.track.hasOutput ∧
        (r.chunk input context).output.isSome = r.output.isSome := by
  refine r.chunk_induction input context (motive := fun _ r' => r'.track.hasInput = r.track.hasInput ∧
    r'.track.hasOutput = r.track.hasOutput ∧ r'.output.isSome = r.output.isSome) ⟨rfl, rfl, rfl⟩
    fun m r' _ h position loopLength => ?_
  obtain ⟨hin, hout, hbuffer⟩ := r'.step_ports input (r.track.activityIn context) position loopLength
  exact ⟨hin.trans h.1, hout.trans h.2.1, hbuffer.trans h.2.2⟩

theorem chunk_outside (h : frame + n ≤ r.track.framesDone ∨ r.track.framesDone + context.frames ≤ frame) :
    (r.chunk input context).output.map (·.part frame n) = r.output.map (·.part frame n) := by
  have hall := r.chunk_induction input context (motive := fun m r' =>
    r'.track.framesDone = r.track.framesDone + m ∧
      r'.output.map (·.part frame n) = r.output.map (·.part frame n)) ⟨rfl, rfl⟩
    fun m r' hm hr' position loopLength =>
      ⟨congrArg (· + 1) hr'.1, (r'.step_outside (by omega) position loopLength).trans hr'.2⟩
  exact hall.2

/-- To the window around it a chunk is a cycle of its own. -/
theorem chunk_window :
    let first := r.track.framesDone
    (r.chunk input context).window first context.frames =
      (r.window first context.frames).chunk (input.map (·.part first context.frames)) context := by
  intro first
  -- Frame by frame next to each other; the frames done say that each one lies in the window.
  suffices hall : ∀ m ≤ context.frames,
      let r' := eachFrame (fun i => step input (r.track.activityIn context) (r.track.positionIn context + i)
        (context.lenBefore + i)) m r
      r'.track.framesDone = first + m ∧
        r'.window first context.frames =
          eachFrame (fun i => step (input.map (·.part first context.frames)) (r.track.activityIn context)
            (r.track.positionIn context + i) (context.lenBefore + i)) m (r.window first context.frames) from
    (hall _ (Nat.le_refl _)).2
  intro m
  induction m with
  | zero => exact fun _ => ⟨rfl, rfl⟩
  | succ m ih =>
    intro hm
    obtain ⟨hdone, hwindow⟩ := ih (by omega)
    refine ⟨congrArg (· + 1) hdone, ?_⟩
    rw [eachFrame, step_window _ (by omega) (by omega), hwindow]
    rfl

end Chunk

/-! ## Cycles as pieces -/

/-- The reel between two cycles. -/
def atRest (r : Reel) : Reel := { r with track := r.track.prepare 0 false false, output := none }

/-- Begins a cycle that consists of one piece. -/
def load (p : Piece) (r : Reel) : Reel :=
  { r with track := r.track.prepare p.context.frames p.input.isSome p.output.isSome, output := p.output }

/-- A piece as a cycle of its own. -/
def pass (p : Piece) (r : Reel) : Reel := (r.load p).chunk p.input p.context

/-- One piece after the other, and the pieces with the output they end with. -/
def passAll : List Piece → Reel → Reel × List Piece
  | [], r => (r.atRest, [])
  | p :: rest, r =>
    let passed := r.pass p
    let (last, played) := passed.passAll rest
    (last, { p with output := passed.output } :: played)

theorem passAll_atRest (pieces : List Piece) (r : Reel) : r.atRest.passAll pieces = r.passAll pieces := by
  cases pieces <;> rfl

theorem passAll_append (pieces more : List Piece) (r : Reel) :
    r.passAll (pieces ++ more) =
      (((r.passAll pieces).1.passAll more).1, (r.passAll pieces).2 ++ ((r.passAll pieces).1.passAll more).2) := by
  induction pieces generalizing r with
  | nil => exact congrArg (fun x : Reel × List Piece => (x.1, x.2)) (passAll_atRest more r).symm
  | cons p rest ih =>
    simp only [List.cons_append, passAll, ih]

theorem length_passAll (pieces : List Piece) (r : Reel) : (r.passAll pieces).2.length = pieces.length := by
  induction pieces generalizing r with
  | nil => rfl
  | cons p rest ih => exact congrArg (· + 1) (ih (r.pass p))

/-- A chunk in the middle of a cycle is a piece. -/
theorem chunk_eq_pass {input : Option Buffer} (context : ChunkContext) {r : Reel}
    (hin : r.track.hasInput = input.isSome) (hout : r.track.hasOutput = r.output.isSome) :
    let frame := r.track.framesDone
    let passed := r.pass (.ofCycle input r.output frame context)
    (r.chunk input context).atRest = passed.atRest ∧
      (r.chunk input context).output.map (·.part frame context.frames) = passed.output := by
  intro frame passed
  have hload : r.window frame context.frames = r.load (.ofCycle input r.output frame context) := by
    simp only [window, load, Piece.ofCycle, Track.prepare, frame, Nat.sub_self, Option.isSome_map, ← hin, ← hout]
  have hpass : (r.chunk input context).window frame context.frames = passed := by
    rw [chunk_window, hload]
    rfl
  rw [← hpass]
  exact ⟨rfl, rfl⟩

/-- A cycle does not touch the output in front of where it has got to. -/
theorem run_before {input : Option Buffer} {contexts : List ChunkContext} {frame n : Nat} {r : Reel}
    (h : frame + n ≤ r.track.framesDone) :
    (r.run input contexts).output.map (·.part frame n) = r.output.map (·.part frame n) := by
  induction contexts generalizing r with
  | nil => rfl
  | cons context rest ih =>
    have hdone := r.chunk_framesDone input context
    exact (ih (r := r.chunk input context) (by omega)).trans (r.chunk_outside (.inl h))

/-- The chunks of a cycle are pieces, one after the other. -/
theorem run_eq_passAll (input : Option Buffer) (contexts : List ChunkContext) {r : Reel}
    (hin : r.track.hasInput = input.isSome) (hout : r.track.hasOutput = r.output.isSome) :
    ((r.run input contexts).atRest, cut input (r.run input contexts).output r.track.framesDone contexts) =
      r.passAll (cut input r.output r.track.framesDone contexts) := by
  induction contexts generalizing r with
  | nil => rfl
  | cons context rest ih =>
    obtain ⟨hrested, hpart⟩ := chunk_eq_pass context hin hout
    obtain ⟨hin', hout', hbuffer⟩ := r.chunk_ports input context
    have hdone := r.chunk_framesDone input context
    have hlater : cut input (r.chunk input context).output (r.track.framesDone + context.frames) rest =
        cut input r.output (r.track.framesDone + context.frames) rest :=
      cut_congr (fun frame n h => r.chunk_outside (.inr h)) rest
    have hrest := ih (r := r.chunk input context) (hin'.trans hin) (hout'.trans (hout.trans hbuffer.symm))
    rw [hdone, hlater, ← passAll_atRest, hrested, passAll_atRest, Prod.ext_iff] at hrest
    -- Nothing of the output of the first chunk changes afterwards.
    have hfirst : Piece.ofCycle input ((r.chunk input context).run input rest).output r.track.framesDone context =
        { Piece.ofCycle input r.output r.track.framesDone context with
          output := (r.pass (.ofCycle input r.output r.track.framesDone context)).output } :=
      congrArg (Piece.mk context _) ((run_before (Nat.le_of_eq hdone.symm)).trans hpart)
    exact Prod.ext hrest.1 (congrArg₂ List.cons hfirst hrest.2)

end Reel

/-! ## Cycles of a channel -/

/-- A cycle that a channel takes part in. -/
structure Cycle where
  contexts : List ChunkContext
  /-- What is recorded, if the port recorded from takes part. -/
  input : Option Buffer := none
  /-- What playback is added to, if the port played into takes part. -/
  output : Option Buffer := none
  /-- The pool as the end of the cycle finds it; other channels use it too. -/
  pool : Pool

namespace Cycle

def frames (k : Cycle) : Nat := (k.contexts.map (·.frames)).sum

def pieces (k : Cycle) : List Piece := cut k.input k.output 0 k.contexts

/-- The buffers cover all chunks, none of which is empty. -/
structure Valid (k : Cycle) : Prop where
  pos : ∀ context ∈ k.contexts, 0 < context.frames
  frames_le : k.frames ≤ maxFrames
  input : ∀ b ∈ k.input, b.length = k.frames
  output : ∀ b ∈ k.output, b.length = k.frames

theorem valid_iff {k : Cycle} :
    k.Valid ↔ (∀ context ∈ k.contexts, 0 < context.frames) ∧ k.frames ≤ maxFrames ∧
      (∀ b ∈ k.input, b.length = k.frames) ∧ ∀ b ∈ k.output, b.length = k.frames :=
  ⟨fun ⟨h₁, h₂, h₃, h₄⟩ => ⟨h₁, h₂, h₃, h₄⟩, fun ⟨h₁, h₂, h₃, h₄⟩ => ⟨h₁, h₂, h₃, h₄⟩⟩

instance (k : Cycle) : Decidable k.Valid := decidable_of_iff _ valid_iff.symm

/-- The channel at the end of the cycle, before its commands are carried out. -/
def decided (k : Cycle) (c : Channel) : Channel :=
  (c.prepare k.frames k.input.isSome k.output.isSome).advance k.contexts

/-- The channel after the cycle. -/
def after (k : Cycle) (c : Channel) : Channel := ((k.decided c).finalize k.input k.output k.pool).1

/-- The cycle with what has been added to its output. -/
def played (k : Cycle) (c : Channel) : Cycle :=
  { k with output := ((k.decided c).finalize k.input k.output k.pool).2.1 }

end Cycle

namespace Channel
variable {c : Channel} {pool : Pool}

/-- The channel after some cycles, and their pieces with what has been added to
their output. -/
def playThrough (c : Channel) : List Cycle → Channel × List Piece
  | [] => (c, [])
  | k :: rest =>
    let (last, played) := (k.after c).playThrough rest
    (last, (k.played c).pieces ++ played)

theorem process_startOffset_nonneg (h : 0 ≤ c.track.startOffset) (context : ChunkContext) :
    0 ≤ (c.process context).1.track.startOffset := by
  by_cases hover : c.track.overruns context.frames = true
  · unfold process
    rw [if_pos hover]
    exact h
  · rw [(c.process_anchor context (Bool.not_eq_true _ ▸ hover)).2, endPreRecord_track]
    split_ifs
    · exact Int.natCast_nonneg _
    · exact h
    · exact h

theorem advance_startOffset_nonneg (h : 0 ≤ c.track.startOffset) (contexts : List ChunkContext) :
    0 ≤ (c.advance contexts).track.startOffset := by
  induction contexts generalizing c with
  | nil => exact h
  | cons context rest ih => exact ih (process_startOffset_nonneg h context)

theorem anchored_of_nonneg (h : 0 ≤ c.track.startOffset) (contexts : List ChunkContext) : Anchored contexts c := by
  induction contexts generalizing c with
  | nil => trivial
  | cons context rest ih =>
    have hnext := process_startOffset_nonneg h context
    exact ⟨fun _ => hnext, ih hnext⟩

theorem advance_backed (h : c.Backed pool) (contexts : List ChunkContext) : (c.advance contexts).Backed pool := by
  induction contexts generalizing c with
  | nil => exact h
  | cons context rest ih => exact ih (process_backed h context)

/-- A cycle leaves the channel on any pool of its size. -/
theorem after_backed {k : Cycle} (h : c.Backed k.pool) (hpool : c.Backed pool) : (k.after c).Backed pool := by
  have hended := finalize_backed (advance_backed (c := c.prepare k.frames k.input.isSome k.output.isSome)
    ⟨h.store, h.preRecord⟩ k.contexts) k.input k.output
  have hsize : pool.bufferSize = ((k.decided c).finalize k.input k.output k.pool).2.2.1.bufferSize :=
    hpool.store.size.symm.trans (h.store.size.trans (finalize_trades _ _ _ _).size.symm)
  exact hended.of_pool hpool.store.silent hsize

theorem after_startOffset_nonneg (h : 0 ≤ c.track.startOffset) (k : Cycle) : 0 ≤ (k.after c).track.startOffset :=
  advance_startOffset_nonneg (c := c.prepare k.frames k.input.isSome k.output.isSome) h k.contexts

/-- At the beginning of a cycle nothing has been decided. -/
theorem stage_prepare {k : Cycle} (hvalid : k.Valid) (hbacked : c.Backed k.pool) :
    Stage k.input k.output k.pool 0 k.frames (c.prepare k.frames k.input.isSome k.output.isSome)
      ((c.prepare k.frames k.input.isSome k.output.isSome).reel k.output) where
  sound := ⟨⟨hbacked.store, hbacked.preRecord⟩, rfl⟩
  view := rfl
  done := rfl
  left := Nat.zero_add _
  hasInput := rfl
  hasOutput := rfl
  source := fun h => (Option.isSome_iff_exists.mp h).imp fun b hb => ⟨hb, hvalid.input b hb⟩
  target := fun h => (Option.isSome_iff_exists.mp h).imp fun b hb => ⟨hb, hvalid.output b hb⟩

/-- A cycle ends as its frames taken one by one do. -/
theorem after_eq_run {k : Cycle} (hvalid : k.Valid) (hbacked : c.Backed k.pool) (hstart : 0 ≤ c.track.startOffset) :
    (k.after c).reel (k.played c).output =
      ((c.prepare k.frames k.input.isSome k.output.isSome).reel k.output).run k.input k.contexts := by
  have hanchored := anchored_of_nonneg (c := c.prepare k.frames k.input.isSome k.output.isSome) hstart k.contexts
  exact ((stage_prepare hvalid hbacked).advance hvalid.frames_le hvalid.pos (Nat.le_refl _) hanchored).view

/-- A cycle is its pieces, one after the other. -/
theorem after_eq_passAll {k : Cycle} (hvalid : k.Valid) (hbacked : c.Backed k.pool)
    (hstart : 0 ≤ c.track.startOffset) :
    (((k.after c).reel none).atRest, (k.played c).pieces) = (c.reel none).passAll k.pieces := by
  have hrun := after_eq_run hvalid hbacked hstart
  have hpieces := Reel.run_eq_passAll k.input k.contexts
    (r := (c.prepare k.frames k.input.isSome k.output.isSome).reel k.output) rfl rfl
  rw [← hrun, ← Reel.passAll_atRest] at hpieces
  rw [← Reel.passAll_atRest]
  exact hpieces

/-- It makes no difference where cycles end. -/
theorem playThrough_eq {cycles : List Cycle} (hvalid : ∀ k ∈ cycles, k.Valid)
    (hbacked : ∀ k ∈ cycles, c.Backed k.pool) (hstart : 0 ≤ c.track.startOffset) :
    (((c.playThrough cycles).1.reel none).atRest, (c.playThrough cycles).2) =
      (c.reel none).passAll (cycles.flatMap Cycle.pieces) := by
  induction cycles generalizing c with
  | nil => rfl
  | cons k rest ih =>
    rw [List.forall_mem_cons] at hvalid hbacked
    have hfirst := after_eq_passAll hvalid.1 hbacked.1 hstart
    have hrest := ih hvalid.2 (fun k' hk' => after_backed hbacked.1 (hbacked.2 k' hk'))
      (after_startOffset_nonneg hstart k)
    rw [List.flatMap_cons, Reel.passAll_append, ← hfirst, Reel.passAll_atRest, ← hrest]
    rfl

end Channel

end Overdub.Audio
