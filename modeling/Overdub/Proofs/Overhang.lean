import Overdub.Proofs.Take
/-!
# Takes that begin in front of the data

If the start offset of a channel is negative, the first frames of its loop lie in
front of its data. A chunk that begins there is recorded from the beginning of the
data on, in place of what is there. So of the chunks that begin no later than the
data do, only the last one is left, and if the next one begins behind its first
frames it keeps these and not its last ones (`Channel.take_overhangs`).

`Reel.anchor` says where a chunk is recorded. With it a channel comes out as its
pieces taken one by one do, whatever its start offset (`Channel.playThrough_anchored`).
-/

namespace Overdub.Audio

/-! ## Pieces in front of the data -/

/-- The piece as it is recorded. -/
def Piece.anchored (r : Reel) (p : Piece) : Piece := { p with context := (r.load p).anchor p.context }

theorem Piece.Sound.anchored {p : Piece} (h : p.Sound) (r : Reel) : (p.anchored r).Sound := ⟨h.pos, h.input, h.output⟩

namespace Reel

/-- The chunks of a cycle, as they are recorded. -/
def runAnchored (input : Option Buffer) (contexts : List ChunkContext) (r : Reel) : Reel :=
  contexts.foldl (fun r context => r.chunk input (r.anchor context)) r

/-- One piece after the other, as they are recorded. -/
def passAnchored : List Piece → Reel → Reel
  | [], r => r.atRest
  | p :: rest, r => passAnchored rest (r.pass (p.anchored r))

theorem passAnchored_atRest (pieces : List Piece) (r : Reel) : r.atRest.passAnchored pieces = r.passAnchored pieces := by
  cases pieces <;> rfl

theorem passAnchored_append (pieces more : List Piece) (r : Reel) :
    r.passAnchored (pieces ++ more) = (r.passAnchored pieces).passAnchored more := by
  induction pieces generalizing r with
  | nil => exact (passAnchored_atRest more r).symm
  | cons p rest ih => exact ih (r.pass (p.anchored r))

/-- A chunk in the middle of a cycle is recorded where it is as a cycle of its own. -/
theorem anchored_ofCycle {input : Option Buffer} {r : Reel} (hin : r.track.hasInput = input.isSome)
    (hout : r.track.hasOutput = r.output.isSome) (frame : Nat) (context : ChunkContext) :
    (Piece.ofCycle input r.output frame context).anchored r = .ofCycle input r.output frame (r.anchor context) := by
  have hactivity : (r.load (.ofCycle input r.output frame context)).track.activityIn context =
      r.track.activityIn context := by
    unfold Track.activityIn Track.permit load Track.prepare Piece.ofCycle
    simp only [Option.isSome_map, ← hin, ← hout]
    rfl
  have hoffset : ∀ a, ((r.load (.ofCycle input r.output frame context)).endAside a).track.startOffset =
      (r.endAside a).track.startOffset := by
    intro a
    unfold endAside
    rw [show (r.load (.ofCycle input r.output frame context)).track.lastActivity = r.track.lastActivity from rfl]
    split_ifs <;> rfl
  unfold Piece.anchored
  show Piece.mk ((r.load (.ofCycle input r.output frame context)).anchor context) _ _ = _
  unfold anchor
  dsimp only
  rw [hactivity, hoffset]
  rfl

/-- The chunks of a cycle are pieces, one after the other. -/
theorem runAnchored_eq (input : Option Buffer) (contexts : List ChunkContext) {r : Reel}
    (hin : r.track.hasInput = input.isSome) (hout : r.track.hasOutput = r.output.isSome) :
    (r.runAnchored input contexts).atRest = r.passAnchored (cut input r.output r.track.framesDone contexts) := by
  induction contexts generalizing r with
  | nil => rfl
  | cons context rest ih =>
    obtain ⟨hrested, -⟩ := chunk_eq_pass (r.anchor context) hin hout
    obtain ⟨hin', hout', hbuffer⟩ := r.chunk_ports input (r.anchor context)
    have hdone : (r.chunk input (r.anchor context)).track.framesDone = r.track.framesDone + context.frames :=
      r.chunk_framesDone input (r.anchor context)
    have hlater : cut input (r.chunk input (r.anchor context)).output (r.track.framesDone + context.frames) rest =
        cut input r.output (r.track.framesDone + context.frames) rest :=
      cut_congr (fun frame n h => r.chunk_outside (.inr h)) rest
    have hrest := ih (r := r.chunk input (r.anchor context)) (hin'.trans hin) (hout'.trans (hout.trans hbuffer.symm))
    rw [hdone, hlater, ← passAnchored_atRest, hrested, passAnchored_atRest] at hrest
    unfold cut passAnchored
    rw [anchored_ofCycle hin hout]
    exact hrest

end Reel

namespace Channel
variable {c : Channel}

theorem Stage.runAnchored {input output : Option Buffer} {pool : Pool} {frame n : Nat} {r : Reel}
    (h : Stage input output pool frame n c r) (hmax : n ≤ maxFrames) {contexts : List ChunkContext}
    (hpos : ∀ context ∈ contexts, 0 < context.frames) (hsum : (contexts.map (·.frames)).sum ≤ n) :
    Stage input output pool (frame + (contexts.map (·.frames)).sum) (n - (contexts.map (·.frames)).sum)
      (c.advance contexts) (r.runAnchored input contexts) := by
  induction contexts generalizing frame n c r with
  | nil => exact h
  | cons context rest ih =>
    rw [List.forall_mem_cons] at hpos
    rw [List.map_cons, List.sum_cons] at hsum ⊢
    have hnext := h.process hpos.1 (by omega) (by omega)
    rw [← Nat.add_assoc, ← Nat.sub_sub]
    exact ih hnext (by omega) hpos.2 (by omega)

/-- A cycle is its pieces, one after the other. -/
theorem after_anchored {k : Cycle} (hvalid : k.Valid) (hbacked : c.Backed k.pool) :
    ((k.after c).reel none).atRest = (c.reel none).passAnchored k.pieces := by
  have hrun : (k.after c).reel (k.played c).output = _ :=
    ((stage_prepare hvalid hbacked).runAnchored hvalid.frames_le hvalid.pos (Nat.le_refl _)).view
  have hpieces := Reel.runAnchored_eq k.input k.contexts
    (r := (c.prepare k.frames k.input.isSome k.output.isSome).reel k.output) rfl rfl
  rw [← hrun, ← Reel.passAnchored_atRest] at hpieces
  rw [← Reel.passAnchored_atRest]
  exact hpieces

/-- Wherever cycles end and the data begin, a channel comes out as its pieces taken one by one do. -/
theorem playThrough_anchored {cycles : List Cycle} (hvalid : ∀ k ∈ cycles, k.Valid)
    (hbacked : ∀ k ∈ cycles, c.Backed k.pool) :
    ((c.playThrough cycles).1.reel none).atRest = (c.reel none).passAnchored (cycles.flatMap Cycle.pieces) := by
  induction cycles generalizing c with
  | nil => rfl
  | cons k rest ih =>
    rw [List.forall_mem_cons] at hvalid hbacked
    have hrest := ih hvalid.2 fun k' hk' => after_backed hbacked.1 (hbacked.2 k' hk')
    rw [List.flatMap_cons, Reel.passAnchored_append, ← after_anchored hvalid.1 hbacked.1, Reel.passAnchored_atRest,
      ← hrest]
    rfl

end Channel

/-! ## What is left of a take -/

theorem Tape.Holds.take {t : Tape} {position : Nat} {source : Buffer} (h : t.Holds position source) (n : Nat) :
    t.Holds position (source.take n) := by
  intro i hi hroom
  rw [List.length_take] at hi
  rw [List.getElem?_take, if_pos (by omega)]
  exact h i (by omega) hroom

/-- What is left of data when pieces are recorded one after the other, the first of them behind so many frames of
the loop, `front` of which lie in front of the data. -/
def overlay (front : Nat) : Nat → Buffer → List Piece → Buffer
  | _, data, [] => data
  | position, data, p :: rest =>
    overlay front (position + p.context.frames) (data.take (position - front) ++ p.input.getD []) rest

/-- Behind the beginning of the data nothing is lost. -/
theorem overlay_behind {front position : Nat} (hposition : front ≤ position) {data : Buffer}
    (hdata : data.length = position - front) {pieces : List Piece} (hsound : ∀ p ∈ pieces, p.Sound)
    (hrecords : ∀ p ∈ pieces, p.Records) :
    overlay front position data pieces = data ++ Piece.recorded pieces := by
  induction pieces generalizing position data with
  | nil => exact (List.append_nil data).symm
  | cons p rest ih =>
    rw [List.forall_mem_cons] at hsound hrecords
    have hlength := Reel.length_input hsound.1 hrecords.1.input
    have hdata' : (data ++ p.input.getD []).length = position + p.context.frames - front := by
      rw [List.length_append, hlength]
      omega
    rw [overlay, ← hdata, List.take_length, ih (by omega) hdata' hsound.2 hrecords.2, List.append_assoc]
    rfl

/-- Of the pieces that begin no later than the data, only the last one is left, with its first frames if the next
one begins behind them. -/
theorem exists_overlay {front position : Nat} (hposition : position ≤ front) (data : Buffer) {pieces : List Piece}
    (hsome : pieces ≠ []) (hsound : ∀ p ∈ pieces, p.Sound) (hrecords : ∀ p ∈ pieces, p.Records) :
    ∃ before crossing behind, pieces = before ++ crossing :: behind ∧
      let start := position + (Piece.recorded before).length
      start ≤ front ∧ (behind.isEmpty = false → front < start + crossing.context.frames) ∧
        overlay front position data pieces =
          (crossing.input.getD []).take
            (if behind.isEmpty then crossing.context.frames else start + crossing.context.frames - front) ++
              Piece.recorded behind := by
  induction pieces generalizing position data with
  | nil => exact absurd rfl hsome
  | cons p rest ih =>
    rw [List.forall_mem_cons] at hsound hrecords
    have hlength := Reel.length_input hsound.1 hrecords.1.input
    have hfirst : overlay front position data (p :: rest) =
        overlay front (position + p.context.frames) (p.input.getD []) rest := by
      rw [overlay, Nat.sub_eq_zero_of_le hposition, List.take_zero, List.nil_append]
    cases rest with
    | nil =>
      refine ⟨[], p, [], rfl, hposition, nofun, ?_⟩
      rw [hfirst, List.isEmpty_nil, if_pos rfl, ← hlength, List.take_length]
      exact (List.append_nil _).symm
    | cons q rest =>
      by_cases hlater : position + p.context.frames ≤ front
      · obtain ⟨before, crossing, behind, hsplit, hstart, hcrosses, hleft⟩ :=
          ih hlater (p.input.getD []) (List.cons_ne_nil _ _) hsound.2 hrecords.2
        have hshift : position + (Piece.recorded (p :: before)).length =
            position + p.context.frames + (Piece.recorded before).length := by
          show position + (p.input.getD [] ++ Piece.recorded before).length = _
          rw [List.length_append, hlength, Nat.add_assoc]
        refine ⟨p :: before, crossing, behind, congrArg (p :: ·) hsplit, ?_⟩
        rw [hshift, hfirst]
        exact ⟨hstart, hcrosses, hleft⟩
      · refine ⟨[], p, q :: rest, rfl, hposition, fun _ => Nat.lt_of_not_le hlater, ?_⟩
        rw [List.forall_mem_cons] at hsound hrecords
        have hnext := Reel.length_input hsound.2.1 hrecords.2.1.input
        have hdata : ((p.input.getD []).take (position + p.context.frames - front) ++ q.input.getD []).length =
            position + p.context.frames + q.context.frames - front := by
          rw [List.length_append, List.length_take, hlength, hnext]
          omega
        rw [hfirst, overlay, overlay_behind (by omega) hdata hsound.2.2 hrecords.2.2, List.append_assoc]
        rfl

/-- Where in the take the samples that are left of it come from. -/
theorem getElem?_left {lost samples behind : Buffer} {front kept d : Nat} (hkept : kept ≤ samples.length)
    (hfront : behind ≠ [] → lost.length + samples.length = kept + front) (hd : d < kept + behind.length) :
    (samples.take kept ++ behind)[d]? =
      (lost ++ (samples ++ behind))[if d < kept then lost.length + d else d + front]? := by
  have hlength : (samples.take kept).length = kept := List.length_take_of_le hkept
  split_ifs with hfirst
  · rw [List.getElem?_append_left (by omega), List.getElem?_take, if_pos hfirst, List.getElem?_append_right (by omega),
      Nat.add_sub_cancel_left, List.getElem?_append_left (by omega)]
  · have hshift := hfront (List.ne_nil_of_length_pos (by omega))
    rw [List.getElem?_append_right (by omega), List.getElem?_append_right (by omega),
      List.getElem?_append_right (by omega), hlength]
    congr 1
    omega

/-- How much is kept of the piece that crosses the beginning of the data. -/
theorem kept_cases {front start n : Nat} {behind : List Piece} (hpos : 0 < n) (hstart : start ≤ front)
    (hcrosses : behind.isEmpty = false → front < start + n) :
    let kept := if behind.isEmpty then n else start + n - front
    0 < kept ∧ kept ≤ n ∧ (start = front → kept = n) ∧
      (Piece.recorded behind ≠ [] → start + n = kept + front) ∧
        kept + (Piece.recorded behind).length =
          if behind.isEmpty then n else start + (n + (Piece.recorded behind).length) - front := by
  intro kept
  have hkeeps : kept = if behind.isEmpty then n else start + n - front := rfl
  cases hempty : behind.isEmpty with
  | true =>
    obtain rfl := List.isEmpty_iff.mp hempty
    rw [List.isEmpty_nil, if_pos rfl] at hkeeps
    rw [hkeeps]
    exact ⟨hpos, Nat.le_refl n, fun _ => rfl, fun hsome => absurd rfl hsome, rfl⟩
  | false =>
    have hcross := hcrosses hempty
    rw [hempty, if_neg Bool.false_ne_true] at hkeeps
    rw [if_neg Bool.false_ne_true]
    omega

namespace Reel

/-- A reel of the channel that holds what is left of a take. -/
structure Overhangs (c : Channel) (data : Buffer) (r : Reel) : Prop where
  mode : r.track.mode = c.track.mode
  startOffset : r.track.startOffset = c.track.startOffset
  main : r.main.Fits c.store.reserved
  holds : r.main.Holds 0 data
  dataLength : data ≠ [] → r.track.dataLength = data.length

namespace Overhangs
variable {c : Channel} {data : Buffer} {r : Reel} {p : Piece} {pieces : List Piece}

theorem atRest (h : Overhangs c data r) : Overhangs c data r.atRest :=
  ⟨h.mode, h.startOffset, h.main, h.holds, h.dataLength⟩

/-- A piece that does not record leaves the take as it is, unless it replaces some of it. -/
theorem rest (h : Overhangs c data r) (hsound : p.Sound) (hrecord : (p.activity c.track.mode).record = false)
    (hreplace : data = [] ∨ (p.activity c.track.mode).replace = false) : Overhangs c data (r.pass p) := by
  rw [← h.mode] at hrecord hreplace
  obtain ⟨-, hmode, hoffset, hlength, position, source, hmain, hnone⟩ := r.pass_of_not_record hsound.pos hrecord
  refine ⟨hmode.trans h.mode, hoffset.trans h.startOffset, hmain ▸ h.main.putAll position source, ?_,
    fun hsome => hlength.trans (h.dataLength hsome)⟩
  rcases hreplace with rfl | hkeeps
  · exact Tape.holds_nil _ _
  · rw [hmain, hnone hkeeps]
    exact h.holds

/-- A recorded piece takes the place of what is behind where it begins. -/
theorem record (h : Overhangs c data r) (hlast : r.track.lastActivity.preRecord = false)
    (hdisabled : c.track.mode ≠ .disabled) (hstart : c.track.startOffset ≤ 0) (hsound : p.Sound) (hrecords : p.Records)
    (hbehind : p.context.lenBefore - (-c.track.startOffset).toNat ≤ data.length) :
    Overhangs c (data.take (p.context.lenBefore - (-c.track.startOffset).toNat) ++ p.input.getD [])
        (r.pass (p.anchored r)) ∧
      (r.pass (p.anchored r)).track.lastActivity.preRecord = false := by
  have hactivity : p.activity r.track.mode = { record := true } := hrecords.activity (h.mode ▸ hdisabled)
  have hquiet : ∀ p : Piece, (r.load p).endAside { record := true } = r.load p := fun p =>
    if_neg fun hends => absurd (hlast.symm.trans hends.1) (by decide)
  have hposition : (p.anchored r).context.lenBefore +
      ((r.load (p.anchored r)).endAside { record := true }).track.startOffset =
        (p.context.lenBefore - (-c.track.startOffset).toNat : Nat) := by
    have hanchored : (p.anchored r).context.lenBefore = max p.context.lenBefore (-c.track.startOffset).toNat := by
      show (if ((r.load p).track.activityIn p.context).record = true then _ else _) = _
      rw [activityIn_load, hactivity, if_pos rfl, hquiet, ← h.startOffset]
      rfl
    have hoffset : (r.load (p.anchored r)).track.startOffset = c.track.startOffset := h.startOffset
    rw [hquiet, hanchored, hoffset]
    omega
  have hpass := r.pass_of_record (hsound.anchored r) hrecords.input hactivity hposition
  rw [hquiet] at hpass
  rw [hpass]
  generalize p.context.lenBefore - (-c.track.startOffset).toNat = position at hbehind
  have hlength : (data.take position).length = position := List.length_take_of_le hbehind
  refine ⟨⟨h.mode, h.startOffset, h.main.putAll _ _, ?_, fun _ => ?_⟩, rfl⟩
  · refine ((h.holds.take position).putAll h.main.size_pos (by omega) _).append ?_
    rw [Nat.zero_add, hlength]
    exact Tape.putAll_holds h.main.size_pos _ _
  · show position + (p.input.getD []).length = _
    rw [List.length_append, hlength]

theorem recordAll (h : Overhangs c data r) (hlast : r.track.lastActivity.preRecord = false)
    (hdisabled : c.track.mode ≠ .disabled) (hstart : c.track.startOffset ≤ 0) (hsound : ∀ p ∈ pieces, p.Sound)
    (hrecords : ∀ p ∈ pieces, p.Records) {position : Nat} (hfollow : Piece.Follow (·.lenBefore) position pieces)
    (hbehind : position - (-c.track.startOffset).toNat ≤ data.length) :
    Overhangs c (overlay (-c.track.startOffset).toNat position data pieces) (r.passAnchored pieces) := by
  induction pieces generalizing r data position with
  | nil => exact h.atRest
  | cons p rest ih =>
    rw [List.forall_mem_cons] at hsound hrecords
    obtain ⟨hposition, hfollow⟩ := hfollow
    have hposition : p.context.lenBefore = position := hposition
    have hlength := length_input hsound.1 hrecords.1.input
    obtain ⟨hnext, hquiet⟩ := h.record hlast hdisabled hstart hsound.1 hrecords.1 (hposition ▸ hbehind)
    rw [hposition] at hnext
    exact ih hnext hquiet hsound.2 hrecords.2 hfollow (by
      rw [List.length_append, List.length_take, hlength]
      omega)

/-- A piece does not read how long its loop is, unless it is recorded. -/
theorem restAll (h : Overhangs c data r) (hsound : ∀ p ∈ pieces, p.Sound)
    (hrests : ∀ p ∈ pieces, (p.activity c.track.mode).record = false ∧ (p.activity c.track.mode).replace = false) :
    Overhangs c data (r.passAnchored pieces) := by
  induction pieces generalizing r with
  | nil => exact h.atRest
  | cons p rest ih =>
    rw [List.forall_mem_cons] at hsound hrests
    exact ih (h.rest (hsound.1.anchored r) hrests.1.1 (.inr hrests.1.2)) hsound.2 hrests.2

/-- In front of the take, with nothing kept aside. -/
theorem idleAll (h : Overhangs c [] r) (hlast : r.track.lastActivity.preRecord = false)
    (hsound : ∀ p ∈ pieces, p.Sound)
    (hidle : ∀ p ∈ pieces, (p.activity c.track.mode).record = false ∧ (p.activity c.track.mode).preRecord = false) :
    Overhangs c [] (r.passAnchored pieces) ∧ (r.passAnchored pieces).track.lastActivity.preRecord = false := by
  induction pieces generalizing r with
  | nil => exact ⟨h.atRest, hlast⟩
  | cons p rest ih =>
    rw [List.forall_mem_cons] at hsound hidle
    obtain ⟨hquiet, -⟩ := r.pass_of_idle (hsound.1.anchored r).pos
      (h.mode ▸ (show ((p.anchored r).activity c.track.mode).record = false ∧ _ from hidle.1)) hlast
    exact ih (h.rest (hsound.1.anchored r) hidle.1.1 (.inl rfl)) hquiet hsound.2 hidle.2

end Overhangs

end Reel

namespace Channel

/-- A run of cycles in which a take is recorded by a channel whose data begin with the loop or behind its
beginning. -/
structure Overhang (c : Channel) (cycles : List Cycle) (before take between : List Piece) : Prop where
  backed : ∀ k ∈ cycles, c.Backed k.pool
  valid : ∀ k ∈ cycles, k.Valid
  enabled : c.track.mode ≠ .disabled
  startOffset : c.track.startOffset ≤ 0
  /-- Nothing is kept aside at first. -/
  nothingAside : c.track.lastActivity.preRecord = false
  pieces : cycles.flatMap Cycle.pieces = before ++ take ++ between
  idle : ∀ p ∈ before, (p.activity c.track.mode).record = false ∧ (p.activity c.track.mode).preRecord = false
  records : ∀ p ∈ take, p.Records
  nonempty : take ≠ []
  /-- The loop is empty when the recording begins. -/
  fromEmpty : Piece.Follow (·.lenBefore) 0 take
  rests : ∀ p ∈ between, (p.activity c.track.mode).record = false ∧ (p.activity c.track.mode).replace = false

namespace Overhang
variable {c : Channel} {cycles : List Cycle} {before take between : List Piece}

theorem sound (h : Overhang c cycles before take between) :
    (∀ p ∈ before, p.Sound) ∧ (∀ p ∈ take, p.Sound) ∧ ∀ p ∈ between, p.Sound := by
  have hall : ∀ p ∈ cycles.flatMap Cycle.pieces, p.Sound := by
    intro p hp
    obtain ⟨k, hk, hpk⟩ := List.mem_flatMap.mp hp
    exact (h.valid k hk).pieces p hpk
  rw [h.pieces] at hall
  simpa only [List.forall_mem_append, and_assoc] using hall

/-- There are cycles, so the stores of the channel are sound. -/
theorem fits (h : Overhang c cycles before take between) : c.store.tape.Fits c.store.reserved := by
  obtain ⟨k, hk⟩ : ∃ k, k ∈ cycles := by
    refine List.exists_mem_of_ne_nil _ fun hnil => h.nonempty ?_
    have hpieces := h.pieces
    rw [hnil, List.flatMap_nil, eq_comm, List.append_eq_nil_iff, List.append_eq_nil_iff] at hpieces
    exact hpieces.1.2
  exact (h.backed k hk).store.fits

/-- One phase after the other, the take is recorded and left alone. -/
theorem ended (h : Overhang c cycles before take between) :
    Reel.Overhangs c (overlay (-c.track.startOffset).toNat 0 [] take) ((c.playThrough cycles).1.reel none).atRest := by
  obtain ⟨hbefore, htake, hbetween⟩ := h.sound
  have hbegin : Reel.Overhangs c [] (c.reel none) :=
    ⟨rfl, rfl, h.fits, Tape.holds_nil _ _, fun hsome => absurd rfl hsome⟩
  obtain ⟨hidle, hquiet⟩ := hbegin.idleAll h.nothingAside hbefore h.idle
  have htaken := hidle.recordAll hquiet h.enabled h.startOffset htake h.records h.fromEmpty
    (Nat.le_of_eq (Nat.zero_sub _))
  rw [playThrough_anchored h.valid h.backed, h.pieces, Reel.passAnchored_append, Reel.passAnchored_append]
  exact htaken.restAll hbetween h.rests

end Overhang

/-- The data of a channel whose reel holds what is left of a take. -/
theorem data_of_overhangs {c ended : Channel} {left : Buffer} (h : Reel.Overhangs c left (ended.reel none).atRest)
    (hsome : left ≠ []) :
    ended.track.dataLength = left.length ∧
      ∀ d < left.length, ended.data[d]? = if d < c.store.reserved then left[d]? else some 0 := by
  have hlength : ended.track.dataLength = left.length := h.dataLength hsome
  refine ⟨hlength, fun d hd => ?_⟩
  have hsample := h.main.sample h.holds hd
  rw [Nat.zero_add] at hsample
  exact (getElem?_data (hlength.symm ▸ hd)).trans hsample

/-- A take that begins in front of the data. Of the chunks that begin no later than the data only the last one is
left, which is `crossing` the beginning of the data or begins there. It lies at the beginning of the data from its
first frame on, as far as the next chunk leaves it, and what comes behind it lies where it belongs. So if a chunk
begins with the data, the whole take lies where it belongs. -/
theorem take_overhangs {c : Channel} {cycles : List Cycle} {before take between : List Piece}
    (h : Overhang c cycles before take between) :
    let front := (-c.track.startOffset).toNat
    let taken := Piece.recorded take
    let room := c.store.reserved
    let ended := (c.playThrough cycles).1
    ended.track.startOffset = c.track.startOffset ∧
      ∃ lost crossing behind, take = lost ++ crossing :: behind ∧
        let start := (Piece.recorded lost).length
        let n := crossing.context.frames
        let kept := if behind.isEmpty then n else start + n - front
        (start ≤ front ∧ (behind.isEmpty = false → front < start + n)) ∧
        ended.track.dataLength = (if behind.isEmpty then n else taken.length - front) ∧
        (∀ d < ended.track.dataLength, ended.data[d]? =
          if d < room then taken[if d < kept then start + d else d + front]? else some 0) ∧
        (start = front → ended.track.dataLength = taken.length - front ∧
          ∀ d < taken.length - front, ended.data[d]? = if d < room then taken[d + front]? else some 0) := by
  intro front taken room ended
  obtain ⟨-, hsound, -⟩ := h.sound
  have hended := h.ended
  obtain ⟨lost, crossing, behind, hsplit, hstart, hcrosses, hleft⟩ :=
    exists_overlay (Nat.zero_le front) [] h.nonempty hsound h.records
  rw [Nat.zero_add] at hstart hcrosses hleft
  rw [hleft] at hended
  refine ⟨hended.startOffset, lost, crossing, behind, hsplit, ?_⟩
  intro start n kept
  have hmem : crossing ∈ take := hsplit ▸ List.mem_append_right _ List.mem_cons_self
  have hpos : 0 < n := (hsound crossing hmem).pos
  have hn : (crossing.input.getD []).length = n :=
    Reel.length_input (hsound crossing hmem) (h.records crossing hmem).input
  have htaken : taken = Piece.recorded lost ++ (crossing.input.getD [] ++ Piece.recorded behind) := by
    show Piece.recorded take = _
    rw [hsplit]
    exact List.flatMap_append
  have hlength : taken.length = start + (n + (Piece.recorded behind).length) := by
    rw [htaken, List.length_append, List.length_append, hn]
  have hkeeps : kept = if behind.isEmpty then n else start + n - front := rfl
  obtain ⟨hpositive, hkept, hwhole, hbehind, hextent⟩ : 0 < kept ∧ kept ≤ n ∧ (start = front → kept = n) ∧
      (Piece.recorded behind ≠ [] → start + n = kept + front) ∧
        kept + (Piece.recorded behind).length = if behind.isEmpty then n else taken.length - front := by
    rw [hlength]
    exact kept_cases hpos hstart hcrosses
  rw [← hkeeps] at hended
  generalize kept = kept at *
  have hleftLength : ((crossing.input.getD []).take kept ++ Piece.recorded behind).length =
      kept + (Piece.recorded behind).length := by
    rw [List.length_append, List.length_take, hn, Nat.min_eq_left hkept]
  obtain ⟨hdataLength, hdata⟩ := data_of_overhangs hended (List.ne_nil_of_length_pos (by omega))
  rw [hleftLength] at hdataLength hdata
  have hdataLength : ended.track.dataLength = kept + (Piece.recorded behind).length := hdataLength
  have hsamples : ∀ d < ended.track.dataLength, ended.data[d]? =
      if d < room then taken[if d < kept then start + d else d + front]? else some 0 := by
    intro d hd
    rw [htaken, ← getElem?_left (hn ▸ hkept) (hn.symm ▸ hbehind) (hdataLength ▸ hd)]
    exact hdata d (hdataLength ▸ hd)
  refine ⟨⟨hstart, hcrosses⟩, hdataLength.trans hextent, hsamples, fun hsame => ?_⟩
  have hkept := hwhole hsame
  refine ⟨by omega, fun d hd => ?_⟩
  have hindex : (if d < kept then start + d else d + front) = d + front := by
    split_ifs
    · rw [hsame, Nat.add_comm]
    · rfl
  rw [hsamples d (by omega), hindex]

/-- A take of four samples, two of which lie in front of the data. In one chunk it is kept as a whole, and in two
of the same size only the second one is left. -/
theorem take_overhangs_divided :
    let c := (new 2 .direct (some 8)).modifyTrack fun t => { t with startOffset := -2 }
    let pool := Pool.new 2 4
    let recording (n length : Nat) : ChunkContext := ⟨.recording, {}, n, 0, 0, length, length + n⟩
    let ended (contexts : List ChunkContext) : Channel :=
      (c.playThrough [{ contexts, input := some [1, 2, 3, 4], pool }]).1
    ((ended [recording 4 0]).track.dataLength = 4 ∧ (ended [recording 4 0]).data[0]? = some 1) ∧
      (ended [recording 2 0, recording 2 2]).track.dataLength = 2 ∧
        (ended [recording 2 0, recording 2 2]).data[0]? = some 3 := by
  intro c pool recording ended
  have hnew := new_backed (Pool.new_sound 2 4) rfl .direct (some 8)
  have hbacked : c.Backed pool := ⟨hnew.store, hnew.preRecord⟩
  have hwhole : Overhang c [{ contexts := [recording 4 0], input := some [1, 2, 3, 4], pool }] []
      [⟨recording 4 0, some [1, 2, 3, 4], none⟩] [] :=
    { backed := List.forall_mem_singleton.mpr hbacked
      valid := by decide
      enabled := by decide
      startOffset := by decide
      nothingAside := rfl
      pieces := rfl
      idle := List.forall_mem_nil _
      records := List.forall_mem_singleton.mpr ⟨rfl, rfl⟩
      nonempty := nofun
      fromEmpty := ⟨rfl, trivial⟩
      rests := List.forall_mem_nil _ }
  have hhalves : Overhang c [{ contexts := [recording 2 0, recording 2 2], input := some [1, 2, 3, 4], pool }] []
      [⟨recording 2 0, some [1, 2], none⟩, ⟨recording 2 2, some [3, 4], none⟩] [] :=
    { backed := List.forall_mem_singleton.mpr hbacked
      valid := by decide
      enabled := by decide
      startOffset := by decide
      nothingAside := rfl
      pieces := rfl
      idle := List.forall_mem_nil _
      records := List.forall_mem_cons.mpr ⟨⟨rfl, rfl⟩, List.forall_mem_singleton.mpr ⟨rfl, rfl⟩⟩
      nonempty := nofun
      fromEmpty := ⟨rfl, rfl, trivial⟩
      rests := List.forall_mem_nil _ }
  constructor
  · obtain ⟨-, lost, crossing, behind, hsplit, -, hlength, hdata, -⟩ := take_overhangs hwhole
    obtain ⟨rfl, rfl, rfl⟩ : lost = [] ∧ crossing = ⟨recording 4 0, some [1, 2, 3, 4], none⟩ ∧ behind = [] := by
      cases lost <;> simp_all
    exact ⟨hlength, hdata 0 (hlength.symm ▸ by decide)⟩
  · obtain ⟨-, lost, crossing, behind, hsplit, ⟨-, hcrosses⟩, -, -, hsame⟩ := take_overhangs hhalves
    -- The first chunk does not reach the data.
    obtain ⟨rfl, rfl, rfl⟩ : lost = [⟨recording 2 0, some [1, 2], none⟩] ∧
        crossing = ⟨recording 2 2, some [3, 4], none⟩ ∧ behind = [] := by
      cases lost with
      | nil =>
        obtain ⟨rfl, rfl⟩ := List.cons_eq_cons.mp hsplit
        exact absurd (hcrosses rfl) (by decide)
      | cons first rest =>
        obtain ⟨rfl, hrest⟩ := List.cons_eq_cons.mp hsplit
        cases rest <;> simp_all
    obtain ⟨hlength, hdata⟩ := hsame rfl
    exact ⟨hlength, hdata 0 (by decide)⟩

end Channel

end Overdub.Audio
