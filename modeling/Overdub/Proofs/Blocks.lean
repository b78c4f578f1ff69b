import Overdub.Proofs.Arrivals
import Overdub.Proofs.Footprint
/-!
# Running in blocks

A processor does no more to a cycle than send samples and messages out
(`Processor.OnlyPlays`), so what waits at the inputs passes by as if it were not
there, and running some frames lets it hear what was waiting for them, however they
are cut into cycles (`DummyDriver.cycles_heard`). A processor that turns frames into
frames also sends out the same (`DummyDriver.cycles_framewise`).
-/

namespace Overdub

open Midi (Message)

/-! ## Processors -/

/-- The process side of a driver, with its own state. -/
abbrev Processor (σ : Type) := σ → DriverCycle → σ × DriverCycle

/-- What a processor can do to a cycle. -/
inductive Play where
  | audio (id : Nat) (samples : Audio.Buffer)
  | midi (id : Nat) (messages : List Message)

def DriverCycle.play (c : DriverCycle) : Play → DriverCycle
  | .audio id samples => c.playAudio id samples
  | .midi id messages => c.playMidi id messages

namespace Processor
variable {σ : Type}

/-- All that the processor does to a cycle is to send something out. -/
def OnlyPlays (process : Processor σ) : Prop :=
  ∀ state c, ∃ plays : List Play, (process state c).2 = plays.foldl DriverCycle.play c

/-- The same processor, which also keeps all that it hears. -/
def listening (process : Processor σ) : Processor (σ × List Frame) := fun (state, heard) c =>
  let (state, played) := process state c
  ((state, heard ++ c.heard), played)

theorem OnlyPlays.listening {process : Processor σ} (h : process.OnlyPlays) : process.listening.OnlyPlays :=
  fun state c => h state.1 c

end Processor

/-! ## Queues -/

namespace DriverPorts

/-- The queues of the ports. -/
def inboxes (ports : DriverPorts) : DriverPorts := ports.map (·.map DriverPort.inbox)

/-- The ports some frames later. -/
def elapse (n : Nat) (ports : DriverPorts) : DriverPorts := ports.map (·.map (DriverPort.elapse n))

/-- What is queued comes in the order of time. -/
def Sorted (ports : DriverPorts) : Prop := ∀ p, some p ∈ ports → p.Sorted

variable {ports : DriverPorts}

theorem getElem?_join_map {α : Type} (f : DriverPort → α) (id : Nat) :
    (ports.map (·.map f))[id]?.join = ports[id]?.join.map f := by
  rw [List.getElem?_map]
  cases ports[id]? <;> rfl

/-- Ports are told by their numbers. -/
theorem ext {ports' : DriverPorts} (hlength : ports.length = ports'.length)
    (h : ∀ id : Nat, ports[id]?.join = ports'[id]?.join) : ports = ports' := by
  refine List.ext_getElem hlength fun id hid hid' => ?_
  have hsame := h id
  rwa [List.getElem?_eq_getElem hid, List.getElem?_eq_getElem hid'] at hsame

theorem frame_inboxes (ports : DriverPorts) : ports.inboxes.frame = ports.frame := by
  funext i id
  unfold frame inboxes
  rw [getElem?_join_map]
  cases ports[id]?.join <;> rfl

/-- What arrives at a frame does not depend on how much of the time in front of it has passed. -/
theorem frame_elapse (n i : Nat) : (ports.elapse n).frame i = ports.frame (n + i) := by
  funext id
  unfold frame elapse
  rw [getElem?_join_map]
  cases ports[id]?.join with
  | none => rfl
  | some p => exact p.arrival_elapse n i

theorem elapse_zero (ports : DriverPorts) : ports.elapse 0 = ports := by
  have hid : DriverPort.elapse 0 = id := funext DriverPort.elapse_zero
  simp [elapse, hid]

theorem elapse_elapse (m n : Nat) : (ports.elapse m).elapse n = ports.elapse (m + n) := by
  simp only [elapse, List.map_map, Function.comp_def, Option.map_map, DriverPort.elapse_elapse]

theorem mem_map {f : DriverPort → DriverPort} {q : DriverPort} (h : some q ∈ ports.map (·.map f)) :
    ∃ p, some p ∈ ports ∧ f p = q := by
  obtain ⟨slot, hslot, heq⟩ := List.mem_map.mp h
  obtain ⟨p, rfl, hp⟩ := Option.map_eq_some_iff.mp heq
  exact ⟨p, hslot, hp⟩

/-- Whether the queues are in order is a matter of the queues. -/
theorem sorted_of_inboxes {ports' : DriverPorts} (h : ports.Sorted) (heq : ports'.inboxes = ports.inboxes) :
    ports'.Sorted := by
  intro p hp
  have hmem : some p.inbox ∈ ports.inboxes := heq ▸ List.mem_map_of_mem hp
  obtain ⟨q, hq, hinbox⟩ := mem_map hmem
  rw [← DriverPort.sorted_inbox, ← hinbox, DriverPort.sorted_inbox]
  exact h q hq

theorem Sorted.elapse (h : ports.Sorted) (n : Nat) : (ports.elapse n).Sorted := by
  intro q hq
  obtain ⟨p, hp, rfl⟩ := mem_map hq
  exact (h p hp).elapse n

theorem inboxes_elapse (n : Nat) (ports : DriverPorts) : (ports.elapse n).inboxes = ports.inboxes.elapse n := by
  simp only [inboxes, elapse, List.map_map, Function.comp_def, Option.map_map, DriverPort.elapse_inbox]

/-- What is queued behind a cycle counts from its end. -/
theorem inboxes_begin (h : ports.Sorted) {n : Nat} (hn : n < 2 ^ 32) :
    inboxes (ports.map (·.map (·.begin n))) = ports.inboxes.elapse n := by
  unfold inboxes elapse
  rw [List.map_map, List.map_map]
  refine List.map_congr_left fun slot hslot => ?_
  cases slot with
  | none => rfl
  | some p => exact congrArg some (DriverPort.begin_inbox (h p hslot) hn)

/-- What sends something out of a port does not touch the queues. -/
theorem inboxes_modify {f : DriverPort → DriverPort} (hf : ∀ p, (f p).inbox = p.inbox) (id : Nat) :
    inboxes (ports.modify id (·.map f)) = ports.inboxes := by
  refine List.ext_getElem? fun i => ?_
  simp only [inboxes, List.getElem?_map, List.getElem?_modify]
  cases ports[i]? with
  | none => rfl
  | some slot =>
    simp only [Option.map_some]
    split_ifs
    · cases slot with
      | none => rfl
      | some p => exact congrArg (some ∘ some) (hf p)
    · rfl

end DriverPorts

namespace DriverCycle

theorem inboxes_play (c : DriverCycle) (p : Play) :
    (c.play p).ports.inboxes = c.ports.inboxes ∧ (c.play p).start = c.start := by
  cases p with
  | audio id samples =>
    unfold play playAudio
    dsimp only
    split_ifs
    · exact ⟨DriverPorts.inboxes_modify (f := fun p => { p with buffer := .fit p.buffer.length samples })
        (fun _ => rfl) id, rfl⟩
    · exact ⟨rfl, rfl⟩
  | midi id messages =>
    refine ⟨DriverPorts.inboxes_modify (fun p => ?_) id, rfl⟩
    split_ifs <;> rfl

theorem inboxes_plays (c : DriverCycle) (plays : List Play) :
    (plays.foldl play c).ports.inboxes = c.ports.inboxes := by
  induction plays generalizing c with
  | nil => rfl
  | cons p rest ih => exact (ih _).trans (c.inboxes_play p).1

end DriverCycle

/-! ## What a run hears -/

namespace DummyDriver
variable {σ : Type} {process : Processor σ} {d : DummyDriver}

theorem cycle_inboxes (h : process.OnlyPlays) (hsorted : d.ports.Sorted) {n : Nat} (hn : n < 2 ^ 32) (state : σ) :
    (d.cycle process state n).2.ports.inboxes = d.ports.inboxes.elapse n := by
  obtain ⟨plays, hplays⟩ := h state ⟨n, d.processed, d.ports.map (·.map (·.begin n))⟩
  have hfinish : ∀ p : DriverPort, p.finish.inbox = p.inbox := by
    intro p
    unfold DriverPort.finish
    split_ifs <;> rfl
  have hplayed := DriverCycle.inboxes_plays ⟨n, d.processed, d.ports.map (·.map (·.begin n))⟩ plays
  rw [← hplays, DriverPorts.inboxes_begin hsorted hn] at hplayed
  rw [← hplayed]
  unfold cycle DriverPorts.inboxes
  simp only [List.map_map, Function.comp_def, Option.map_map, hfinish]

/-- A cycle lets the processor hear what was waiting for its frames. -/
theorem cycle_heard (hsorted : d.ports.Sorted) {n : Nat} (hn : n < 2 ^ 32) (state : σ) (heard : List Frame) :
    (d.cycle process.listening (state, heard) n).1.2 = heard ++ (List.range n).map d.ports.frame :=
  congrArg (heard ++ ·) (DriverCycle.heard_begin hsorted hn d.processed)

theorem map_range_add {α : Type} (f : Nat → α) (m n : Nat) :
    (List.range (m + n)).map f = (List.range m).map f ++ (List.range n).map fun i => f (m + i) := by
  rw [List.range_add, List.map_append, List.map_map]
  rfl

/-- The frames of the first cycle of a run, and those behind it. -/
theorem requested_split (hrequested : d.requested ≠ 0) :
    0 < min d.requested (max 1 d.bufferSize) ∧
      min d.requested (max 1 d.bufferSize) + (d.requested - min d.requested (max 1 d.bufferSize)) = d.requested := by
  omega

/-- Running lets a processor hear what was waiting for its frames, and what was waiting behind them counts from their
end. -/
theorem cycles_heard (h : process.OnlyPlays) (hsorted : d.ports.Sorted) (hsize : d.bufferSize < 2 ^ 32) (state : σ)
    (heard : List Frame) :
    let after := d.cycles process.listening (state, heard)
    after.1.2 = heard ++ (List.range d.requested).map d.ports.frame ∧
      after.2.ports.inboxes = d.ports.inboxes.elapse d.requested ∧
      after.2.requested = 0 ∧ after.2.bufferSize = d.bufferSize ∧ after.2.running = d.running := by
  induction hr : d.requested using Nat.strong_induction_on generalizing d state heard with
  | _ requested ih =>
    rw [cycles]
    split_ifs with hzero
    · rw [← hr, hzero]
      exact ⟨by simp, (DriverPorts.elapse_zero _).symm, hzero, rfl, rfl⟩
    · obtain ⟨hpos, hsplit⟩ := requested_split hzero
      generalize hn : min d.requested (max 1 d.bufferSize) = n at hpos hsplit
      have hn : n < 2 ^ 32 := by omega
      obtain ⟨next, hnext⟩ : ∃ next, next = d.cycle process.listening (state, heard) n := ⟨_, rfl⟩
      have hinboxes : next.2.ports.inboxes = d.ports.inboxes.elapse n := hnext ▸ cycle_inboxes h.listening hsorted hn _
      have hheard : next.1.2 = heard ++ (List.range n).map d.ports.frame := hnext ▸ cycle_heard hsorted hn state heard
      have hrest : next.2.requested = d.requested - n := hnext ▸ rfl
      have hframe : next.2.ports.frame = fun i => d.ports.frame (n + i) := by
        funext i
        rw [← DriverPorts.frame_inboxes, hinboxes, DriverPorts.frame_elapse, DriverPorts.frame_inboxes]
      have hsorted' : next.2.ports.Sorted := by
        refine DriverPorts.sorted_of_inboxes (hsorted.elapse n) ?_
        rw [hinboxes, DriverPorts.inboxes_elapse]
      obtain ⟨hlater, hqueues, hdone, hsize', hrunning⟩ := ih (d.requested - n) (by omega) hsorted'
        ((show next.2.bufferSize = d.bufferSize from hnext ▸ rfl).trans_lt hsize) next.1.1 next.1.2 hrest
      dsimp only
      rw [← hnext]
      refine ⟨?_, ?_, hdone, hsize'.trans (hnext ▸ rfl), hrunning.trans (hnext ▸ rfl)⟩
      · rw [hlater, hheard, hframe, List.append_assoc, ← map_range_add, hsplit, hr]
      · rw [hqueues, hinboxes, DriverPorts.elapse_elapse, hsplit, hr]

end DummyDriver

/-! ## Frame by frame -/

/-- Turns frames into frames, one after the other. -/
def mapFrames {σ : Type} (step : σ → Frame → σ × Frame) : σ → List Frame → σ × List Frame
  | state, [] => (state, [])
  | state, frame :: rest =>
    let (state, out) := step state frame
    let (state, outs) := mapFrames step state rest
    (state, out :: outs)

theorem mapFrames_append {σ : Type} (step : σ → Frame → σ × Frame) (state : σ) (frames more : List Frame) :
    mapFrames step state (frames ++ more) =
      ((mapFrames step (mapFrames step state frames).1 more).1,
        (mapFrames step state frames).2 ++ (mapFrames step (mapFrames step state frames).1 more).2) := by
  induction frames generalizing state with
  | nil => rfl
  | cons frame rest ih => simp [mapFrames, ih]

theorem length_mapFrames {σ : Type} (step : σ → Frame → σ × Frame) (state : σ) (frames : List Frame) :
    (mapFrames step state frames).2.length = frames.length := by
  induction frames generalizing state with
  | nil => rfl
  | cons frame rest ih => exact congrArg (· + 1) (ih _)

/-- The samples of frames at a port. -/
def samplesOf (id : Nat) (frames : List Frame) : Audio.Buffer := frames.map fun frame => (frame id).sample.getD 0

/-- The messages of frames at a port, timed from the first frame on as far as times reach. -/
def messagesOf (id : Nat) : Nat → List Frame → List Message
  | _, [] => []
  | start, frame :: rest =>
    (frame id).messages.map (·.withTime (.ofNat (min start (UInt32.size - 1)))) ++ messagesOf id (start + 1) rest

theorem messagesOf_append (id start : Nat) (frames more : List Frame) :
    messagesOf id start (frames ++ more) = messagesOf id start frames ++ messagesOf id (start + frames.length) more := by
  induction frames generalizing start with
  | nil => rfl
  | cons frame rest ih =>
    rw [List.cons_append, messagesOf, ih, messagesOf, List.append_assoc, List.length_cons, Nat.add_right_comm,
      Nat.add_assoc start]

/-- Messages that are timed in a cycle are stamped with the frames since the driver was made. -/
theorem stamp_messagesOf (c : DriverCycle) (id start : Nat) (frames : List Frame) :
    (messagesOf id start frames).map c.stamp = messagesOf id (c.start + start) frames := by
  induction frames generalizing start with
  | nil => rfl
  | cons frame rest ih =>
    have hstamp : ∀ m : Message, c.stamp (m.withTime (.ofNat (min start (UInt32.size - 1)))) =
        m.withTime (.ofNat (min (c.start + start) (UInt32.size - 1))) := by
      intro m
      have htime : (UInt32.ofNat (min start (UInt32.size - 1))).toNat = min start (UInt32.size - 1) :=
        UInt32.toNat_ofNat_of_lt' (by unfold UInt32.size; omega)
      have hmin : min (c.start + min start (UInt32.size - 1)) (UInt32.size - 1) =
          min (c.start + start) (UInt32.size - 1) := by omega
      unfold DriverCycle.stamp
      rw [Message.time_withTime, htime, hmin]
      rfl
    rw [messagesOf, List.map_append, ih, messagesOf, List.map_map]
    exact congrArg (· ++ _) (List.map_congr_left fun m _ => hstamp m)

namespace DriverCycle

/-- Sends frames out at all ports, one for each frame of the cycle. -/
def playFrames (c : DriverCycle) (frames : List Frame) : DriverCycle :=
  ((List.range c.ports.length).flatMap fun id =>
    [.audio id (samplesOf id frames), .midi id (messagesOf id 0 frames)]).foldl play c

end DriverCycle

/-- The processor that turns each frame it hears into a frame that it sends. -/
def Processor.framewise {σ : Type} (step : σ → Frame → σ × Frame) : Processor σ := fun state c =>
  let (state, frames) := mapFrames step state c.heard
  (state, c.playFrames frames)

theorem Processor.framewise_onlyPlays {σ : Type} (step : σ → Frame → σ × Frame) : (framewise step).OnlyPlays :=
  fun _ _ => ⟨_, rfl⟩

namespace DriverPort

/-- The port when frames have been sent out in a cycle. -/
def sending (start : Nat) (frames : List Frame) (id : Nat) (p : DriverPort) : DriverPort :=
  { p with
    buffer := if p.dataType = .audio ∧ p.direction = .output then .fit p.buffer.length (samplesOf id frames) else p.buffer
    playedMidi := if p.direction = .output then p.playedMidi ++ messagesOf id start frames else p.playedMidi }

/-- The port after frames that were sent out. -/
def after (start : Nat) (frames : List Frame) (id : Nat) (p : DriverPort) : DriverPort :=
  { p.elapse frames.length with
    playedAudio :=
      if p.dataType = .audio ∧ p.direction = .output then p.playedAudio ++ samplesOf id frames else p.playedAudio
    playedMidi := if p.direction = .output then p.playedMidi ++ messagesOf id start frames else p.playedMidi }

/-- The port without what the last cycle has left. -/
def settle (p : DriverPort) : DriverPort := { p with buffer := [], cycleMidi := [] }

end DriverPort

namespace DriverCycle

theorem port?_playMidi (c : DriverCycle) (id k : Nat) (messages : List Message) :
    (c.playMidi id messages).port? k = (c.port? k).map fun p =>
      if k = id ∧ p.direction = .output then { p with playedMidi := p.playedMidi ++ messages.map c.stamp } else p := by
  unfold playMidi
  rw [port?_modifyPort]
  congr 1
  funext p
  by_cases hk : k = id <;> simp [hk]

theorem start_playAudio (c : DriverCycle) (id : Nat) (samples : Audio.Buffer) :
    (c.playAudio id samples).start = c.start := by
  unfold playAudio
  split_ifs <;> rfl

theorem port?_plays {ids : List Nat} (hids : ids.Nodup) (c : DriverCycle) (frames : List Frame) (k : Nat) :
    ((ids.flatMap fun id => [Play.audio id (samplesOf id frames), .midi id (messagesOf id 0 frames)]).foldl play
        c).port? k =
      (c.port? k).map fun p => if k ∈ ids then p.sending c.start frames k else p := by
  induction ids generalizing c with
  | nil => simp
  | cons id rest ih =>
    obtain ⟨hnew, hrest⟩ := List.nodup_cons.mp hids
    have hstart : ((c.playAudio id (samplesOf id frames)).playMidi id (messagesOf id 0 frames)).start = c.start :=
      c.start_playAudio id (samplesOf id frames)
    have hstamp := stamp_messagesOf (c.playAudio id (samplesOf id frames)) id 0 frames
    rw [start_playAudio, Nat.add_zero] at hstamp
    have hfold : [Play.audio id (samplesOf id frames), .midi id (messagesOf id 0 frames)].foldl play c =
      (c.playAudio id (samplesOf id frames)).playMidi id (messagesOf id 0 frames) := rfl
    rw [List.flatMap_cons, List.foldl_append, ih hrest, hfold, hstart, port?_playMidi, port?_playAudio, Option.map_map,
      Option.map_map, hstamp]
    refine congrArg (Option.map · (c.port? k)) (funext fun p => ?_)
    by_cases hk : k = id
    · subst hk
      simp only [Function.comp, true_and, hnew, if_false, List.mem_cons, true_or, if_true]
      unfold DriverPort.sending
      split_ifs <;> rfl
    · simp only [Function.comp, hk, false_and, if_false, List.mem_cons, false_or]

/-- Each port sends its part of the frames. -/
theorem port?_playFrames (c : DriverCycle) (frames : List Frame) (k : Nat) :
    (c.playFrames frames).port? k = (c.port? k).map (·.sending c.start frames k) := by
  rw [playFrames, port?_plays List.nodup_range]
  cases hp : c.port? k with
  | none => rfl
  | some p =>
    have hk : k < c.ports.length := by
      obtain ⟨hk, -⟩ := List.getElem?_eq_some_iff.mp (Option.join_eq_some_iff.mp hp)
      exact hk
    simp [hk]

theorem length_plays (c : DriverCycle) (plays : List Play) : (plays.foldl play c).ports.length = c.ports.length := by
  simpa [DriverPorts.inboxes] using congrArg List.length (c.inboxes_plays plays)

end DriverCycle

namespace DriverPort

/-- What was sent out in some frames and then in more was sent out in all of them. -/
theorem after_after (start : Nat) (frames more : List Frame) (id : Nat) (p : DriverPort) :
    (p.after start frames id).after (start + frames.length) more id = p.after start (frames ++ more) id := by
  obtain ⟨name, dataType, direction⟩ := p
  cases direction <;> cases dataType <;>
    simp [after, elapse, later_later, messagesOf_append, samplesOf]

/-- A cycle in which frames are sent out. -/
theorem finish_sending {p : DriverPort} (h : p.Sorted) {frames : List Frame} (hn : frames.length < 2 ^ 32)
    (start id : Nat) :
    ((p.begin frames.length).sending start frames id).finish.settle = p.settle.after start frames id := by
  have hlength : (samplesOf id frames).length = frames.length := List.length_map _
  have hlater := later_eq h hn
  obtain ⟨name, dataType, direction, buffer, queuedAudio, playedAudio, queuedMidi, cycleMidi, playedMidi⟩ := p
  cases direction with
  | output =>
    cases dataType with
    | audio =>
      have hfit : Audio.Buffer.fit (Audio.silence frames.length).length (samplesOf id frames) = samplesOf id frames :=
        Audio.Buffer.fit_of_length (by rw [hlength, Audio.silence, List.length_replicate])
      simp [begin, sending, finish, settle, after, elapse, hfit]
    | midi => rfl
  | input =>
    cases dataType with
    | audio => rfl
    | midi => exact congrArg (DriverPort.mk name .midi .input [] queuedAudio playedAudio · [] playedMidi) hlater

end DriverPort

namespace DriverPorts

/-- The ports after frames that were sent out. -/
def after (start : Nat) (frames : List Frame) (ports : DriverPorts) : DriverPorts :=
  ports.mapIdx fun id slot => slot.map (·.after start frames id)

/-- The ports without what the last cycle has left. -/
def settled (ports : DriverPorts) : DriverPorts := ports.map (·.map DriverPort.settle)

theorem frame_settled (ports : DriverPorts) : ports.settled.frame = ports.frame := by
  funext i id
  unfold frame settled
  rw [getElem?_join_map]
  cases ports[id]?.join <;> rfl

theorem inboxes_settled (ports : DriverPorts) : ports.settled.inboxes = ports.inboxes := by
  simp only [inboxes, settled, List.map_map, Function.comp_def, Option.map_map]
  rfl

/-- What is sent out does not touch the queues. -/
theorem inboxes_after (start : Nat) (frames : List Frame) (ports : DriverPorts) :
    (ports.after start frames).inboxes = ports.inboxes.elapse frames.length := by
  have hport : ∀ id (p : DriverPort), (p.after start frames id).inbox = p.inbox.elapse frames.length := by
    intro id p
    obtain ⟨name, dataType, direction⟩ := p
    cases direction <;> cases dataType <;> rfl
  refine List.ext_getElem? fun id => ?_
  simp [inboxes, after, elapse, Function.comp_def, hport]

theorem after_nil (start : Nat) (ports : DriverPorts) : ports.after start [] = ports := by
  have hid : ∀ id (p : DriverPort), p.after start [] id = p := by
    intro id p
    unfold DriverPort.after
    rw [List.length_nil, p.elapse_zero]
    simp [samplesOf, messagesOf]
  refine List.ext_getElem? fun id => ?_
  simp [after, hid]

theorem after_after (start : Nat) (frames more : List Frame) (ports : DriverPorts) :
    (ports.after start frames).after (start + frames.length) more = ports.after start (frames ++ more) := by
  refine List.ext_getElem? fun id => ?_
  simp [after, Function.comp_def, DriverPort.after_after]

end DriverPorts

/-! ## What a run sends -/

namespace DummyDriver
variable {σ : Type} {d : DummyDriver} (step : σ → Frame → σ × Frame)

/-- A cycle sends the frames that the step makes of those that were waiting. -/
theorem cycle_framewise (hsorted : d.ports.Sorted) {n : Nat} (hn : n < 2 ^ 32) (state : σ) :
    let sent := mapFrames step state ((List.range n).map d.ports.frame)
    let next := d.cycle (Processor.framewise step) state n
    next.1 = sent.1 ∧ next.2.ports.settled = d.ports.settled.after d.processed sent.2 := by
  intro sent next
  obtain ⟨c, hc⟩ : ∃ c, c = DriverCycle.mk n d.processed (d.ports.map (·.map (·.begin n))) := ⟨_, rfl⟩
  have hheard : c.heard = (List.range n).map d.ports.frame := hc ▸ DriverCycle.heard_begin hsorted hn d.processed
  have hnext : next = (sent.1, { d with
      ports := (c.playFrames sent.2).ports.map (·.map (·.finish))
      processed := d.processed + n, requested := d.requested - n }) := by
    show d.cycle (Processor.framewise step) state n = _
    unfold cycle Processor.framewise
    rw [← hc, hheard]
  have hlength : sent.2.length = n := by
    rw [length_mapFrames, List.length_map, List.length_range]
  rw [hnext]
  refine ⟨rfl, DriverPorts.ext ?_ fun id => ?_⟩
  · have hports : (c.playFrames sent.2).ports.length = d.ports.length := by
      rw [DriverCycle.playFrames, DriverCycle.length_plays, hc, List.length_map]
    simp [DriverPorts.settled, DriverPorts.after, hports]
  · have hplayed := c.port?_playFrames sent.2 id
    rw [hc, DriverCycle.port?_begin, ← hc, Option.map_map] at hplayed
    have hafter : (d.ports.settled.after d.processed sent.2)[id]?.join =
        d.ports[id]?.join.map fun p => p.settle.after d.processed sent.2 id := by
      simp only [DriverPorts.after, DriverPorts.settled, List.getElem?_mapIdx, List.getElem?_map]
      rcases d.ports[id]? with _ | _ | _ <;> rfl
    rw [hafter]
    unfold DriverPorts.settled
    rw [DriverPorts.getElem?_join_map, DriverPorts.getElem?_join_map]
    show Option.map _ (Option.map _ ((c.playFrames sent.2).port? id)) = _
    rw [hplayed, Option.map_map, Option.map_map]
    cases hp : d.ports[id]?.join with
    | none => rfl
    | some p =>
      have hport : p.Sorted := hsorted p (List.mem_of_getElem? (Option.join_eq_some_iff.mp hp))
      rw [Option.map_some, Option.map_some, ← DriverPort.finish_sending hport (hlength.trans_lt hn), hlength, hc]
      rfl

/-- Running sends the frames that the step makes of those that were waiting, however they are cut into cycles. -/
theorem cycles_framewise (hsorted : d.ports.Sorted) (hsize : d.bufferSize < 2 ^ 32) (state : σ) :
    let sent := mapFrames step state ((List.range d.requested).map d.ports.frame)
    let after := d.cycles (Processor.framewise step) state
    after.1 = sent.1 ∧ after.2.ports.settled = d.ports.settled.after d.processed sent.2 ∧
      after.2.processed = d.processed + d.requested ∧
      after.2.requested = 0 ∧ after.2.bufferSize = d.bufferSize ∧ after.2.running = d.running := by
  induction hr : d.requested using Nat.strong_induction_on generalizing d state with
  | _ requested ih =>
    rw [cycles]
    split_ifs with hzero
    · rw [← hr, hzero]
      exact ⟨rfl, (DriverPorts.after_nil _ _).symm, rfl, hzero, rfl, rfl⟩
    · obtain ⟨hpos, hsplit⟩ := requested_split hzero
      generalize hn : min d.requested (max 1 d.bufferSize) = n at hpos hsplit
      have hn : n < 2 ^ 32 := by omega
      obtain ⟨next, hnext⟩ : ∃ next, next = d.cycle (Processor.framewise step) state n := ⟨_, rfl⟩
      have hinboxes : next.2.ports.inboxes = d.ports.inboxes.elapse n :=
        hnext ▸ cycle_inboxes (Processor.framewise_onlyPlays step) hsorted hn _
      obtain ⟨hstate, hsettled⟩ := cycle_framewise step hsorted hn state
      rw [← hnext] at hstate hsettled
      have hrest : next.2.requested = d.requested - n := hnext ▸ rfl
      have hprocessed : next.2.processed = d.processed + n := hnext ▸ rfl
      have hframe : next.2.ports.frame = fun i => d.ports.frame (n + i) := by
        funext i
        rw [← DriverPorts.frame_inboxes, hinboxes, DriverPorts.frame_elapse, DriverPorts.frame_inboxes]
      have hsorted' : next.2.ports.Sorted := by
        refine DriverPorts.sorted_of_inboxes (hsorted.elapse n) ?_
        rw [hinboxes, DriverPorts.inboxes_elapse]
      obtain ⟨hlater, hports, htime, hdone, hsize', hrunning⟩ := ih (d.requested - n) (by omega) hsorted'
        ((show next.2.bufferSize = d.bufferSize from hnext ▸ rfl).trans_lt hsize) next.1 hrest
      have hlength : (mapFrames step state ((List.range n).map d.ports.frame)).2.length = n := by
        rw [length_mapFrames, List.length_map, List.length_range]
      have hsent := mapFrames_append step state ((List.range n).map d.ports.frame)
        ((List.range (d.requested - n)).map next.2.ports.frame)
      rw [hframe, ← map_range_add, hsplit, ← hframe, ← hstate] at hsent
      dsimp only
      rw [← hnext, ← hr, hsent]
      refine ⟨hlater, ?_, ?_, hdone, hsize'.trans (hnext ▸ rfl), hrunning.trans (hnext ▸ rfl)⟩
      · rw [hports, hsettled, hprocessed, ← DriverPorts.after_after, hlength]
      · rw [htime, hprocessed]
        omega

end DummyDriver

end Overdub
