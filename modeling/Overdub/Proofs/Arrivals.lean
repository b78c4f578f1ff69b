import Overdub.Driver.Dummy
import Overdub.Proofs.StableMerge
import Overdub.Proofs.StartState
/-!
# What arrives at the ports of the driver

Queued samples and messages wait for the frame they arrive at, counted from the next
cycle. A cycle takes what arrives in its frames and counts the rest from its end
(`DriverPort.elapse`). So what arrives at a frame does not depend on how the frames in
front of it are cut into cycles (`DriverPort.arrival_elapse`), and a cycle finds at
each of its frames what has been waiting for it (`DriverCycle.heard_begin`).
-/

namespace Overdub

open Midi (InOrder Message dropWhile_eq_filter keyed keyed_append sortedBy_spec)

/-! ## Queues -/

/-- What there is at one frame of a port: a sample, and messages without their time. -/
structure Arrival where
  sample : Option Audio.Sample := none
  messages : List Message := []

/-- The messages of one time, without it. -/
def messagesAt (i : Nat) (messages : List Message) : List Message :=
  (keyed (·.time.toNat) i messages).map (·.withTime 0)

theorem messagesAt_append (i : Nat) (messages more : List Message) :
    messagesAt i (messages ++ more) = messagesAt i messages ++ messagesAt i more := by
  rw [messagesAt, keyed_append, List.map_append]
  rfl

/-- Sorting a queue does not change what is there at one time. -/
theorem messagesAt_mergeSort (i : Nat) (messages : List Message) :
    messagesAt i (messages.mergeSort fun a b => decide (a.time ≤ b.time)) = messagesAt i messages :=
  congrArg (List.map _) ((sortedBy_spec (fun m : Message => m.time.toNat) messages).2 i)

/-- Messages some frames later: what is left counts from there. -/
def later (n : Nat) (messages : List Message) : List Message :=
  (messages.filter fun m => n ≤ m.time.toNat).map fun m => m.withTime (.ofNat (m.time.toNat - n))

theorem time_later (n : Nat) (m : Message) : (UInt32.ofNat (m.time.toNat - n)).toNat = m.time.toNat - n := by
  have hlt := m.time.toNat_lt
  rw [UInt32.toNat_ofNat', Nat.mod_eq_of_lt (by omega)]

theorem later_zero (messages : List Message) : later 0 messages = messages := by
  simp [later]

theorem later_later (m n : Nat) (messages : List Message) : later n (later m messages) = later (m + n) messages := by
  unfold later
  rw [List.filter_map, List.filter_filter, List.map_map]
  have hfilter : ∀ x : Message, (decide (n ≤ (x.withTime (.ofNat (x.time.toNat - m))).time.toNat) &&
      decide (m ≤ x.time.toNat)) = decide (m + n ≤ x.time.toNat) := by
    intro x
    rw [Message.time_withTime, time_later, ← Bool.decide_and, decide_eq_decide]
    omega
  have hmap : ∀ x : Message, (x.withTime (.ofNat (x.time.toNat - m))).withTime
      (.ofNat ((x.withTime (.ofNat (x.time.toNat - m))).time.toNat - n)) =
        x.withTime (.ofNat (x.time.toNat - (m + n))) := by
    intro x
    rw [Message.time_withTime, time_later, Nat.sub_sub]
    rfl
  simp only [Function.comp_def, hfilter, hmap]

theorem messagesAt_later (n i : Nat) (messages : List Message) :
    messagesAt i (later n messages) = messagesAt (n + i) messages := by
  unfold messagesAt later keyed
  rw [List.filter_map, List.filter_filter, List.map_map]
  have hfilter : ∀ x : Message, (decide ((x.withTime (.ofNat (x.time.toNat - n))).time.toNat = i) &&
      decide (n ≤ x.time.toNat)) = decide (x.time.toNat = n + i) := by
    intro x
    rw [Message.time_withTime, time_later, ← Bool.decide_and, decide_eq_decide]
    omega
  simp only [Function.comp_def, hfilter]
  rfl

theorem inOrder_later {messages : List Message} (h : InOrder messages) (n : Nat) : InOrder (later n messages) := by
  refine List.pairwise_map.mpr ((h.filter _).imp fun {x y} hle => ?_)
  rw [UInt32.le_iff_toNat_le] at hle ⊢
  rw [Message.time_withTime, Message.time_withTime, time_later, time_later]
  omega

/-- A queue that is sorted again after more was queued is in order. -/
theorem inOrder_mergeSort (messages : List Message) :
    InOrder (messages.mergeSort fun a b => decide (a.time ≤ b.time)) :=
  (sortedBy_spec (fun m : Message => m.time.toNat) messages).1.imp UInt32.le_iff_toNat_le.mpr

/-! ## Ports -/

namespace DriverPort

/-- What arrives at the port `i` frames from now. -/
def arrival (p : DriverPort) (i : Nat) : Arrival :=
  match p.direction, p.dataType with
  | .output, _ => {}
  | .input, .audio => { sample := some (p.queuedAudio.getD i 0) }
  | .input, .midi => { messages := messagesAt i p.queuedMidi }

/-- The port some frames later. -/
def elapse (n : Nat) (p : DriverPort) : DriverPort :=
  match p.direction, p.dataType with
  | .output, _ => p
  | .input, .audio => { p with queuedAudio := p.queuedAudio.drop n }
  | .input, .midi => { p with queuedMidi := later n p.queuedMidi }

/-- What is queued at a port comes in the order of time. -/
def Sorted (p : DriverPort) : Prop := InOrder p.queuedMidi

/-- The queues of a port, without what is played and what the last cycle has left. -/
def inbox (p : DriverPort) : DriverPort := { p with buffer := [], playedAudio := [], cycleMidi := [], playedMidi := [] }

theorem elapse_zero (p : DriverPort) : p.elapse 0 = p := by
  obtain ⟨name, dataType, direction⟩ := p
  cases direction <;> cases dataType <;> simp [elapse, later_zero]

theorem elapse_elapse (m n : Nat) (p : DriverPort) : (p.elapse m).elapse n = p.elapse (m + n) := by
  obtain ⟨name, dataType, direction⟩ := p
  cases direction <;> cases dataType <;> simp [elapse, later_later]

/-- What arrives at a frame does not depend on how much of the time in front of it has passed. -/
theorem arrival_elapse (n i : Nat) (p : DriverPort) : (p.elapse n).arrival i = p.arrival (n + i) := by
  obtain ⟨name, dataType, direction⟩ := p
  cases direction <;> cases dataType <;> simp [elapse, arrival, messagesAt_later, List.getD]

theorem Sorted.elapse {p : DriverPort} (h : p.Sorted) (n : Nat) : (p.elapse n).Sorted := by
  obtain ⟨name, dataType, direction⟩ := p
  cases direction <;> cases dataType
  · exact h
  · exact inOrder_later h n
  · exact h
  · exact h

theorem elapse_inbox (n : Nat) (p : DriverPort) : (p.elapse n).inbox = p.inbox.elapse n := by
  obtain ⟨name, dataType, direction⟩ := p
  cases direction <;> cases dataType <;> rfl

theorem sorted_inbox {p : DriverPort} : p.inbox.Sorted ↔ p.Sorted := Iff.rfl

section Cycle
variable {p : DriverPort} {n : Nat}

theorem takeWhile_before (h : p.Sorted) (hn : n < 2 ^ 32) :
    p.queuedMidi.takeWhile (·.time < .ofNat n) = p.queuedMidi.filter fun m => m.time.toNat < n := by
  have hsize : (UInt32.ofNat n).toNat = n := UInt32.toNat_ofNat_of_lt' hn
  rw [Midi.Channel.takeWhile_eq_filter h]
  simp only [UInt32.lt_iff_toNat_lt, hsize]

theorem later_eq (h : p.Sorted) (hn : n < 2 ^ 32) :
    (p.queuedMidi.dropWhile (·.time < .ofNat n)).map (fun m => m.withTime (m.time - .ofNat n)) =
      later n p.queuedMidi := by
  have hsize : (UInt32.ofNat n).toNat = n := UInt32.toNat_ofNat_of_lt' hn
  have hfirst : p.queuedMidi.Pairwise fun x y =>
      decide (y.time < .ofNat n) = true → decide (x.time < .ofNat n) = true :=
    h.imp fun hle hy => decide_eq_true (UInt32.lt_of_le_of_lt hle (of_decide_eq_true hy))
  have hfilter : (fun m : Message => !decide (m.time < .ofNat n)) = fun m => decide (n ≤ m.time.toNat) := by
    funext m
    rw [← decide_not, decide_eq_decide, UInt32.lt_iff_toNat_lt, hsize, Nat.not_lt]
  rw [dropWhile_eq_filter hfirst, hfilter]
  refine List.map_congr_left fun m hm => congrArg m.withTime (UInt32.toNat_inj.mp ?_)
  rw [Midi.Message.time_sub (of_decide_eq_true (List.mem_filter.mp hm).2), time_later]

/-- What is queued behind a cycle counts from its end. -/
theorem begin_inbox (h : p.Sorted) (hn : n < 2 ^ 32) : (p.begin n).inbox = p.inbox.elapse n := by
  have hlater := later_eq h hn
  obtain ⟨name, dataType, direction, buffer, queuedAudio, playedAudio, queuedMidi, cycleMidi, playedMidi⟩ := p
  cases direction with
  | output => rfl
  | input =>
    cases dataType with
    | audio => rfl
    | midi => exact congrArg (DriverPort.mk name .midi .input [] queuedAudio [] · [] []) hlater

theorem begin_kind (p : DriverPort) (n : Nat) :
    (p.begin n).direction = p.direction ∧ (p.begin n).dataType = p.dataType := by
  obtain ⟨name, dataType, direction⟩ := p
  cases direction <;> cases dataType <;> exact ⟨rfl, rfl⟩

theorem getD_fit {b : Audio.Buffer} {i : Nat} (hi : i < n) : (Audio.Buffer.fit n b).getD i 0 = b.getD i 0 := by
  unfold Audio.Buffer.fit Audio.silence
  simp only [List.getD_eq_getElem?_getD]
  by_cases hb : i < b.length
  · rw [List.getElem?_append_left (by simpa using ⟨hi, hb⟩), List.getElem?_take_of_lt hi]
  · have hlength : (b.take n).length ≤ i := (List.length_take_le' _ _).trans (Nat.le_of_not_lt hb)
    rw [List.getElem?_append_right hlength, List.getElem?_replicate, List.getElem?_eq_none (Nat.le_of_not_lt hb)]
    split_ifs <;> rfl

/-- A cycle finds in its buffer what arrives in its frames, -/
theorem sample_begin (p : DriverPort) {i : Nat} (hi : i < n) :
    (if p.dataType = .audio ∧ p.direction = .input then some ((p.begin n).buffer.getD i 0) else none) =
      (p.arrival i).sample := by
  obtain ⟨name, dataType, direction, buffer, queuedAudio⟩ := p
  cases direction with
  | output => cases dataType <;> rfl
  | input =>
    cases dataType with
    | audio => exact congrArg some (getD_fit hi)
    | midi => rfl

/-- and among its messages. -/
theorem messages_begin (h : p.Sorted) (hn : n < 2 ^ 32) {i : Nat} (hi : i < n) :
    messagesAt i (p.begin n).cycleMidi = (p.arrival i).messages := by
  have hbefore := takeWhile_before h hn
  obtain ⟨name, dataType, direction, buffer, queuedAudio, playedAudio, queuedMidi⟩ := p
  cases direction with
  | output => rfl
  | input =>
    cases dataType with
    | audio => rfl
    | midi =>
      have hsame : ∀ m : Message, (decide (m.time.toNat = i) && decide (m.time.toNat < n)) =
          decide (m.time.toNat = i) := by
        intro m
        rw [← Bool.decide_and, decide_eq_decide]
        omega
      show messagesAt i (queuedMidi.takeWhile _) = messagesAt i queuedMidi
      rw [hbefore]
      unfold messagesAt keyed
      rw [List.filter_filter]
      simp only [hsame]

end Cycle

end DriverPort

/-! ## Cycles -/

/-- One frame of all ports, by their numbers. -/
abbrev Frame := Nat → Arrival

/-- What arrives at the ports `i` frames from now. -/
def DriverPorts.frame (ports : DriverPorts) (i : Nat) : Frame := fun id => (ports[id]?.join).elim {} (·.arrival i)

namespace DriverCycle

/-- What the process side hears at a frame of the cycle. -/
def frame (c : DriverCycle) (i : Nat) : Frame := fun id =>
  { sample := (c.audioInput? id).map (·.getD i 0), messages := messagesAt i (c.midiInput id) }

/-- What the process side hears in a cycle. -/
def heard (c : DriverCycle) : List Frame := (List.range c.frames).map c.frame

theorem port?_begin (ports : DriverPorts) (n start id : Nat) :
    (DriverCycle.mk n start (ports.map (·.map (·.begin n)))).port? id = (ports[id]?.join).map (·.begin n) := by
  unfold port?
  rw [List.getElem?_map]
  cases ports[id]? <;> rfl

/-- A cycle hears what has been waiting for its frames. -/
theorem heard_begin {ports : DriverPorts} (h : ∀ p, some p ∈ ports → p.Sorted) {n : Nat} (hn : n < 2 ^ 32)
    (start : Nat) :
    (DriverCycle.mk n start (ports.map (·.map (·.begin n)))).heard = (List.range n).map ports.frame := by
  refine List.map_congr_left fun i hi => funext fun id => ?_
  have hi : i < n := List.mem_range.mp hi
  unfold frame audioInput? midiInput DriverPorts.frame
  rw [port?_begin]
  cases hp : ports[id]?.join with
  | none => rfl
  | some p =>
    have hsorted : p.Sorted := h p (List.mem_of_getElem? (Option.join_eq_some_iff.mp hp))
    obtain ⟨hdirection, hdata⟩ := p.begin_kind n
    refine congrArg₂ Arrival.mk (Eq.trans ?_ (p.sample_begin hi)) (DriverPort.messages_begin hsorted hn hi)
    simp only [Option.map_some, Option.filter_some, hdirection, hdata, decide_eq_true_eq]
    split_ifs <;> rfl

end DriverCycle

end Overdub
