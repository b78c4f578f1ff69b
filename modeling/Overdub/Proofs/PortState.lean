import Overdub.Proofs.Retention
import Overdub.Proofs.StableMerge
/-!
# What a port tells of its messages

Whatever is asked of an input port, in whatever order, its capture has the state of
all that the port let pass (`Port.Remembers`).

What it lets pass at the end of a cycle is told by the messages on their way into its
merge buffer (`Inflow`): the first ones, as many as the buffer has room for, sorted by
time. A buffer has been sorted before if the cycle is ended more than once, so what it
holds is known up to the order of different times only (`Port.Collects`), and the
sort that follows settles that.
-/

namespace Overdub.Midi

/-! ## The first of some messages -/

section
variable {α : Type} {l l' : List α} {n : Nat}

theorem take_append_congr (h : l.take n = l'.take n) (more : List α) : (l ++ more).take n = (l' ++ more).take n := by
  have hlength := congrArg List.length h
  rw [List.length_take, List.length_take] at hlength
  rw [List.take_append, List.take_append, h, show n - l.length = n - l'.length by omega]

theorem take_prepend_congr (h : l.take n = l'.take n) (front : List α) :
    (front ++ l).take n = (front ++ l').take n := by
  have hless : l.take (n - front.length) = l'.take (n - front.length) := by
    have hsub := congrArg (List.take (n - front.length)) h
    rwa [List.take_take, List.take_take, Nat.min_eq_left (Nat.sub_le _ _)] at hsub
  rw [List.take_append, List.take_append, hless]

end

/-! ## Calls -/

/-- What can be asked of a port: more may be pending than channels would play. -/
inductive PortCall where
  | act (a : PortAction)
  /-- A message is appended to what is pending, whatever room is set aside for that. -/
  | push (m : Message)

namespace PortCall

def run (p : Port) : PortCall → Port
  | act a => a.run p
  | push m => { p with pending := { p.pending with messages := p.pending.messages ++ [m] } }

/-- The call neither begins nor ends a cycle. -/
def within : PortCall → Bool
  | act (.prepare _) | act .finish => false
  | _ => true

def written? : PortCall → Option Message
  | act (.write m) => some m
  | _ => none

def pushed? : PortCall → Option Message
  | push m | act (.play m) => some m
  | _ => none

end PortCall

/-- The messages of a cycle on their way into a merge buffer. -/
structure Inflow where
  arrived : List Message := []
  /-- What is pending arrives at the end of the cycle. -/
  waiting : List Message := []

namespace Inflow

def after (i : Inflow) : PortCall → Inflow
  | .act (.prepare _) => {}
  | .act (.write m) => { i with arrived := i.arrived ++ [m] }
  | .push m | .act (.play m) => { i with waiting := i.waiting ++ [m] }
  | .act .finish => { arrived := i.arrived ++ i.waiting }
  | .act (.mute _) | .act (.keep _) => i

/-- All that has arrived, and what would arrive next. -/
def all (i : Inflow) : List Message := i.arrived ++ i.waiting

/-- Within a cycle, writes arrive and what is pushed waits. -/
theorem foldl_within {calls : List PortCall} (h : ∀ call ∈ calls, call.within) (i : Inflow) :
    calls.foldl after i = ⟨i.arrived ++ calls.filterMap (·.written?), i.waiting ++ calls.filterMap (·.pushed?)⟩ := by
  induction calls generalizing i with
  | nil => rw [List.filterMap_nil, List.filterMap_nil, List.append_nil, List.append_nil]; rfl
  | cons call rest ih =>
    obtain ⟨hcall, hrest⟩ := List.forall_mem_cons.mp h
    have hnext := ih hrest (i.after call)
    rcases call with (frames | m | m | _ | muted | depth) | m
    case act.prepare | act.finish => cases hcall
    case act.write => exact hnext.trans (congrArg (Inflow.mk · _) (List.append_cons _ _ _).symm)
    case act.play | push => exact hnext.trans (congrArg (Inflow.mk _ ·) (List.append_cons _ _ _).symm)
    case act.mute | act.keep => exact hnext

end Inflow

namespace Port

/-- The port after some calls. -/
def answer (p : Port) (calls : List PortCall) : Port := calls.foldl PortCall.run p

theorem answer_append (p : Port) (calls more : List PortCall) : p.answer (calls ++ more) = (p.answer calls).answer more :=
  List.foldl_append

/-! ## The state -/

theorem Remembers.call {p : Port} (h : p.Remembers) (call : PortCall) : (call.run p).Remembers := by
  cases call with
  | act a => exact h.run a
  | push m => exact ⟨h.input, h.room, h.state⟩

theorem Remembers.answer {p : Port} (h : p.Remembers) (calls : List PortCall) : (p.answer calls).Remembers := by
  induction calls generalizing p with
  | nil => exact h
  | cons call rest ih => exact ih (h.call call)

/-! ## The messages -/

/-- Within a cycle nothing passes, and nothing that has passed is forgotten. -/
theorem messages_within {p : Port} {calls : List PortCall} (h : ∀ call ∈ calls, call.within) :
    (p.answer calls).messages = p.messages := by
  induction calls generalizing p with
  | nil => rfl
  | cons call rest ih =>
    obtain ⟨hcall, hrest⟩ := List.forall_mem_cons.mp h
    refine (ih hrest).trans ?_
    rcases call with (frames | m | m | _ | muted | depth) | m
    case act.prepare | act.finish => cases hcall
    all_goals rfl

/-- An input port whose merge buffer has the first of the messages that arrived, while
others wait. -/
structure Collects (p : Port) (capacity : Nat) (i : Inflow) : Prop where
  input : p.direction = .input
  merge : ∃ unsorted, p.merge.Holds capacity (i.arrived.take capacity) unsorted
  room : p.pending.capacity = capacity
  /-- What is played without room would not be among the first messages either. -/
  pending : p.pending.messages.take capacity = i.waiting.take capacity

namespace Collects
variable {p : Port} {capacity : Nat} {i : Inflow}

/-- A message that arrives at a full buffer is not one of the first. -/
theorem write (h : p.Collects capacity i) (m : Message) :
    (p.write m).Collects capacity { i with arrived := i.arrived ++ [m] } := by
  obtain ⟨unsorted, hholds⟩ := h.merge
  have hlength : p.merge.entries.length = min capacity i.arrived.length := hholds.length_eq.trans List.length_take
  refine ⟨h.input, ?_, h.room, h.pending⟩
  obtain rfl := hholds.capacity
  unfold Port.write MergeBuffer.write
  split_ifs with hfull
  · have hfirst : (i.arrived ++ [m]).take p.merge.capacity = i.arrived.take p.merge.capacity :=
      List.take_append_of_le_length (by omega)
    exact ⟨unsorted, hfirst ▸ hholds⟩
  · have hroom : i.arrived.length < p.merge.capacity := by omega
    have hall : (i.arrived ++ [m]).take p.merge.capacity = i.arrived.take p.merge.capacity ++ [m] := by
      rw [List.take_of_length_le (List.length_append.trans_le hroom), List.take_of_length_le hroom.le]
    exact ⟨true, hall ▸ hholds.write m⟩

theorem writeAll (h : p.Collects capacity i) (messages : List Message) :
    (p.writeAll messages).Collects capacity { i with arrived := i.arrived ++ messages } := by
  induction messages generalizing p i with
  | nil => exact (List.append_nil i.arrived).symm ▸ h
  | cons m rest ih => exact List.append_cons i.arrived m rest ▸ ih (h.write m)

/-- What the merge buffer has at the end of a cycle, before it is sorted. -/
theorem merged (h : p.Collects capacity i) :
    ∃ unsorted, (p.writeAll p.pending.messages).merge.Holds capacity (i.all.take capacity) unsorted := by
  obtain ⟨unsorted, hholds⟩ := (h.writeAll p.pending.messages).merge
  rw [take_prepend_congr h.pending] at hholds
  exact ⟨unsorted, hholds⟩

/-- What passes at the end of a cycle. -/
theorem passed (h : p.Collects capacity i) :
    p.passed = p.messages ++ if p.muted then [] else sortedBy (·.time.toNat) (i.all.take capacity) := by
  obtain ⟨unsorted, hholds⟩ := h.merged
  unfold Port.passed
  rw [MergeBuffer.sort_entries, sortedBy_congr hholds.entries]

theorem push (h : p.Collects capacity i) (m : Message) :
    (PortCall.run p (.push m)).Collects capacity (i.after (.push m)) :=
  ⟨h.input, h.merge, h.room, take_append_congr h.pending [m]⟩

theorem play (h : p.Collects capacity i) (m : Message) :
    (PortAction.run p (.play m)).Collects capacity (i.after (.push m)) := by
  show Collects { p with pending := (p.pending.push m).1 } capacity _
  unfold Outbox.push
  split_ifs with hroom
  · exact h.push m
  · have hfull : capacity ≤ i.waiting.length := by
      have hlength := congrArg List.length h.pending
      have hcapacity := h.room
      rw [List.length_take, List.length_take] at hlength
      omega
    exact ⟨h.input, h.merge, h.room, h.pending.trans (List.take_append_of_le_length hfull).symm⟩

theorem call (h : p.Collects capacity i) (call : PortCall) : (call.run p).Collects capacity (i.after call) := by
  rcases call with (frames | m | m | _ | muted | depth) | m
  case act.prepare =>
    obtain ⟨unsorted, hholds⟩ := h.merge
    exact ⟨h.input, ⟨false, List.take_nil.symm ▸ hholds.clear⟩, h.room, rfl⟩
  case act.write => exact h.write m
  case act.play => exact h.play m
  case act.finish =>
    obtain ⟨unsorted, hholds⟩ := h.merged
    show p.finish.Collects capacity _
    rw [finish_input h.input]
    exact ⟨h.input, ⟨false, hholds.sort⟩, h.room, rfl⟩
  case act.mute | act.keep => exact ⟨h.input, h.merge, h.room, h.pending⟩
  case push => exact h.push m

theorem answer (h : p.Collects capacity i) (calls : List PortCall) :
    (p.answer calls).Collects capacity (calls.foldl Inflow.after i) := by
  induction calls generalizing p i with
  | nil => exact h
  | cons call rest ih => exact ih (h.call call)

end Collects

theorem new_collects (mergeCapacity ringCapacity : Nat) :
    (new .input mergeCapacity ringCapacity).Collects mergeCapacity {} :=
  ⟨rfl, ⟨false, rfl, fun _ => by rw [List.take_nil]; rfl, rfl, fun _ => .nil⟩, rfl, rfl⟩

/-! ## What a port tells -/

/-- The state of all that has left the ring of an input port, followed by what is in the ring, oldest first, is the
state of its input, whatever was asked of the port. The messages that it shows from the end of a cycle on are those
that it showed before, and unless it is muted, the stable sort by time of the first messages that arrived in the cycle,
as many as there is room for. If it is the only end of the cycle so far, it showed none before, and what arrived are the
writes of the cycle and then the messages that were pushed or played. -/
theorem state_and_messages {ringCapacity : Nat} (hring : 0 < ringCapacity) (mergeCapacity : Nat)
    (calls : List PortCall) :
    let fresh := new .input mergeCapacity ringCapacity
    let p := fresh.answer calls
    p.capture.ring.events.foldl Tracker.feedMessage p.capture.tail = p.inputState ∧
      ∀ earlier later, calls = earlier ++ .act .finish :: later → (∀ call ∈ later, call.within) →
        let before := fresh.answer earlier
        let inflow := earlier.foldl Inflow.after {}
        (p.messages = before.messages ++
          if before.muted then [] else sortedBy (·.time.toNat) (inflow.all.take mergeCapacity)) ∧
        ∀ past cycle, earlier = past ++ cycle → (past = [] ∨ ∃ older frames, past = older ++ [.act (.prepare frames)]) →
          (∀ call ∈ cycle, call.within) → before.messages = [] ∧
            inflow.all = cycle.filterMap (·.written?) ++ cycle.filterMap (·.pushed?) := by
  intro fresh p
  have hremembers := (new_remembers mergeCapacity hring).answer calls
  refine ⟨hremembers.state, ?_⟩
  rintro earlier later rfl hlater before inflow
  have hcollects : before.Collects mergeCapacity inflow := (new_collects mergeCapacity ringCapacity).answer earlier
  refine ⟨?_, ?_⟩
  · have hlast : p = before.finish.answer later := fresh.answer_append earlier _
    rw [hlast, messages_within hlater, finish_input hcollects.input]
    exact hcollects.passed
  · rintro past cycle rfl hpast hcycle
    have hbefore : before = (fresh.answer past).answer cycle := fresh.answer_append past cycle
    have hinflow : inflow = cycle.foldl Inflow.after (past.foldl Inflow.after {}) := List.foldl_append
    rw [hbefore, messages_within hcycle, hinflow, Inflow.foldl_within hcycle]
    -- A cycle begins with nothing, and so does the port.
    obtain rfl | ⟨older, frames, rfl⟩ := hpast
    · exact ⟨rfl, rfl⟩
    · rw [answer_append, List.foldl_append]
      exact ⟨rfl, rfl⟩

/-- Of three messages two get into the merge buffer, in the order of their times, and the ring has room for the last
one only. A port that is muted after the cycle has still let them pass. -/
theorem state_and_messages_crowded :
    let late : Message := .short 5 0xB0 7 80
    let middle : Message := .short 3 0x90 60 100
    let early : Message := .short 1 0xB0 7 90
    let cycle : List PortCall := [.push early, .act (.write late), .act (.write middle)]
    let earlier := [.act (.keep 8), .act (.prepare 8)] ++ cycle
    let p := (new .input 2 1).answer (earlier ++ [.act .finish, .act (.mute true)])
    0 < 1 ∧ p.capture.ring.events.foldl Tracker.feedMessage p.capture.tail = p.inputState ∧
      p.inputState.control 0 7 = some 80 ∧ p.capture.tail.control 0 7 = none ∧
      p.capture.tail.noteVelocity 0 60 = some 100 ∧
      p.messages = sortedBy (·.time.toNat) ([late, middle, early].take 2) ∧ p.messages = [middle, late] := by
  intro late middle early cycle earlier p
  obtain ⟨hstate, hmessages⟩ :=
    state_and_messages (show 0 < 1 by decide) 2 (earlier ++ [.act .finish, .act (.mute true)])
  obtain ⟨hpassed, honce⟩ := hmessages earlier [.act (.mute true)] rfl (by decide)
  obtain ⟨hnone, hinflow⟩ := honce [.act (.keep 8), .act (.prepare 8)] cycle rfl (.inr ⟨[.act (.keep 8)], 8, rfl⟩) (by decide)
  rw [hnone, hinflow] at hpassed
  exact ⟨by decide, hstate, by cbv, by cbv, by cbv, hpassed, by cbv⟩

/-- A cycle that is ended twice shows its messages twice. -/
theorem state_and_messages_ended_twice :
    let m : Message := .short 1 0x90 60 100
    let cycle : List PortCall := [.act (.write m), .act .finish]
    let p := (new .input 4 4).answer ([.act (.prepare 4)] ++ cycle ++ [.act .finish])
    p.messages = [m, m] ∧ p.messages ≠ if p.muted then [] else
      sortedBy (·.time.toNat) ((cycle.filterMap (·.written?) ++ cycle.filterMap (·.pushed?)).take 4) := by
  intro m cycle p
  have hmessages : p.messages = [m, m] := by decide +kernel
  have honce : (if p.muted then [] else sortedBy (·.time.toNat)
      ((cycle.filterMap (·.written?) ++ cycle.filterMap (·.pushed?)).take 4)).length ≤ 1 := by
    split_ifs
    · exact Nat.zero_le _
    · rw [length_sortedBy]
      exact Nat.le_refl _
  refine ⟨hmessages, fun h => ?_⟩
  rw [← h, hmessages] at honce
  exact absurd honce (by decide)

end Port

end Overdub.Midi
