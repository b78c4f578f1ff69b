import Mathlib.Tactic.SplitIfs
import Overdub.Midi.Storage
/-!
# Events in time order

A storage refuses an event that is older than its last one. So a whole run of
messages can be stored exactly if it is in order and finds room.
-/

namespace Overdub.Midi

/-- The messages are in time order. -/
def InOrder (messages : List Message) : Prop := messages.Pairwise fun a b => a.time ≤ b.time

instance (messages : List Message) : Decidable (InOrder messages) := inferInstanceAs (Decidable (List.Pairwise _ _))

namespace Storage

theorem append_eq {s : Storage} {m : Message} (hroom : s.events.length < s.capacity)
    (horder : InOrder (s.events ++ [m])) : s.append m = .ok { s with events := s.events ++ [m] } := by
  unfold append
  rw [if_neg (Nat.ne_of_lt hroom)]
  cases hlast : s.lastTime with
  | none => rfl
  | some last =>
    obtain ⟨e, he, rfl⟩ := Option.map_eq_some_iff.mp hlast
    have hle : e.time ≤ m.time :=
      (List.pairwise_append.mp horder).2.2 e (List.mem_of_getLast? he) m List.mem_cons_self
    exact if_neg (UInt32.not_lt.mpr hle)

/-- Messages in order are all stored if there is room for them. -/
theorem appendAll_eq {s : Storage} {messages : List Message}
    (hroom : s.events.length + messages.length ≤ s.capacity) (horder : InOrder (s.events ++ messages)) :
    s.appendAll messages = ({ s with events := s.events ++ messages }, .ok ()) := by
  induction messages generalizing s with
  | nil => simp [appendAll]
  | cons m rest ih =>
    rw [List.append_cons] at horder
    rw [List.length_cons] at hroom
    have happend : s.append m = .ok { s with events := s.events ++ [m] } :=
      append_eq (by omega) (List.pairwise_append.mp horder).1
    unfold appendAll
    rw [happend]
    dsimp only
    rw [ih (by simpa [Nat.add_assoc, Nat.add_comm 1] using hroom) horder, ← List.append_cons]

/-- Messages that are all stored come behind those that were there. -/
theorem appendAll_ok {s s' : Storage} {messages : List Message} (h : s.appendAll messages = (s', .ok ())) :
    s'.events = s.events ++ messages := by
  induction messages generalizing s with
  | nil =>
    obtain ⟨rfl, -⟩ := Prod.mk.inj h
    exact (List.append_nil _).symm
  | cons m rest ih =>
    unfold appendAll at h
    cases happend : s.append m with
    | error e => rw [happend] at h; cases h
    | ok next =>
      rw [happend] at h
      have hnext : next.events = s.events ++ [m] := by
        unfold append at happend
        split_ifs at happend
        split at happend
        · split_ifs at happend
          cases happend
          rfl
        · cases happend
          rfl
      rw [ih h, hnext, List.append_assoc]
      rfl

end Storage

end Overdub.Midi
