import Overdub.Proofs.Handling
/-!
# Reading a sequence

A sequence goes into a storage event by event. What stands in the way of one event
depends on those in front of it only through what they have stored (`Refusal`), so a
sequence is either taken as a whole or refused at its first event that does not fit
(`Channel.readSequence_cases`), and it is taken exactly if it is `Storable`.
-/

namespace Overdub.Midi

/-- A stored event as it is exchanged with the outside. -/
def Message.toSequence (m : Message) : SequenceEvent := ⟨m.time.toNat, m.bytes⟩

namespace Storage

/-- A message that is accepted comes last. There was room for it, and it is not older than the last one. -/
theorem append_ok {s s' : Storage} {m : Message} (h : s.append m = .ok s') :
    s' = { s with events := s.events ++ [m] } ∧ s.events.length ≠ s.capacity ∧ ∀ last ∈ s.lastTime, last ≤ m.time := by
  unfold append at h
  split_ifs at h with hfull
  split at h
  · next last hlast =>
    split_ifs at h with holder
    cases h
    exact ⟨rfl, hfull, fun _ hmem => Option.some_inj.mp (hlast ▸ hmem) ▸ UInt32.not_lt.mp holder⟩
  · next hnone =>
    cases h
    exact ⟨rfl, hfull, fun _ hmem => by rw [hnone] at hmem; cases hmem⟩

/-- A message is refused by a full storage, and otherwise because it is older than the last one. -/
theorem append_error {s : Storage} {m : Message} {e : Error} (h : s.append m = .error e) :
    (s.events.length = s.capacity ∧ e = .storageFull s.capacity) ∨
      (s.events.length ≠ s.capacity ∧ ∃ last, s.lastTime = some last ∧ m.time < last ∧ e = .outOfOrder m.time last) := by
  unfold append at h
  split_ifs at h with hfull
  · cases h
    exact .inl ⟨hfull, rfl⟩
  · split at h
    · next last hlast =>
      split_ifs at h with holder
      cases h
      exact .inr ⟨hfull, last, hlast, holder, rfl⟩
    · cases h

end Storage

namespace SequenceEvent

/-- The events that are stored, which are those of no negative time. -/
def stored (events : List SequenceEvent) : List SequenceEvent := events.filter fun e => !e.isStateRestore

/-- The state that the events of negative time lead to. -/
def restored (events : List SequenceEvent) : Tracker :=
  Tracker.fresh.feedAll ((events.filter (·.isStateRestore)).map (·.data))

theorem stored_append (front rest : List SequenceEvent) : stored (front ++ rest) = stored front ++ stored rest :=
  List.filter_append ..

/-- The data make a message, at a time that there is. -/
def Sized (e : SequenceEvent) : Prop := e.time ≤ maxFrames ∧ e.data ≠ [] ∧ e.data.length ≤ maxMessageBytes

instance (e : SequenceEvent) : Decidable e.Sized := inferInstanceAs (Decidable (_ ∧ _ ∧ _))

/-- A sequence that a storage with room for `capacity` events takes. -/
structure Storable (capacity : Nat) (events : List SequenceEvent) : Prop where
  room : (stored events).length ≤ capacity
  sized : ∀ e ∈ stored events, e.Sized
  ordered : (stored events).Pairwise fun a b => a.time ≤ b.time

/-- Why an event cannot be stored behind the ones in front of it. Each cause is looked for once those
above it are ruled out. -/
inductive Refusal (capacity : Nat) (front : List SequenceEvent) (e : SequenceEvent) : Overdub.Error → Prop
  | late (h : maxFrames < e.time) : Refusal capacity front e (.invalidArgument "MIDI event time out of range")
  | empty (timely : 0 ≤ e.time ∧ e.time ≤ maxFrames) (h : e.data = []) :
      Refusal capacity front e (.midi .emptyMessage)
  | oversized (timely : 0 ≤ e.time ∧ e.time ≤ maxFrames) (h : maxMessageBytes < e.data.length) :
      Refusal capacity front e (.midi (.messageTooLarge e.data.length maxMessageBytes))
  | full (timely : 0 ≤ e.time) (sized : e.Sized) (h : (stored front).length = capacity) :
      Refusal capacity front e (.midi (.storageFull capacity))
  | outOfOrder (timely : 0 ≤ e.time) (sized : e.Sized) (room : (stored front).length ≠ capacity)
      {last : SequenceEvent} (hlast : (stored front).getLast? = some last) (h : e.time < last.time) :
      Refusal capacity front e (.midi (.outOfOrder (.ofNat e.time.toNat) (.ofNat last.time.toNat)))

/-- An event that is refused is one of those that would be stored. -/
theorem Refusal.stored {capacity : Nat} {front : List SequenceEvent} {e : SequenceEvent} {why : Overdub.Error}
    (h : Refusal capacity front e why) : stored [e] = [e] := by
  have hmaxFrames : maxFrames = 2 ^ 32 - 1 := rfl
  have htime : 0 ≤ e.time := by
    cases h with
    | late h => omega
    | empty timely | oversized timely => exact timely.1
    | full timely | outOfOrder timely => exact timely
  simp [SequenceEvent.stored, isStateRestore, htime]

/-- A sequence with an event that is refused does not fit. -/
theorem Refusal.not_storable {capacity : Nat} {front : List SequenceEvent} {e : SequenceEvent} {why : Overdub.Error}
    (h : Refusal capacity front e why) (rest : List SequenceEvent) : ¬Storable capacity (front ++ e :: rest) := by
  have hstored : SequenceEvent.stored (front ++ e :: rest) =
      SequenceEvent.stored front ++ e :: SequenceEvent.stored rest := by
    rw [List.append_cons, stored_append, stored_append, h.stored, List.append_assoc, List.singleton_append]
  intro hall
  obtain ⟨hroom, hsized, hordered⟩ := hall
  rw [hstored] at hroom hsized hordered
  have he : e.Sized := hsized e (List.mem_append_right _ List.mem_cons_self)
  cases h with
  | late h => exact absurd he.1 (by omega)
  | empty timely h => exact he.2.1 h
  | oversized timely h => exact absurd he.2.2 (by omega)
  | full timely sized h =>
    rw [List.length_append, List.length_cons] at hroom
    omega
  | outOfOrder timely sized room hlast h =>
    have hle := (List.pairwise_append.mp hordered).2.2 _ (List.mem_of_getLast? hlast) e List.mem_cons_self
    omega

end SequenceEvent

namespace Message

theorem ofNat_toNat_time {time : Int} (hlow : 0 ≤ time) (hhigh : time ≤ maxFrames) :
    ((UInt32.ofNat time.toNat).toNat : Int) = time := by
  have hmaxFrames : maxFrames = 2 ^ 32 - 1 := rfl
  rw [UInt32.toNat_ofNat', Nat.mod_eq_of_lt (by omega)]
  omega

/-- The time and the data of a stored event fit. -/
theorem toSequence_sized (m : Message) : m.toSequence.Sized := by
  have hmaxFrames : maxFrames = 2 ^ 32 - 1 := rfl
  have htime := m.time.toNat_lt
  refine ⟨?_, m.bytes_ne_nil, m.length_le⟩
  show (m.time.toNat : Int) ≤ maxFrames
  omega

theorem toSequence_stored (messages : List Message) :
    SequenceEvent.stored (messages.map toSequence) = messages.map toSequence := by
  refine List.filter_eq_self.mpr fun e he => ?_
  obtain ⟨m, -, rfl⟩ := List.mem_map.mp he
  have hlow : ¬m.toSequence.time < 0 := Int.not_lt.mpr (Int.natCast_nonneg m.time.toNat)
  simp [SequenceEvent.isStateRestore, hlow]

end Message

namespace Channel
open SequenceEvent

/-- A message is stored behind others, or refused for a reason. -/
theorem append_cases {storage : Storage} {front : List SequenceEvent}
    (hevents : storage.events.map Message.toSequence = stored front) (hfront : Storable storage.capacity front)
    (m : Message) :
    (Storable storage.capacity (front ++ [m.toSequence]) ∧
      storage.append m = .ok { storage with events := storage.events ++ [m] }) ∨
    ∃ why, Refusal storage.capacity front m.toSequence (.midi why) ∧ storage.append m = .error why := by
  have htimely : 0 ≤ m.toSequence.time := Int.natCast_nonneg m.time.toNat
  have hlength : (stored front).length = storage.events.length := by rw [← hevents, List.length_map]
  have hlast : (stored front).getLast? = storage.events.getLast?.map Message.toSequence := by
    rw [← hevents, List.getLast?_map]
  have hstored : stored (front ++ [m.toSequence]) = stored front ++ [m.toSequence] := by
    rw [stored_append]
    exact congrArg (stored front ++ ·) (Message.toSequence_stored [m])
  cases happend : storage.append m with
  | ok next =>
    obtain ⟨rfl, hroom, horder⟩ := Storage.append_ok happend
    refine .inl ⟨⟨?_, ?_, ?_⟩, rfl⟩
    · have hfits := hfront.room
      rw [hstored, List.length_append, List.length_singleton]
      omega
    · rw [hstored, List.forall_mem_append, List.forall_mem_singleton]
      exact ⟨hfront.sized, m.toSequence_sized⟩
    · rw [hstored, List.pairwise_append]
      refine ⟨hfront.ordered, List.pairwise_singleton _ _, fun a ha b hb => ?_⟩
      obtain rfl := List.mem_singleton.mp hb
      -- In order, no event is later than the last one.
      obtain ⟨init, last, hsplit⟩ := (List.eq_nil_or_concat (stored front)).resolve_left (List.ne_nil_of_mem ha)
      rw [List.concat_eq_append] at hsplit
      rw [hsplit, List.getLast?_concat] at hlast
      obtain ⟨x, hx, rfl⟩ := Option.map_eq_some_iff.mp hlast.symm
      have hle : x.time ≤ m.time := horder _ (by rw [Storage.lastTime, hx]; rfl)
      have hbefore := hfront.ordered
      rw [hsplit] at ha hbefore
      have hmax : a.time ≤ x.toSequence.time := by
        rcases List.mem_append.mp ha with ha | ha
        · exact (List.pairwise_append.mp hbefore).2.2 a ha _ List.mem_cons_self
        · exact le_of_eq (congrArg SequenceEvent.time (List.mem_singleton.mp ha))
      exact hmax.trans (Int.ofNat_le.mpr (UInt32.le_iff_toNat_le.mp hle))
  | error why =>
    refine .inr ⟨why, ?_, rfl⟩
    rcases Storage.append_error happend with ⟨hfull, rfl⟩ | ⟨hroom, last, hsome, holder, rfl⟩
    · exact .full htimely m.toSequence_sized (hlength.trans hfull)
    · obtain ⟨x, hx, rfl⟩ := Option.map_eq_some_iff.mp hsome
      rw [hx, Option.map_some] at hlast
      have holder : m.toSequence.time < x.toSequence.time := Int.ofNat_lt.mpr (UInt32.lt_iff_toNat_lt.mp holder)
      have hrefused := Refusal.outOfOrder htimely m.toSequence_sized (fun h => hroom (hlength.symm.trans h)) hlast holder
      have htime : ∀ y : Message, UInt32.ofNat y.toSequence.time.toNat = y.time := fun y => UInt32.ofNat_toNat
      rwa [htime, htime] at hrefused

theorem readSequence_append (storage : Storage) (state : Tracker) (front rest : List SequenceEvent) :
    readSequence storage state (front ++ rest) =
      (readSequence storage state front).bind fun read => readSequence read.1 read.2 rest := by
  induction front generalizing storage state with
  | nil => rfl
  | cons e front ih =>
    rw [List.cons_append, readSequence, readSequence]
    split_ifs
    · exact ih _ _
    · split
      · rfl
      · split
        · rfl
        · exact ih _ _

/-- One more event is read, or refused for a reason. -/
theorem readSequence_event {storage : Storage} {front : List SequenceEvent}
    (hevents : storage.events.map Message.toSequence = stored front) (hfront : Storable storage.capacity front)
    (state : Tracker) (e : SequenceEvent) :
    (Storable storage.capacity (front ++ [e]) ∧ ∃ events,
      readSequence storage state [e] =
        .ok ({ storage with events }, if e.isStateRestore then state.feed e.data else state) ∧
      events.map Message.toSequence = stored (front ++ [e])) ∨
    ∃ why, Refusal storage.capacity front e why ∧ readSequence storage state [e] = .error why := by
  by_cases hrestore : e.isStateRestore = true
  · have hsame : stored (front ++ [e]) = stored front := by simp [stored, hrestore]
    refine .inl ⟨⟨hsame ▸ hfront.room, hsame ▸ hfront.sized, hsame ▸ hfront.ordered⟩, storage.events, ?_, ?_⟩
    · simp only [readSequence, hrestore, if_true]
    · rw [hevents, hsame]
  · have hlow : 0 ≤ e.time := by simpa [isStateRestore] using hrestore
    simp only [readSequence, hrestore, Bool.false_eq_true, if_false]
    by_cases hhigh : e.time ≤ maxFrames
    · have htime := Message.ofNat_toNat_time hlow hhigh
      rw [frames32?, if_pos ⟨hlow, hhigh⟩]
      dsimp only
      unfold Storage.appendBytes Message.ofBytes
      split_ifs with hempty hsize
      · exact .inr ⟨_, .empty ⟨hlow, hhigh⟩ hempty, rfl⟩
      · obtain ⟨m, hm, rfl⟩ : ∃ m : Message,
            m = ⟨.ofNat e.time.toNat, e.data, hempty, hsize⟩ ∧ m.toSequence = e :=
          ⟨_, rfl, by unfold Message.toSequence; rw [htime]⟩
        rw [← hm]
        dsimp only [Except.bind]
        rcases append_cases hevents hfront m with ⟨hstorable, happend⟩ | ⟨why, hrefused, happend⟩
        · rw [happend]
          refine .inl ⟨hstorable, _, rfl, ?_⟩
          rw [List.map_append, hevents, stored_append, ← Message.toSequence_stored [m]]
          rfl
        · rw [happend]
          exact .inr ⟨_, hrefused, rfl⟩
      · exact .inr ⟨_, .oversized ⟨hlow, hhigh⟩ (by omega), rfl⟩
    · rw [frames32?, if_neg fun h => hhigh h.2]
      exact .inr ⟨_, .late (by omega), rfl⟩

/-- A sequence is read as a whole, or refused at the first event that does not fit. -/
theorem readSequence_cases (capacity : Nat) (events : List SequenceEvent) :
    (Storable capacity events ∧ ∃ storage : Storage,
      readSequence (.empty capacity) .fresh events = .ok (storage, restored events) ∧
      storage.capacity = capacity ∧ storage.events.map Message.toSequence = stored events) ∨
    ∃ front e rest why, events = front ++ e :: rest ∧ Storable capacity front ∧ Refusal capacity front e why ∧
      readSequence (.empty capacity) .fresh events = .error why := by
  induction events using List.reverseRecOn with
  | nil => exact .inl ⟨⟨Nat.zero_le _, List.forall_mem_nil _, .nil⟩, .empty capacity, rfl, rfl, rfl⟩
  | append_singleton front e ih =>
    rw [readSequence_append]
    rcases ih with ⟨hfront, storage, hread, rfl, hevents⟩ | ⟨front', e', rest, why, rfl, hfront, hrefused, hread⟩
    · rw [hread]
      rcases readSequence_event hevents hfront (restored front) e with ⟨hmore, events, hnext, hstored⟩ | ⟨why, hrefused, hnext⟩
      · have hrestored : restored (front ++ [e]) =
            if e.isStateRestore then (restored front).feed e.data else restored front := by
          unfold restored
          split_ifs with hrestore <;> simp [hrestore, Tracker.feedAll]
        rw [hrestored]
        exact .inl ⟨hmore, _, hnext, rfl, hstored⟩
      · exact .inr ⟨front, e, [], why, rfl, hfront, hrefused, hnext⟩
    · rw [hread]
      exact .inr ⟨front', e', rest ++ [e], why, by simp, hfront, hrefused, rfl⟩

/-- Loading a sequence takes it as a whole, or leaves everything as it was. -/
theorem load_cases (c : Channel) (events : List SequenceEvent) (length : Nat) :
    (Storable c.storage.capacity events ∧ ∃ storage : Storage,
      c.load events length = .ok ({ c with storage, startState := restored events, cursor := .start }.modifyTrack
        (·.replaceData length 0)) ∧
      storage.capacity = c.storage.capacity ∧ storage.events.map Message.toSequence = stored events) ∨
    ∃ front e rest why, events = front ++ e :: rest ∧ Storable c.storage.capacity front ∧
      Refusal c.storage.capacity front e why ∧ c.load events length = .error why := by
  unfold load
  rw [show c.storage.clear = .empty c.storage.capacity from rfl]
  rcases readSequence_cases c.storage.capacity events with
    ⟨hstorable, storage, hread, hcapacity, hevents⟩ | ⟨front, e, rest, why, hsplit, hfront, hrefused, hread⟩
  · rw [hread]
    exact .inl ⟨hstorable, storage, rfl, hcapacity, hevents⟩
  · rw [hread]
    exact .inr ⟨front, e, rest, why, hsplit, hfront, hrefused, rfl⟩

end Channel

end Overdub.Midi
