import Overdub.Proofs.CatchUp
import Overdub.Proofs.Reading
/-!
# Content as it is exchanged

Whatever happens to a channel, its storages never hold more than they have room for,
and the states that its data start from count their notes (`Recorder.Tidy`). Together
with the order of the stored events that is all that reading a sequence back asks
for: what one channel hands out, any other takes that has the room, and hands out
the same (`Channel.data_exchange`).
-/

namespace Overdub.Midi

namespace Storage

/-- There are no more events than there is room for. -/
def Bounded (s : Storage) : Prop := s.events.length ≤ s.capacity

theorem Bounded.append {s s' : Storage} {m : Message} (h : s.Bounded) (happend : s.append m = .ok s') :
    s'.Bounded ∧ s'.capacity = s.capacity := by
  obtain ⟨rfl, hroom, -⟩ := append_ok happend
  refine ⟨?_, rfl⟩
  unfold Bounded at h ⊢
  rw [List.length_append, List.length_singleton]
  dsimp only
  omega

theorem Bounded.keepAll {s : Storage} (h : s.Bounded) (messages : List Message) : (s.keepAll messages).Bounded := by
  induction messages generalizing s with
  | nil => exact h
  | cons m rest ih =>
    have hkeep : (s.keep m).Bounded := by
      unfold keep
      cases happend : s.append m with
      | error => exact h
      | ok => exact (h.append happend).1
    exact ih hkeep

theorem Bounded.appendAll {s : Storage} (h : s.Bounded) (messages : List Message) : (s.appendAll messages).1.Bounded := by
  induction messages generalizing s with
  | nil => exact h
  | cons m rest ih =>
    unfold Storage.appendAll
    cases happend : s.append m with
    | error => exact h
    | ok => exact ih (h.append happend).1

theorem Bounded.truncateFrom {s : Storage} (h : s.Bounded) (time : UInt32) : (s.truncateFrom time).Bounded :=
  (List.takeWhile_sublist _).length_le.trans h

theorem clear_bounded (s : Storage) : s.clear.Bounded := Nat.zero_le _

end Storage

namespace Tracker

theorem Counted.feedMessages {t : Tracker} (h : t.Counted) (messages : List Message) :
    (messages.foldl feedMessage t).Counted := by
  rw [foldl_feedMessage]
  exact h.feedAll _

/-- The messages of a catch-up lead to the state that they were made of. -/
theorem feedAll_catchUp {t : Tracker} (hcounted : t.Counted) (hsound : t.Sound) : fresh.feedAll t.catchUp = t :=
  (fresh_counted.feedAll _).ext hcounted fun channel => by
    rw [catchUp, feedAll_diff (Follows.refl fresh) hsound, get_fresh, Voice.learn_fresh]

end Tracker

/-! ## Channels that can be reached -/

/-- No storage holds more than it has room for, and all states count their notes. -/
structure Recorder.Tidy (r : Recorder) : Prop where
  main : r.main.Bounded
  aside : r.aside.Bounded
  startState : r.startState.Counted
  asideState : r.asideState.Counted
  input : r.input.Counted

namespace Recorder

theorem Tidy.hear {r : Recorder} (h : r.Tidy) (messages : List Message) : (r.hear messages).Tidy :=
  ⟨h.main, h.aside, h.startState, h.asideState, h.input.feedAll _⟩

theorem Tidy.store {r : Recorder} (h : r.Tidy) (target : RecordTarget) (position : Nat) (messages : List Message) :
    (r.store target position messages).Tidy := by
  cases target with
  | main =>
    refine ⟨(h.main.truncateFrom _).keepAll _, h.aside, ?_, h.asideState, h.input⟩
    show Tracker.Counted (if _ then _ else _)
    split_ifs
    exacts [h.input, h.startState]
  | preRecord =>
    refine ⟨h.main, (h.aside.truncateFrom _).keepAll _, h.startState, ?_, h.input⟩
    show Tracker.Counted (if _ then _ else _)
    split_ifs
    exacts [h.input, h.asideState]

theorem Tidy.run {i : Intake} (h : i.Tidy) (command : Command) : (i.run command).Tidy := by
  cases command with
  | allSoundOff | playback => exact h
  | record target frame n position =>
    unfold Intake.run
    dsimp only
    split
    · exact h
    · exact ((h.hear _).store target position _).hear _
  | promotePreRecord => exact ⟨h.aside, i.main.clear_bounded, h.asideState, h.asideState, h.input⟩
  | discardPreRecord => exact ⟨h.main, i.aside.clear_bounded, h.startState, h.asideState, h.input⟩

theorem Tidy.runAll {i : Intake} (h : i.Tidy) (commands : List Command) : (commands.foldl Intake.run i).Tidy := by
  induction commands generalizing i with
  | nil => exact h
  | cons command rest ih => exact ih (h.run command)

end Recorder

namespace Channel
open SequenceEvent

theorem replace_load_ok {c loaded : Channel} {events : List SequenceEvent} {length : Nat}
    (h : c.load events length = .ok loaded) : c.replace (.load events length) = (loaded, .ok ()) := by
  simp only [replace, h]

theorem replace_load_error {c : Channel} {events : List SequenceEvent} {length : Nat} {why : Overdub.Error}
    (h : c.load events length = .error why) : c.replace (.load events length) = (c, .error why) := by
  simp only [replace, h]

theorem bounded_of_storable {storage : Storage} {capacity : Nat} {events : List SequenceEvent}
    (h : Storable capacity events) (hcapacity : storage.capacity = capacity)
    (hevents : storage.events.map Message.toSequence = stored events) : storage.Bounded := by
  unfold Storage.Bounded
  rw [hcapacity, ← List.length_map Message.toSequence, hevents]
  exact h.room

/-- New content is as tidy as what was recorded. -/
theorem tidy_replace {c : Channel} (h : c.recorder.Tidy) (r : Replacement) : (c.replace r).1.recorder.Tidy := by
  cases r with
  | clear length =>
    exact ⟨c.storage.clear_bounded, c.preRecord.clear_bounded, Tracker.fresh_counted, h.asideState, h.input⟩
  | load events length =>
    rcases c.load_cases events length with ⟨hstorable, storage, hload, hcapacity, hevents⟩ | ⟨_, _, _, _, _, _, _, hload⟩
    · rw [replace_load_ok hload]
      exact ⟨bounded_of_storable hstorable hcapacity hevents, h.aside, Tracker.fresh_counted.feedAll _, h.asideState,
        h.input⟩
    · rw [replace_load_error hload]
      exact h
  | adopt ring left reverseStart keepBefore =>
    have hbounded : (ring.snapshot c.storage.capacity).1.Bounded :=
      Storage.Bounded.appendAll (s := .empty c.storage.capacity) (Nat.zero_le _) _
    show ((c.adopt _ reverseStart keepBefore).1).recorder.Tidy
    unfold Channel.adopt
    dsimp only
    split
    · next storage e hsnapshot =>
      rw [hsnapshot] at hbounded
      exact ⟨hbounded, h.aside, h.startState, h.asideState, h.input⟩
    · next storage hsnapshot =>
      rw [hsnapshot] at hbounded
      exact ⟨(List.dropWhile_sublist _).length_le.trans hbounded, h.aside,
        (Tracker.fresh_counted.feedMessages left).feedMessages _, h.asideState, h.input⟩

theorem Action.tidy {c : Channel} (h : c.recorder.Tidy) (action : Action) : (action.run c).recorder.Tidy := by
  cases action with
  | prepare | adjust | read => exact h
  | process context =>
    have hdeck := c.process_deck context none
    show ((c.process context).1.deck none).intake.toRecorder.Tidy
    rw [hdeck]
    exact h
  | finalize input output =>
    obtain ⟨⟨hrecorder, -⟩, -, -⟩ := c.finalize_runs input output
    have hran : (((c.deck input).runAll c.track.dataLength output.isSome c.commands).1.intake).Tidy := by
      rw [Deck.runAll_intake]
      exact Recorder.Tidy.runAll (i := (c.deck input).intake) h c.commands
    show (c.finalize input output).1.recorder.Tidy
    rw [hrecorder]
    exact hran.hear _
  | replace r => exact tidy_replace h r
  | setDataLength length =>
    show (c.setDataLength length).recorder.Tidy
    unfold Channel.setDataLength
    split_ifs <;> exact h

theorem Reachable.tidy {c : Channel} (h : c.Reachable) : c.recorder.Tidy := by
  obtain ⟨capacity, mode, actions, rfl⟩ := h
  have hnew : (new capacity mode).recorder.Tidy :=
    ⟨Nat.zero_le _, Nat.zero_le _, Tracker.fresh_counted, Tracker.fresh_counted, Tracker.fresh_counted⟩
  unfold Channel.after
  generalize new capacity mode = c at hnew
  induction actions generalizing c with
  | nil => exact hnew
  | cons action rest ih => exact ih _ (action.tidy hnew)

/-! ## Handing out and taking in -/

section Data
variable {c : Channel}

theorem data_eq (c : Channel) :
    c.data = c.startState.catchUp.map (⟨stateRestoreTime, ·⟩) ++ c.storage.events.map Message.toSequence := rfl

/-- What is handed out has the stored events as its events of no negative time. -/
theorem stored_data (c : Channel) : stored c.data = c.storage.events.map Message.toSequence := by
  have hrestores : stored (c.startState.catchUp.map (⟨stateRestoreTime, ·⟩)) = [] := by
    refine List.filter_eq_nil_iff.mpr fun e he => ?_
    obtain ⟨bytes, -, rfl⟩ := List.mem_map.mp he
    exact Bool.false_ne_true
  rw [data_eq, stored_append, hrestores, List.nil_append, Message.toSequence_stored]

/-- The events of negative time that are handed out lead to the start state. -/
theorem restored_data (hcounted : c.startState.Counted) (hsound : c.startState.Sound) :
    restored c.data = c.startState := by
  have hrestores : (c.startState.catchUp.map (⟨stateRestoreTime, ·⟩ : List UInt8 → SequenceEvent)).filter
      (·.isStateRestore) = c.startState.catchUp.map (⟨stateRestoreTime, ·⟩) := by
    refine List.filter_eq_self.mpr fun e he => ?_
    obtain ⟨bytes, -, rfl⟩ := List.mem_map.mp he
    rfl
  have hevents : (c.storage.events.map Message.toSequence).filter (·.isStateRestore) = [] := by
    have hstored := Message.toSequence_stored c.storage.events
    refine List.filter_eq_nil_iff.mpr fun e he => ?_
    rw [← hstored] at he
    simpa using (List.mem_filter.mp he).2
  unfold restored
  rw [data_eq, List.filter_append, hrestores, hevents, List.append_nil, List.map_map]
  exact (congrArg _ (List.map_id _)).trans (Tracker.feedAll_catchUp hcounted hsound)

/-- What a channel in order hands out fits into any storage that has the room. -/
theorem storable_data (horder : InOrder c.storage.events) (hbounded : c.storage.Bounded) {capacity : Nat}
    (hroom : c.storage.capacity ≤ capacity) : Storable capacity c.data := by
  refine ⟨?_, ?_, ?_⟩ <;> rw [stored_data]
  · rw [List.length_map]
    exact hbounded.trans hroom
  · exact List.forall_mem_map.mpr fun m _ => m.toSequence_sized
  · exact List.pairwise_map.mpr (horder.imp fun hle => Int.ofNat_le.mpr (UInt32.le_iff_toNat_le.mp hle))

end Data

theorem toSequence_injective : Function.Injective Message.toSequence := by
  rintro ⟨t, bytes, _, _⟩ ⟨u, more, _, _⟩ h
  obtain ⟨htime, rfl⟩ := SequenceEvent.mk.inj h
  obtain rfl : t = u := UInt32.toNat_inj.mp (Int.ofNat_inj.mp htime)
  rfl

/-- A sequence that is taken is the content. -/
theorem taken_of_ok {c : Channel} {events : List SequenceEvent} {length : Nat}
    (hok : (c.replace (.load events length)).2 = .ok ()) :
    Storable c.storage.capacity events ∧
      (c.replace (.load events length)).1.storage.events.map Message.toSequence = stored events ∧
      (c.replace (.load events length)).1.startState = restored events := by
  rcases c.load_cases events length with ⟨hstorable, storage, hload, -, hevents⟩ | ⟨_, _, _, _, _, _, _, hload⟩
  · rw [replace_load_ok hload]
    exact ⟨hstorable, hevents, rfl⟩
  · rw [replace_load_error hload] at hok
    cases hok

theorem load_ok_of_storable {c : Channel} {events : List SequenceEvent} (h : Storable c.storage.capacity events)
    (length : Nat) : (c.replace (.load events length)).2 = .ok () := by
  rcases c.load_cases events length with ⟨-, storage, hload, -, -⟩ | ⟨front, e, rest, why, rfl, -, hrefused, -⟩
  · rw [replace_load_ok hload]
  · exact absurd h (hrefused.not_storable rest)

/-- A sequence that is refused changes nothing, and there is an event to blame. -/
theorem unchanged_of_error {c : Channel} {events : List SequenceEvent} {length : Nat} {why : Overdub.Error}
    (herror : (c.replace (.load events length)).2 = .error why) :
    (c.replace (.load events length)).1 = c ∧
      ∃ front e rest, events = front ++ e :: rest ∧ Storable c.storage.capacity front ∧
        Refusal c.storage.capacity front e why := by
  rcases c.load_cases events length with ⟨-, storage, hload, -, -⟩ | ⟨front, e, rest, _, hsplit, hfront, hrefused, hload⟩
  · rw [replace_load_ok hload] at herror
    cases herror
  · rw [replace_load_error hload] at herror ⊢
    cases herror
    exact ⟨rfl, front, e, rest, hsplit, hfront, hrefused⟩

/-- Loading succeeds exactly if the sequence can be stored. The channel then hands out the messages that restore
the state of the folded events of negative time, and behind them all other events as they came. A channel that can
be reached hands out what every channel with at least its room takes, which then has the same events and the same
start state. A sequence with an event that is refused leaves the channel as it is. -/
theorem data_exchange :
    (∀ source target : Channel, source.Reachable → source.storage.capacity ≤ target.storage.capacity → ∀ length,
      ∃ loaded, target.replace (.load source.data length) = (loaded, .ok ()) ∧ loaded.data = source.data ∧
        loaded.storage.events = source.storage.events ∧ loaded.startState = source.startState) ∧
    (∀ (c : Channel) events length, (c.replace (.load events length)).2 = .ok () →
      (c.replace (.load events length)).1.data =
        (restored events).catchUp.map (⟨stateRestoreTime, ·⟩) ++ events.filter fun e => decide (0 ≤ e.time)) ∧
    (∀ (c : Channel) events length, (c.replace (.load events length)).2 = .ok () ↔
      Storable c.storage.capacity events) ∧
    ∀ (c : Channel) events length why, (c.replace (.load events length)).2 = .error why →
      (c.replace (.load events length)).1 = c ∧
        ∃ front e rest, events = front ++ e :: rest ∧ Storable c.storage.capacity front ∧
          Refusal c.storage.capacity front e why := by
  refine ⟨fun source target hsource hroom length => ?_, fun c events length hok => ?_,
    fun c events length => ⟨fun hok => (taken_of_ok hok).1, fun hstorable => load_ok_of_storable hstorable length⟩,
    fun c events length why => unchanged_of_error⟩
  · have hrest := hsource.atRest
    have htidy := hsource.tidy
    have hok := load_ok_of_storable (storable_data hrest.sorted.main htidy.main hroom) length
    obtain ⟨-, hevents, hstate⟩ := taken_of_ok hok
    rw [restored_data htidy.startState hrest.sound.startState] at hstate
    rw [stored_data] at hevents
    refine ⟨_, Prod.ext rfl hok, ?_, toSequence_injective.list_map hevents, hstate⟩
    rw [data_eq (target.replace _).1, hevents, hstate, ← data_eq]
  · obtain ⟨-, hevents, hstate⟩ := taken_of_ok hok
    rw [data_eq, hevents, hstate]
    refine congrArg (_ ++ ·) (List.filter_congr fun e _ => ?_)
    show (!decide (e.time < 0)) = _
    rw [← decide_not]
    exact decide_eq_decide.mpr Int.not_lt

/-- A held note and its release are handed out and taken in again. What comes before the release is refused behind
it. -/
theorem data_exchange_note :
    let events : List SequenceEvent := [⟨-3, [0x90, 60, 100]⟩, ⟨2, [0x80, 60, 0]⟩]
    let source := (new 4 .direct).after [.replace (.load events 4)]
    (∃ loaded, (new 4 .direct).replace (.load source.data 8) = (loaded, .ok ()) ∧ loaded.data = source.data) ∧
      source.data = (restored events).catchUp.map (⟨-1, ·⟩) ++ [⟨2, [0x80, 60, 0]⟩] ∧
      source.replace (.load (events ++ [⟨1, [0x90, 60, 100]⟩]) 4) = (source, .error (.midi (.outOfOrder 1 2))) := by
  intro events source
  obtain ⟨hexchange, hdata, htaken, hrefused⟩ := data_exchange
  have hreached : source.Reachable := ⟨4, .direct, _, rfl⟩
  have hroom : source.storage.capacity ≤ (new 4 .direct).storage.capacity := by decide +kernel
  obtain ⟨loaded, hload, hsame, -, -⟩ := hexchange source (new 4 .direct) hreached hroom 8
  have hok : ((new 4 .direct).replace (.load events 4)).2 = .ok () :=
    (htaken _ _ _).mpr ⟨by decide, by decide, by decide⟩
  have herror : (source.replace (.load (events ++ [⟨1, [0x90, 60, 100]⟩]) 4)).2 = .error (.midi (.outOfOrder 1 2)) := by
    decide +kernel
  exact ⟨⟨loaded, hload, hsame⟩, hdata (new 4 .direct) events 4 hok, Prod.ext (hrefused _ _ _ _ herror).1 herror⟩

end Channel

end Overdub.Midi
