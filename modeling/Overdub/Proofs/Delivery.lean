import Overdub.Proofs.Handling
/-!
# What reaches the listener

The list that a cycle plays into has room for so many messages, and what is sent
beyond that is lost (`Action.delivered_eq`). The output state follows what is sent
all the same. So it is the state of the listener as long as nothing has been lost,
and the difference that a restart sends leads the listener to where it should be. Once
the release of a note is lost this difference passes over the note, because it does not
mention what the output state takes for settled (`output_state_follows_sent`).
-/

namespace Overdub.Midi

/-! ## What a difference leaves alone -/

namespace Voice
variable {channel : UInt8} {old new : Voice} {note : Fin 128}

/-- The events of a difference do not touch a note on which the two states agree. -/
theorem apply_notes_of_mem_changes (hnew : new.Sound) (hsame : new.notes.get note = old.notes.get note) {e : Event}
    (h : e ∈ changes channel old new) (v : Voice) : (v.apply e).notes.get note = v.notes.get note := by
  simp only [changes, List.mem_append, List.mem_flatMap] at h
  rcases h with (((h | ⟨cc, -, h⟩) | h) | h) | ⟨other, -, h⟩
  · obtain ⟨x, -, rfl⟩ := mem_changed h
    rfl
  · obtain ⟨x, hx, rfl⟩ := mem_changed h
    obtain ⟨-, hnotes, hsound⟩ := hnew.controls cc x hx
    simp only [apply, hnotes, hsound, or_self, if_false]
    split_ifs <;> rfl
  · obtain ⟨x, -, rfl⟩ := mem_changed h
    rfl
  · obtain ⟨x, -, rfl⟩ := mem_changed h
    rfl
  · have hother : other ≠ note := by
      rintro rfl
      simp [changedNote, hsame] at h
    have hspared : ∀ velocity, (Vector.setAt v.notes (Tracker.dataIndex (.ofNat other.val)) velocity).get note =
        v.notes.get note := by
      intro velocity
      rw [Vector.get_setAt, Tracker.dataIndex_ofNat, if_neg hother]
    unfold changedNote at h
    dsimp only at h
    split_ifs at h <;> simp at h
    · exact h ▸ hspared _
    · exact h ▸ hspared _
    · rcases h with rfl | rfl
      · exact hspared _
      · exact hspared _

theorem foldl_changes_note (hnew : new.Sound) (hsame : new.notes.get note = old.notes.get note) (v : Voice) :
    ((changes channel old new).foldl apply v).notes.get note = v.notes.get note := by
  have hall : ∀ {events : List Event} {v : Voice},
      (∀ e ∈ events, ∀ v : Voice, (v.apply e).notes.get note = v.notes.get note) →
        (events.foldl apply v).notes.get note = v.notes.get note := by
    intro events
    induction events with
    | nil => exact fun _ => rfl
    | cons e rest ih =>
      intro v h
      rw [List.forall_mem_cons] at h
      exact (ih h.2).trans (h.1 v)
  exact hall fun e he => apply_notes_of_mem_changes hnew hsame he

end Voice

/-- Whatever a listener holds, a difference leaves a note alone on which the two
states agree. -/
theorem Tracker.feedAll_diff_note {old new : Tracker} (hnew : new.Sound) {channel : Fin 16} {note : Fin 128}
    (hsame : (new.voices.get channel).notes.get note = (old.voices.get channel).notes.get note) (l : Tracker) :
    ((l.feedAll (new.diff old)).voices.get channel).notes.get note = (l.voices.get channel).notes.get note := by
  have hall : ∀ {channels : List (Fin 16)} {l : Tracker},
      ((l.feedAll (channels.flatMap fun channel =>
        Voice.diff (.ofNat channel.val) (old.voices.get channel) (new.voices.get channel))).voices.get channel).notes.get
          note = (l.voices.get channel).notes.get note := by
    intro channels
    induction channels with
    | nil => exact rfl
    | cons first rest ih =>
      intro l
      have hcanonical : ∀ e ∈ Voice.changes (.ofNat first.val) (old.voices.get first) (new.voices.get first),
          e.channel = .ofNat first.val ∧ e.Canonical := fun e he => Voice.canonical_of_mem_changes (hnew first) he
      rw [List.flatMap_cons, feedAll_append, ih, Voice.diff_eq, l.feedAll_encode hcanonical, Vector.get_setAt]
      split_ifs with hfirst
      · subst hfirst
        exact Voice.foldl_changes_note (hnew first) hsame _
      · rfl
  exact hall

namespace Channel

/-! ## Room for what is sent -/

namespace Action

/-- How many messages there is room for. -/
def room : Action → Nat
  | finalize _ output => output.elim 0 fun out => out.capacity - out.messages.length
  | prepare .. | process _ | replace _ | setDataLength _ | adjust _ | read _ => 0

/-- The messages that an action appends to the list it plays into. -/
def delivered (c : Channel) : Action → List Message
  | finalize input output =>
    ((c.finalize input output).2.1.elim [] (·.messages)).drop (output.elim 0 (·.messages.length))
  | prepare .. | process _ | replace _ | setDataLength _ | adjust _ | read _ => []

/-- Of what is sent, as much arrives as there is room for. -/
theorem delivered_eq (c : Channel) (action : Action) : action.delivered c = (action.sent c).take action.room := by
  cases action with
  | prepare | process | replace | setDataLength | adjust | read => rfl
  | finalize input output =>
    obtain ⟨-, -, houtput⟩ := c.finalize_runs input output
    show ((c.finalize input output).2.1.elim [] (·.messages)).drop _ = _
    rw [houtput]
    cases output with
    | none => exact (Deck.runAll_mute _ _ _).symm ▸ rfl
    | some out =>
      simp only [Option.map_some, Option.elim_some, Outbox.pushAll_messages, List.drop_left]
      rfl

/-- Commands that leave the data as it is send no more than so many messages. -/
theorem length_sent_le {c : Channel} (hkeeps : ∀ command ∈ c.commands, command.keepsContent = true)
    (input : Option (List Message)) (output : Option Outbox) :
    ((finalize input output).sent c).length ≤ c.commands.length * (16 * 387 + c.storage.events.length) := by
  obtain ⟨-, -, hsent⟩ := Deck.runAll_of_keeps c.track.dataLength output.isSome (c.deck input) hkeeps
  exact (congrArg List.length hsent).trans_le (Player.length_carry_le _ _ _ _)

end Action

/-- The messages that some actions append to the lists they play into. -/
def deliveredBy : List Action → Channel → List Message
  | [], _ => []
  | action :: rest, c => action.delivered c ++ deliveredBy rest (action.run c)

/-- There is room for all that some actions send. -/
def AllDelivered : List Action → Channel → Prop
  | [], _ => True
  | action :: rest, c => (action.sent c).length ≤ action.room ∧ AllDelivered rest (action.run c)

instance decidableAllDelivered : (actions : List Action) → (c : Channel) → Decidable (AllDelivered actions c)
  | [], _ => inferInstanceAs (Decidable True)
  | action :: rest, c =>
    have := decidableAllDelivered rest (action.run c)
    inferInstanceAs (Decidable (_ ∧ _))

theorem allDelivered_append {actions more : List Action} {c : Channel} :
    AllDelivered (actions ++ more) c ↔ AllDelivered actions c ∧ AllDelivered more (c.after actions) := by
  induction actions generalizing c with
  | nil => exact ⟨fun h => ⟨trivial, h⟩, And.right⟩
  | cons action rest ih => exact (and_congr_right fun _ => ih).trans and_assoc.symm

theorem AllDelivered.deliveredBy_eq {actions : List Action} {c : Channel} (h : AllDelivered actions c) :
    c.deliveredBy actions = c.sentBy actions := by
  induction actions generalizing c with
  | nil => rfl
  | cons action rest ih =>
    unfold deliveredBy sentBy
    rw [ih h.2, action.delivered_eq, List.take_of_length_le h.1]

/-- Whatever happens to a channel, its output state is that of a listener who hears
all that is sent. Of this each cycle delivers as much as there is room for. If there
was always room, the output state is that of the listener, and the difference from
there to any state of a restart leads the listener to that state. If not, the difference
leaves a note alone on which the output state agrees with that state, whether or not
the listener holds it. -/
theorem output_state_follows_sent (capacity : Nat) (mode : ChannelMode) (actions : List Action) :
    let start := new capacity mode
    let ended := start.after actions
    ((start.sentBy actions).foldl Tracker.feedMessage .fresh).Follows ended.outputState ∧
      (∀ before action later, actions = before ++ action :: later →
        action.delivered (start.after before) = (action.sent (start.after before)).take action.room) ∧
      (start.AllDelivered actions →
        let listener := (start.deliveredBy actions).foldl Tracker.feedMessage .fresh
        listener.Follows ended.outputState ∧
          ∀ passed : List Message,
            let target := passed.foldl Tracker.feedMessage ended.startState
            (listener.feedAll (target.diff ended.outputState)).Follows target) ∧
      ∀ (listener : Tracker) (passed : List Message) (channel : Fin 16) (note : Fin 128),
        let target := passed.foldl Tracker.feedMessage ended.startState
        (target.voices.get channel).notes.get note = (ended.outputState.voices.get channel).notes.get note →
          ((listener.feedAll (target.diff ended.outputState)).voices.get channel).notes.get note =
            (listener.voices.get channel).notes.get note := by
  intro start ended
  have hled := leads_after (new_atRest capacity mode) actions
  have hsound : ∀ passed : List Message, (passed.foldl Tracker.feedMessage ended.startState).Sound :=
    hled.sound.startState.feedMessages
  refine ⟨hled.follows, fun before action _ _ => action.delivered_eq (start.after before), fun hroom => ?_,
    fun listener passed _ _ hsame => Tracker.feedAll_diff_note (hsound passed) hsame listener⟩
  intro listener
  have hlistener : listener.Follows ended.outputState := by
    show ((start.deliveredBy actions).foldl Tracker.feedMessage .fresh).Follows ended.outputState
    rw [hroom.deliveredBy_eq]
    exact hled.follows
  exact ⟨hlistener, fun passed => hlistener.feedAll_diff (hsound passed)⟩

/-- A loop that plays a note to its end, into a list that has room for all that its
one command can send. -/
theorem output_state_follows_sent_roomy :
    let load : Action := .replace (.load [⟨0, [0x90, 60, 100]⟩, ⟨2, [0x80, 60, 0]⟩] 4)
    let decided : List Action := [load, .prepare 4 false true, .process ⟨.playing, {}, 4, 0, 4, 4, 4⟩]
    let actions := decided ++ [.finalize none (some ⟨16384, []⟩)]
    let start := new 8 .direct
    let ended := start.after actions
    let listener := (start.deliveredBy actions).foldl Tracker.feedMessage .fresh
    start.AllDelivered actions ∧ listener.Follows ended.outputState ∧
      ∀ passed : List Message,
        let target := passed.foldl Tracker.feedMessage ended.startState
        (listener.feedAll (target.diff ended.outputState)).Follows target := by
  intro load decided actions
  have hcommands : ((new 8 .direct).after decided).commands = [.playback 0 4 0 true] := by decide +kernel
  have hevents : ((new 8 .direct).after decided).storage.events.length = 2 := by decide +kernel
  have hsent := Action.length_sent_le (c := (new 8 .direct).after decided) (by rw [hcommands]; decide) none
    (some ⟨16384, []⟩)
  rw [hcommands, hevents] at hsent
  have hroom : (new 8 .direct).AllDelivered actions :=
    allDelivered_append.mpr ⟨⟨Nat.zero_le _, Nat.zero_le _, Nat.zero_le _, trivial⟩, Nat.le_trans hsent (by decide), trivial⟩
  exact ⟨hroom, (output_state_follows_sent 8 .direct actions).2.2.1 hroom⟩

end Channel

end Overdub.Midi
