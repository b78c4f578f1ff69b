import Overdub.Proofs.Broadcast
/-!
# What can happen to a MIDI channel

Cycles are prepared, decided about and carried out, the content is replaced, and
settings change: an `Action` is one of these, and a `Reachable` channel has seen
any of them in any order, also in one that no loop would choose.

Whatever happens, the output state is that of a listener who hears all that is sent
(`leads_after`). Only finalizing sends, where every command keeps the listener in
step (`Deck.Leads.runAll`); all other actions leave the output state alone, and new
content is in order and starts from a state that messages can lead to
(`Action.leads_rest`).
-/

namespace Overdub.Midi

namespace Storage

theorem inOrder_append {s s' : Storage} {m : Message} (h : InOrder s.events) (happend : s.append m = .ok s') :
    InOrder s'.events := by
  have hkeep := inOrder_keep h m
  unfold keep at hkeep
  rwa [happend] at hkeep

/-- What is stored before a message is refused is in order, too. -/
theorem inOrder_appendAll {s : Storage} (h : InOrder s.events) (messages : List Message) :
    InOrder (s.appendAll messages).1.events := by
  induction messages generalizing s with
  | nil => exact h
  | cons m rest ih =>
    unfold appendAll
    cases happend : s.append m with
    | error => exact h
    | ok next => exact ih (inOrder_append h happend)

end Storage

/-- Other content in place of what a channel has. -/
inductive Replacement where
  /-- Silence of some length. -/
  | clear (length : Nat)
  | load (events : List SequenceEvent) (length : Nat)
  /-- What a ring has captured, after some messages have left it. -/
  | adopt (ring : CaptureRing) (left : List Message) (reverseStart keepBefore : Option Nat)

namespace Channel

/-- Replaces the content. A sequence that is refused leaves the channel as it is. -/
def replace (c : Channel) : Replacement → Channel × Except Overdub.Error Unit
  | .clear length => (c.clear length, .ok ())
  | .load events length =>
    match c.load events length with
    | .ok c => (c, .ok ())
    | .error e => (c, .error e)
  | .adopt ring left reverseStart keepBefore =>
    c.adopt ⟨ring, left.foldl Tracker.feedMessage .fresh⟩ reverseStart keepBefore

/-- A sequence is stored in order, and the state it starts from is one that messages
lead to. -/
theorem readSequence_sound {events : List SequenceEvent} {storage storage' : Storage} {state state' : Tracker}
    (horder : InOrder storage.events) (hstate : state.Sound)
    (h : readSequence storage state events = .ok (storage', state')) : InOrder storage'.events ∧ state'.Sound := by
  induction events generalizing storage state with
  | nil =>
    cases h
    exact ⟨horder, hstate⟩
  | cons e rest ih =>
    unfold readSequence at h
    split_ifs at h
    · exact ih horder (hstate.feed e.data) h
    · split at h
      · cases h
      · next time _ =>
        cases happend : storage.appendBytes (.ofNat time) e.data with
        | error => rw [happend] at h; cases h
        | ok next =>
          rw [happend] at h
          unfold Storage.appendBytes at happend
          cases hmessage : Message.ofBytes (.ofNat time) e.data with
          | error => rw [hmessage] at happend; cases happend
          | ok m =>
            rw [hmessage] at happend
            exact ih (Storage.inOrder_append horder happend) hstate h

/-- A sequence that is accepted is the content, from the first event on. -/
theorem load_ok {c c' : Channel} {events : List SequenceEvent} {length : Nat} (h : c.load events length = .ok c') :
    ∃ content, readSequence c.storage.clear .fresh events = .ok content ∧
      c' = { c with storage := content.1, startState := content.2, cursor := .start }.modifyTrack
        (·.replaceData length 0) := by
  unfold load at h
  cases hread : readSequence c.storage.clear .fresh events with
  | error => rw [hread] at h; cases h
  | ok content =>
    rw [hread] at h
    cases h
    exact ⟨content, rfl, rfl⟩

/-- The recorder and the player of a channel between cycles, whose listener is in step. -/
def AtRest (l : Tracker) (c : Channel) : Prop := (c.deck none).Leads l

/-- New content is as good as what was recorded, and nothing is sent for it. -/
theorem AtRest.replace {l : Tracker} {c : Channel} (h : c.AtRest l) (r : Replacement) : (c.replace r).1.AtRest l := by
  cases r with
  | clear length =>
    exact ⟨⟨.nil, .nil⟩, ⟨Tracker.fresh_sound, h.sound.asideState, h.sound.input⟩, h.restore, h.follows⟩
  | load events length =>
    show AtRest l (match c.load events length with
      | .ok c => (c, Except.ok ())
      | .error e => (c, Except.error e)).1
    cases hload : c.load events length with
    | error => exact h
    | ok loaded =>
      obtain ⟨⟨storage, startState⟩, hread, rfl⟩ := load_ok hload
      have hempty : InOrder c.storage.clear.events := .nil
      obtain ⟨horder, hstate⟩ := readSequence_sound hempty Tracker.fresh_sound hread
      exact ⟨⟨horder, h.sorted.aside⟩, ⟨hstate, h.sound.asideState, h.sound.input⟩, h.restore, h.follows⟩
  | adopt ring left reverseStart keepBefore =>
    have horder : InOrder (ring.snapshot c.storage.capacity).1.events :=
      Storage.inOrder_appendAll (s := .empty c.storage.capacity) .nil _
    show AtRest l (c.adopt _ reverseStart keepBefore).1
    unfold Channel.adopt
    dsimp only
    split
    · next storage e hsnapshot =>
      rw [hsnapshot] at horder
      exact ⟨⟨horder, h.sorted.aside⟩, ⟨h.sound.startState, h.sound.asideState, h.sound.input⟩, h.restore, h.follows⟩
    · next storage hsnapshot =>
      rw [hsnapshot] at horder
      exact ⟨⟨horder.sublist (List.dropWhile_sublist _), h.sorted.aside⟩,
        ⟨(Tracker.fresh_sound.feedMessages left).feedMessages _, h.sound.asideState, h.sound.input⟩, h.restore, h.follows⟩

/-- What can happen to a channel. -/
inductive Action where
  | prepare (frames : Nat) (hasInput hasOutput : Bool)
  | process (context : ChunkContext)
  | finalize (input : Option (List Message)) (output : Option Outbox)
  | replace (r : Replacement)
  | setDataLength (length : Nat)
  /-- A setting changes. -/
  | adjust (f : Track → Track)
  /-- A control thread takes what it reads. -/
  | read (f : ChannelStatus → ChannelStatus)

namespace Action

def run (c : Channel) : Action → Channel
  | prepare frames hasInput hasOutput => c.prepare frames hasInput hasOutput
  | process context => (c.process context).1
  | finalize input output => (c.finalize input output).1
  | replace r => (c.replace r).1
  | setDataLength length => c.setDataLength length
  | adjust f => c.modifyTrack f
  | read f => { c with status := f c.status }

/-- The messages that an action sends, whether or not there is room for them. -/
def sent (c : Channel) : Action → List Message
  | finalize input output => ((c.deck input).runAll c.track.dataLength output.isSome c.commands).2
  | prepare .. | process _ | replace _ | setDataLength _ | adjust _ | read _ => []

end Action

/-- The channel after some actions. -/
def after (c : Channel) (actions : List Action) : Channel := actions.foldl Action.run c

/-- The messages that some actions send. -/
def sentBy : List Action → Channel → List Message
  | [], _ => []
  | action :: rest, c => action.sent c ++ sentBy rest (action.run c)

/-- The channel can be reached from one without data. -/
def Reachable (c : Channel) : Prop := ∃ capacity mode actions, c = (new capacity mode).after actions

theorem process_deck (c : Channel) (context : ChunkContext) (coming : Option (List Message)) :
    (c.process context).1.deck coming = c.deck coming := by
  cases h : c.track.overruns context.frames with
  | true =>
    unfold process
    rw [if_pos h]
  | false =>
    rw [process_orders c context h]
    rfl

section AtRest
variable {l : Tracker} {c : Channel}

/-- A cycle begins with the same listener. -/
theorem AtRest.leads (h : c.AtRest l) (coming : Option (List Message)) : (c.deck coming).Leads l :=
  ⟨⟨h.sorted.main, h.sorted.aside⟩, ⟨h.sound.startState, h.sound.asideState, h.sound.input⟩, h.restore, h.follows⟩

theorem Action.leads_rest (h : c.AtRest l) (action : Action) :
    (action.run c).AtRest ((action.sent c).foldl Tracker.feedMessage l) := by
  cases action with
  | prepare | adjust | read => exact h
  | process context =>
    show Deck.Leads l ((c.process context).1.deck none)
    rw [process_deck]
    exact h
  | finalize input output =>
    obtain ⟨⟨hrecorder, hplayer⟩, -, -⟩ := c.finalize_runs input output
    have hled := (h.leads input).runAll c.track.dataLength output.isSome c.commands
    show Deck.Leads _ ⟨⟨(c.finalize input output).1.recorder, none⟩, (c.finalize input output).1.player⟩
    rw [hrecorder, hplayer]
    exact ⟨⟨hled.sorted.main, hled.sorted.aside⟩, hled.sound.hear _, hled.restore, hled.follows⟩
  | replace r => exact h.replace r
  | setDataLength length =>
    show AtRest l (c.setDataLength length)
    unfold Channel.setDataLength
    split_ifs <;> exact h

/-- Whatever happens, a listener of all that is sent follows the output state. -/
theorem leads_after (h : c.AtRest l) (actions : List Action) :
    (c.after actions).AtRest ((c.sentBy actions).foldl Tracker.feedMessage l) := by
  induction actions generalizing l c with
  | nil => exact h
  | cons action rest ih =>
    have hrest := ih (action.leads_rest h)
    rwa [← List.foldl_append] at hrest

end AtRest

/-- A channel without data has sent nothing. -/
theorem new_atRest (capacity : Nat) (mode : ChannelMode) : (new capacity mode).AtRest .fresh where
  sorted := ⟨.nil, .nil⟩
  sound := ⟨Tracker.fresh_sound, Tracker.fresh_sound, Tracker.fresh_sound⟩
  restore := nofun
  follows := .refl _

/-- Of a channel that can be reached, everything is in order but for what its
listener has heard: a listener in its output state is in step. -/
theorem Reachable.atRest {c : Channel} (h : c.Reachable) : c.AtRest c.outputState := by
  obtain ⟨capacity, mode, actions, rfl⟩ := h
  have hled := leads_after (new_atRest capacity mode) actions
  exact ⟨hled.sorted, hled.sound, hled.restore, .refl _⟩

theorem Reachable.after {c : Channel} (h : c.Reachable) (actions : List Action) : (c.after actions).Reachable := by
  obtain ⟨capacity, mode, before, rfl⟩ := h
  exact ⟨capacity, mode, before ++ actions, List.foldl_append.symm⟩

end Channel

end Overdub.Midi
