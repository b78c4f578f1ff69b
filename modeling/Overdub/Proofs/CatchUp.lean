import Mathlib
import Overdub.Proofs.Listener
/-!
# What a listener knows after a catch-up

The number of active notes is that of the held ones (`Tracker.Counted`), because
every event adds or takes away one held note at most. A state is therefore no more
than what its channels know, and that is what the messages of a catch-up and of a
difference carry over.
-/

namespace Overdub.Midi

namespace Tracker

/-- The held notes, with their channels. -/
def held (t : Tracker) : Finset (Fin 16 × Fin 128) :=
  Finset.univ.filter fun place => (t.voices.get place.1).notes.get place.2 ≠ 0

/-- The active notes are the held ones. -/
def Counted (t : Tracker) : Prop := t.notesActive = t.held.card

theorem mem_held {t : Tracker} {channel : Fin 16} {note : Fin 128} :
    (channel, note) ∈ t.held ↔ (t.voices.get channel).notes.get note ≠ 0 := by
  simp only [held, Finset.mem_filter, Finset.mem_univ, true_and]

theorem held_congr {t u : Tracker} (h : ∀ channel, (t.voices.get channel).notes = (u.voices.get channel).notes) :
    t.held = u.held := by
  ext ⟨channel, note⟩
  rw [mem_held, mem_held, h channel]

/-! ## Events count the notes -/

theorem get_setNote (t : Tracker) (channel note velocity : UInt8) (c : Fin 16) (n : Fin 128) :
    ((t.setNote channel note velocity).voices.get c).notes.get n =
      if (c, n) = (voiceIndex channel, dataIndex note) then velocity else (t.voices.get c).notes.get n := by
  rw [setNote_voices, Vector.get_setAt]
  by_cases hc : voiceIndex channel = c
  · subst hc
    rw [if_pos rfl, Vector.get_setAt]
    simp only [Prod.mk.injEq, true_and, eq_comm, voice]
  · rw [if_neg hc, if_neg fun h => hc (congrArg Prod.fst h).symm]

theorem held_setNote (t : Tracker) (channel note velocity : UInt8) :
    (t.setNote channel note velocity).held =
      if velocity = 0 then t.held.erase (voiceIndex channel, dataIndex note)
      else insert (voiceIndex channel, dataIndex note) t.held := by
  ext ⟨c, n⟩
  rw [mem_held, get_setNote]
  split_ifs with hplace hvelocity hvelocity
  · simp [hplace, hvelocity]
  · simp [hplace, hvelocity]
  · simp [hplace, mem_held]
  · simp [hplace, mem_held]

/-- A note is counted when it starts, and no longer when it is released. -/
theorem Counted.setNote {t : Tracker} (h : t.Counted) (channel note velocity : UInt8) :
    (t.setNote channel note velocity).Counted := by
  have hactive : (t.setNote channel note velocity).notesActive =
      if (voiceIndex channel, dataIndex note) ∈ t.held then
        if velocity = 0 then t.notesActive - 1 else t.notesActive
      else if velocity = 0 then t.notesActive else t.notesActive + 1 := by
    have hbne : ∀ x : UInt8, (x != 0) = !decide (x = 0) := fun _ => rfl
    unfold Tracker.setNote
    simp only [mem_held, hbne]
    rw [← voice]
    by_cases hheld : (t.voice channel).notes.get (dataIndex note) = 0 <;>
      by_cases hvelocity : velocity = 0 <;> simp [hheld, hvelocity, mapVoice]
  unfold Counted at h ⊢
  rw [hactive, held_setNote, h]
  split_ifs with hheld hvelocity hvelocity
  · exact (Finset.card_erase_of_mem hheld).symm
  · rw [Finset.insert_eq_of_mem hheld]
  · rw [Finset.erase_eq_of_notMem hheld]
  · exact (Finset.card_insert_of_notMem hheld).symm

theorem Counted.releaseChannel {t : Tracker} (h : t.Counted) (channel : UInt8) :
    (t.releaseChannel channel).Counted := by
  unfold Tracker.releaseChannel
  generalize List.range 128 = notes
  induction notes generalizing t with
  | nil => exact h
  | cons note rest ih => exact ih (h.setNote channel _ 0)

/-- A change of a channel that leaves its notes alone. -/
theorem Counted.mapVoice {t : Tracker} (h : t.Counted) (channel : UInt8) {f : Voice → Voice}
    (hf : ∀ v, (f v).notes = v.notes) : (t.mapVoice channel f).Counted := by
  have hheld : (t.mapVoice channel f).held = t.held := held_congr fun c => by
    show ((Vector.setAt t.voices (voiceIndex channel) (f (t.voice channel))).get c).notes = _
    rw [Vector.get_setAt]
    split_ifs with hc
    · rw [hf, voice, hc]
    · rfl
  exact h.trans (congrArg Finset.card hheld.symm)

theorem Counted.apply {t : Tracker} (h : t.Counted) (e : Event) : (t.apply e).Counted := by
  cases e with
  | noteOn channel note velocity => exact h.setNote channel note velocity
  | noteOff channel note velocity => exact h.setNote channel note 0
  | polyPressure channel note value => exact h
  | controlChange channel cc value =>
    unfold Tracker.apply
    dsimp only
    split_ifs
    · exact h.releaseChannel channel
    · exact h.mapVoice channel fun _ => rfl
    · exact h
  | programChange channel program => exact h.mapVoice channel fun _ => rfl
  | channelPressure channel value => exact h.mapVoice channel fun _ => rfl
  | pitchWheel channel value => exact h.mapVoice channel fun _ => rfl

theorem Counted.feed {t : Tracker} (h : t.Counted) (bytes : List UInt8) : (t.feed bytes).Counted := by
  unfold Tracker.feed
  cases Event.parse bytes with
  | none => exact h
  | some e => exact h.apply e

theorem Counted.feedAll {t : Tracker} (h : t.Counted) (messages : List (List UInt8)) :
    (t.feedAll messages).Counted := by
  induction messages generalizing t with
  | nil => exact h
  | cons bytes rest ih => exact ih (h.feed bytes)

theorem Sound.feedAll {t : Tracker} (h : t.Sound) (messages : List (List UInt8)) : (t.feedAll messages).Sound := by
  induction messages generalizing t with
  | nil => exact h
  | cons bytes rest ih => exact ih (h.feed bytes)

theorem get_fresh (channel : Fin 16) : fresh.voices.get channel = .fresh := Vector.getElem_replicate _

theorem fresh_counted : fresh.Counted := by
  have hheld : fresh.held = ∅ := by
    ext ⟨channel, note⟩
    have hzero : (Voice.fresh.notes.get note) = 0 := Vector.getElem_replicate _
    simp [mem_held, get_fresh, hzero]
  show 0 = _
  rw [hheld, Finset.card_empty]

/-- States that count their notes are equal if their channels are. -/
theorem Counted.ext {t u : Tracker} (ht : t.Counted) (hu : u.Counted)
    (h : ∀ channel, t.voices.get channel = u.voices.get channel) : t = u := by
  have hactive : t.notesActive = u.notesActive := by
    rw [ht, hu, held_congr fun channel => congrArg Voice.notes (h channel)]
  cases t
  cases u
  congr
  exact Vector.ext_fin h

end Tracker

/-! ## What a difference carries over -/

namespace Voice

theorem learn_fresh (v : Voice) : fresh.learn v = v := by
  have hcontrols : (fresh.learn v).controls = v.controls := Vector.ext_fin fun cc => by
    have hnone : fresh.controls.get cc = none := Vector.getElem_replicate _
    show (Vector.ofFn _).get cc = _
    rw [Vector.get_ofFn_fin, hnone, Option.or_none]
  have hother : ∀ w : Voice, w.program = v.program → w.controls = v.controls → w.pressure = v.pressure →
      w.wheel = v.wheel → w.notes = v.notes → w = v := by
    rintro ⟨⟩ rfl rfl rfl rfl rfl
    rfl
  exact hother _ Option.or_none hcontrols Option.or_none Option.or_none rfl

theorem diff_self (channel : UInt8) (v : Voice) : diff channel v v = [] := by
  have hchanged : ∀ {α : Type} [DecidableEq α] (known : Option α) (event : α → Event),
      changed known known event = [] := by
    intro α _ known event
    cases known <;> simp [changed]
  have hnote : ∀ note, changedNote channel v v note = [] := fun note => if_pos rfl
  simp [diff_eq, changes, hchanged, hnote]

end Voice

namespace Tracker

theorem diff_self (t : Tracker) : t.diff t = [] :=
  List.flatMap_eq_nil_iff.2 fun _ _ => Voice.diff_self _ _

/-- `r` holds the notes of `t`, and has each value of `t` where `t` knows it and that of `l` where it does not. -/
structure Merges (r l t : Tracker) : Prop where
  notesActive : r.notesActive = t.notesActive
  notes : ∀ channel note, r.noteVelocity channel note = t.noteVelocity channel note
  control : ∀ channel cc, r.control channel cc = (t.control channel cc).or (l.control channel cc)
  program : ∀ channel, r.program channel = (t.program channel).or (l.program channel)
  pressure : ∀ channel, r.pressure channel = (t.pressure channel).or (l.pressure channel)
  wheel : ∀ channel, r.wheel channel = (t.wheel channel).or (l.wheel channel)

theorem merges_of_learn {r l t : Tracker} (hr : r.Counted) (ht : t.Counted)
    (h : ∀ channel, r.voices.get channel = (l.voices.get channel).learn (t.voices.get channel)) : r.Merges l t := by
  have hnotes : ∀ channel, (r.voices.get channel).notes = (t.voices.get channel).notes :=
    fun channel => by rw [h channel]; rfl
  exact {
    notesActive := by rw [hr, ht, held_congr hnotes]
    notes := fun channel note => by unfold noteVelocity voice; rw [hnotes]
    control := fun channel cc => by simp only [control, voice, h, Voice.learn, Vector.get_ofFn_fin]
    program := fun channel => by simp only [program, voice, h, Voice.learn]
    pressure := fun channel => by simp only [pressure, voice, h, Voice.learn]
    wheel := fun channel => by simp only [wheel, voice, h, Voice.learn] }

/-- Whatever has been heard: the active notes are the held ones, a catch-up makes a fresh listener equal to its
sender, a difference makes any listener take over all that its sender knows, and there is none between equals. -/
theorem diff_carries_over (heard known : List (List UInt8)) :
    let t := fresh.feedAll heard
    let l := fresh.feedAll known
    fresh.feedAll t.catchUp = t ∧ (l.feedAll (t.diff l)).Merges l t ∧ t.diff t = [] ∧
      t.notesActive = t.held.card := by
  intro t l
  have ht : t.Counted := fresh_counted.feedAll heard
  have hl : l.Counted := fresh_counted.feedAll known
  have hsound : t.Sound := fresh_sound.feedAll heard
  refine ⟨(fresh_counted.feedAll _).ext ht fun channel => ?_, ?_, t.diff_self, ht⟩
  · rw [catchUp, feedAll_diff (Follows.refl fresh) hsound, get_fresh, Voice.learn_fresh]
  · exact merges_of_learn (hl.feedAll _) ht fun channel => feedAll_diff (Follows.refl l) hsound channel

end Tracker

end Overdub.Midi
