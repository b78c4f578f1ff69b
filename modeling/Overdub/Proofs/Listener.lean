import Mathlib
import Overdub.Midi.Tracker
/-!
# Listeners

A listener is whatever follows the messages that are sent; what it has heard so
far is a `Tracker` too. It `Follows` a state if it holds the same notes and agrees
with every value that the state knows, though it may know more. Hearing the same
messages keeps a listener in step (`Follows.feed`), and hearing the difference of
two states leads it from the one to the other (`Follows.feedAll_diff`).

All this is a matter of one channel at a time: `Voice.apply` is what an event does
to its channel, and `Voice.changes` are the events of a difference, which are read
back as they were written (`Event.parse_encode`).
-/

namespace Overdub.Midi

/-- The vector with the element that `Vector.get` reads at `i` replaced. -/
def Vector.setAt {α : Type} {n : Nat} (v : Vector α n) (i : Fin n) (x : α) : Vector α n := v.set i x

theorem Vector.get_setAt {α : Type} {n : Nat} (v : Vector α n) (i j : Fin n) (x : α) :
    (setAt v i x).get j = if i = j then x else v.get j := by
  show (v.set i x)[j.val] = if i = j then x else v[j.val]
  rw [Vector.getElem_set]
  simp only [Fin.ext_iff]

theorem Vector.setAt_get_self {α : Type} {n : Nat} (v : Vector α n) (i : Fin n) : setAt v i (v.get i) = v :=
  Vector.set_getElem_self i.isLt

theorem Vector.setAt_setAt {α : Type} {n : Nat} (v : Vector α n) (i : Fin n) (x y : α) :
    setAt (setAt v i x) i y = setAt v i y :=
  Vector.set_set x i.isLt

theorem Vector.get_ofFn_fin {α : Type} {n : Nat} (f : Fin n → α) (i : Fin n) : (Vector.ofFn f).get i = f i :=
  Vector.getElem_ofFn i.isLt

theorem Vector.ext_fin {α : Type} {n : Nat} {v w : Vector α n} (h : ∀ i : Fin n, v.get i = w.get i) : v = w :=
  Vector.ext fun i hi => h ⟨i, hi⟩

/-! ## Reading what was written -/

namespace Event

/-- The event is what is read back once it is written. -/
def Canonical : Event → Prop
  | .noteOn _ _ velocity => velocity ≠ 0
  | .pitchWheel _ value => value < 0x4000
  | _ => True

theorem status_parts {channel : UInt8} (h : channel < 16) :
    ∀ kind ∈ [(0x80 : UInt8), 0x90, 0xA0, 0xB0, 0xC0, 0xD0, 0xE0],
      (kind ||| channel) &&& 0xF0 = kind ∧ (kind ||| channel) &&& 0x0F = channel := by
  have hall : ∀ channel : Fin 16, ∀ kind ∈ [(0x80 : UInt8), 0x90, 0xA0, 0xB0, 0xC0, 0xD0, 0xE0],
      (kind ||| .ofNat channel.val) &&& 0xF0 = kind ∧ (kind ||| .ofNat channel.val) &&& 0x0F = .ofNat channel.val := by
    decide +kernel
  have hchannel := hall ⟨channel.toNat, h⟩
  rwa [UInt8.ofNat_toNat] at hchannel

/-- A wheel value as a number: seven low bits and seven high ones. -/
theorem wheelOfBytes_toNat (low high : UInt8) :
    (wheelOfBytes low high).toNat = high.toNat % 128 * 128 + low.toNat % 128 := by
  have hand : ∀ n : Nat, n &&& 127 = n % 128 := fun n => Nat.and_two_pow_sub_one_eq_mod n 7
  have hlow := Nat.mod_lt low.toNat (show 0 < 128 by decide)
  have hor := Nat.shiftLeft_add_eq_or_of_lt (b := low.toNat % 128) (i := 7) hlow (high.toNat % 128)
  rw [Nat.shiftLeft_eq] at hor
  unfold wheelOfBytes
  simp only [UInt8.toUInt16_and, Nat.reduceLT, UInt8.toUInt16_ofNat, UInt16.toNat_or, UInt16.toNat_and,
    UInt8.toNat_toUInt16, UInt16.reduceToNat, hand, UInt16.toNat_shiftLeft, Nat.reduceMod, Nat.reducePow]
  rw [Nat.shiftLeft_eq, Nat.mod_eq_of_lt (by omega : high.toNat % 128 * 2 ^ 7 < 65536), Nat.or_comm, ← hor]

theorem wheelOfBytes_split {value : UInt16} (h : value < 0x4000) :
    wheelOfBytes (value &&& 0x7F).toUInt8 ((value >>> (7 : UInt16)) &&& 0x7F).toUInt8 = value := by
  have hand : ∀ n : Nat, n &&& 127 = n % 128 := fun n => Nat.and_two_pow_sub_one_eq_mod n 7
  have hvalue : value.toNat < 0x4000 := h
  apply UInt16.toNat_inj.mp
  rw [wheelOfBytes_toNat]
  simp only [UInt16.toUInt8_and, UInt16.toUInt8_ofNat, UInt8.toNat_and, UInt16.toNat_toUInt8,
    UInt16.toNat_shiftRight, UInt16.reduceToNat, Nat.reduceMod, Nat.shiftRight_eq_div_pow, Nat.reducePow,
    UInt8.reduceToNat, hand, Nat.reduceDvd, Nat.mod_mod_of_dvd, Nat.dvd_refl]
  omega

theorem parse_encode {e : Event} (hchannel : e.channel < 16) (he : e.Canonical) : parse e.encode = some e := by
  have hparts := status_parts hchannel
  cases e with
  | noteOff channel note velocity =>
    obtain ⟨hkind, hlow⟩ := hparts 0x80 (by decide)
    simp_all [encode, rawBytes, byteCount, parse, Event.channel]
  | noteOn channel note velocity =>
    obtain ⟨hkind, hlow⟩ := hparts 0x90 (by decide)
    simp_all [encode, rawBytes, byteCount, parse, Event.channel, Canonical]
  | polyPressure channel note value =>
    obtain ⟨hkind, hlow⟩ := hparts 0xA0 (by decide)
    simp_all [encode, rawBytes, byteCount, parse, Event.channel]
  | controlChange channel cc value =>
    obtain ⟨hkind, hlow⟩ := hparts 0xB0 (by decide)
    simp_all [encode, rawBytes, byteCount, parse, Event.channel]
  | programChange channel program =>
    obtain ⟨hkind, hlow⟩ := hparts 0xC0 (by decide)
    simp_all [encode, rawBytes, byteCount, parse, Event.channel]
  | channelPressure channel value =>
    obtain ⟨hkind, hlow⟩ := hparts 0xD0 (by decide)
    simp_all [encode, rawBytes, byteCount, parse, Event.channel]
  | pitchWheel channel value =>
    obtain ⟨hkind, hlow⟩ := hparts 0xE0 (by decide)
    have hvalue := wheelOfBytes_split he
    simp_all [encode, rawBytes, byteCount, parse, Event.channel]

end Event

/-! ## What an event does to its channel -/

namespace Voice

/-- The channel after an event on it. -/
def apply (v : Voice) : Event → Voice
  | .noteOn _ note velocity => { v with notes := Vector.setAt v.notes (Tracker.dataIndex note) velocity }
  | .noteOff _ note _ => { v with notes := Vector.setAt v.notes (Tracker.dataIndex note) 0 }
  | .controlChange _ cc value =>
    if cc = Event.allNotesOff ∨ cc = Event.allSoundOff then { v with notes := .replicate 128 0 }
    else if cc < 128 then { v with controls := Vector.setAt v.controls (Tracker.dataIndex cc) (some (value &&& 0x7F)) }
    else v
  | .programChange _ program => { v with program := some (program &&& 0x7F) }
  | .channelPressure _ value => { v with pressure := some (value &&& 0x7F) }
  | .pitchWheel _ value => { v with wheel := some value }
  | .polyPressure .. => v

end Voice

namespace Tracker

theorem setNote_voices (t : Tracker) (channel note velocity : UInt8) :
    (t.setNote channel note velocity).voices =
      Vector.setAt t.voices (voiceIndex channel)
        { t.voice channel with notes := Vector.setAt (t.voice channel).notes (dataIndex note) velocity } := by
  unfold setNote
  dsimp only
  split <;> rfl

@[simp] theorem voiceIndex_ofNat (channel : Fin 16) : voiceIndex (.ofNat channel.val) = channel := by
  revert channel
  decide

@[simp] theorem dataIndex_ofNat (number : Fin 128) : dataIndex (.ofNat number.val) = number := by
  apply Fin.ext
  simp only [dataIndex, Fin.val_ofNat, UInt8.toNat_ofNat']
  omega

theorem foldl_setNote_voices (t : Tracker) (channel : UInt8) (notes : List UInt8) :
    (notes.foldl (fun t note => t.setNote channel note 0) t).voices =
      Vector.setAt t.voices (voiceIndex channel) { t.voice channel with
        notes := notes.foldl (fun held note => Vector.setAt held (dataIndex note) 0) (t.voice channel).notes } := by
  induction notes generalizing t with
  | nil => exact (Vector.setAt_get_self t.voices (voiceIndex channel)).symm
  | cons note rest ih =>
    rw [List.foldl_cons, ih, voice, setNote_voices, Vector.get_setAt, if_pos rfl, Vector.setAt_setAt]
    rfl

theorem get_foldl_release (notes : List UInt8) (held : Vector UInt8 128) (i : Fin 128) :
    (notes.foldl (fun held note => Vector.setAt held (dataIndex note) 0) held).get i =
      if i ∈ notes.map dataIndex then 0 else held.get i := by
  induction notes generalizing held with
  | nil => simp
  | cons note rest ih =>
    rw [List.foldl_cons, ih, Vector.get_setAt, List.map_cons]
    by_cases hfirst : dataIndex note = i <;> by_cases hrest : i ∈ rest.map dataIndex <;>
      simp [hfirst, hrest, Ne.symm]

theorem releaseChannel_voices (t : Tracker) (channel : UInt8) :
    (t.releaseChannel channel).voices =
      Vector.setAt t.voices (voiceIndex channel) { t.voice channel with notes := .replicate 128 0 } := by
  have hrelease : t.releaseChannel channel =
      ((List.range 128).map UInt8.ofNat).foldl (fun t note => t.setNote channel note 0) t := by
    rw [List.foldl_map, releaseChannel]
  have hnotes : ((List.range 128).map UInt8.ofNat).foldl (fun held note => Vector.setAt held (dataIndex note) 0)
      (t.voice channel).notes = .replicate 128 0 := by
    apply Vector.ext
    intro i hi
    have hindex : dataIndex (.ofNat i) = ⟨i, hi⟩ := dataIndex_ofNat ⟨i, hi⟩
    have hmem : dataIndex (.ofNat i) ∈ ((List.range 128).map UInt8.ofNat).map dataIndex :=
      List.mem_map_of_mem (List.mem_map_of_mem (List.mem_range.mpr hi))
    have hget := get_foldl_release ((List.range 128).map UInt8.ofNat) (t.voice channel).notes (dataIndex (.ofNat i))
    rw [if_pos hmem, hindex] at hget
    rw [Vector.getElem_replicate]
    exact hget
  rw [hrelease, foldl_setNote_voices, hnotes]

/-- An event changes its own channel only. -/
theorem apply_voices (t : Tracker) (e : Event) :
    (t.apply e).voices = Vector.setAt t.voices (voiceIndex e.channel) ((t.voice e.channel).apply e) := by
  have hsame : t.voices = Vector.setAt t.voices (voiceIndex e.channel) (t.voice e.channel) :=
    (Vector.setAt_get_self t.voices (voiceIndex e.channel)).symm
  cases e with
  | noteOn channel note velocity => exact t.setNote_voices channel note velocity
  | noteOff channel note velocity => exact t.setNote_voices channel note 0
  | polyPressure channel note value => exact hsame
  | controlChange channel cc value =>
    simp only [apply, Voice.apply, Event.channel]
    split_ifs
    · exact t.releaseChannel_voices channel
    · rfl
    · exact hsame
  | programChange channel program => rfl
  | channelPressure channel value => rfl
  | pitchWheel channel value => rfl

end Tracker

/-! ## Values a stream leads to -/

theorem ofNat_dataIndex {number : UInt8} (h : number < 128) :
    UInt8.ofNat (Tracker.dataIndex number).val = number := by
  apply UInt8.toNat_inj.mp
  have hlt : number.toNat < 128 := h
  simp only [Tracker.dataIndex, Fin.val_ofNat, UInt8.toNat_ofNat']
  omega

theorem mask_mask (x : UInt8) : x &&& 0x7F &&& 0x7F = x &&& 0x7F := by
  rw [UInt8.and_assoc, UInt8.and_self]

/-- The values known are such as messages carry, and no controller is known that
stands for silence. -/
structure Voice.Sound (v : Voice) : Prop where
  program : ∀ x, v.program = some x → x &&& 0x7F = x
  controls : ∀ cc x, v.controls.get cc = some x →
    x &&& 0x7F = x ∧ UInt8.ofNat cc.val ≠ Event.allNotesOff ∧ UInt8.ofNat cc.val ≠ Event.allSoundOff
  pressure : ∀ x, v.pressure = some x → x &&& 0x7F = x
  wheel : ∀ x, v.wheel = some x → x < 0x4000

namespace Voice

theorem fresh_sound : fresh.Sound := ⟨nofun, by simp [fresh, Vector.get], nofun, nofun⟩

theorem Sound.apply {v : Voice} (h : v.Sound) {e : Event}
    (hwheel : ∀ channel x, e = .pitchWheel channel x → x < 0x4000) : (v.apply e).Sound := by
  cases e with
  | noteOn channel note velocity => exact ⟨h.program, h.controls, h.pressure, h.wheel⟩
  | noteOff channel note velocity => exact ⟨h.program, h.controls, h.pressure, h.wheel⟩
  | polyPressure channel note value => exact h
  | controlChange channel cc value =>
    unfold Voice.apply
    dsimp only
    split_ifs with hsilence hcc
    · exact ⟨h.program, h.controls, h.pressure, h.wheel⟩
    · refine ⟨h.program, fun i x hx => ?_, h.pressure, h.wheel⟩
      rw [Vector.get_setAt] at hx
      split_ifs at hx with hi
      · obtain rfl := Option.some_inj.mp hx
        rw [← hi, ofNat_dataIndex hcc]
        exact ⟨mask_mask value, fun hcc => hsilence (.inl hcc), fun hcc => hsilence (.inr hcc)⟩
      · exact h.controls i x hx
    · exact h
  | programChange channel program =>
    exact ⟨by rintro x ⟨⟩; exact mask_mask program, h.controls, h.pressure, h.wheel⟩
  | channelPressure channel value =>
    exact ⟨h.program, h.controls, by rintro x ⟨⟩; exact mask_mask value, h.wheel⟩
  | pitchWheel channel value =>
    exact ⟨h.program, h.controls, h.pressure, by rintro x ⟨⟩; exact hwheel channel value rfl⟩

end Voice

theorem Event.wheel_lt_of_parse {bytes : List UInt8} {channel : UInt8} {value : UInt16}
    (h : parse bytes = some (.pitchWheel channel value)) : value < 0x4000 := by
  have hbytes : ∃ low high, value = wheelOfBytes low high := by
    unfold parse at h
    split at h
    · split at h <;> try cases h
      · split_ifs at h <;> cases h
      · exact ⟨_, _, rfl⟩
    · split at h <;> cases h
    · cases h
  obtain ⟨low, high, rfl⟩ := hbytes
  have hvalue := wheelOfBytes_toNat low high
  show (wheelOfBytes low high).toNat < 0x4000
  omega

namespace Tracker

/-- All that is known of the channels is such as messages carry. -/
def Sound (t : Tracker) : Prop := ∀ channel, (t.voices.get channel).Sound

theorem fresh_sound : fresh.Sound := by
  intro channel
  rw [show fresh.voices.get channel = .fresh from Vector.getElem_replicate _]
  exact Voice.fresh_sound

theorem Sound.feed {t : Tracker} (h : t.Sound) (bytes : List UInt8) : (t.feed bytes).Sound := by
  intro channel
  unfold Tracker.feed
  cases hparse : Event.parse bytes with
  | none => exact h channel
  | some e =>
    rw [Option.elim_some, apply_voices, Vector.get_setAt]
    split_ifs
    · exact (h _).apply fun _ _ he => Event.wheel_lt_of_parse (he ▸ hparse)
    · exact h channel

theorem Sound.feedMessages {t : Tracker} (h : t.Sound) (messages : List Message) :
    (messages.foldl feedMessage t).Sound := by
  induction messages generalizing t with
  | nil => exact h
  | cons m rest ih => exact ih (h.feed m.bytes)

end Tracker

/-! ## Listeners -/

namespace Voice

/-- A listener in state `l` holds the notes of `v` and agrees with it on every
value that `v` knows. -/
structure Follows (l v : Voice) : Prop where
  program : ∀ x, v.program = some x → l.program = some x
  controls : ∀ cc x, v.controls.get cc = some x → l.controls.get cc = some x
  pressure : ∀ x, v.pressure = some x → l.pressure = some x
  wheel : ∀ x, v.wheel = some x → l.wheel = some x
  notes : l.notes = v.notes

/-- Takes over the notes and all values that are known. -/
def learn (l new : Voice) : Voice where
  program := new.program.or l.program
  controls := .ofFn fun cc => (new.controls.get cc).or (l.controls.get cc)
  pressure := new.pressure.or l.pressure
  wheel := new.wheel.or l.wheel
  notes := new.notes

theorem Follows.refl (v : Voice) : v.Follows v := ⟨fun _ => id, fun _ _ => id, fun _ => id, fun _ => id, rfl⟩

theorem learn_follows (l new : Voice) : (l.learn new).Follows new where
  program x h := by simp [learn, h]
  controls cc x h := by
    show (Vector.ofFn _)[cc.val] = _
    rw [Vector.getElem_ofFn]
    simp [h]
  pressure x h := by simp [learn, h]
  wheel x h := by simp [learn, h]
  notes := rfl

/-- The same event keeps a listener in step. -/
theorem Follows.apply {l v : Voice} (h : l.Follows v) (e : Event) : (l.apply e).Follows (v.apply e) := by
  cases e with
  | noteOn channel note velocity => exact ⟨h.program, h.controls, h.pressure, h.wheel, by simp [Voice.apply, h.notes]⟩
  | noteOff channel note velocity => exact ⟨h.program, h.controls, h.pressure, h.wheel, by simp [Voice.apply, h.notes]⟩
  | polyPressure channel note value => exact h
  | controlChange channel cc value =>
    unfold Voice.apply
    dsimp only
    split_ifs
    · exact ⟨h.program, h.controls, h.pressure, h.wheel, rfl⟩
    · refine ⟨h.program, fun i x hx => ?_, h.pressure, h.wheel, h.notes⟩
      rw [Vector.get_setAt] at hx ⊢
      split_ifs at hx ⊢
      · exact hx
      · exact h.controls i x hx
    · exact h
  | programChange channel program => exact ⟨fun _ => id, h.controls, h.pressure, h.wheel, h.notes⟩
  | channelPressure channel value => exact ⟨h.program, h.controls, fun _ => id, h.wheel, h.notes⟩
  | pitchWheel channel value => exact ⟨h.program, h.controls, h.pressure, fun _ => id, h.notes⟩

end Voice

/-! ## The difference of two states -/

theorem length_flatMap_le {α β : Type} {f : α → List β} {n : Nat} {l : List α} (h : ∀ x ∈ l, (f x).length ≤ n) :
    (l.flatMap f).length ≤ l.length * n := by
  induction l with
  | nil => simp
  | cons x rest ih =>
    rw [List.forall_mem_cons] at h
    rw [List.flatMap_cons, List.length_append, List.length_cons, Nat.succ_mul]
    have hrest := ih h.2
    omega

namespace Voice

/-- The event for a value that is new. -/
def changed {α : Type} [DecidableEq α] (before after : Option α) (event : α → Event) : List Event :=
  match after with
  | some value => if before = some value then [] else [event value]
  | none => []

/-- The events for a note that has changed. -/
def changedNote (channel : UInt8) (old new : Voice) (note : Fin 128) : List Event :=
  let before := old.notes.get note
  let after := new.notes.get note
  if after = before then []
  else (if before = 0 then [] else [.noteOff channel (.ofNat note.val) 0x40])
    ++ (if after = 0 then [] else [.noteOn channel (.ofNat note.val) after])

/-- The events that lead a listener from `old` to `new`. -/
def changes (channel : UInt8) (old new : Voice) : List Event :=
  changed old.program new.program (.programChange channel)
    ++ (List.finRange 128).flatMap (fun cc =>
      changed (old.controls.get cc) (new.controls.get cc) (.controlChange channel (.ofNat cc.val)))
    ++ changed old.pressure new.pressure (.channelPressure channel)
    ++ changed old.wheel new.wheel (.pitchWheel channel)
    ++ (List.finRange 128).flatMap (changedNote channel old new)

theorem map_changed {α : Type} [DecidableEq α] (before after : Option α) (event : α → Event) :
    (changed before after event).map Event.encode =
      match after with
      | some value => if before = some value then [] else [(event value).encode]
      | none => [] := by
  cases after with
  | none => rfl
  | some value => exact apply_ite (List.map Event.encode) _ _ _

/-- The messages of a difference are these events, written. -/
theorem diff_eq (channel : UInt8) (old new : Voice) :
    diff channel old new = (changes channel old new).map Event.encode := by
  have hnotes : ∀ note, (changedNote channel old new note).map Event.encode =
      if new.notes.get note = old.notes.get note then []
      else (if old.notes.get note = 0 then [] else [[0x80 ||| channel, .ofNat note.val, 0x40]])
        ++ (if new.notes.get note = 0 then [] else [[0x90 ||| channel, .ofNat note.val, new.notes.get note]]) := by
    intro note
    unfold changedNote
    dsimp only
    split_ifs <;> rfl
  simp only [changes, List.map_append, List.map_flatMap, map_changed, hnotes]
  rfl

theorem mem_changed {α : Type} [DecidableEq α] {before after : Option α} {event : α → Event} {e : Event}
    (h : e ∈ changed before after event) : ∃ x, after = some x ∧ e = event x := by
  cases after with
  | none => exact absurd h List.not_mem_nil
  | some x =>
    unfold changed at h
    dsimp only at h
    split_ifs at h
    · exact absurd h List.not_mem_nil
    · exact ⟨x, rfl, List.mem_singleton.mp h⟩

theorem length_changed_le {α : Type} [DecidableEq α] (before after : Option α) (event : α → Event) :
    (changed before after event).length ≤ 1 := by
  cases after with
  | none => exact Nat.zero_le 1
  | some x =>
    unfold changed
    dsimp only
    split_ifs
    · exact Nat.zero_le 1
    · exact Nat.le_refl 1

theorem length_changes_le (channel : UInt8) (old new : Voice) : (changes channel old new).length ≤ 387 := by
  have hprogram := length_changed_le old.program new.program (.programChange channel)
  have hcontrols : ((List.finRange 128).flatMap fun cc => changed (old.controls.get cc) (new.controls.get cc)
      (.controlChange channel (.ofNat cc.val))).length ≤ (List.finRange 128).length * 1 :=
    length_flatMap_le fun _ _ => length_changed_le _ _ _
  have hpressure := length_changed_le old.pressure new.pressure (.channelPressure channel)
  have hwheel := length_changed_le old.wheel new.wheel (.pitchWheel channel)
  have hnotes : ((List.finRange 128).flatMap (changedNote channel old new)).length ≤ (List.finRange 128).length * 2 :=
    length_flatMap_le fun note _ => by
      unfold changedNote
      dsimp only
      split_ifs <;> simp
  rw [List.length_finRange] at hcontrols hnotes
  simp only [changes, List.length_append]
  omega

variable {channel : UInt8} {old new : Voice}

/-- The events of a difference can be read back, and are all on its channel. -/
theorem canonical_of_mem_changes (hnew : new.Sound) {e : Event} (h : e ∈ changes channel old new) :
    e.channel = channel ∧ e.Canonical := by
  simp only [changes, List.mem_append, List.mem_flatMap] at h
  rcases h with (((h | ⟨cc, -, h⟩) | h) | h) | ⟨note, -, h⟩
  · obtain ⟨x, -, rfl⟩ := mem_changed h
    exact ⟨rfl, trivial⟩
  · obtain ⟨x, -, rfl⟩ := mem_changed h
    exact ⟨rfl, trivial⟩
  · obtain ⟨x, -, rfl⟩ := mem_changed h
    exact ⟨rfl, trivial⟩
  · obtain ⟨x, hx, rfl⟩ := mem_changed h
    exact ⟨rfl, hnew.wheel x hx⟩
  · unfold changedNote at h
    dsimp only at h
    split_ifs at h with hsame hsilent hreleased hreleased <;> simp at h
    · obtain rfl := h
      exact ⟨rfl, hreleased⟩
    · obtain rfl := h
      exact ⟨rfl, trivial⟩
    · rcases h with rfl | rfl
      · exact ⟨rfl, trivial⟩
      · exact ⟨rfl, hreleased⟩

/-- A listener that follows the old value of a setting learns the new one. -/
theorem foldl_changed {α : Type} [DecidableEq α] {before after known : Option α} {event : α → Event} {v : Voice}
    {f : Option α → Voice} (hf : f known = v) (hfollows : ∀ x, before = some x → known = some x)
    (hevent : ∀ x, after = some x → v.apply (event x) = f (some x)) :
    (changed before after event).foldl apply v = f (after.or known) := by
  cases after with
  | none => exact hf.symm
  | some x =>
    unfold changed
    dsimp only
    split_ifs with hsame
    · rw [Option.some_or, ← hfollows x hsame, hf]
      rfl
    · exact hevent x rfl

theorem foldl_controls (hnew : new.Sound) {ccs : List (Fin 128)} (hnodup : ccs.Nodup) {v : Voice}
    (hfollows : ∀ cc ∈ ccs, ∀ x, old.controls.get cc = some x → v.controls.get cc = some x)
    {w : Vector (Option UInt8) 128}
    (hw : ∀ cc, w.get cc =
      if cc ∈ ccs then (new.controls.get cc).or (v.controls.get cc) else v.controls.get cc) :
    (ccs.flatMap fun cc => changed (old.controls.get cc) (new.controls.get cc)
      (.controlChange channel (.ofNat cc.val))).foldl apply v = { v with controls := w } := by
  -- By induction on the controllers still to come, none of which comes twice.
  induction ccs generalizing v with
  | nil =>
    obtain rfl : w = v.controls := Vector.ext_fin fun i => (hw i).trans (if_neg List.not_mem_nil)
    rfl
  | cons cc rest ih =>
    obtain ⟨hcc, hrest⟩ := List.nodup_cons.mp hnodup
    rw [List.forall_mem_cons] at hfollows
    have hfirst : (changed (old.controls.get cc) (new.controls.get cc)
        (.controlChange channel (.ofNat cc.val))).foldl apply v =
          { v with controls := Vector.setAt v.controls cc ((new.controls.get cc).or (v.controls.get cc)) } := by
      refine foldl_changed (f := fun x => { v with controls := Vector.setAt v.controls cc x }) ?_ hfollows.1
        fun x hx => ?_
      · rw [Vector.setAt_get_self]
      · obtain ⟨hmask, hnotes, hsound⟩ := hnew.controls cc x hx
        have hlt : UInt8.ofNat cc.val < 128 := by
          rw [UInt8.lt_iff_toNat_lt, UInt8.toNat_ofNat']
          exact Nat.lt_of_le_of_lt (Nat.mod_le _ _) cc.isLt
        simp only [apply, hnotes, hsound, hlt, hmask, or_self, if_false, if_true, Tracker.dataIndex_ofNat]
    rw [List.flatMap_cons, List.foldl_append, hfirst]
    refine ih hrest (fun i hi x hx => ?_) fun i => ?_
    · rw [Vector.get_setAt, if_neg (by rintro rfl; exact hcc hi)]
      exact hfollows.2 i hi x hx
    · rw [hw, Vector.get_setAt]
      by_cases hi : i = cc
      · subst hi
        simp [hcc]
      · simp [hi, Ne.symm hi]

theorem foldl_changedNote (v : Voice) {note : Fin 128} (hheld : v.notes.get note = old.notes.get note) :
    (changedNote channel old new note).foldl apply v =
      { v with notes := Vector.setAt v.notes note (new.notes.get note) } := by
  unfold changedNote
  dsimp only
  split_ifs with hsame hsilent hreleased hreleased
  · rw [hsame, ← hheld, Vector.setAt_get_self]
    rfl
  · exact absurd (hreleased.trans hsilent.symm) hsame
  · simp [apply]
  · simp [apply, hreleased]
  · simp [apply, Vector.setAt_setAt]

theorem foldl_notes {ns : List (Fin 128)} (hnodup : ns.Nodup) {v : Voice}
    (hheld : ∀ note ∈ ns, v.notes.get note = old.notes.get note) {w : Vector UInt8 128}
    (hw : ∀ note, w.get note = if note ∈ ns then new.notes.get note else v.notes.get note) :
    (ns.flatMap (changedNote channel old new)).foldl apply v = { v with notes := w } := by
  induction ns generalizing v with
  | nil =>
    obtain rfl : w = v.notes := Vector.ext_fin fun i => (hw i).trans (if_neg List.not_mem_nil)
    rfl
  | cons note rest ih =>
    obtain ⟨hnote, hrest⟩ := List.nodup_cons.mp hnodup
    rw [List.forall_mem_cons] at hheld
    rw [List.flatMap_cons, List.foldl_append, foldl_changedNote v hheld.1]
    refine ih hrest (fun i hi => ?_) fun i => ?_
    · rw [Vector.get_setAt, if_neg (by rintro rfl; exact hnote hi)]
      exact hheld.2 i hi
    · rw [hw, Vector.get_setAt]
      by_cases hi : i = note
      · subst hi
        simp [hnote]
      · simp [hi, Ne.symm hi]

/-- A listener that follows the old state learns the new one from the difference. -/
theorem foldl_changes (hnew : new.Sound) {l : Voice} (hl : l.Follows old) :
    (changes channel old new).foldl apply l = l.learn new := by
  have hget : ∀ cc, (l.learn new).controls.get cc =
      if cc ∈ List.finRange 128 then (new.controls.get cc).or (l.controls.get cc) else l.controls.get cc := by
    intro cc
    rw [if_pos (List.mem_finRange cc)]
    exact Vector.get_ofFn_fin _ cc
  -- One kind of setting after the other is learnt.
  have hprogram : (changed old.program new.program (.programChange channel)).foldl apply l =
      ⟨(l.learn new).program, l.controls, l.pressure, l.wheel, l.notes⟩ :=
    foldl_changed (f := fun x => ⟨x, _, _, _, _⟩) rfl hl.program fun x hx => by simp only [apply, hnew.program x hx]
  have hcontrols : ((List.finRange 128).flatMap fun cc => changed (old.controls.get cc) (new.controls.get cc)
      (.controlChange channel (.ofNat cc.val))).foldl apply
        ⟨(l.learn new).program, l.controls, l.pressure, l.wheel, l.notes⟩ =
      ⟨(l.learn new).program, (l.learn new).controls, l.pressure, l.wheel, l.notes⟩ :=
    foldl_controls (v := ⟨(l.learn new).program, l.controls, l.pressure, l.wheel, l.notes⟩) hnew
      (List.nodup_finRange 128) (fun cc _ => hl.controls cc) hget
  have hpressure : (changed old.pressure new.pressure (.channelPressure channel)).foldl apply
      ⟨(l.learn new).program, (l.learn new).controls, l.pressure, l.wheel, l.notes⟩ =
        ⟨(l.learn new).program, (l.learn new).controls, (l.learn new).pressure, l.wheel, l.notes⟩ :=
    foldl_changed (f := fun x => ⟨_, _, x, _, _⟩) rfl hl.pressure fun x hx => by
      simp only [apply, hnew.pressure x hx]
  have hwheel : (changed old.wheel new.wheel (.pitchWheel channel)).foldl apply
      ⟨(l.learn new).program, (l.learn new).controls, (l.learn new).pressure, l.wheel, l.notes⟩ =
        ⟨(l.learn new).program, (l.learn new).controls, (l.learn new).pressure, (l.learn new).wheel, l.notes⟩ :=
    foldl_changed (f := fun x => ⟨_, _, _, x, _⟩) rfl hl.wheel fun _ _ => rfl
  simp only [changes, List.foldl_append]
  rw [hprogram, hcontrols, hpressure, hwheel]
  exact foldl_notes (v := { l.learn new with notes := l.notes }) (List.nodup_finRange 128)
    (fun note _ => congrArg (Vector.get · note) hl.notes) fun note => (if_pos (List.mem_finRange note)).symm

end Voice

namespace Tracker

/-- A listener in state `l` holds the notes of `t` and agrees with it on every
value that `t` knows, on all channels. -/
def Follows (l t : Tracker) : Prop := ∀ channel, (l.voices.get channel).Follows (t.voices.get channel)

theorem Follows.refl (t : Tracker) : t.Follows t := fun channel => .refl (t.voices.get channel)

/-- The same bytes keep a listener in step. -/
theorem Follows.feed {l t : Tracker} (h : l.Follows t) (bytes : List UInt8) :
    (l.feed bytes).Follows (t.feed bytes) := by
  intro channel
  unfold Tracker.feed
  cases Event.parse bytes with
  | none => exact h channel
  | some e =>
    rw [Option.elim_some, Option.elim_some, apply_voices, apply_voices, Vector.get_setAt, Vector.get_setAt]
    split_ifs
    · exact (h _).apply e
    · exact h channel

theorem Follows.feedMessages {l t : Tracker} (h : l.Follows t) (messages : List Message) :
    (messages.foldl feedMessage l).Follows (messages.foldl feedMessage t) := by
  induction messages generalizing l t with
  | nil => exact h
  | cons m rest ih => exact ih (h.feed m.bytes)

/-- Written events that can be read back act on their channel. -/
theorem feedAll_encode (t : Tracker) {channel : Fin 16} {events : List Event}
    (h : ∀ e ∈ events, e.channel = .ofNat channel.val ∧ e.Canonical) :
    (t.feedAll (events.map Event.encode)).voices =
      Vector.setAt t.voices channel (events.foldl Voice.apply (t.voices.get channel)) := by
  induction events generalizing t with
  | nil => exact (Vector.setAt_get_self t.voices channel).symm
  | cons e rest ih =>
    rw [List.forall_mem_cons] at h
    have hlt : e.channel < 16 := by
      rw [h.1.1, UInt8.lt_iff_toNat_lt, UInt8.toNat_ofNat']
      exact Nat.lt_of_le_of_lt (Nat.mod_le _ _) channel.isLt
    have hfeed : t.feed e.encode = t.apply e := by rw [feed, Event.parse_encode hlt h.1.2, Option.elim_some]
    have hindex : voiceIndex e.channel = channel := by rw [h.1.1, voiceIndex_ofNat]
    have hvoices := t.apply_voices e
    simp only [voice, hindex] at hvoices
    show ((t.feed e.encode).feedAll (rest.map Event.encode)).voices = _
    rw [hfeed, ih (t.apply e) h.2, hvoices, Vector.get_setAt, if_pos rfl, Vector.setAt_setAt]
    rfl

theorem feedAll_append (t : Tracker) (messages more : List (List UInt8)) :
    t.feedAll (messages ++ more) = (t.feedAll messages).feedAll more := List.foldl_append

/-- A listener that follows the old state learns the new one from the difference. -/
theorem feedAll_diff {l old new : Tracker} (hl : l.Follows old) (hnew : new.Sound) (channel : Fin 16) :
    (l.feedAll (new.diff old)).voices.get channel = (l.voices.get channel).learn (new.voices.get channel) := by
  have hall : ∀ {channels : List (Fin 16)} {l : Tracker}, channels.Nodup →
      (∀ channel ∈ channels, (l.voices.get channel).Follows (old.voices.get channel)) →
      (l.feedAll (channels.flatMap fun channel =>
        Voice.diff (.ofNat channel.val) (old.voices.get channel) (new.voices.get channel))).voices.get channel =
        if channel ∈ channels then (l.voices.get channel).learn (new.voices.get channel) else l.voices.get channel := by
    intro channels
    -- The listener follows on the channels still to come; those behind keep what they have learnt.
    induction channels with
    | nil => exact fun _ _ => rfl
    | cons first rest ih =>
      intro l hnodup hfollows
      obtain ⟨hfirst, hrest⟩ := List.nodup_cons.mp hnodup
      rw [List.forall_mem_cons] at hfollows
      have hcanonical : ∀ e ∈ Voice.changes (.ofNat first.val) (old.voices.get first) (new.voices.get first),
          e.channel = .ofNat first.val ∧ e.Canonical :=
        fun e he => Voice.canonical_of_mem_changes (hnew first) he
      have hlearnt := l.feedAll_encode hcanonical
      rw [← Voice.diff_eq, Voice.foldl_changes (hnew first) hfollows.1] at hlearnt
      rw [List.flatMap_cons, feedAll_append, ih hrest fun i hi => by
        rw [hlearnt, Vector.get_setAt, if_neg (by rintro rfl; exact hfirst hi)]
        exact hfollows.2 i hi]
      rw [hlearnt, Vector.get_setAt]
      by_cases hi : channel = first
      · subst hi
        simp [hfirst]
      · simp [hi, Ne.symm hi]
  exact (hall (List.nodup_finRange 16) fun channel _ => hl channel).trans (if_pos (List.mem_finRange channel))

/-- The messages of a difference, sent to a listener that follows the old state,
make it follow the new one. -/
theorem Follows.feedAll_diff {l old new : Tracker} (hl : l.Follows old) (hnew : new.Sound) :
    (l.feedAll (new.diff old)).Follows new := by
  intro channel
  rw [Tracker.feedAll_diff hl hnew channel]
  exact (l.voices.get channel).learn_follows (new.voices.get channel)

/-- A program, a pressure and a wheel message, one for each controller and two for
each note are the most that a channel takes. -/
theorem length_diff_le (old new : Tracker) : (new.diff old).length ≤ 16 * 387 := by
  have hall : ((List.finRange 16).flatMap fun channel =>
      Voice.diff (.ofNat channel.val) (old.voices.get channel) (new.voices.get channel)).length ≤
        (List.finRange 16).length * 387 :=
    length_flatMap_le fun channel _ => by
      rw [Voice.diff_eq, List.length_map]
      exact Voice.length_changes_le _ _ _
  rwa [List.length_finRange] at hall

theorem diff_sized {old new : Tracker} {bytes : List UInt8} (h : bytes ∈ new.diff old) :
    bytes ≠ [] ∧ bytes.length ≤ maxMessageBytes := by
  obtain ⟨channel, -, hdiff⟩ := List.mem_flatMap.mp h
  rw [Voice.diff_eq] at hdiff
  obtain ⟨e, -, rfl⟩ := List.mem_map.mp hdiff
  cases e <;> simp [Event.encode, Event.rawBytes, Event.byteCount, maxMessageBytes]

/-- All of a difference is sent as messages of a frame. -/
theorem bytes_diff_messages (old new : Tracker) (frame : UInt32) :
    ((new.diff old).filterMap fun bytes => (Message.ofBytes frame bytes).toOption).map (·.bytes) = new.diff old := by
  have hall : ∀ {messages : List (List UInt8)}, (∀ bytes ∈ messages, bytes ≠ [] ∧ bytes.length ≤ maxMessageBytes) →
      (messages.filterMap fun bytes => (Message.ofBytes frame bytes).toOption).map (·.bytes) = messages := by
    intro messages h
    induction messages with
    | nil => rfl
    | cons bytes rest ih =>
      rw [List.forall_mem_cons] at h
      have hbytes : (Message.ofBytes frame bytes).toOption = some ⟨frame, bytes, h.1.1, h.1.2⟩ := by
        simp [Message.ofBytes, h.1.1, h.1.2, Except.toOption]
      rw [List.filterMap_cons_some (f := fun bytes => (Message.ofBytes frame bytes).toOption) hbytes, List.map_cons,
        ih h.2]
  exact hall fun bytes => diff_sized

theorem foldl_feedMessage (t : Tracker) (messages : List Message) :
    messages.foldl feedMessage t = t.feedAll (messages.map (·.bytes)) := by
  unfold feedAll
  rw [List.foldl_map]
  rfl

/-- A difference that is sent as messages of a frame is heard as it is. -/
theorem foldl_diff_messages (l old new : Tracker) (frame : UInt32) :
    ((new.diff old).filterMap fun bytes => (Message.ofBytes frame bytes).toOption).foldl feedMessage l =
      l.feedAll (new.diff old) := by
  rw [foldl_feedMessage, bytes_diff_messages]

end Tracker

end Overdub.Midi
