import Overdub.Proofs.Listener
/-!
# Events as bytes

An event that fits its bytes is read back from them as it was written, but for one: a
note-on of velocity zero is a note-off to whoever reads it (`Event.asRead`). And what
is read from any bytes fits, and is no such note-on (`Event.readable_of_parse`).

So bytes may be read and written anew at any time. They may be other bytes then: the
eighth bits of a wheel value are gone, and so is all that stood behind the event. But
they are the same event again, and no tracker can tell the difference
(`Tracker.feedAll_rewritten`).
-/

namespace Overdub.Midi

namespace Event

/-- The channel is one of sixteen, and a wheel value has 14 bits. -/
structure Fits (e : Event) : Prop where
  channel : e.channel < 16
  wheel : ∀ channel value, e = .pitchWheel channel value → value < 0x4000

/-- The event as it is read back: a note-on of velocity zero is a note-off. -/
def asRead : Event → Event
  | .noteOn channel note velocity => if velocity = 0 then .noteOff channel note 0 else .noteOn channel note velocity
  | e => e

variable {e : Event} {bytes : List UInt8}

/-! ## Writing and reading back -/

theorem asRead_of_canonical (h : e.Canonical) : e.asRead = e := by
  cases e with
  | noteOn channel note velocity => exact if_neg h
  | _ => rfl

theorem canonical_of_fits (hfits : e.Fits) (hsame : e.asRead = e) : e.Canonical := by
  cases e with
  | noteOn channel note velocity =>
    intro hzero
    rw [asRead, if_pos hzero] at hsame
    cases hsame
  | pitchWheel channel value => exact hfits.wheel channel value rfl
  | _ => trivial

/-- What is written as a note-on of velocity zero is read as a note-off. -/
theorem parse_encode_silent {channel : UInt8} (h : channel < 16) (note : UInt8) :
    parse (encode (.noteOn channel note 0)) = some (.noteOff channel note 0) := by
  obtain ⟨hkind, hlow⟩ := status_parts h 0x90 (by decide)
  simp [encode, rawBytes, byteCount, parse, hkind, hlow]

theorem parse_encode_asRead (h : e.Fits) : parse e.encode = some e.asRead := by
  by_cases hsame : e.asRead = e
  · rw [hsame]
    exact parse_encode h.channel (canonical_of_fits h hsame)
  · -- the only event that is not read as itself
    cases e with
    | noteOn channel note velocity =>
      have hzero : velocity = 0 := by
        by_contra hsounds
        exact hsame (if_neg hsounds)
      rw [asRead, if_pos hzero, hzero]
      exact parse_encode_silent h.channel note
    | _ => exact absurd rfl hsame

/-! ## Reading and writing anew -/

/-- The lower half of a status byte is one of sixteen channels. -/
theorem low_half_lt (status : UInt8) : status &&& 0x0F < 16 := by
  rw [UInt8.lt_iff_toNat_lt, UInt8.toNat_and]
  exact Nat.lt_of_le_of_lt Nat.and_le_right (by decide)

theorem channel_of_parse {status : UInt8} {rest : List UInt8} (h : parse (status :: rest) = some e) :
    e.channel = status &&& 0x0F := by
  rcases rest with _ | ⟨data1, _ | ⟨data2, rest⟩⟩
  · cases h
  · simp only [parse] at h
    split at h
    case h_3 => cases h
    all_goals (cases h; rfl)
  · simp only [parse] at h
    split at h
    case h_2 =>
      -- a note-on is read as one of two events
      split_ifs at h <;> (cases h; rfl)
    case h_8 => cases h
    all_goals (cases h; rfl)

/-- A note-on that is read sounds. -/
theorem sounds_of_parse {channel note velocity : UInt8} (h : parse bytes = some (.noteOn channel note velocity)) :
    velocity ≠ 0 := by
  unfold parse at h
  split at h
  · dsimp only at h
    split at h <;> try cases h
    split_ifs at h with hzero
    · cases h
    · cases h
      exact hzero
  · dsimp only at h
    split at h <;> cases h
  · cases h

/-- What is read fits the bytes that it would be written in, and is read from them as it is. -/
theorem readable_of_parse (h : parse bytes = some e) : e.Fits ∧ e.asRead = e := by
  refine ⟨⟨?_, ?_⟩, ?_⟩
  · rcases bytes with _ | ⟨status, rest⟩
    · cases h
    · rw [channel_of_parse h]
      exact low_half_lt status
  · rintro channel value rfl
    exact wheel_lt_of_parse h
  · apply asRead_of_canonical
    cases e with
    | noteOn channel note velocity => exact sounds_of_parse h
    | pitchWheel channel value => exact wheel_lt_of_parse h
    | _ => trivial

/-- Just the events that fit and are read as they are can be read from any bytes. -/
theorem exists_parse_iff : (∃ bytes, parse bytes = some e) ↔ e.Fits ∧ e.asRead = e := by
  constructor
  · rintro ⟨bytes, h⟩
    exact readable_of_parse h
  · rintro ⟨hfits, hsame⟩
    have hparse := parse_encode_asRead hfits
    rw [hsame] at hparse
    exact ⟨e.encode, hparse⟩

theorem parse_encode_of_parse (h : parse bytes = some e) : parse e.encode = some e := by
  obtain ⟨hfits, hsame⟩ := readable_of_parse h
  have hparse := parse_encode_asRead hfits
  rwa [hsame] at hparse

/-- Bytes written anew from the event in them; bytes that are no event stay. -/
def rewritten (bytes : List UInt8) : List UInt8 := (parse bytes).elim bytes encode

theorem parse_rewritten (bytes : List UInt8) : parse (rewritten bytes) = parse bytes := by
  unfold rewritten
  cases h : parse bytes with
  | none => exact h
  | some e => exact parse_encode_of_parse h

end Event

/-! ## What trackers hear -/

namespace Tracker

theorem feed_congr {bytes bytes' : List UInt8} (h : Event.parse bytes' = Event.parse bytes) (t : Tracker) :
    t.feed bytes' = t.feed bytes := by
  unfold feed
  rw [h]

/-- A stream that is written anew, message by message, leads to the same state. -/
theorem feedAll_rewritten (t : Tracker) (messages : List (List UInt8)) :
    t.feedAll (messages.map Event.rewritten) = t.feedAll messages := by
  induction messages generalizing t with
  | nil => rfl
  | cons bytes rest ih =>
    have hfirst : t.feed (Event.rewritten bytes) = t.feed bytes := feed_congr (Event.parse_rewritten bytes) t
    show (t.feed (Event.rewritten bytes)).feedAll (rest.map Event.rewritten) = (t.feed bytes).feedAll rest
    rw [hfirst]
    exact ih (t.feed bytes)

end Tracker

/-- Reading and writing agree. An event that fits its bytes is read back from them as it was written, except that a
note-on of velocity zero is the note-off of velocity zero. From any bytes only such events are read as are read back
the same, and all of these are read from some. Written anew, they are the same event again, and change every tracker
just as the bytes did that they were read from; a whole stream may be written anew, and the state is the same. -/
theorem Event.reading_agrees_with_writing :
    (∀ e : Event, e.Fits → parse e.encode = some e.asRead) ∧
    (∀ e : Event, (∃ bytes, parse bytes = some e) ↔ e.Fits ∧ e.asRead = e) ∧
    (∀ bytes e, parse bytes = some e →
      parse e.encode = some e ∧ ∀ t : Tracker, t.feed e.encode = t.feed bytes) ∧
    ∀ (t : Tracker) (messages : List (List UInt8)), t.feedAll (messages.map rewritten) = t.feedAll messages := by
  refine ⟨fun e h => parse_encode_asRead h, fun e => exists_parse_iff, ?_, Tracker.feedAll_rewritten⟩
  intro bytes e h
  have hagain := parse_encode_of_parse h
  exact ⟨hagain, Tracker.feed_congr (hagain.trans h.symm)⟩

/-- A note-on of velocity zero comes back as a note-off. A wheel message with eighth bits set, and with more bytes
behind it, is written anew without them. -/
theorem Event.reading_agrees_with_writing_wheel :
    Event.Fits (.noteOn 3 64 0) ∧ parse (encode (.noteOn 3 64 0)) = some (.noteOff 3 64 0) ∧
      parse [0xE1, 0xFF, 0xC0, 7] = some (.pitchWheel 1 0x207F) ∧
      parse [0xE1, 0x7F, 0x40] = some (.pitchWheel 1 0x207F) ∧
      ∀ t : Tracker, t.feed [0xE1, 0x7F, 0x40] = t.feed [0xE1, 0xFF, 0xC0, 7] := by
  have hfits : Event.Fits (.noteOn 3 64 0) := ⟨by decide, by rintro channel value ⟨⟩⟩
  have hparse : parse [0xE1, 0xFF, 0xC0, 7] = some (.pitchWheel 1 0x207F) := by decide
  obtain ⟨hback, -, hagain, -⟩ := Event.reading_agrees_with_writing
  obtain ⟨hsame, hheard⟩ := hagain _ _ hparse
  exact ⟨hfits, hback _ hfits, hparse, hsame, hheard⟩

end Overdub.Midi
