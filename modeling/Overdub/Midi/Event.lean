import Overdub.Midi.Message
/-!
# Channel voice events

An `Event` is a parsed channel voice message. Only the kinds that carry state
worth restoring are represented; system messages parse to nothing. The upper
half of the status byte names the kind, the lower half the channel.
-/

namespace Overdub.Midi

/-- A channel voice message. -/
inductive Event where
  | noteOff (channel note velocity : UInt8)
  | noteOn (channel note velocity : UInt8)
  | polyPressure (channel note value : UInt8)
  | controlChange (channel cc value : UInt8)
  | programChange (channel program : UInt8)
  | channelPressure (channel value : UInt8)
  /-- A value of 14 bits, centred at `0x2000`. -/
  | pitchWheel (channel : UInt8) (value : UInt16)
  deriving DecidableEq, Repr

namespace Event

/-- The controller that silences a channel at once. -/
def allSoundOff : UInt8 := 120

/-- The controller that releases every note of a channel. -/
def allNotesOff : UInt8 := 123

/-- The 14-bit value of two data bytes, low seven bits first. -/
def wheelOfBytes (low high : UInt8) : UInt16 :=
  (low &&& 0x7F).toUInt16 ||| ((high &&& 0x7F).toUInt16 <<< (7 : UInt16))

/-- Reads the event at the front of some bytes. A note-on of velocity zero is a
note-off. -/
def parse : List UInt8 → Option Event
  | status :: data1 :: data2 :: _ =>
    let channel := status &&& 0x0F
    match status &&& 0xF0 with
    | 0x80 => some (.noteOff channel data1 data2)
    | 0x90 => some (if data2 = 0 then .noteOff channel data1 0 else .noteOn channel data1 data2)
    | 0xA0 => some (.polyPressure channel data1 data2)
    | 0xB0 => some (.controlChange channel data1 data2)
    | 0xC0 => some (.programChange channel data1)
    | 0xD0 => some (.channelPressure channel data1)
    | 0xE0 => some (.pitchWheel channel (wheelOfBytes data1 data2))
    | _ => none
  | [status, data1] =>
    let channel := status &&& 0x0F
    match status &&& 0xF0 with
    | 0xC0 => some (.programChange channel data1)
    | 0xD0 => some (.channelPressure channel data1)
    | _ => none
  | _ => none

/-- The event's bytes, filled up to three with zeros. -/
def rawBytes : Event → List UInt8
  | .noteOff channel note velocity => [0x80 ||| channel, note, velocity]
  | .noteOn channel note velocity => [0x90 ||| channel, note, velocity]
  | .polyPressure channel note value => [0xA0 ||| channel, note, value]
  | .controlChange channel cc value => [0xB0 ||| channel, cc, value]
  | .programChange channel program => [0xC0 ||| channel, program, 0]
  | .channelPressure channel value => [0xD0 ||| channel, value, 0]
  | .pitchWheel channel value =>
    [0xE0 ||| channel, (value &&& 0x7F).toUInt8, ((value >>> (7 : UInt16)) &&& 0x7F).toUInt8]

/-- How many of its three bytes an event uses. -/
def byteCount : Event → Nat
  | .programChange .. | .channelPressure .. => 2
  | _ => 3

def encode (e : Event) : List UInt8 := e.rawBytes.take e.byteCount

def channel : Event → UInt8
  | .noteOff channel .. | .noteOn channel .. | .polyPressure channel ..
  | .controlChange channel .. | .programChange channel .. | .channelPressure channel ..
  | .pitchWheel channel .. => channel

end Event

/-- The event a message carries, if it is a channel voice message. -/
def Message.event (m : Message) : Option Event := Event.parse m.bytes

end Overdub.Midi
