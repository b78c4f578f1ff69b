import Overdub.Midi.Error
/-!
# Timestamped MIDI messages

A `Message` is the unit that flows through every MIDI container: a time and a
payload of 1 to 16 bytes. What the time counts depends on the container: frames
of the current cycle at a port, positions of the recorded data in a channel, or
the free-running sample count of a capture ring.
-/

namespace Overdub.Midi

/-- The most bytes a message carries: three for a channel voice message, with
room for short system exclusive messages. -/
def maxMessageBytes : Nat := 16

/-- A timestamped message of 1 to 16 bytes. -/
structure Message where
  time : UInt32
  bytes : List UInt8
  bytes_ne_nil : bytes ≠ []
  length_le : bytes.length ≤ maxMessageBytes
  deriving DecidableEq

namespace Message

/-- A message of the given bytes, refused when there are none or too many. -/
def ofBytes (time : UInt32) (bytes : List UInt8) : Except Error Message :=
  if empty : bytes = [] then .error .emptyMessage
  else if fits : bytes.length ≤ maxMessageBytes then .ok ⟨time, bytes, empty, fits⟩
  else .error (.messageTooLarge bytes.length maxMessageBytes)

/-- A message of three bytes. -/
def short (time : UInt32) (status data1 data2 : UInt8) : Message :=
  ⟨time, [status, data1, data2], by simp, by simp [maxMessageBytes]⟩

/-- The same payload at another time. -/
def withTime (m : Message) (time : UInt32) : Message := { m with time }

/-- The number of payload bytes. -/
def size (m : Message) : Nat := m.bytes.length

@[simp] theorem time_withTime (m : Message) (t : UInt32) : (m.withTime t).time = t := rfl

@[simp] theorem bytes_withTime (m : Message) (t : UInt32) : (m.withTime t).bytes = m.bytes := rfl

@[simp] theorem withTime_time (m : Message) : m.withTime m.time = m := rfl

theorem ofBytes_bytes (m : Message) : ofBytes m.time m.bytes = .ok m := by
  simp [ofBytes, m.bytes_ne_nil, m.length_le]

end Message

/-- One event of a MIDI sequence as it is exchanged with the outside: a time in
the recorded data and the raw bytes. -/
structure SequenceEvent where
  time : Int
  data : List UInt8
  deriving DecidableEq, Repr

namespace SequenceEvent

/-- The time under which state-restore messages are handed out. -/
def stateRestoreTime : Int := -1

/-- An event of negative time restores the state in front of time zero. -/
def isStateRestore (e : SequenceEvent) : Bool := e.time < 0

end SequenceEvent

end Overdub.Midi
