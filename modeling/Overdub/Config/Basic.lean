/-!
# Settings of an engine
-/

namespace Overdub

/-- The drivers to choose from. -/
inductive DriverKind where
  /-- The driver without hardware, which is always there. -/
  | dummy
  /-- The audio server. -/
  | jack
  deriving DecidableEq, Repr

/-- How the driver without hardware lets time pass. -/
inductive DummyMode where
  /-- One buffer per period, as a sound card would. -/
  | automatic
  /-- Only the frames that are asked for. -/
  | controlled
  deriving DecidableEq, Repr

/-- Settings of the driver. -/
structure DriverConfig where
  kind : DriverKind := .dummy
  /-- The name the audio server knows the engine by. -/
  clientName : String := "looper"
  sampleRate : Nat := 48000
  bufferSize : Nat := 256
  dummyMode : DummyMode := .automatic
  deriving DecidableEq, Repr

/-- Settings of the engine. -/
structure EngineConfig where
  /-- Samples per buffer of the pool. -/
  bufferSize : Nat := 4096
  /-- Buffers that the pool keeps ready. -/
  poolBuffers : Nat := 128
  /-- The pool is refilled when it has fewer buffers than this. -/
  poolLowWater : Nat := 32
  /-- Commands that can wait for the process side. -/
  queueCapacity : Nat := 1024
  /-- How long a call waits for the process side, in milliseconds. -/
  commandTimeout : Nat := 1000
  /-- The longest take; ten minutes by default. -/
  reservedSamples : Nat := 28800000
  /-- How much input a new port keeps, zero for none. -/
  capturedSamples : Nat := 0
  /-- Events that a MIDI channel or a MIDI capture holds. -/
  midiCapacity : Nat := 8192
  /-- Messages of a MIDI port per cycle. -/
  mergeCapacity : Nat := 1024
  /-- Chunks of no length that the loop scheduler accepts in a row. -/
  maxIterations : Nat := 1024
  driver : DriverConfig := {}
  deriving DecidableEq, Repr

end Overdub
