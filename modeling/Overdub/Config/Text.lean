import Overdub.Config.Basic
import Overdub.Yaml.Reader
import Overdub.Yaml.Writer
/-!
# Settings as a YAML document

Every setting has a key. Settings that a document does not give have their
default, keys that are not known are ignored, and a known key may be given once.
Settings that cannot be read are all replaced by their defaults, so that reading
never fails.
-/

namespace Overdub

def maxWord : Nat := UInt64.size - 1

def maxHalfWord : Nat := UInt32.size - 1

namespace DriverKind

def name : DriverKind → String
  | .dummy => "Dummy"
  | .jack => "Jack"

def ofName? (name : String) : Option DriverKind := [.dummy, .jack].find? (·.name = name)

end DriverKind

namespace DummyMode

def name : DummyMode → String
  | .automatic => "Automatic"
  | .controlled => "Controlled"

def ofName? (name : String) : Option DummyMode := [.automatic, .controlled].find? (·.name = name)

end DummyMode

/-- How a value of a document changes settings. -/
abbrev Setting (σ : Type) := String × (σ → Yaml.Node → Option σ)

/-- Changes settings by the entries of a mapping. -/
def applySettings {σ : Type} (known : List (Setting σ)) (config : σ) (value : Yaml.Node) : Option σ := do
  let entries ← value.entries?
  let keys ← entries.mapM (·.1.text?)
  guard (keys.filter fun key => known.any (·.1 = key)).Nodup
  (keys.zip entries).foldlM (fun config (key, entry) =>
    match known.lookup key with
    | some change => change config entry.2
    | none => some config) config

def numberSetting {σ : Type} (limit : Nat) (set : σ → Nat → σ) : σ → Yaml.Node → Option σ :=
  fun config value => (value.number? limit).map (set config)

def textSetting {σ : Type} (set : σ → String → σ) : σ → Yaml.Node → Option σ :=
  fun config value => value.text?.map (set config)

/-- A setting that is one of several possibilities. -/
def choiceSetting {σ α : Type} (ofName? : String → Option α) (set : σ → α → σ) : σ → Yaml.Node → Option σ :=
  fun config value => (value.choice?.bind ofName?).map (set config)

def DriverConfig.settings : List (Setting DriverConfig) :=
  [("kind", choiceSetting DriverKind.ofName? ({ · with kind := · })),
    ("client_name", textSetting ({ · with clientName := · })),
    ("sample_rate", numberSetting maxHalfWord ({ · with sampleRate := · })),
    ("buffer_size", numberSetting maxHalfWord ({ · with bufferSize := · })),
    ("dummy_mode", choiceSetting DummyMode.ofName? ({ · with dummyMode := · }))]

namespace EngineConfig

def settings : List (Setting EngineConfig) :=
  [("buffer_size", numberSetting maxWord ({ · with bufferSize := · })),
    ("pool_buffers", numberSetting maxWord ({ · with poolBuffers := · })),
    ("pool_low_water", numberSetting maxWord ({ · with poolLowWater := · })),
    ("command_queue_capacity", numberSetting maxWord ({ · with queueCapacity := · })),
    ("command_timeout_ms", numberSetting maxWord ({ · with commandTimeout := · })),
    ("reserved_loop_samples", numberSetting maxWord ({ · with reservedSamples := · })),
    ("default_ringbuffer_samples", numberSetting maxHalfWord ({ · with capturedSamples := · })),
    ("midi_storage_capacity", numberSetting maxWord ({ · with midiCapacity := · })),
    ("midi_merge_capacity", numberSetting maxWord ({ · with mergeCapacity := · })),
    ("max_poi_iterations", numberSetting maxWord ({ · with maxIterations := · })),
    ("driver", fun c value => (applySettings DriverConfig.settings {} value).map fun driver => { c with driver })]

/-- The numbers among the settings, with their keys. -/
def numbers (c : EngineConfig) : List (String × Nat) :=
  [("buffer_size", c.bufferSize), ("pool_buffers", c.poolBuffers), ("pool_low_water", c.poolLowWater),
    ("command_queue_capacity", c.queueCapacity), ("command_timeout_ms", c.commandTimeout),
    ("reserved_loop_samples", c.reservedSamples), ("default_ringbuffer_samples", c.capturedSamples),
    ("midi_storage_capacity", c.midiCapacity), ("midi_merge_capacity", c.mergeCapacity),
    ("max_poi_iterations", c.maxIterations)]

/-- The settings that a document gives. -/
def parse? (text : String) : Option EngineConfig := (Yaml.parse? text).bind (applySettings settings {})

/-- The settings in a file, if there is one. -/
def load (file : Option ByteArray) : EngineConfig :=
  ((file.bind String.fromUTF8?).bind parse?).getD {}

/-- The settings as a document. -/
def toText (c : EngineConfig) : String :=
  let d := c.driver
  let top := c.numbers.map fun (key, n) => s!"{key}: {n}\n"
  let driver := [("kind", d.kind.name), ("client_name", Yaml.scalar 4 d.clientName),
    ("sample_rate", toString d.sampleRate), ("buffer_size", toString d.bufferSize), ("dummy_mode", d.dummyMode.name)]
  String.join top ++ "driver:\n" ++ String.join (driver.map fun (key, value) => s!"  {key}: {value}\n")

end EngineConfig

end Overdub
