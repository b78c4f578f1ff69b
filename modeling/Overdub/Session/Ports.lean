import Overdub.Session.Basic
/-!
# Ports of a session
-/

namespace Overdub.Session

/-- The depth of an audio capture ring; zero asks for none. -/
def ringDepth (depth : Nat) : Option Nat := if depth = 0 then none else some depth

/-- A port of the engine. A new input port keeps as much input as the settings
say. -/
def buildPort (config : EngineConfig) (dataType : DataType) (direction : Direction) (pool : Audio.Pool) :
    Port × Audio.Pool :=
  let depth := match direction with
    | .input => config.capturedSamples
    | .output => 0
  match dataType with
  | .audio =>
    let (_, p, pool) := (Audio.Port.new direction).resizeRing (ringDepth depth) pool
    (.audio p, pool)
  | .midi =>
    let p := Midi.Port.new direction config.mergeCapacity config.midiCapacity
    (.midi (if depth = 0 then p else p.setCaptured (.ofNat depth)), pool)

def openPort (name : String) (dataType : DataType) (direction : Direction) : Call PortKey := do
  let s ← get
  let some driver := s.driver | throw (.driver .notStarted)
  match driver.openPort name dataType direction with
  | .error e => throw (.driver e)
  | .ok (id, driver) =>
    modify ({ · with driver := some driver })
    let t := s.topology
    let (key, ports) := t.ports.insert { name, dataType, direction, owner := .driver }
    commit { t with ports } fun e =>
      let (port, pool) := buildPort s.config dataType direction e.pool
      .ok ({ e with pool }.insertPort key { origin := .driver id, port })
    return key

def closePort (key : PortKey) : Call Unit := do
  let info ← lookup (·.ports) key
  require (info.owner = .driver) "effect chain ports close with their chain"
  let removed ← retract ((← get).topology.removePort key) fun e =>
    let (p, e) := e.removePort key
    .ok (p, p.elim e e.releasePort)
  match removed.map (·.origin) with
  | some (PortOrigin.driver id) =>
    modify fun s => { s with driver := s.driver.map fun d => (d.closePort id).toOption.getD d }
  | _ => return ()

/-- What is known of a port. -/
def portInfo (key : PortKey) : Call PortInfo := lookup (·.ports) key

def findPort? (s : Session) (name : String) : Option PortKey :=
  (s.topology.ports.toList.find? (·.2.name = name)).map (·.1)

def port (key : PortKey) : Call EnginePort := do
  let _ ← lookup (·.ports) key
  Engine.expect "port" ((← get).engine.ports.get? key)

def changePort (key : PortKey) (f : Port → Port) : Call Unit := do
  let _ ← port key
  apply (·.modifyPort key f)

/-- What control threads see of a port. -/
def portStatus (key : PortKey) : Call PortStatus := do return (← port key).port.status

/-- Hands out both peaks and starts over. -/
def takePortPeaks (key : PortKey) : Call (Audio.Sample × Audio.Sample) := do
  let (peaks, _) := (← portStatus key).takePeaks
  changePort key (·.modifyStatus (·.takePeaks.2))
  return peaks

def setPortGain (key : PortKey) (gain : Audio.Sample) : Call Unit := changePort key (·.setGain gain)

def setPortMuted (key : PortKey) (muted : Bool) : Call Unit := changePort key (·.setMuted muted)

/-- Changes how much input a port keeps; zero keeps none. -/
def setCaptured (key : PortKey) (depth : Nat) : Call Unit := do
  let info ← lookup (·.ports) key
  require (info.direction = .input) "capture rings belong to input ports"
  run fun e => do
    let p ← Engine.expect "port" (e.ports.get? key)
    match info.dataType, p.port with
    | .audio, .audio p =>
      let (_, p, pool) := p.resizeRing (ringDepth depth) e.pool
      return { e with pool }.modifyPort key fun _ => .audio p
    | .midi, .midi p => return e.modifyPort key fun _ => .midi (p.setCaptured (.ofNat depth))
    | .audio, .midi _ => throw (.invalidArgument "not an audio port")
    | .midi, .audio _ => throw (.invalidArgument "not a MIDI port")

/-! ## Connections -/

/-- Changes the sources of a port in the topology. -/
def knownSources (t : Topology) (key : PortKey) (f : List PortKey → List PortKey) : Topology :=
  { t with ports := t.ports.modify key fun p => { p with sources := f p.sources } }

/-- Changes the sources of a port of the engine. -/
def liveSources (key : PortKey) (f : List PortKey → List PortKey) (e : Engine) : Except Error Engine :=
  (Engine.expect "port" (e.ports.get? key)).map fun p =>
    { e with ports := e.ports.set key { p with sources := f p.sources } }

/-- Passes the data of one port into an output port every cycle. A connection
without a processing order is refused. -/
def connectPorts (source target : PortKey) : Call Unit := do
  let src ← lookup (·.ports) source
  let dst ← lookup (·.ports) target
  require (source ≠ target) "a port cannot feed itself"
  require (dst.direction = .output) "connections end at an output port"
  require (src.dataType = dst.dataType) "port data types differ"
  unless dst.sources.contains source do
    let t := knownSources (← get).topology target (· ++ [source])
    let _ ← t.schedule 0
    commit t (liveSources target (· ++ [source]))

/-- Undoes a connection of two ports. -/
def disconnectPorts (source target : PortKey) : Call Unit := do
  let dst ← lookup (·.ports) target
  require (dst.sources.contains source) "ports are not connected"
  let drop := List.filter (· ≠ source)
  retract (knownSources (← get).topology target drop) fun e => (liveSources target drop e).map ((), ·)

end Overdub.Session
