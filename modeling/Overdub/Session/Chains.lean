import Overdub.Session.Ports
/-!
# Effect chains of a session

Each audio input of a chain is an output port of the engine named `<name>_in_<n>`,
each audio output an input port `<name>_out_<n>`, and each MIDI input an output
port `<name>_midi_in_<n>`.
-/

namespace Overdub.Session

/-- Adds the ports of one side of a chain, numbered from one. -/
def addChainPorts (config : EngineConfig) (chain : ChainKey) (label : String) (dataType : DataType)
    (direction : Direction) (count : Nat) (t : Topology) (e : Engine) : List PortKey × Topology × Engine :=
  (List.range count).foldl (fun (keys, t, e) i =>
    let (key, ports) := t.ports.insert
      { name := s!"{label}_{i + 1}", dataType, direction, owner := .chain chain }
    let (port, pool) := buildPort config dataType direction e.pool
    (keys ++ [key], { t with ports }, { e with pool }.insertPort key { origin := .chain chain, port })) ([], t, e)

def addChain (name : String) (effect : Effect.Chain) : Call ChainKey := do
  let s ← get
  let layout := effect.layout
  let (key, chains) := s.topology.chains.insert { name }
  let t := { s.topology with chains }
  let add := addChainPorts s.config key
  let (audioInputs, t, e) := add s!"{name}_in" .audio .output layout.audioInputs t s.engine
  let (audioOutputs, t, e) := add s!"{name}_out" .audio .input layout.audioOutputs t e
  let (midiInputs, t, e) := add s!"{name}_midi_in" .midi .output layout.midiInputs t e
  let e := e.insertChain key
    { effect, midiCapacity := s.config.mergeCapacity, audioInputs, audioOutputs, midiInputs }
  commit { t with chains := t.chains.set key { name, audioInputs, audioOutputs, midiInputs } } fun _ => .ok e
  return key

/-- What is known of a chain. -/
def chainInfo (key : ChainKey) : Call ChainInfo := lookup (·.chains) key

/-- Takes a chain out with its ports, and hands it back. -/
def deleteChain (key : ChainKey) : Call Effect.Chain := do
  let info ← lookup (·.chains) key
  retract ((← get).topology.removeChain key info) fun e => do
    let (removed, e) := e.removeChain key
    let (c, ports) ← Engine.expect "chain" removed
    return (c.effect, ports.foldl Engine.releasePort e)

/-- Switches a chain on or off. -/
def setChainActive (key : ChainKey) (active : Bool) : Call Unit := do
  let _ ← lookup (·.chains) key
  run fun e => do
    let c ← Engine.expect "chain" (e.chains.get? key)
    return { e with chains := e.chains.set key { c with effect := { c.effect with active } } }

end Overdub.Session
