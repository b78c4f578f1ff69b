import Overdub.Effect.Chain
import Overdub.Graph.Topology
import Overdub.Loop.Adoption
import Overdub.Loop.Scheduler
import Overdub.Port.Basic
/-!
# What the process side owns

An `Engine` holds the objects of a session under the keys that the control side
has issued. It follows the control side by commands; none of them looks at the
topology.
-/

namespace Overdub

/-- Where the data of a port comes from or goes to. -/
inductive PortOrigin where
  /-- A port of the driver, by its number. -/
  | driver (id : Nat)
  /-- A port that the current driver could not open. -/
  | detached
  /-- One side of an effect chain. -/
  | chain (key : ChainKey)
  deriving DecidableEq, Repr

/-- A port with its connections. -/
structure EnginePort where
  origin : PortOrigin
  port : Port
  /-- The ports mixed into this one. -/
  sources : List PortKey := []

/-- An effect chain with its ports. -/
structure EngineChain where
  effect : Effect.Chain
  /-- The messages of a MIDI input per cycle. -/
  midiCapacity : Nat
  audioInputs : List PortKey
  audioOutputs : List PortKey
  midiInputs : List PortKey

def EngineChain.ports (c : EngineChain) : List PortKey := c.audioInputs ++ c.audioOutputs ++ c.midiInputs

/-- The objects of the process side. -/
structure Engine where
  ports : Arena .port EnginePort := .empty
  loops : Arena .loop Loop := .empty
  /-- The loop that each channel is in. -/
  channelLoops : Arena .channel LoopKey := .empty
  chains : Arena .chain EngineChain := .empty
  scheduler : Scheduler
  /-- What stores and capture rings draw their buffers from. -/
  pool : Audio.Pool

namespace Engine

def new (maxIterations : Nat) (pool : Audio.Pool) : Engine := { scheduler := .new maxIterations, pool }

/-! ## Access -/

/-- What a key leads to, or why it leads nowhere. -/
def expect {α : Type} (what : String) : Option α → Except Error α
  | some a => .ok a
  | none => .error (.expired what)

def modifyPort (e : Engine) (key : PortKey) (f : Port → Port) : Engine :=
  { e with ports := e.ports.modify key fun p => { p with port := f p.port } }

def audioPort? (e : Engine) (key : PortKey) : Option Audio.Port := (e.ports.get? key).bind (·.port.audio?)

def midiPort? (e : Engine) (key : PortKey) : Option Midi.Port := (e.ports.get? key).bind (·.port.midi?)

def channel? (e : Engine) (key : ChannelKey) : Option LoopChannel :=
  (e.channelLoops.get? key).bind fun l => (e.loops.get? l).bind (·.channel? key)

/-- Replaces a channel by one of the same key. -/
def setChannel (e : Engine) (c : LoopChannel) : Engine :=
  match e.channelLoops.get? c.key with
  | none => e
  | some l => { e with loops := e.loops.modify l (·.setChannel c) }

/-! ## Objects -/

def insertLoop (e : Engine) (key : LoopKey) (l : Loop) : Engine := { e with loops := (e.loops.insertAt key l).2 }

def insertPort (e : Engine) (key : PortKey) (p : EnginePort) : Engine := { e with ports := (e.ports.insertAt key p).2 }

def insertChain (e : Engine) (key : ChainKey) (c : EngineChain) : Engine :=
  { e with chains := (e.chains.insertAt key c).2 }

def insertChannel (e : Engine) (loop : LoopKey) (c : LoopChannel) : Except Error Engine :=
  (expect "loop" (e.loops.get? loop)).map fun l =>
    { e with
      loops := e.loops.set loop (l.addChannel c)
      channelLoops := (e.channelLoops.insertAt c.key loop).2 }

def removeChannel (e : Engine) (key : ChannelKey) : Option LoopChannel × Engine :=
  match e.channelLoops.get? key with
  | none => (none, e)
  | some l =>
    (e.channel? key, { e with
      channelLoops := e.channelLoops.erase key, loops := e.loops.modify l (·.removeChannel key) })

/-- Takes a loop out, with its channels; its followers follow nothing. -/
def removeLoop (e : Engine) (key : LoopKey) : Option Loop × Engine :=
  match e.loops.remove key with
  | (none, _) => (none, e)
  | (some l, loops) =>
    (some l, { e with
      loops := loops.map fun other => { other with syncSource := other.syncSource.filter (· ≠ key) }
      channelLoops := l.channels.foldl (fun arena c => arena.erase c.key) e.channelLoops })

/-- Takes a port out, with every reference to it. -/
def removePort (e : Engine) (key : PortKey) : Option EnginePort × Engine :=
  match e.ports.remove key with
  | (none, _) => (none, e)
  | (some p, ports) =>
    let release (c : LoopChannel) : LoopChannel :=
      { c with input := Topology.without key c.input, output := Topology.without key c.output }
    (some p, { e with
      ports := ports.map fun other => { other with sources := other.sources.filter (· ≠ key) }
      loops := e.loops.map fun l => { l with channels := l.channels.map release } })

/-- Takes several ports out in turn. -/
def removePorts (e : Engine) : List PortKey → List EnginePort × Engine
  | [] => ([], e)
  | key :: rest =>
    let (p, e) := e.removePort key
    let (ps, e) := e.removePorts rest
    (p.toList ++ ps, e)

def removeChain (e : Engine) (key : ChainKey) : Option (EngineChain × List EnginePort) × Engine :=
  match e.chains.remove key with
  | (none, _) => (none, e)
  | (some c, chains) =>
    let (ps, e) := { e with chains }.removePorts c.ports
    (some (c, ps), e)

/-! ## Buffers of objects that are gone -/

/-- Gives the buffers of a channel back to the pool. -/
def releaseChannel (e : Engine) (c : LoopChannel) : Engine :=
  match c.body with
  | .audio a => { e with pool := (a.release e.pool).2 }
  | .midi _ => e

/-- Gives the buffers of a port back to the pool. -/
def releasePort (e : Engine) (p : EnginePort) : Engine :=
  match p.port.audio?.bind (·.ring) with
  | some ring => { e with pool := ring.release e.pool }
  | none => e

/-! ## Adoption -/

/-- What the ports have captured. -/
def rings (e : Engine) : CaptureRings :=
  ⟨fun key => (e.audioPort? key).bind (·.ring), fun key => (e.midiPort? key).map (·.capture)⟩

/-- Turns what was captured into the content of a loop. -/
def adopt (e : Engine) (request : AdoptRequest) (key : LoopKey) : Engine × Except Error Unit :=
  match e.loops.get? key with
  | none => (e, .error (.expired "loop"))
  | some l =>
    let (l, pool, result) := l.adopt (Scheduler.syncView e.loops key) request e.rings e.pool
    ({ e with loops := e.loops.set key l, pool }, result)

/-- Does so for several loops. A loop that fails does not keep the others from
being handled; the first error is the one reported. -/
def adoptAll (e : Engine) (request : AdoptRequest) : List LoopKey → Engine × Except Error Unit
  | [] => (e, .ok ())
  | key :: rest =>
    let (e, first) := e.adopt request key
    let (e, later) := e.adoptAll request rest
    (e, first.bind fun _ => later)

end Engine

end Overdub
