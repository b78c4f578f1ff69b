import Overdub.Arena
import Overdub.Mode
/-!
# What a session consists of

The control side keeps a record of the objects of a session and of the
connections between them. It issues the keys under which the process side stores
the objects themselves, and it is what a processing order is computed from.
-/

namespace Overdub

/-- Who provides the buffers of a port. -/
inductive PortOwner where
  | driver
  | chain (key : ChainKey)
  deriving DecidableEq, Repr

/-- What is known of a port. -/
structure PortInfo where
  name : String
  dataType : DataType
  direction : Direction
  owner : PortOwner
  /-- The ports that pass their data into this one. -/
  sources : List PortKey := []
  deriving DecidableEq, Repr

/-- What is known of a loop. -/
structure LoopInfo where
  channels : List ChannelKey := []
  syncSource : Option LoopKey := none
  deriving DecidableEq, Repr

/-- What is known of a channel. -/
structure ChannelInfo where
  loop : LoopKey
  dataType : DataType
  input : Option PortKey := none
  output : Option PortKey := none
  deriving DecidableEq, Repr

/-- What is known of an effect chain. Its inputs are output ports of the engine,
and its outputs are input ports. -/
structure ChainInfo where
  name : String
  audioInputs : List PortKey := []
  audioOutputs : List PortKey := []
  midiInputs : List PortKey := []
  deriving DecidableEq, Repr

def ChainInfo.inputs (c : ChainInfo) : List PortKey := c.audioInputs ++ c.midiInputs

/-- The objects of a session. -/
structure Topology where
  ports : Arena .port PortInfo := .empty
  loops : Arena .loop LoopInfo := .empty
  channels : Arena .channel ChannelInfo := .empty
  chains : Arena .chain ChainInfo := .empty

namespace Topology

def empty : Topology := {}

def without (port : PortKey) (connection : Option PortKey) : Option PortKey := connection.filter (· ≠ port)

/-- Drops every reference to a port. -/
def forgetPort (t : Topology) (port : PortKey) : Topology :=
  { t with
    channels := t.channels.map fun c => { c with input := without port c.input, output := without port c.output }
    ports := t.ports.map fun p => { p with sources := p.sources.filter (· ≠ port) } }

/-- Takes a port out, with every reference to it. -/
def removePort (t : Topology) (port : PortKey) : Topology := { t with ports := t.ports.erase port }.forgetPort port

def followers (t : Topology) (source : LoopKey) : List LoopKey :=
  t.loops.toList.filterMap fun (key, l) => if l.syncSource = some source then some key else none

/-- Takes a loop out, with its channels; its followers follow nothing. -/
def removeLoop (t : Topology) (key : LoopKey) (info : LoopInfo) : Topology :=
  let loops := t.loops.erase key
  { t with
    channels := info.channels.foldl Arena.erase t.channels
    loops := loops.map fun l => { l with syncSource := l.syncSource.filter (· ≠ key) } }

/-- Takes a channel out of its loop. -/
def removeChannel (t : Topology) (key : ChannelKey) (info : ChannelInfo) : Topology :=
  { t with
    channels := t.channels.erase key
    loops := t.loops.modify info.loop fun l => { l with channels := l.channels.filter (· ≠ key) } }

/-- Takes a chain out, with its ports. -/
def removeChain (t : Topology) (key : ChainKey) (info : ChainInfo) : Topology :=
  (info.inputs ++ info.audioOutputs).foldl removePort { t with chains := t.chains.erase key }

end Topology

end Overdub
