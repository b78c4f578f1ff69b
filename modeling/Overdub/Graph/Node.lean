import Overdub.Graph.Topology
/-!
# The processing graph

Every object of a topology is processed in one or two nodes:

| object       | nodes                     |
|--------------|---------------------------|
| input port   | combined                  |
| output port  | prepare, process          |
| loop         | combined, co-processed    |
| channel      | process                   |
| effect chain | combined                  |

An output port is cleared by its first node before anything is mixed into it, and
finished by its second one after every producer. All loops are processed in one
step, because those coupled by sync advance by the same chunks.
-/

namespace Overdub

/-- A node, named by the object it processes. -/
inductive NodeId where
  | portPrepare (key : PortKey)
  | portProcess (key : PortKey)
  | loop (key : LoopKey)
  | channel (key : ChannelKey)
  | chain (key : ChainKey)
  deriving DecidableEq, Repr

namespace NodeId

/-- The node as it is written. -/
def text : NodeId → String
  | portPrepare key => s!"{key.text}/prepare"
  | portProcess key => s!"{key.text}/process"
  | loop key => key.text
  | channel key => key.text
  | chain key => key.text

/-- The node is processed in one step with others of its kind. -/
def coProcessed : NodeId → Bool
  | loop _ => true
  | _ => false

end NodeId

/-- What a node does for its object. -/
inductive NodeKind where
  | prepare
  | process
  | combined
  deriving DecidableEq, Repr

/-- A node of the graph. -/
structure Node where
  id : NodeId
  kind : NodeKind
  /-- The name its user gave to the object. -/
  label : String := ""
  deriving DecidableEq, Repr

def Node.name (n : Node) : String := if n.label.isEmpty then n.id.text else s!"{n.id.text} ({n.label})"

/-- Nodes, and which of them come before which. -/
structure Graph where
  nodes : List Node := []
  edges : List (NodeId × NodeId) := []
  deriving DecidableEq, Repr

namespace Graph

def contains (g : Graph) (id : NodeId) : Bool := g.nodes.any (·.id = id)

/-- The nodes that come right before a node. -/
def incoming (g : Graph) (id : NodeId) : List NodeId := g.edges.filterMap fun (a, b) => if b = id then some a else none

/-- The nodes that come right after a node. -/
def outgoing (g : Graph) (id : NodeId) : List NodeId := g.edges.filterMap fun (a, b) => if a = id then some b else none

/-- The nodes that are processed in one step with a node. -/
def peers (g : Graph) (id : NodeId) : List NodeId :=
  (g.nodes.map (·.id)).filter fun other => other = id || id.coProcessed && other.coProcessed

def portNodes (key : PortKey) (p : PortInfo) : List Node :=
  match p.direction with
  | .input => [⟨.portProcess key, .combined, p.name⟩]
  | .output => [⟨.portPrepare key, .prepare, p.name⟩, ⟨.portProcess key, .process, p.name⟩]

/-- What the data flow through a channel asks for. -/
def channelEdges (key : ChannelKey) (c : ChannelInfo) : List (NodeId × NodeId) :=
  [(.loop c.loop, .channel key)]
    ++ c.input.toList.map (fun port => (.portProcess port, .channel key))
    ++ c.output.toList.flatMap fun port => [(.portPrepare port, .channel key), (.channel key, .portProcess port)]

/-- What the data flow through a chain asks for. -/
def chainEdges (key : ChainKey) (c : ChainInfo) : List (NodeId × NodeId) :=
  c.inputs.map (fun port => (.portProcess port, .chain key))
    ++ c.audioOutputs.map fun port => (.chain key, .portProcess port)

/-- All that the data flow asks for, between nodes that exist or not. -/
def flow (t : Topology) : List (NodeId × NodeId) :=
  t.ports.keys.map (fun key => (.portPrepare key, .portProcess key))
    ++ t.channels.toList.flatMap (fun (key, c) => channelEdges key c)
    ++ t.ports.toList.flatMap (fun (key, p) => p.sources.map fun source => (.portProcess source, .portProcess key))
    ++ t.chains.toList.flatMap fun (key, c) => chainEdges key c

/-- The graph of a topology. A reference to an object that is gone asks for
nothing. -/
def ofTopology (t : Topology) : Graph :=
  let nodes := t.ports.toList.flatMap (fun (key, p) => portNodes key p)
    ++ t.loops.keys.map (fun key => ⟨.loop key, .combined, ""⟩)
    ++ t.chains.toList.map (fun (key, c) => ⟨.chain key, .combined, c.name⟩)
    ++ t.channels.keys.map fun key => ⟨.channel key, .process, ""⟩
  let known (id : NodeId) : Bool := nodes.any (·.id = id)
  ⟨nodes, ((flow t).filter fun (a, b) => known a && known b).eraseDups⟩

end Graph

end Overdub
