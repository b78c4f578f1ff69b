import Overdub.Error
import Overdub.Graph.Node
/-!
# The order of a cycle

A schedule lists the nodes of a graph so that each comes after all it depends on.
The nodes that are processed together form one unit, every other node is a unit
of its own. Units become ready layer by layer; in a layer they are ordered by
name, so that equal topologies have equal schedules.
-/

namespace Overdub

/-- Nodes that are processed together. -/
structure Step where
  nodes : List NodeId
  /-- The nodes are processed as one instead of one by one. -/
  coProcess : Bool
  deriving DecidableEq, Repr

/-- The steps of a cycle. -/
structure Schedule where
  /-- The request that the schedule was computed for. -/
  generation : Nat := 0
  steps : List Step := []
  deriving DecidableEq, Repr

namespace Schedule

/-- No steps, for no request. -/
def empty : Schedule := {}

def contains (s : Schedule) (id : NodeId) : Bool := s.steps.any (·.nodes.contains id)

def position? (s : Schedule) (id : NodeId) : Option Nat := s.steps.findIdx? (·.nodes.contains id)

end Schedule

namespace Graph

/-- Nodes that are ordered as one. -/
structure Group where
  members : List Node
  coProcess : Bool
  deriving DecidableEq

namespace Group

/-- The smallest name of a member. -/
def name (u : Group) : String :=
  (u.members.map (·.name)).foldr (fun a b => if b.isEmpty || a ≤ b then a else b) ""

def contains (u : Group) (id : NodeId) : Bool := u.members.any (·.id = id)

def step (u : Group) : Step := ⟨u.members.map (·.id), u.coProcess⟩

end Group

/-- Two nodes are ordered as one. -/
def together (a b : Node) : Bool := a.id.coProcessed && b.id.coProcessed

/-- The nodes of a list that are ordered as one with a node. -/
def companions (n : Node) (nodes : List Node) : List Node := nodes.filter (together n)

def strangers (n : Node) (nodes : List Node) : List Node := nodes.filter (!together n ·)

/-- Divides nodes into groups. A group stands where its first node does. -/
def groupsOf : List Node → List Group
  | [] => []
  | n :: rest => ⟨n :: companions n rest, n.id.coProcessed⟩ :: groupsOf (strangers n rest)
termination_by nodes => nodes.length
decreasing_by exact Nat.lt_succ_of_le (List.length_filter_le ..)

/-- Some node of `pending` outside of the group comes before one of the group. -/
def waits (edges : List (NodeId × NodeId)) (pending : List Group) (u : Group) : Bool :=
  edges.any fun (a, b) => u.contains b && !u.contains a && pending.any (·.contains a)

/-- The groups that have to wait for another one. -/
def blocked (edges : List (NodeId × NodeId)) (pending : List Group) : List Group := pending.filter (waits edges pending)

/-- The groups that wait for none. -/
def ready (edges : List (NodeId × NodeId)) (pending : List Group) : List Group :=
  pending.filter (!waits edges pending ·)

/-- The groups layer by layer: each layer holds what only earlier layers come
before. The groups that never become ready are left over. -/
def layers (edges : List (NodeId × NodeId)) (pending : List Group) : List (List Group) × List Group :=
  if _ : (blocked edges pending).length < pending.length then
    let (later, stuck) := layers edges (blocked edges pending)
    (ready edges pending :: later, stuck)
  else ([], pending)
termination_by pending.length

/-- The schedule of a graph. There is none exactly when some groups wait for each
other; their names are given. -/
def schedule (g : Graph) (generation : Nat) : Except Error Schedule :=
  let (layers, stuck) := layers g.edges (groupsOf g.nodes)
  if stuck.isEmpty then
    let ordered := layers.flatMap fun layer => layer.mergeSort fun a b => decide (a.name ≤ b.name)
    .ok ⟨generation, ordered.map (·.step)⟩
  else .error (.graphCycle (", ".intercalate (stuck.map (·.name))))

end Graph

def Topology.schedule (t : Topology) (generation : Nat) : Except Error Schedule :=
  (Graph.ofTopology t).schedule generation

end Overdub
