import Overdub.Proofs.Fitting
import Overdub.Proofs.Footprint
import Overdub.Proofs.Numbering
import Overdub.Proofs.Order
/-!
# Walking through a cycle

An engine that is what a topology says (`Engine.Realizes`) runs a cycle along an
order of the topology. Each step holds the loops or one other node, what data
flows from is done before what it flows to (`Scheduled.flow_done`), and nothing
writes to a port after it was processed (`Scheduled.settled`). So a node that
takes the data of a port finds what the port carries in the end
(`Scheduled.final_when_read`).
-/

namespace Overdub

/-! ## Along a schedule -/

namespace Schedule

variable {s : Schedule} {g : Graph} {A B : List Step} {step : Step} {a b : NodeId}

/-- The nodes of some steps. -/
def nodesOf (steps : List Step) : List NodeId := steps.flatMap (·.nodes)

theorem mem_nodesOf {steps : List Step} {id : NodeId} : id ∈ nodesOf steps ↔ ∃ step ∈ steps, id ∈ step.nodes :=
  List.mem_flatMap

@[simp] theorem nodesOf_nil : nodesOf [] = [] := rfl

@[simp] theorem nodesOf_cons (step : Step) (steps : List Step) : nodesOf (step :: steps) = step.nodes ++ nodesOf steps := rfl

@[simp] theorem nodesOf_append (A B : List Step) : nodesOf (A ++ B) = nodesOf A ++ nodesOf B := List.flatMap_append

theorem nodesOf_concat (steps : List Step) (step : Step) : nodesOf (steps ++ [step]) = nodesOf steps ++ step.nodes := by
  simp

theorem nodes_split (hsplit : s.steps = A ++ step :: B) : s.nodes = nodesOf A ++ (step.nodes ++ nodesOf B) :=
  (congrArg nodesOf hsplit).trans (nodesOf_append A _)

namespace Orders

theorem mem_nodes (h : s.Orders g) : a ∈ s.nodes ↔ g.contains a = true := by
  rw [nodes, h.complete.mem_iff]
  simp [Graph.contains]

/-- What an edge leads from is done in a step before. -/
theorem done_before (h : s.Orders g) (hedge : (a, b) ∈ g.edges) (hne : a.unit ≠ b.unit)
    (hsplit : s.steps = A ++ step :: B) (hb : b ∈ step.nodes) : a ∈ nodesOf A := by
  obtain ⟨i, j, hi, hj, hij⟩ := h.earlier a b hedge hne
  obtain ⟨hilt, hia, -⟩ := List.findIdx?_eq_some_iff_getElem.1 hi
  obtain ⟨hjlt, -, hfirst⟩ := List.findIdx?_eq_some_iff_getElem.1 hj
  have hjA : j ≤ A.length := by
    by_contra hlt
    have hthere := hfirst A.length (by omega)
    simp [hsplit, hb] at hthere
  have hiA : i < A.length := by omega
  have hget : s.steps[i] = A[i] := by simp [hsplit, hiA]
  rw [hget] at hia
  exact mem_nodesOf.2 ⟨A[i], List.getElem_mem hiA, by simpa using hia⟩

/-- No node is done twice. -/
theorem disjoint (h : s.Orders g) (hsplit : s.steps = A ++ B) (ha : a ∈ nodesOf A) : a ∉ nodesOf B := by
  have honce : (nodesOf A ++ nodesOf B).Nodup := by
    rw [← nodesOf_append, ← hsplit]
    exact h.once
  exact fun hB => (List.nodup_append.1 honce).2.2 a ha a hB rfl

theorem not_before (h : s.Orders g) (hsplit : s.steps = A ++ step :: B) (ha : a ∈ step.nodes) : a ∉ nodesOf A :=
  fun hA => h.disjoint hsplit hA (mem_nodesOf.2 ⟨step, List.mem_cons_self, ha⟩)

theorem not_after (h : s.Orders g) (hsplit : s.steps = A ++ step :: B) (ha : a ∈ step.nodes) : a ∉ nodesOf B :=
  h.disjoint (hsplit.trans (List.append_cons A step B)) (mem_nodesOf.2 ⟨step, by simp, ha⟩)

/-- A step holds all loops, or one other node. -/
theorem step_cases (h : s.Orders g) (hstep : step ∈ s.steps) (hne : step.nodes ≠ []) :
    (∃ b, b.coProcessed = false ∧ step = ⟨[b], false⟩) ∨ step.coProcess = true ∧ ∀ b ∈ step.nodes, b.coProcessed = true := by
  obtain ⟨b, hb⟩ := List.exists_mem_of_ne_nil _ hne
  cases hco : step.coProcess with
  | true => exact .inr ⟨rfl, fun b hb => (h.coProcess step hstep b hb).symm.trans hco⟩
  | false =>
    have hsingle : b.coProcessed = false := (h.coProcess step hstep b hb).symm.trans hco
    have hall : ∀ b' ∈ step.nodes, b' = b := by
      intro b' hb'
      have hunit := ((h.whole step hstep b hb b').1 hb').2
      rcases Graph.unit_eq_iff.1 hunit with heq | ⟨hloop, -⟩
      · exact heq.symm
      · rw [hsingle] at hloop
        cases hloop
    have hnodup : step.nodes.Nodup := (List.nodup_flatMap.1 h.once).1 step hstep
    refine .inl ⟨b, hsingle, ?_⟩
    have hnodes : step.nodes = [b] := by
      refine List.perm_singleton.1 ((List.perm_ext_iff_of_nodup hnodup (List.nodup_singleton b)).2 fun b' => ?_)
      rw [List.mem_singleton]
      exact ⟨hall b', fun heq => heq ▸ hb⟩
    cases step
    simp_all

end Orders

end Schedule

/-! ## Engines that realize a topology -/

/-- The engine is what a topology says: the connections fit, and it is wired that
way, its ports have the directions and owners that are known of them, and the
driver knows each of its ports by a number of its own. -/
structure Engine.Realizes (e : Engine) (t : Topology) : Prop where
  linked : t.Linked
  rooted : t.Rooted
  fitting : t.Fitting
  single : t.wiring.Single
  alike : t.wiring = e.wiring
  traits : t.traits = e.traits
  apart : ∀ key key' id, e.number? key = some id → e.number? key' = some id → key = key'

/-- After calls that all succeeded the engine of a session is what its topology says. -/
theorem Session.realizes_after (config : EngineConfig) {actions : List Session.Action}
    (hspares : ∀ a ∈ actions, a.SparesPorts) (hok : (Session.new config).succeeds actions = true) :
    ((Session.new config).after actions).engine.Realizes ((Session.new config).after actions).topology := by
  have hagrees := (agrees_new config).after hok
  have hports := (portsAgree_new config).after (agrees_new config) hspares hok
  obtain ⟨hfitting, hsingle⟩ := fitting_after config actions
  exact ⟨hagrees.linked, hagrees.rooted, hfitting, hsingle, hagrees.alike, hports.traits, hports.numbers.apart⟩

namespace Engine.Realizes

variable {e : Engine} {t : Topology} {key key' : PortKey} {info : PortInfo} {p p' : EnginePort}

theorem port (h : e.Realizes t) (hinfo : t.ports.get? key = some info) (hp : e.ports.get? key = some p) :
    p.port.direction = info.direction ∧ p.origin.owner = info.owner := by
  have htraits := congrFun h.traits key
  rw [Topology.traits, Engine.traits, Engine.fronts, hinfo, hp] at htraits
  obtain ⟨hdir, howner⟩ := Prod.mk.inj (Option.some.inj htraits)
  exact ⟨hdir.symm, howner.symm⟩

theorem direction (h : e.Realizes t) (hinfo : t.ports.get? key = some info) (hp : e.ports.get? key = some p) :
    p.port.direction = info.direction := (h.port hinfo hp).1

theorem owner (h : e.Realizes t) (hinfo : t.ports.get? key = some info) (hp : e.ports.get? key = some p)
    (chain : ChainKey) : p.origin = .chain chain ↔ info.owner = .chain chain := by
  rw [← (h.port hinfo hp).2]
  cases p.origin <;> simp [PortOrigin.owner]

theorem number (h : e.Realizes t) {id : Nat} (hp : e.ports.get? key = some p) (hp' : e.ports.get? key' = some p')
    (horigin : p.origin = .driver id) (horigin' : p'.origin = .driver id) : key = key' := by
  refine h.apart key key' id ?_ ?_
  · rw [number?, fronts, hp, Option.map_some, Option.bind_some, horigin, PortOrigin.number?]
  · rw [number?, fronts, hp', Option.map_some, Option.bind_some, horigin', PortOrigin.number?]

end Engine.Realizes

/-- The engine realizes a topology that the schedule is an order of. -/
structure Engine.Scheduled (e : Engine) (t : Topology) (s : Schedule) : Prop where
  realizes : e.Realizes t
  orders : s.Orders (Graph.ofTopology t)
  busy : ∀ step ∈ s.steps, step.nodes ≠ []

namespace Engine.Scheduled

open Schedule (nodesOf)

variable {t : Topology} {s : Schedule} {e : Engine} {A B : List Step} {step : Step} {a b : NodeId}

theorem mem_nodes (h : e.Scheduled t s) : a ∈ s.nodes ↔ t.Has a := by
  rw [h.orders.mem_nodes, Graph.contains_ofTopology]

theorem has_of_mem (h : e.Scheduled t s) (hsplit : s.steps = A ++ B) (ha : a ∈ nodesOf A ∨ a ∈ nodesOf B) :
    t.Has a := by
  have hnodes : s.nodes = nodesOf A ++ nodesOf B := (congrArg nodesOf hsplit).trans (Schedule.nodesOf_append A B)
  rw [← h.mem_nodes, hnodes, List.mem_append]
  exact ha

/-- A port of the engine is one of the topology. -/
theorem known (h : e.Scheduled t s) {key : PortKey} {p : EnginePort} (hp : e.ports.get? key = some p) :
    ∃ info, t.ports.get? key = some info ∧ info.sources = p.sources ∧ info.direction = p.port.direction := by
  have hsources := congrFun (congrArg Wiring.sources h.realizes.alike) key
  simp only [Topology.wiring, Engine.wiring, hp, Option.map_some] at hsources
  obtain ⟨info, hinfo, hsame⟩ := Option.map_eq_some_iff.1 hsources
  exact ⟨info, hinfo, hsame, (h.realizes.direction hinfo hp).symm⟩

theorem contains_iff (h : e.Scheduled t s) (key : PortKey) : e.ports.contains key = true ↔ t.ports.contains key = true := by
  have hsources := congrArg Option.isSome (congrFun (congrArg Wiring.sources h.realizes.alike) key)
  simp only [Topology.wiring, Engine.wiring, Option.isSome_map] at hsources
  rw [Arena.contains, Arena.contains, hsources]

theorem live (h : e.Scheduled t s) {key : PortKey} (hkey : t.ports.contains key = true) : e.live s key = true := by
  rw [Engine.live, Bool.and_eq_true, h.contains_iff]
  refine ⟨hkey, ?_⟩
  have hmem : .portProcess key ∈ s.nodes := h.mem_nodes.2 hkey
  obtain ⟨step, hstep, hnode⟩ := List.mem_flatMap.1 hmem
  exact List.any_eq_true.2 ⟨step, hstep, List.contains_iff_mem.2 hnode⟩

/-- A channel of the engine is one of the topology. -/
theorem channelKnown (h : e.Scheduled t s) {key : ChannelKey} {ends : Option PortKey × Option PortKey}
    (hends : e.wiring.ends key = some ends) :
    ∃ info, t.channels.get? key = some info ∧ (info.input, info.output) = ends := by
  rw [← h.realizes.alike] at hends
  exact Option.map_eq_some_iff.1 hends

theorem served (h : e.Scheduled t s) : e.Served s := by
  intro key c port hc hport
  have hwired : e.wiring.ends key = some (c.input, c.output) := congrArg (Option.map _) hc
  obtain ⟨info, hinfo, hends⟩ := h.channelKnown hwired
  obtain ⟨hin, hout⟩ := Prod.mk.inj hends
  refine h.live ?_
  rcases hport with hport | hport
  · exact h.realizes.linked.input key info port hinfo (hin.trans hport)
  · exact h.realizes.linked.output key info port hinfo (hout.trans hport)

/-- A chain of the engine is one of the topology. -/
theorem chainKnown (h : e.Scheduled t s) {key : ChainKey} {sides : Sides} (hsides : e.wiring.chains key = some sides) :
    ∃ info, t.chains.get? key = some info ∧ ⟨info.audioInputs, info.audioOutputs, info.midiInputs⟩ = sides := by
  rw [← h.realizes.alike] at hsides
  exact Option.map_eq_some_iff.1 hsides

theorem chainInfo (h : e.Scheduled t s) {key : ChainKey} {c : EngineChain} (hc : e.chains.get? key = some c) :
    ∃ info, t.chains.get? key = some info ∧ info.audioInputs = c.audioInputs ∧ info.audioOutputs = c.audioOutputs ∧
      info.midiInputs = c.midiInputs := by
  have hsides : e.wiring.chains key = some ⟨c.audioInputs, c.audioOutputs, c.midiInputs⟩ := congrArg (Option.map _) hc
  obtain ⟨info, hinfo, hsame⟩ := h.chainKnown hsides
  exact ⟨info, hinfo, Sides.mk.inj hsame⟩

/-- Where data flows from is done before. -/
theorem flow_done (h : e.Scheduled t s) (hflow : t.Flow a b) (hne : a ≠ b) (ha : t.Has a)
    (hsplit : s.steps = A ++ step :: B) (hb : b ∈ step.nodes) : a ∈ nodesOf A := by
  have hhas : t.Has b := h.has_of_mem hsplit (.inr (Schedule.mem_nodesOf.2 ⟨step, List.mem_cons_self, hb⟩))
  refine h.orders.done_before ((Graph.mem_edges t a b).2 ⟨hflow, ha, hhas⟩) (fun hunit => ?_) hsplit hb
  rcases Graph.unit_eq_iff.1 hunit with heq | ⟨-, hloop⟩
  · exact hne heq
  · rw [hflow.target_single] at hloop
    cases hloop

/-- Whatever else writes to a port comes before the port is processed. -/
theorem flow_of_writes (h : e.Scheduled t s) {port : PortKey} {id : NodeId} (hwrites : Writes e.wiring port id)
    (hid : t.Has id) : id = .portProcess port ∨ id ≠ .portProcess port ∧ t.Flow id (.portProcess port) := by
  cases hwrites with
  | prepare =>
    obtain ⟨p, hp, -⟩ := hid
    exact .inr ⟨nofun, .port hp⟩
  | process => exact .inl rfl
  | play hends hout =>
    obtain ⟨info, hinfo, rfl⟩ := h.channelKnown hends
    exact .inr ⟨nofun, .play hinfo hout⟩
  | result hsides hmem =>
    obtain ⟨info, hinfo, rfl⟩ := h.chainKnown hsides
    exact .inr ⟨nofun, .result hinfo hmem⟩

end Engine.Scheduled

/-! ## Walking through a cycle -/

namespace Engine

open Schedule (nodesOf)

variable {s : Schedule} {state : Engine × DriverCycle}

/-- What neither a node of some steps changes nor the loops of those steps, these
steps keep. -/
theorem keeps_steps {β : Type} {φ : Engine × DriverCycle → β} {steps : List Step} (hserved : state.1.Served s)
    (hloops : ∀ step ∈ steps, step.coProcess = true → ∀ (state' : Engine × DriverCycle) keys frames,
      φ (state'.1.processLoops s keys frames, state'.2) = φ state')
    (hnode : ∀ state', Constant state state' → ∀ id ∈ nodesOf steps, φ (processNode s state' id) = φ state') :
    Constant state (steps.foldl (processStep s) state) ∧ φ (steps.foldl (processStep s) state) = φ state := by
  refine List.foldlRecOn (motive := fun state' => Constant state state' ∧ φ state' = φ state) steps _
    ⟨.refl _, rfl⟩ fun state' h step hstep => ?_
  obtain ⟨hconst, hsame⟩ := h
  unfold processStep
  split_ifs with hco
  · have hwiring := state'.1.wiring_processLoops s (step.nodes.filterMap loopOf?) state'.2.frames
    exact ⟨hconst.trans ⟨hwiring, rfl, rfl, rfl, rfl, rfl, rfl⟩, (hloops step hstep hco state' _ _).trans hsame⟩
  · refine List.foldlRecOn (motive := fun state' => Constant state state' ∧ φ state' = φ state) step.nodes _
      ⟨hconst, hsame⟩ fun state' h id hid => ?_
    obtain ⟨hconst, hsame⟩ := h
    exact ⟨hconst.trans (constant_processNode (hserved.of_constant hconst) id),
      (hnode state' hconst id (Schedule.mem_nodesOf.2 ⟨step, hstep, hid⟩)).trans hsame⟩

theorem constant_steps (state : Engine × DriverCycle) (hserved : state.1.Served s) (steps : List Step) :
    Constant state (steps.foldl (processStep s) state) :=
  (keeps_steps (φ := fun _ => ()) hserved (fun _ _ _ _ _ _ => rfl) fun _ _ _ _ => rfl).1

/-- Steps without a node that writes to a port leave it alone. -/
theorem port?_steps (hserved : state.1.Served s) {steps : List Step} {port : PortKey}
    (h : ∀ id ∈ nodesOf steps, ¬Writes state.1.wiring port id) :
    (steps.foldl (processStep s) state).1.port? port = state.1.port? port := by
  refine (keeps_steps (φ := fun state => state.1.port? port) hserved (fun _ _ _ _ _ _ => rfl)
    fun state' hconst id hid => port?_processNode (hserved.of_constant hconst) ?_).2
  rw [hconst.wiring]
  exact h id hid

/-- Steps without the port of a number leave what the driver has under it alone. -/
theorem driver_steps (hserved : state.1.Served s) {steps : List Step} {number : Nat}
    (h : ∀ key sources, .portProcess key ∈ nodesOf steps → state.1.mount key ≠ some (.driver number, sources)) :
    (steps.foldl (processStep s) state).2.port? number = state.2.port? number := by
  refine (keeps_steps (φ := fun state => state.2.port? number) hserved (fun _ _ _ _ _ _ => rfl)
    fun state' hconst id hid => driver_processNode state' ?_).2
  rintro key sources rfl
  rw [hconst.mount]
  exact h key sources hid

theorem processNode_portPrepare (s : Schedule) (state : Engine × DriverCycle) (key : PortKey) :
    processNode s state (.portPrepare key) = (state.1.modifyPort key (·.prepare state.2.frames), state.2) := rfl

theorem processNode_portProcess (s : Schedule) (state : Engine × DriverCycle) (key : PortKey) :
    processNode s state (.portProcess key) = state.1.processPort s state.2 key := rfl

theorem processNode_channel (s : Schedule) (state : Engine × DriverCycle) (key : ChannelKey) :
    processNode s state (.channel key) = (state.1.finishChannel s key, state.2) := rfl

theorem processNode_chain (s : Schedule) (state : Engine × DriverCycle) (key : ChainKey) :
    processNode s state (.chain key) = (state.1.processChain key state.2.frames, state.2) := rfl

/-- The state of a cycle after some of its steps. -/
def walk (s : Schedule) (e : Engine) (io : DriverCycle) (steps : List Step) : Engine × DriverCycle :=
  steps.foldl (processStep s) (e, io)

theorem walk_append (s : Schedule) (e : Engine) (io : DriverCycle) (A B : List Step) :
    walk s e io (A ++ B) = B.foldl (processStep s) (walk s e io A) := List.foldl_append

/-- A step of one node. -/
theorem walk_single (s : Schedule) (e : Engine) (io : DriverCycle) (A : List Step) (id : NodeId) :
    walk s e io (A ++ [⟨[id], false⟩]) = processNode s (walk s e io A) id := walk_append ..

/-- A step of loops. -/
theorem walk_together (s : Schedule) (e : Engine) (io : DriverCycle) (A : List Step) {step : Step}
    (hco : step.coProcess = true) : (walk s e io (A ++ [step])).1 =
      (walk s e io A).1.processLoops s (step.nodes.filterMap loopOf?) (walk s e io A).2.frames := by
  rw [walk_append, List.foldl_cons, List.foldl_nil, processStep, if_pos hco]

namespace Scheduled

variable {t : Topology} {e : Engine} {io : DriverCycle} {A B : List Step} {step : Step} {port : PortKey}

theorem constant_walk (h : e.Scheduled t s) (io : DriverCycle) (steps : List Step) : Constant (e, io) (walk s e io steps) :=
  constant_steps (e, io) h.served steps

theorem served_walk (h : e.Scheduled t s) (io : DriverCycle) (steps : List Step) : (walk s e io steps).1.Served s := by
  refine Served.of_constant ?_ (h.constant_walk io steps)
  exact h.served

/-- Steps without a node that writes to a port leave it alone. -/
theorem port?_walk (h : e.Scheduled t s) (io : DriverCycle) (A : List Step)
    (hspared : ∀ id ∈ nodesOf B, ¬Writes e.wiring port id) :
    (walk s e io (A ++ B)).1.port? port = (walk s e io A).1.port? port := by
  rw [walk_append]
  refine port?_steps (h.served_walk io A) fun id hid => ?_
  rw [(h.constant_walk io A).wiring]
  exact hspared id hid

/-- Steps without the port of a number leave what the driver has under it alone. -/
theorem driver_walk (h : e.Scheduled t s) (io : DriverCycle) (A : List Step) {number : Nat}
    (hspared : ∀ key sources, .portProcess key ∈ nodesOf B → e.mount key ≠ some (.driver number, sources)) :
    (walk s e io (A ++ B)).2.port? number = (walk s e io A).2.port? number := by
  rw [walk_append]
  refine driver_steps (h.served_walk io A) fun key sources hmem => ?_
  rw [(h.constant_walk io A).mount]
  exact hspared key sources hmem

/-- A node that is no loop is a step of its own. -/
theorem exists_single (h : e.Scheduled t s) {steps : List Step} (hsub : steps ⊆ s.steps) {id : NodeId}
    (hid : id ∈ nodesOf steps) (hsingle : id.coProcessed = false) : ∃ A B, steps = A ++ ⟨[id], false⟩ :: B := by
  obtain ⟨step, hmem, hnode⟩ := Schedule.mem_nodesOf.1 hid
  obtain ⟨A, B, rfl⟩ := List.append_of_mem hmem
  rcases h.orders.step_cases (hsub hmem) (h.busy step (hsub hmem)) with ⟨b, -, rfl⟩ | ⟨-, hloops⟩
  · obtain rfl := List.mem_singleton.1 hnode
    exact ⟨A, B, rfl⟩
  · rw [hloops id hnode] at hsingle
    cases hsingle

/-- A node that is no loop, in the schedule. -/
theorem exists_step (h : e.Scheduled t s) {id : NodeId} (hid : t.Has id) (hsingle : id.coProcessed = false) :
    ∃ A B, s.steps = A ++ ⟨[id], false⟩ :: B :=
  h.exists_single (List.Subset.refl _) (h.mem_nodes.2 hid) hsingle

/-- Whatever data flows from is done when what it flows to is. -/
theorem done_of_flow (h : e.Scheduled t s) {a b : NodeId} (hflow : t.Flow a b) (hne : a ≠ b) (ha : t.Has a)
    (hsplit : s.steps = A ++ B) (hb : b ∈ nodesOf A) : a ∈ nodesOf A := by
  obtain ⟨step, hstep, hmem⟩ := Schedule.mem_nodesOf.1 hb
  obtain ⟨A₁, A₂, rfl⟩ := List.append_of_mem hstep
  have hbefore := h.flow_done hflow hne ha (hsplit.trans (List.append_assoc ..)) hmem
  rw [Schedule.nodesOf_append]
  exact List.mem_append_left _ hbefore

/-- Nothing writes to a port after it was processed. -/
theorem not_writes_after (h : e.Scheduled t s) (hsplit : s.steps = A ++ B) (hdone : .portProcess port ∈ nodesOf A)
    {id : NodeId} (hid : id ∈ nodesOf B) : ¬Writes e.wiring port id := by
  intro hwrites
  have hhas := h.has_of_mem hsplit (.inr hid)
  rcases h.flow_of_writes hwrites hhas with rfl | ⟨hne, hflow⟩
  · exact h.orders.disjoint hsplit hdone hid
  · exact h.orders.disjoint hsplit (h.done_of_flow hflow hne hhas hsplit hdone) hid

/-- A port that was processed carries what it carries in the end. -/
theorem settled (h : e.Scheduled t s) (io : DriverCycle) (hsplit : s.steps = A ++ B) (hdone : .portProcess port ∈ nodesOf A) :
    (walk s e io s.steps).1.port? port = (walk s e io A).1.port? port := by
  rw [hsplit]
  exact h.port?_walk io A fun id hid => h.not_writes_after hsplit hdone hid

/-- A node that takes the data of a port finds them as they are in the end. -/
theorem final_when_read (h : e.Scheduled t s) (io : DriverCycle) (hport : t.ports.contains port = true) {id : NodeId}
    (hflow : t.Flow (.portProcess port) id) (hne : id ≠ .portProcess port) (hsplit : s.steps = A ++ step :: B)
    (hid : id ∈ step.nodes) : (walk s e io A).1.port? port = (walk s e io s.steps).1.port? port :=
  (h.settled io hsplit (h.flow_done hflow hne.symm hport hsplit hid)).symm

/-- Processing a port makes it final. -/
theorem final_of_process (h : e.Scheduled t s) (io : DriverCycle) (hsplit : s.steps = A ++ ⟨[.portProcess port], false⟩ :: B) :
    (walk s e io s.steps).1.port? port = (processNode s (walk s e io A) (.portProcess port)).1.port? port := by
  rw [← walk_single]
  exact h.settled io (hsplit.trans (List.append_cons A _ B)) (Schedule.mem_nodesOf.2 ⟨⟨[.portProcess port], false⟩, by simp⟩)

/-- A port with its connections, at any time of a cycle. -/
theorem get?_walk (h : e.Scheduled t s) (io : DriverCycle) {steps : List Step} {p : EnginePort} (hp : e.ports.get? port = some p)
    {q : Port} (hq : (walk s e io steps).1.port? port = some q) :
    (walk s e io steps).1.ports.get? port = some { p with port := q } := by
  refine get?_of_port? ?_ hq
  rw [(h.constant_walk io steps).mount]
  exact congrArg (Option.map _) hp

end Scheduled

end Engine

end Overdub
