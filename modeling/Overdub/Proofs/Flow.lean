import Overdub.Proofs.Arena
import Overdub.Proofs.Ranking
/-!
# Which topologies have a processing order

A topology has a schedule exactly when its nodes can be ranked along the data
flow (`Topology.schedulable_iff`); loops need no rank, because nothing flows into
them. What only drops objects and connections keeps a ranking
(`Topology.Shrinks.ranked`). So does what adds objects that no older one is
connected to (`Topology.Extends.ranked`), and there a rank is needed for the new
nodes alone, as no reference of an older object leads to a new one
(`Topology.Linked`).
-/

namespace Overdub

/-! ## The graph of a topology -/

namespace Topology

/-- The node is of an object of the topology. -/
def Has (t : Topology) : NodeId → Prop
  | .portPrepare key => ∃ p, t.ports.get? key = some p ∧ p.direction = .output
  | .portProcess key => t.ports.contains key = true
  | .loop key => t.loops.contains key = true
  | .channel key => t.channels.contains key = true
  | .chain key => t.chains.contains key = true

/-- The data flow from node to node, between objects that exist or not. -/
inductive Flow (t : Topology) : NodeId → NodeId → Prop
  | port {key p} : t.ports.get? key = some p → Flow t (.portPrepare key) (.portProcess key)
  | loop {key c} : t.channels.get? key = some c → Flow t (.loop c.loop) (.channel key)
  | record {key c port} : t.channels.get? key = some c → c.input = some port → Flow t (.portProcess port) (.channel key)
  | mix {key c port} : t.channels.get? key = some c → c.output = some port → Flow t (.portPrepare port) (.channel key)
  | play {key c port} : t.channels.get? key = some c → c.output = some port → Flow t (.channel key) (.portProcess port)
  | source {key p other} : t.ports.get? key = some p → other ∈ p.sources → Flow t (.portProcess other) (.portProcess key)
  | effect {key c port} : t.chains.get? key = some c → port ∈ c.inputs → Flow t (.portProcess port) (.chain key)
  | result {key c port} : t.chains.get? key = some c → port ∈ c.audioOutputs → Flow t (.chain key) (.portProcess port)

/-- The topology has a schedule, whatever request it is for. -/
def Schedulable (t : Topology) : Prop := ∀ generation, ∃ s, t.schedule generation = .ok s

end Topology

namespace Graph

theorem contains_portNodes (key : PortKey) (p : PortInfo) (id : NodeId) :
    (∃ n ∈ portNodes key p, n.id = id) ↔ id = .portProcess key ∨ p.direction = .output ∧ id = .portPrepare key := by
  unfold portNodes
  cases p.direction <;> simp [eq_comm, or_comm]

theorem contains_ofTopology (t : Topology) (id : NodeId) : (ofTopology t).contains id = true ↔ t.Has id := by
  have hnodes : (ofTopology t).contains id = true ↔
      (∃ key p, t.ports.get? key = some p ∧ ∃ n ∈ portNodes key p, n.id = id) ∨
      (∃ key, t.loops.contains key = true ∧ .loop key = id) ∨
      (∃ key c, t.chains.get? key = some c ∧ .chain key = id) ∨
      (∃ key, t.channels.contains key = true ∧ .channel key = id) := by
    simp only [contains, ofTopology, List.any_append, Bool.or_eq_true, List.any_flatMap, List.any_map, List.any_eq_true,
      Function.comp_apply, decide_eq_true_eq, Prod.exists, Arena.mem_toList, Arena.mem_keys, or_assoc]
  rw [hnodes]
  simp only [contains_portNodes]
  cases id <;> simp [Topology.Has, Arena.contains, Option.isSome_iff_exists]

theorem mem_channelEdges {key : ChannelKey} {c : ChannelInfo} {a b : NodeId} :
    (a, b) ∈ channelEdges key c ↔ (a = .loop c.loop ∧ b = .channel key) ∨
      (∃ port, c.input = some port ∧ a = .portProcess port ∧ b = .channel key) ∨
      ∃ port, c.output = some port ∧
        (a = .portPrepare port ∧ b = .channel key ∨ a = .channel key ∧ b = .portProcess port) := by
  simp [channelEdges, eq_comm]

theorem mem_chainEdges {key : ChainKey} {c : ChainInfo} {a b : NodeId} :
    (a, b) ∈ chainEdges key c ↔ (∃ port ∈ c.inputs, a = .portProcess port ∧ b = .chain key) ∨
      ∃ port ∈ c.audioOutputs, a = .chain key ∧ b = .portProcess port := by
  simp [chainEdges, eq_comm]

theorem mem_flow (t : Topology) (a b : NodeId) : (a, b) ∈ flow t ↔ t.Flow a b := by
  have hflow : (a, b) ∈ flow t ↔
      (∃ key p, t.ports.get? key = some p ∧ a = .portPrepare key ∧ b = .portProcess key) ∨
      (∃ key c, t.channels.get? key = some c ∧ (a, b) ∈ channelEdges key c) ∨
      (∃ key p, t.ports.get? key = some p ∧ ∃ other ∈ p.sources, a = .portProcess other ∧ b = .portProcess key) ∨
      ∃ key c, t.chains.get? key = some c ∧ (a, b) ∈ chainEdges key c := by
    simp only [flow, List.mem_append, List.mem_map, List.mem_flatMap, Prod.exists, Arena.mem_toList, Arena.mem_keys,
      Arena.contains, Option.isSome_iff_exists, Prod.mk.injEq, or_assoc, @eq_comm NodeId, exists_and_right]
  rw [hflow]
  constructor
  · rintro (⟨key, p, hp, rfl, rfl⟩ | ⟨key, c, hc, hedge⟩ | ⟨key, p, hp, other, ho, rfl, rfl⟩ | ⟨key, c, hc, hedge⟩)
    · exact .port hp
    · rcases mem_channelEdges.1 hedge with
        ⟨rfl, rfl⟩ | ⟨port, hport, rfl, rfl⟩ | ⟨port, hport, ⟨rfl, rfl⟩ | ⟨rfl, rfl⟩⟩
      · exact .loop hc
      · exact .record hc hport
      · exact .mix hc hport
      · exact .play hc hport
    · exact .source hp ho
    · rcases mem_chainEdges.1 hedge with ⟨port, hport, rfl, rfl⟩ | ⟨port, hport, rfl, rfl⟩
      · exact .effect hc hport
      · exact .result hc hport
  · intro h
    cases h with
    | port hp => exact .inl ⟨_, _, hp, rfl, rfl⟩
    | loop hc => exact .inr (.inl ⟨_, _, hc, mem_channelEdges.2 (.inl ⟨rfl, rfl⟩)⟩)
    | record hc h => exact .inr (.inl ⟨_, _, hc, mem_channelEdges.2 (.inr (.inl ⟨_, h, rfl, rfl⟩))⟩)
    | mix hc h => exact .inr (.inl ⟨_, _, hc, mem_channelEdges.2 (.inr (.inr ⟨_, h, .inl ⟨rfl, rfl⟩⟩))⟩)
    | play hc h => exact .inr (.inl ⟨_, _, hc, mem_channelEdges.2 (.inr (.inr ⟨_, h, .inr ⟨rfl, rfl⟩⟩))⟩)
    | source hp ho => exact .inr (.inr (.inl ⟨_, _, hp, _, ho, rfl, rfl⟩))
    | effect hc h => exact .inr (.inr (.inr ⟨_, _, hc, mem_chainEdges.2 (.inl ⟨_, h, rfl, rfl⟩)⟩))
    | result hc h => exact .inr (.inr (.inr ⟨_, _, hc, mem_chainEdges.2 (.inr ⟨_, h, rfl, rfl⟩)⟩))

/-- The edges are the data flow between objects that exist. -/
theorem mem_edges (t : Topology) (a b : NodeId) : (a, b) ∈ (ofTopology t).edges ↔ t.Flow a b ∧ t.Has a ∧ t.Has b := by
  rw [← mem_flow, ← contains_ofTopology, ← contains_ofTopology]
  simp only [ofTopology, List.mem_eraseDups, List.mem_filter, Bool.and_eq_true]
  rfl

end Graph

namespace Topology

/-- The rank of the nodes rises along the data flow. Loops have none: nothing flows into them. -/
def Ranked (t : Topology) (rank : NodeId → Nat) : Prop :=
  ∀ a b, t.Flow a b → t.Has a → t.Has b → a ≠ b → a.coProcessed = false → rank a < rank b

theorem Flow.target_single {t : Topology} {a b : NodeId} (h : t.Flow a b) : b.coProcessed = false := by
  cases h <;> rfl

theorem ordered_iff (t : Topology) : (Graph.ofTopology t).Ordered ↔ ∃ rank, t.Ranked rank := by
  constructor
  · rintro ⟨rank, hrank⟩
    refine ⟨rank, fun a b hflow ha hb hne hsingle => ?_⟩
    refine hrank.edge a b ((Graph.mem_edges t a b).2 ⟨hflow, ha, hb⟩) ((Graph.contains_ofTopology t a).2 ha)
      ((Graph.contains_ofTopology t b).2 hb) ?_
    rintro (heq | ⟨hloop, -⟩)
    · exact hne heq
    · rw [hsingle] at hloop
      cases hloop
  · rintro ⟨rank, hrank⟩
    refine ⟨fun id => if id.coProcessed then 0 else rank id + 1, ⟨fun a b _ _ hab => ?_, fun a b hedge _ _ hab => ?_⟩⟩
    · rcases hab with rfl | ⟨ha, hb⟩
      · rfl
      · simp only [ha, hb, if_true]
    · obtain ⟨hflow, ha, hb⟩ := (Graph.mem_edges t a b).1 hedge
      simp only [hflow.target_single, Bool.false_eq_true, if_false]
      cases hsingle : a.coProcessed with
      | true => exact Nat.succ_pos _
      | false => exact Nat.succ_lt_succ (hrank a b hflow ha hb (fun heq => hab (.inl heq)) hsingle)

theorem schedulable_iff (t : Topology) : t.Schedulable ↔ ∃ rank, t.Ranked rank :=
  ⟨fun h => (ordered_iff t).1 ((Graph.schedule_ok_iff _ 0).1 (h 0)),
    fun h generation => (Graph.schedule_ok_iff _ generation).2 ((ordered_iff t).2 h)⟩

theorem schedulable_of_ok {t : Topology} {generation : Nat} {s : Schedule} (h : t.schedule generation = .ok s) :
    t.Schedulable := fun generation' =>
  (Graph.schedule_ok_iff _ generation').2 ((Graph.schedule_ok_iff _ generation).1 ⟨s, h⟩)

/-! ## References -/

/-- Connections lead to ports that exist, and the ports of a chain are its own. -/
structure Linked (t : Topology) : Prop where
  ports : t.ports.Sound
  channels : t.channels.Sound
  chains : t.chains.Sound
  input : ∀ key c port, t.channels.get? key = some c → c.input = some port → t.ports.contains port = true
  output : ∀ key c port, t.channels.get? key = some c → c.output = some port → t.ports.contains port = true
  source : ∀ key p other, t.ports.get? key = some p → other ∈ p.sources → t.ports.contains other = true
  owned : ∀ key c port, t.chains.get? key = some c → port ∈ c.inputs ++ c.audioOutputs →
    ∃ p, t.ports.get? port = some p ∧ p.owner = .chain key

/-- Some connection or chain names the port. -/
inductive Refers (t : Topology) (port : PortKey) : Prop
  | input {key c} : t.channels.get? key = some c → c.input = some port → Refers t port
  | output {key c} : t.channels.get? key = some c → c.output = some port → Refers t port
  | source {key p} : t.ports.get? key = some p → port ∈ p.sources → Refers t port
  | chain {key c} : t.chains.get? key = some c → port ∈ c.inputs ++ c.audioOutputs → Refers t port

/-! ## Fewer objects and connections -/

/-- What `u` has is of `t`, with no connection that `t` does not have. -/
structure Shrinks (t u : Topology) : Prop where
  ports : ∀ key q, u.ports.get? key = some q →
    ∃ p, t.ports.get? key = some p ∧ q.direction = p.direction ∧ ∀ other ∈ q.sources, other ∈ p.sources
  channels : ∀ key d, u.channels.get? key = some d → ∃ c, t.channels.get? key = some c ∧
    (∀ port, d.input = some port → c.input = some port) ∧ ∀ port, d.output = some port → c.output = some port
  chains : ∀ key c, u.chains.get? key = some c → t.chains.get? key = some c

theorem Shrinks.has {t u : Topology} (h : Shrinks t u) {id : NodeId} (hid : u.Has id) (hsingle : id.coProcessed = false) :
    t.Has id := by
  cases id with
  | portPrepare key =>
    obtain ⟨q, hq, hdir⟩ := hid
    obtain ⟨p, hp, hpq, -⟩ := h.ports key q hq
    exact ⟨p, hp, hpq ▸ hdir⟩
  | portProcess key =>
    obtain ⟨q, hq⟩ := Option.isSome_iff_exists.1 hid
    obtain ⟨p, hp, -⟩ := h.ports key q hq
    exact Option.isSome_iff_exists.2 ⟨p, hp⟩
  | loop key => cases hsingle
  | channel key =>
    obtain ⟨d, hd⟩ := Option.isSome_iff_exists.1 hid
    obtain ⟨c, hc, -⟩ := h.channels key d hd
    exact Option.isSome_iff_exists.2 ⟨c, hc⟩
  | chain key =>
    obtain ⟨c, hc⟩ := Option.isSome_iff_exists.1 hid
    exact Option.isSome_iff_exists.2 ⟨c, h.chains key c hc⟩

theorem Shrinks.flow {t u : Topology} (h : Shrinks t u) {a b : NodeId} (hflow : u.Flow a b)
    (hsingle : a.coProcessed = false) : t.Flow a b := by
  cases hflow with
  | port hq =>
    obtain ⟨p, hp, -⟩ := h.ports _ _ hq
    exact .port hp
  | loop => cases hsingle
  | record hd hport =>
    obtain ⟨c, hc, hin, -⟩ := h.channels _ _ hd
    exact .record hc (hin _ hport)
  | mix hd hport =>
    obtain ⟨c, hc, -, hout⟩ := h.channels _ _ hd
    exact .mix hc (hout _ hport)
  | play hd hport =>
    obtain ⟨c, hc, -, hout⟩ := h.channels _ _ hd
    exact .play hc (hout _ hport)
  | source hq ho =>
    obtain ⟨p, hp, -, hsources⟩ := h.ports _ _ hq
    exact .source hp (hsources _ ho)
  | effect hc hport => exact .effect (h.chains _ _ hc) hport
  | result hc hport => exact .result (h.chains _ _ hc) hport

/-- Dropping objects and connections keeps a ranking. -/
theorem Shrinks.ranked {t u : Topology} (h : Shrinks t u) {rank : NodeId → Nat} (hrank : t.Ranked rank) : u.Ranked rank :=
  fun a b hflow ha hb hne hsingle =>
    hrank a b (h.flow hflow hsingle) (h.has ha hsingle) (h.has hb hflow.target_single) hne hsingle

/-- Dropping objects and connections leaves no reference behind, where no port goes that is still named. -/
theorem Shrinks.linked {t u : Topology} (h : Shrinks t u) (ht : t.Linked) (hports : u.ports.Sound)
    (hchannels : u.channels.Sound) (hchains : u.chains.Sound)
    (hkept : ∀ port p, t.ports.get? port = some p → u.Refers port →
      ∃ q, u.ports.get? port = some q ∧ q.owner = p.owner) : u.Linked := by
  have hcontains : ∀ port, t.ports.contains port = true → u.Refers port → u.ports.contains port = true := by
    intro port hport hrefers
    obtain ⟨p, hp⟩ := Option.isSome_iff_exists.1 hport
    obtain ⟨q, hq, -⟩ := hkept port p hp hrefers
    exact Option.isSome_iff_exists.2 ⟨q, hq⟩
  refine ⟨hports, hchannels, hchains, fun key d port hd hport => ?_, fun key d port hd hport => ?_,
    fun key q other hq ho => ?_, fun key c port hc hport => ?_⟩
  · obtain ⟨c, hc, hin, -⟩ := h.channels key d hd
    exact hcontains port (ht.input key c port hc (hin port hport)) (.input hd hport)
  · obtain ⟨c, hc, -, hout⟩ := h.channels key d hd
    exact hcontains port (ht.output key c port hc (hout port hport)) (.output hd hport)
  · obtain ⟨p, hp, -, hsources⟩ := h.ports key q hq
    exact hcontains other (ht.source key p other hp (hsources other ho)) (.source hq ho)
  · obtain ⟨p, hp, howner⟩ := ht.owned key c port (h.chains key c hc) hport
    obtain ⟨q, hq, hqp⟩ := hkept port p hp (.chain hc hport)
    exact ⟨q, hq, hqp.trans howner⟩

/-! ## More objects -/

/-- `u` has all of `t`, and new objects that are connected to no older one: a new port has no sources, a new
channel no ports, and a new chain only new ones of its own. -/
structure Extends (t u : Topology) : Prop where
  ports : ∀ key p, t.ports.get? key = some p → u.ports.get? key = some p
  port : ∀ key q, u.ports.get? key = some q → t.ports.get? key = some q ∨ t.ports.get? key = none ∧ q.sources = []
  channel : ∀ key d, u.channels.get? key = some d →
    t.channels.get? key = some d ∨ t.channels.get? key = none ∧ d.input = none ∧ d.output = none
  chain : ∀ key c, u.chains.get? key = some c → t.chains.get? key = some c ∨ t.chains.get? key = none ∧
    (∀ port ∈ c.inputs, t.ports.get? port = none ∧ ∃ p, u.ports.get? port = some p ∧ p.direction = .output) ∧
    ∀ port ∈ c.audioOutputs, t.ports.get? port = none ∧ ∃ p, u.ports.get? port = some p ∧ p.direction = .input

/-- The order of the nodes of a new chain: its inputs are cleared and mixed, then it runs, then its outputs carry
the result. -/
def newRank (u : Topology) : NodeId → Nat
  | .portProcess key => if (u.ports.get? key).any (·.direction = .output) then 1 else 3
  | .chain _ => 2
  | _ => 0

/-- New objects that no older one is connected to leave the topology with a ranking. -/
theorem Extends.ranked {t u : Topology} (h : Extends t u) (ht : t.Linked) {rank : NodeId → Nat} (hrank : t.Ranked rank) :
    ∃ rank, u.Ranked rank := by
  classical
  refine ⟨fun id => if t.Has id then rank id else newRank u id, fun a b hflow ha hb hne hsingle => ?_⟩
  dsimp only
  have hold : t.Flow a b → t.Has a → t.Has b →
      (if t.Has a then rank a else newRank u a) < if t.Has b then rank b else newRank u b := fun hflow ha hb => by
    simpa only [ha, hb, if_true] using hrank a b hflow ha hb hne hsingle
  have hprepare : ∀ {port}, t.ports.contains port = true → u.Has (.portPrepare port) → t.Has (.portPrepare port) := by
    rintro port hport ⟨q, hq, hdir⟩
    obtain ⟨p, hp⟩ := Option.isSome_iff_exists.1 hport
    cases (h.ports port p hp).symm.trans hq
    exact ⟨q, hp, hdir⟩
  cases hflow with
  | @port key q hq =>
    rcases h.port key q hq with hold' | ⟨hnone, -⟩
    · exact hold (.port hold') (hprepare (Option.isSome_iff_exists.2 ⟨q, hold'⟩) ha)
        (Option.isSome_iff_exists.2 ⟨q, hold'⟩)
    · simp only [Has, hnone, reduceCtorEq, false_and, exists_false, Arena.contains, Option.isSome_none, if_false, newRank]
      split_ifs <;> omega
  | loop => cases hsingle
  | @record key d port hd hport =>
    rcases h.channel key d hd with hc | ⟨-, hin, -⟩
    · exact hold (.record hc hport) (ht.input key d port hc hport) (Option.isSome_iff_exists.2 ⟨d, hc⟩)
    · rw [hin] at hport
      cases hport
  | @mix key d port hd hport =>
    rcases h.channel key d hd with hc | ⟨-, -, hout⟩
    · exact hold (.mix hc hport) (hprepare (ht.output key d port hc hport) ha) (Option.isSome_iff_exists.2 ⟨d, hc⟩)
    · rw [hout] at hport
      cases hport
  | @play key d port hd hport =>
    rcases h.channel key d hd with hc | ⟨-, -, hout⟩
    · exact hold (.play hc hport) (Option.isSome_iff_exists.2 ⟨d, hc⟩) (ht.output key d port hc hport)
    · rw [hout] at hport
      cases hport
  | @source key q other hq ho =>
    rcases h.port key q hq with hp | ⟨-, hnone⟩
    · exact hold (.source hp ho) (ht.source key q other hp ho) (Option.isSome_iff_exists.2 ⟨q, hp⟩)
    · rw [hnone] at ho
      cases ho
  | @effect key c port hc hport =>
    rcases h.chain key c hc with hc' | ⟨hnone, hin, -⟩
    · obtain ⟨p, hp, -⟩ := ht.owned key c port hc' (List.mem_append_left _ hport)
      exact hold (.effect hc' hport) (Option.isSome_iff_exists.2 ⟨p, hp⟩) (Option.isSome_iff_exists.2 ⟨c, hc'⟩)
    · obtain ⟨hnew, p, hp, hdir⟩ := hin port hport
      simp [Has, Arena.contains, hnone, hnew, newRank, hp, hdir]
  | @result key c port hc hport =>
    rcases h.chain key c hc with hc' | ⟨hnone, -, hout⟩
    · obtain ⟨p, hp, -⟩ := ht.owned key c port hc' (List.mem_append_right _ hport)
      exact hold (.result hc' hport) (Option.isSome_iff_exists.2 ⟨c, hc'⟩) (Option.isSome_iff_exists.2 ⟨p, hp⟩)
    · obtain ⟨hnew, p, hp, hdir⟩ := hout port hport
      simp [Has, Arena.contains, hnone, hnew, newRank, hp, hdir]

/-- New objects bring no reference that leads nowhere. -/
theorem Extends.linked {t u : Topology} (h : Extends t u) (ht : t.Linked) (hports : u.ports.Sound)
    (hchannels : u.channels.Sound) (hchains : u.chains.Sound)
    (hnew : ∀ key c, u.chains.get? key = some c → t.chains.get? key = none → ∀ port ∈ c.inputs ++ c.audioOutputs,
      ∃ p, u.ports.get? port = some p ∧ p.owner = .chain key) : u.Linked := by
  have hcontains : ∀ port, t.ports.contains port = true → u.ports.contains port = true := by
    intro port hport
    obtain ⟨p, hp⟩ := Option.isSome_iff_exists.1 hport
    exact Option.isSome_iff_exists.2 ⟨p, h.ports port p hp⟩
  refine ⟨hports, hchannels, hchains, fun key d port hd hport => ?_, fun key d port hd hport => ?_,
    fun key q other hq ho => ?_, fun key c port hc hport => ?_⟩
  · rcases h.channel key d hd with hc | ⟨-, hin, -⟩
    · exact hcontains port (ht.input key d port hc hport)
    · rw [hin] at hport
      cases hport
  · rcases h.channel key d hd with hc | ⟨-, -, hout⟩
    · exact hcontains port (ht.output key d port hc hport)
    · rw [hout] at hport
      cases hport
  · rcases h.port key q hq with hp | ⟨-, hnone⟩
    · exact hcontains other (ht.source key q other hp ho)
    · rw [hnone] at ho
      cases ho
  · rcases h.chain key c hc with hc' | ⟨hnone, -⟩
    · obtain ⟨p, hp, howner⟩ := ht.owned key c port hc' hport
      exact ⟨p, h.ports port p hp, howner⟩
    · exact hnew key c hc hnone port hport

end Topology

end Overdub
