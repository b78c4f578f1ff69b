import Mathlib
import Overdub.Proofs.Flow
/-!
# A schedule is an order of its graph

With all loops taken for one unit and every other node for a unit of its own, the
edges of a graph lead from unit to unit. A graph has a schedule exactly if nothing
leads from a unit back to itself (`Graph.ordered_iff_not_cyclic`): a rank is the
number of units that lead to a unit. The schedule is read off the groups: dividing
the nodes and forming layers only reorder them (`Graph.groupsOf_perm`,
`Graph.layers_perm`), and no group of a layer waits for one that is left
(`Graph.layers_settled`).
-/

namespace Overdub

/-- What is ordered as one: all the loops, or one other node. -/
inductive UnitId where
  | loops
  | single (id : NodeId)

def NodeId.unit (id : NodeId) : UnitId := if id.coProcessed then .loops else .single id

namespace Graph

theorem unit_eq_iff {a b : NodeId} : a.unit = b.unit ↔ SameUnit a b := by
  have hne : a.coProcessed ≠ b.coProcessed → a ≠ b := fun h heq => h (congrArg _ heq)
  unfold NodeId.unit SameUnit
  cases ha : a.coProcessed <;> cases hb : b.coProcessed
  · simp
  · simp [hne (by simp [ha, hb])]
  · simp [hne (by simp [ha, hb])]
  · simp

/-- An edge leads from one unit to another one. -/
def Leads (g : Graph) (u v : UnitId) : Prop := u ≠ v ∧ ∃ a b, (a, b) ∈ g.edges ∧ a.unit = u ∧ b.unit = v

/-- Edges lead from a unit back to itself, through another one. -/
def Cyclic (g : Graph) : Prop := ∃ u, Relation.TransGen g.Leads u u

/-- Edges join nodes of the graph. -/
def Closed (g : Graph) : Prop := ∀ a b, (a, b) ∈ g.edges → g.contains a = true ∧ g.contains b = true

theorem closed_ofTopology (t : Topology) : (ofTopology t).Closed := fun a b hedge => by
  obtain ⟨-, ha, hb⟩ := (mem_edges t a b).1 hedge
  exact ⟨(contains_ofTopology t a).2 ha, (contains_ofTopology t b).2 hb⟩

/-- Along a way from unit to unit, the rank rises. -/
theorem Ranks.lt_of_leads {g : Graph} {rank : NodeId → Nat} (hrank : g.Ranks rank) (hclosed : g.Closed) {u v : UnitId}
    (h : Relation.TransGen g.Leads u v) :
    ∃ a b, g.contains a = true ∧ g.contains b = true ∧ a.unit = u ∧ b.unit = v ∧ rank a < rank b := by
  have hstep : ∀ {u v}, g.Leads u v →
      ∃ a b, g.contains a = true ∧ g.contains b = true ∧ a.unit = u ∧ b.unit = v ∧ rank a < rank b := by
    rintro _ _ ⟨hne, a, b, hedge, rfl, rfl⟩
    obtain ⟨ha, hb⟩ := hclosed a b hedge
    exact ⟨a, b, ha, hb, rfl, rfl, hrank.edge a b hedge ha hb fun hab => hne (unit_eq_iff.2 hab)⟩
  induction h with
  | single h => exact hstep h
  | tail _ h ih =>
    obtain ⟨a, b, ha, hb, hau, hbv, hab⟩ := ih
    obtain ⟨b', c, hb', hc, hbv', hcw, hbc⟩ := hstep h
    have hbb' : rank b = rank b' := hrank.unit b b' hb hb' (unit_eq_iff.1 (hbv.trans hbv'.symm))
    exact ⟨a, c, ha, hc, hau, hcw, by omega⟩

/-- A graph can be ranked exactly if no edges lead around. -/
theorem ordered_iff_not_cyclic {g : Graph} (hclosed : g.Closed) : g.Ordered ↔ ¬g.Cyclic := by
  constructor
  · rintro ⟨rank, hrank⟩ ⟨u, hcycle⟩
    obtain ⟨a, b, ha, hb, hau, hbu, hlt⟩ := hrank.lt_of_leads hclosed hcycle
    have heq := hrank.unit a b ha hb (unit_eq_iff.1 (hau.trans hbu.symm))
    omega
  · intro hacyclic
    classical
    -- the units that lead to a unit lead to what it leads to as well, and so does the unit itself
    let before (v : UnitId) : Finset UnitId :=
      (g.edges.map (·.1.unit)).toFinset.filter (Relation.TransGen g.Leads · v)
    refine ⟨fun id => (before id.unit).card, ⟨fun a b _ _ hab => ?_, fun a b hedge ha hb hab => ?_⟩⟩
    · rw [unit_eq_iff.2 hab]
    · have hleads : g.Leads a.unit b.unit := ⟨fun heq => hab (unit_eq_iff.1 heq), a, b, hedge, rfl, rfl⟩
      refine Finset.card_lt_card ((Finset.ssubset_iff_of_subset ?_).2 ⟨a.unit, ?_, ?_⟩)
      · exact Finset.monotone_filter_right _ fun u _ hu => hu.tail hleads
      · simp only [before, Finset.mem_filter, List.mem_toFinset, List.mem_map]
        exact ⟨⟨(a, b), hedge, rfl⟩, .single hleads⟩
      · simp only [before, Finset.mem_filter, not_and]
        exact fun _ hcycle => hacyclic ⟨_, hcycle⟩

/-! ## Groups and layers only reorder the nodes -/

theorem companions_strangers_perm (n : Node) (nodes : List Node) :
    (companions n nodes ++ strangers n nodes).Perm nodes := List.filter_append_perm _ nodes

theorem groupsOf_perm (nodes : List Node) : ((groupsOf nodes).flatMap (·.members)).Perm nodes := by
  fun_induction groupsOf nodes with
  | case1 => exact .nil
  | case2 n rest ih =>
    simp only [List.flatMap_cons, List.cons_append]
    exact .cons n ((ih.append_left _).trans (companions_strangers_perm n rest))

theorem groupsOf_coProcess (nodes : List Node) :
    ∀ u ∈ groupsOf nodes, ∀ id, u.contains id = true → u.coProcess = id.coProcessed := by
  fun_induction groupsOf nodes with
  | case1 => exact List.forall_mem_nil _
  | case2 n rest ih =>
    refine List.forall_mem_cons.2 ⟨fun id hid => ?_, ih⟩
    rcases same_of_group n rest hid with rfl | ⟨hn, hid⟩
    · rfl
    · exact hn.trans hid.symm

theorem ready_blocked_perm (edges : List (NodeId × NodeId)) (pending : List Group) :
    (ready edges pending ++ blocked edges pending).Perm pending :=
  List.perm_append_comm.trans (List.filter_append_perm _ pending)

theorem layers_perm (edges : List (NodeId × NodeId)) (pending : List Group) :
    ((layers edges pending).1.flatten ++ (layers edges pending).2).Perm pending := by
  fun_induction layers edges pending with
  | case1 pending hlt later stuck hlayers ih =>
    rw [hlayers] at ih
    simp only [List.flatten_cons, List.append_assoc]
    exact (ih.append_left _).trans (ready_blocked_perm edges pending)
  | case2 pending hge => exact .refl _

/-! ## No group waits for a later one -/

/-- No edge leads from the group `v` into the group `u`, unless it starts in `u` as well. -/
def Settled (edges : List (NodeId × NodeId)) (u v : Group) : Prop :=
  ∀ a b, (a, b) ∈ edges → u.contains b = true → v.contains a = true → u.contains a = true

theorem settled_of_ready {edges : List (NodeId × NodeId)} {pending : List Group} {u v : Group}
    (hu : u ∈ ready edges pending) (hv : v ∈ pending) : Settled edges u v := by
  intro a b hedge hub hva
  by_contra hua
  have hwaits := waits_iff.2 ⟨a, b, hedge, hub, by simpa using hua, v, hv, hva⟩
  simp [ready, hwaits] at hu

theorem layers_settled (edges : List (NodeId × NodeId)) (pending : List Group) (sort : List Group → List Group)
    (hsort : ∀ layer, (sort layer).Perm layer) :
    ((layers edges pending).1.flatMap sort).Pairwise (Settled edges) := by
  fun_induction layers edges pending with
  | case1 pending hlt later stuck hlayers ih =>
    rw [hlayers] at ih
    have hlater : ∀ v ∈ later.flatMap sort, v ∈ pending := by
      intro v hv
      obtain ⟨layer, hlayer, hv⟩ := List.mem_flatMap.1 hv
      have hblocked : v ∈ blocked edges pending := by
        refine (layers_perm edges (blocked edges pending)).mem_iff.1 (List.mem_append_left _ ?_)
        rw [hlayers]
        exact List.mem_flatten.2 ⟨layer, hlayer, (hsort layer).mem_iff.1 hv⟩
      exact (mem_blocked.1 hblocked).1
    have hready : ∀ u ∈ sort (ready edges pending), u ∈ ready edges pending := fun u => (hsort _).mem_iff.1
    refine List.pairwise_append.2 ⟨List.pairwise_of_forall_mem_list fun u hu v hv => ?_, ih, fun u hu v hv => ?_⟩
    · exact settled_of_ready (hready u hu) (List.mem_filter.1 (hready v hv)).1
    · exact settled_of_ready (hready u hu) (hlater v hv)
  | case2 => exact .nil

/-! ## Every object has its own nodes -/

theorem nodup_portNodes (key : PortKey) (p : PortInfo) : ((portNodes key p).map (·.id)).Nodup := by
  unfold portNodes
  cases p.direction <;> simp

theorem id_of_mem_portNodes {key : PortKey} {p : PortInfo} {n : Node} (h : n ∈ portNodes key p) :
    n.id = .portProcess key ∨ n.id = .portPrepare key :=
  ((contains_portNodes key p n.id).1 ⟨n, h, rfl⟩).imp_right And.right

theorem nodup_ports (ports : Arena .port PortInfo) :
    (ports.toList.flatMap fun x => (portNodes x.1 x.2).map (·.id)).Nodup := by
  refine List.nodup_flatMap.2 ⟨fun x _ => nodup_portNodes x.1 x.2, ?_⟩
  refine (List.pairwise_map.1 ports.nodup_keys).imp fun {x y} hne => List.disjoint_left.2 fun id hx hy => hne ?_
  obtain ⟨n, hn, rfl⟩ := List.mem_map.1 hx
  obtain ⟨m, hm, hid⟩ := List.mem_map.1 hy
  rcases id_of_mem_portNodes hn with hn | hn <;> rcases id_of_mem_portNodes hm with hm | hm <;> rw [hn, hm] at hid
  · exact (NodeId.portProcess.inj hid).symm
  · cases hid
  · cases hid
  · exact (NodeId.portPrepare.inj hid).symm

/-- No two nodes share an id. -/
theorem nodup_ofTopology (t : Topology) : ((ofTopology t).nodes.map (·.id)).Nodup := by
  have hchains : (t.chains.toList.map fun x => NodeId.chain x.1).Nodup := by
    have hkeys := t.chains.nodup_keys.map (f := NodeId.chain) fun a b h => by simpa using h
    rwa [Arena.keys, List.map_map] at hkeys
  have hloops : (t.loops.keys.map NodeId.loop).Nodup := t.loops.nodup_keys.map fun a b h => by simpa using h
  have hchannels : (t.channels.keys.map NodeId.channel).Nodup := t.channels.nodup_keys.map fun a b h => by simpa using h
  have hids : (ofTopology t).nodes.map (·.id) =
      (t.ports.toList.flatMap fun x => (portNodes x.1 x.2).map (·.id)) ++ t.loops.keys.map .loop ++
        (t.chains.toList.map fun x => .chain x.1) ++ t.channels.keys.map .channel := by
    simp only [ofTopology, List.map_append, List.map_flatMap, List.map_map]
    rfl
  rw [hids]
  simp only [List.nodup_append, List.mem_append, List.mem_flatMap, List.mem_map]
  refine ⟨⟨⟨nodup_ports t.ports, hloops, ?_⟩, hchains, ?_⟩, hchannels, ?_⟩
  · rintro _ ⟨x, -, n, hn, rfl⟩ _ ⟨key, -, rfl⟩ h
    rcases id_of_mem_portNodes hn with hn | hn <;> rw [hn] at h <;> cases h
  · rintro _ (⟨x, -, n, hn, rfl⟩ | ⟨k, -, rfl⟩) _ ⟨key, -, rfl⟩ h
    · rcases id_of_mem_portNodes hn with hn | hn <;> rw [hn] at h <;> cases h
    · cases h
  · rintro _ ((⟨x, -, n, hn, rfl⟩ | ⟨k, -, rfl⟩) | ⟨k, -, rfl⟩) _ ⟨key, -, rfl⟩ h
    · rcases id_of_mem_portNodes hn with hn | hn <;> rw [hn] at h <;> cases h
    · cases h
    · cases h

end Graph

/-! ## Schedules -/

/-- The schedule takes every node of a graph once, unit by unit, in the order of the edges. -/
structure Schedule.Orders (s : Schedule) (g : Graph) : Prop where
  complete : (s.steps.flatMap (·.nodes)).Perm (g.nodes.map (·.id))
  once : (s.steps.flatMap (·.nodes)).Nodup
  /-- A step holds a unit and nothing else. -/
  whole : ∀ step ∈ s.steps, ∀ a ∈ step.nodes, ∀ b, b ∈ step.nodes ↔ g.contains b = true ∧ a.unit = b.unit
  coProcess : ∀ step ∈ s.steps, ∀ a ∈ step.nodes, step.coProcess = a.coProcessed
  earlier : ∀ a b, (a, b) ∈ g.edges → a.unit ≠ b.unit →
    ∃ i j, s.position? a = some i ∧ s.position? b = some j ∧ i < j

namespace Graph

/-- The groups of a schedule, in its order. -/
def ordered (g : Graph) : List Group :=
  (layers g.edges (groupsOf g.nodes)).1.flatMap fun layer => layer.mergeSort fun a b => decide (a.name ≤ b.name)

/-- The groups of a graph as a schedule. -/
def inOrder (g : Graph) (generation : Nat) : Schedule := ⟨generation, g.ordered.map (·.step)⟩

/-- The groups that never become ready are the cycle of the error. -/
theorem schedule_eq (g : Graph) (generation : Nat) :
    g.schedule generation =
      if (layers g.edges (groupsOf g.nodes)).2 = [] then .ok (g.inOrder generation)
      else .error (.graphCycle (", ".intercalate ((layers g.edges (groupsOf g.nodes)).2.map (·.name)))) := by
  unfold schedule inOrder ordered
  simp only [List.isEmpty_iff]

theorem ordered_perm {g : Graph} (hdone : (layers g.edges (groupsOf g.nodes)).2 = []) :
    g.ordered.Perm (groupsOf g.nodes) := by
  have hlayers := layers_perm g.edges (groupsOf g.nodes)
  rw [hdone, List.append_nil] at hlayers
  refine List.Perm.trans ?_ hlayers
  rw [← List.flatMap_id]
  exact List.Perm.flatMap_left _ fun layer _ => List.mergeSort_perm layer _

theorem ordered_settled (g : Graph) : g.ordered.Pairwise (Settled g.edges) :=
  layers_settled _ _ _ fun layer => List.mergeSort_perm layer _

theorem contains_iff_covers (g : Graph) (id : NodeId) : g.contains id = true ↔ Covers (groupsOf g.nodes) id := by
  rw [covers_groupsOf]
  simp [Graph.contains]

/-- A group holds a unit of the graph. -/
theorem mem_group_iff {g : Graph} {u : Group} {a b : NodeId} (hu : u ∈ groupsOf g.nodes) (ha : u.contains a = true) :
    u.contains b = true ↔ g.contains b = true ∧ a.unit = b.unit := by
  have hunits := units_groupsOf g.nodes
  rw [contains_iff_covers, unit_eq_iff]
  constructor
  · exact fun hb => ⟨⟨u, hu, hb⟩, hunits.same u hu a b ha hb⟩
  · rintro ⟨hb, hab⟩
    exact hunits.whole u hu a b ha hb hab

theorem Group.mem_step {u : Group} {id : NodeId} : id ∈ u.step.nodes ↔ u.contains id = true := by
  simp [Group.step, Group.contains]

theorem inOrder_nodes {g : Graph} (hdone : (layers g.edges (groupsOf g.nodes)).2 = []) (generation : Nat) :
    ((g.inOrder generation).steps.flatMap (·.nodes)).Perm (g.nodes.map (·.id)) := by
  have hnodes : (g.inOrder generation).steps.flatMap (·.nodes) = (g.ordered.flatMap (·.members)).map (·.id) := by
    simp only [inOrder, List.flatMap_map, List.map_flatMap, Group.step]
  rw [hnodes]
  exact (((ordered_perm hdone).flatMap_right _).trans (groupsOf_perm g.nodes)).map _

/-- The place of a node in the schedule is that of its group. -/
theorem position?_inOrder {g : Graph} (hdone : (layers g.edges (groupsOf g.nodes)).2 = []) (generation : Nat)
    {id : NodeId} (hid : g.contains id = true) :
    ∃ i, ∃ h : i < g.ordered.length, g.ordered[i].contains id = true ∧
      (g.inOrder generation).position? id = some i := by
  have hplace : (g.inOrder generation).position? id = g.ordered.findIdx? (·.contains id) := by
    unfold Schedule.position? inOrder
    rw [List.findIdx?_map]
    refine congrArg (List.findIdx? · g.ordered) (funext fun u => Bool.eq_iff_iff.2 ?_)
    rw [Function.comp_apply, List.contains_iff_mem, Group.mem_step]
  obtain ⟨u, hu, hcontains⟩ := (contains_iff_covers g id).1 hid
  have hsome : ∃ u ∈ g.ordered, u.contains id = true := ⟨u, (ordered_perm hdone).mem_iff.2 hu, hcontains⟩
  have hfound := List.findIdx?_eq_some_of_exists hsome
  obtain ⟨hi, hcontains, -⟩ := List.findIdx?_eq_some_iff_getElem.1 hfound
  exact ⟨_, hi, hcontains, hplace.trans hfound⟩

/-- The groups of a graph, layer by layer, are an order of it. -/
theorem inOrder_orders {g : Graph} (hclosed : g.Closed) (hids : (g.nodes.map (·.id)).Nodup) (generation : Nat)
    (hdone : (layers g.edges (groupsOf g.nodes)).2 = []) : (g.inOrder generation).Orders g := by
  have hnodes := inOrder_nodes hdone generation
  have hgroup : ∀ u ∈ g.ordered, u ∈ groupsOf g.nodes := fun u => (ordered_perm hdone).mem_iff.1
  refine ⟨hnodes, hnodes.nodup_iff.2 hids, fun step hstep a ha b => ?_, fun step hstep a ha => ?_,
    fun a b hedge hne => ?_⟩
  · obtain ⟨u, hu, rfl⟩ := List.mem_map.1 hstep
    rw [Group.mem_step] at ha ⊢
    exact mem_group_iff (hgroup u hu) ha
  · obtain ⟨u, hu, rfl⟩ := List.mem_map.1 hstep
    exact groupsOf_coProcess g.nodes u (hgroup u hu) a (Group.mem_step.1 ha)
  · obtain ⟨hca, hcb⟩ := hclosed a b hedge
    obtain ⟨i, hi, ha, hposa⟩ := position?_inOrder hdone generation hca
    obtain ⟨j, hj, hb, hposb⟩ := position?_inOrder hdone generation hcb
    refine ⟨i, j, hposa, hposb, Nat.lt_of_not_le fun hle => hne ?_⟩
    -- a group that is not behind that of `a` waits for nobody in it
    have hja : g.ordered[j].contains a = true := by
      rcases hle.lt_or_eq with hlt | rfl
      · exact List.pairwise_iff_getElem.1 g.ordered_settled j i hj hi hlt a b hedge hb ha
      · exact ha
    exact ((mem_group_iff (hgroup _ (List.getElem_mem hj)) hja).1 hb).2

theorem groupsOf_members_ne_nil (nodes : List Node) : ∀ u ∈ groupsOf nodes, u.members ≠ [] := by
  fun_induction groupsOf nodes with
  | case1 => exact List.forall_mem_nil _
  | case2 n rest ih => exact List.forall_mem_cons.2 ⟨List.cons_ne_nil _ _, ih⟩

/-- A schedule that was computed from a topology is an order of it, and no step is empty. -/
theorem orders_of_schedule {t : Topology} {generation : Nat} {s : Schedule} (h : t.schedule generation = .ok s) :
    s.Orders (ofTopology t) ∧ ∀ step ∈ s.steps, step.nodes ≠ [] := by
  have hschedule := (schedule_eq (ofTopology t) generation).symm.trans h
  split_ifs at hschedule with hdone
  cases hschedule
  refine ⟨inOrder_orders (closed_ofTopology t) (nodup_ofTopology t) generation hdone, fun step hstep => ?_⟩
  obtain ⟨u, hu, rfl⟩ := List.mem_map.1 hstep
  simpa [Group.step] using groupsOf_members_ne_nil _ u ((ordered_perm hdone).mem_iff.1 hu)

/-- A schedule carries the number of the request it was computed for. -/
theorem generation_of_schedule {t : Topology} {generation : Nat} {s : Schedule} (h : t.schedule generation = .ok s) :
    s.generation = generation := by
  have hschedule := (schedule_eq (ofTopology t) generation).symm.trans h
  split_ifs at hschedule
  cases hschedule
  rfl

/-- Computing the schedule of a topology fails exactly if its graph, with the loops taken for one, has a cycle, and
the error says so; otherwise the schedule is an order of the graph. -/
theorem schedule_orders_units (t : Topology) (generation : Nat) :
    ((∃ names, t.schedule generation = .error (.graphCycle names)) ↔ (ofTopology t).Cyclic) ∧
      (¬(ofTopology t).Cyclic → ∃ s, t.schedule generation = .ok s ∧ s.Orders (ofTopology t)) := by
  have hclosed := closed_ofTopology t
  have hdone : ¬(ofTopology t).Cyclic ↔ (layers (ofTopology t).edges (groupsOf (ofTopology t).nodes)).2 = [] := by
    rw [← ordered_iff_not_cyclic hclosed, ← schedule_ok_iff (ofTopology t) generation, schedule_eq]
    split_ifs with h <;> simp [h]
  unfold Topology.schedule
  constructor
  · rw [← not_iff_not, hdone, schedule_eq]
    split_ifs with h <;> simp [h]
  · intro hacyclic
    refine ⟨_, (schedule_eq _ generation).trans (if_pos (hdone.1 hacyclic)), ?_⟩
    exact inOrder_orders hclosed (nodup_ofTopology t) generation (hdone.1 hacyclic)

end Graph

end Overdub
