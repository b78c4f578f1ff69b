import Mathlib
import Overdub.Proofs.Naming
import Overdub.Proofs.Order
/-!
# Schedules are canonical

A schedule is formed layer by layer, and a layer holds what is ready once all earlier
ones are done. The number of a unit's layer is the length of the longest way into it:
what a unit comes after is in an earlier layer (`Graph.Layer.lt`), and some unit that
it comes after is in the layer right before (`Graph.Layer.exists_follows`). With the
names, of which no two units share one, this leaves a graph one order only
(`Schedule.Canonical.units_eq`), whatever the order its nodes and edges are given in.
-/

namespace Overdub

namespace Graph

/-! ## Layers -/

/-- The group `u` comes after the group `v`. -/
def Follows (edges : List (NodeId × NodeId)) (u v : Group) : Prop :=
  ∃ a b, (a, b) ∈ edges ∧ u.contains b = true ∧ u.contains a = false ∧ v.contains a = true

/-- The groups of each layer, by its number. -/
inductive Layer (edges : List (NodeId × NodeId)) : List Group → Nat → Group → Prop where
  | ready {pending : List Group} {u : Group} : u ∈ ready edges pending → Layer edges pending 0 u
  | blocked {pending : List Group} {k : Nat} {u : Group} :
    Layer edges (blocked edges pending) k u → Layer edges pending (k + 1) u

variable {edges : List (NodeId × NodeId)} {pending : List Group}

theorem waits_iff_follows {u : Group} : waits edges pending u = true ↔ ∃ v ∈ pending, Follows edges u v := by
  rw [waits_iff]
  constructor
  · rintro ⟨a, b, hedge, hb, ha, v, hv, hva⟩
    exact ⟨v, hv, a, b, hedge, hb, ha, hva⟩
  · rintro ⟨v, hv, a, b, hedge, hb, ha, hva⟩
    exact ⟨a, b, hedge, hb, ha, v, hv, hva⟩

theorem mem_ready {u : Group} : u ∈ ready edges pending ↔ u ∈ pending ∧ ¬∃ v ∈ pending, Follows edges u v := by
  rw [← waits_iff_follows]
  simp [ready]

theorem Layer.mem {k : Nat} {u : Group} (h : Layer edges pending k u) : u ∈ pending := by
  induction h with
  | ready h => exact (mem_ready.1 h).1
  | blocked _ ih => exact (mem_blocked.1 ih).1

/-- What a group comes after is in an earlier layer. -/
theorem Layer.lt {j k : Nat} {u v : Group} (hu : Layer edges pending k u) (hv : Layer edges pending j v)
    (h : Follows edges u v) : j < k := by
  induction hu generalizing j with
  | ready hu => exact absurd ⟨v, hv.mem, h⟩ (mem_ready.1 hu).2
  | blocked _ ih =>
    cases hv with
    | ready => exact Nat.succ_pos _
    | blocked hv => exact Nat.succ_lt_succ (ih hv h)

/-- A group of a later layer comes right after one of the layer before. -/
theorem Layer.exists_follows {k : Nat} {u : Group} (h : Layer edges pending (k + 1) u) :
    ∃ v, Layer edges pending k v ∧ Follows edges u v := by
  induction k generalizing pending with
  | zero =>
    cases h with
    | blocked h =>
      cases h with
      | ready hu =>
        obtain ⟨hblocked, hfree⟩ := mem_ready.1 hu
        obtain ⟨v, hv, hfollows⟩ := waits_iff_follows.1 (mem_blocked.1 hblocked).2
        -- it waits no more as soon as the groups that are ready are gone
        have hready : v ∈ Graph.ready edges pending := by
          by_contra hwaits
          refine hfree ⟨v, mem_blocked.2 ⟨hv, waits_iff_follows.2 ?_⟩, hfollows⟩
          by_contra hnone
          exact hwaits (mem_ready.2 ⟨hv, hnone⟩)
        exact ⟨v, .ready hready, hfollows⟩
  | succ k ih =>
    cases h with
    | blocked h =>
      obtain ⟨v, hv, hfollows⟩ := ih h
      exact ⟨v, .blocked hv, hfollows⟩

theorem exists_layer {u : Group} (h : u ∈ (layers edges pending).1.flatten) : ∃ k, Layer edges pending k u := by
  fun_induction layers edges pending with
  | case1 pending hlt later stuck hlayers ih =>
    rw [hlayers] at ih
    rcases List.mem_append.1 h with h | h
    · exact ⟨0, .ready h⟩
    · obtain ⟨k, hk⟩ := ih h
      exact ⟨k + 1, .blocked hk⟩
  | case2 => cases h

/-- Layers one after the other, each of them sorted by a relation. -/
theorem layers_pairwise (edges : List (NodeId × NodeId)) (pending : List Group) {sort : List Group → List Group}
    (hperm : ∀ layer, (sort layer).Perm layer) {less : Group → Group → Prop}
    (hsort : ∀ layer : List Group, layer.Sublist pending → (sort layer).Pairwise less) :
    ((layers edges pending).1.flatMap sort).Pairwise fun u v =>
      ∃ j k, Layer edges pending j u ∧ Layer edges pending k v ∧ (j < k ∨ j = k ∧ less u v) := by
  fun_induction layers edges pending with
  | case1 pending hlt later stuck hlayers ih =>
    rw [hlayers] at ih
    have hready : ∀ u ∈ sort (ready edges pending), Layer edges pending 0 u :=
      fun u hu => .ready ((hperm _).mem_iff.1 hu)
    have hlater : ∀ v ∈ later.flatMap sort, ∃ k, Layer edges (blocked edges pending) k v := by
      intro v hv
      obtain ⟨layer, hlayer, hv⟩ := List.mem_flatMap.1 hv
      refine exists_layer ?_
      rw [hlayers]
      exact List.mem_flatten.2 ⟨layer, hlayer, (hperm layer).mem_iff.1 hv⟩
    refine List.pairwise_append.2 ⟨?_, ?_, fun u hu v hv => ?_⟩
    · refine (hsort _ List.filter_sublist).imp_of_mem fun {u v} hu hv hless => ?_
      exact ⟨0, 0, hready u hu, hready v hv, .inr ⟨rfl, hless⟩⟩
    · refine (ih fun layer hlayer => hsort layer (hlayer.trans List.filter_sublist)).imp ?_
      rintro u v ⟨j, k, hu, hv, hjk⟩
      exact ⟨j + 1, k + 1, .blocked hu, .blocked hv, hjk.imp Nat.succ_lt_succ (And.imp_left (congrArg _))⟩
    · obtain ⟨k, hk⟩ := hlater v hv
      exact ⟨0, k + 1, hready u hu, .blocked hk, .inl (Nat.succ_pos _)⟩
  | case2 => exact .nil

/-! ## The layer of a unit is the length of the longest way into it -/

/-- The edges of a graph join nodes of it, and no two nodes share an id. -/
structure Proper (g : Graph) : Prop where
  closed : g.Closed
  nodup : (g.nodes.map (·.id)).Nodup

/-- A way of so many dependencies leads into a unit. -/
inductive PathInto (g : Graph) : UnitId → Nat → Prop where
  | here (u : UnitId) : PathInto g u 0
  | step {u v : UnitId} {n : Nat} : PathInto g u n → g.Leads u v → PathInto g v (n + 1)

/-- The length of the longest way into a unit. -/
structure Depth (g : Graph) (u : UnitId) (n : Nat) : Prop where
  path : g.PathInto u n
  longest : ∀ m, g.PathInto u m → m ≤ n

/-- The smallest name of the nodes of a unit. -/
structure Named (g : Graph) (u : UnitId) (name : String) : Prop where
  taken : ∃ n ∈ g.nodes, n.id.unit = u ∧ n.name = name
  smallest : ∀ n ∈ g.nodes, n.id.unit = u → name ≤ n.name

/-- The longest way into the unit `u` is shorter than that into `v`, or as long and
the name of `u` is smaller. -/
def Before (g : Graph) (u v : UnitId) : Prop :=
  ∃ m n a b, g.Depth u m ∧ g.Named u a ∧ g.Depth v n ∧ g.Named v b ∧ (m < n ∨ m = n ∧ a < b)

theorem Depth.unique {g : Graph} {u : UnitId} {m n : Nat} (hm : g.Depth u m) (hn : g.Depth u n) : m = n :=
  Nat.le_antisymm (hn.longest m hm.path) (hm.longest n hn.path)

theorem Named.unique {g : Graph} {u : UnitId} {a b : String} (ha : g.Named u a) (hb : g.Named u b) : a = b := by
  obtain ⟨m, hm, hmu, rfl⟩ := ha.taken
  obtain ⟨n, hn, hnu, rfl⟩ := hb.taken
  exact le_antisymm (ha.smallest n hn hnu) (hb.smallest m hm hmu)

theorem Before.asymm {g : Graph} {u v : UnitId} (h : g.Before u v) : ¬g.Before v u := by
  rintro ⟨n', m', b', a', hn', hb', hm', ha', hlt'⟩
  obtain ⟨m, n, a, b, hm, ha, hn, hb, hlt⟩ := h
  obtain rfl := hm.unique hm'
  obtain rfl := hn.unique hn'
  obtain rfl := ha.unique ha'
  obtain rfl := hb.unique hb'
  rcases hlt with hlt | ⟨rfl, hlt⟩
  · omega
  · exact hlt'.elim (lt_irrefl _) fun h => lt_asymm hlt h.2

/-- The same nodes and edges, in whatever order. -/
structure Alike (g g' : Graph) : Prop where
  nodes : g.nodes.Perm g'.nodes
  edges : ∀ e, e ∈ g.edges ↔ e ∈ g'.edges

namespace Alike

variable {g g' : Graph}

theorem symm (h : g.Alike g') : g'.Alike g := ⟨h.nodes.symm, fun e => (h.edges e).symm⟩

theorem contains (h : g.Alike g') (id : NodeId) : g.contains id = true ↔ g'.contains id = true := by
  simp only [Graph.contains, List.any_eq_true, h.nodes.mem_iff]

theorem proper (h : g.Alike g') (hproper : g.Proper) : g'.Proper where
  closed := fun a b hedge => by
    rw [← h.contains, ← h.contains]
    exact hproper.closed a b ((h.edges (a, b)).2 hedge)
  nodup := (h.nodes.map _).nodup_iff.1 hproper.nodup

theorem leads (h : g.Alike g') : g.Leads = g'.Leads := by
  funext u v
  simp only [Leads, h.edges]

theorem cyclic (h : g.Alike g') : g.Cyclic ↔ g'.Cyclic := by
  unfold Cyclic
  rw [h.leads]

theorem path (h : g.Alike g') {u : UnitId} {n : Nat} (hpath : g.PathInto u n) : g'.PathInto u n := by
  induction hpath with
  | here u => exact .here u
  | step _ hleads ih => exact .step ih (h.leads ▸ hleads)

theorem depth (h : g.Alike g') {u : UnitId} {n : Nat} (hdepth : g.Depth u n) : g'.Depth u n :=
  ⟨h.path hdepth.path, fun m hm => hdepth.longest m (h.symm.path hm)⟩

theorem named (h : g.Alike g') {u : UnitId} {name : String} (hnamed : g.Named u name) : g'.Named u name := by
  obtain ⟨⟨n, hn, hname⟩, hsmallest⟩ := hnamed
  exact ⟨⟨n, h.nodes.mem_iff.1 hn, hname⟩, fun m hm => hsmallest m (h.nodes.mem_iff.2 hm)⟩

theorem before (h : g.Alike g') {u v : UnitId} : g.Before u v → g'.Before u v := by
  rintro ⟨m, n, a, b, hm, ha, hn, hb, hlt⟩
  exact ⟨m, n, a, b, h.depth hm, h.named ha, h.depth hn, h.named hb, hlt⟩

end Alike

section Groups

variable {g : Graph} {k : Nat} {u : Group} {a : NodeId}

theorem path_of_layer (h : Layer g.edges (groupsOf g.nodes) k u) (ha : u.contains a = true) : g.PathInto a.unit k := by
  induction k generalizing u a with
  | zero => exact .here _
  | succ k ih =>
    obtain ⟨v, hv, b, c, hedge, huc, hub, hvb⟩ := h.exists_follows
    have hunit : a.unit = c.unit := ((mem_group_iff h.mem ha).1 huc).2
    rw [hunit]
    refine .step (ih hv hvb) ⟨fun hbc => ?_, b, c, hedge, rfl, rfl⟩
    have hin : u.contains b = true :=
      (mem_group_iff h.mem huc).2 ⟨(contains_iff_covers g b).2 ⟨v, hv.mem, hvb⟩, hbc.symm⟩
    rw [hub] at hin
    cases hin

/-- Where no groups wait for each other, each is in a layer. -/
theorem layer_of_done (hdone : (layers g.edges (groupsOf g.nodes)).2 = []) (hu : u ∈ groupsOf g.nodes) :
    ∃ k, Layer g.edges (groupsOf g.nodes) k u := by
  have hperm := layers_perm g.edges (groupsOf g.nodes)
  rw [hdone, List.append_nil] at hperm
  exact exists_layer (hperm.mem_iff.2 hu)

theorem le_layer_of_path (hclosed : g.Closed) (hdone : (layers g.edges (groupsOf g.nodes)).2 = []) {v : UnitId} {n : Nat}
    (hpath : g.PathInto v n) (h : Layer g.edges (groupsOf g.nodes) k u) (ha : u.contains a = true) (hunit : a.unit = v) :
    n ≤ k := by
  induction hpath generalizing k u a with
  | here => exact Nat.zero_le _
  | step _ hleads ih =>
    obtain ⟨hne, b, c, hedge, rfl, rfl⟩ := hleads
    obtain ⟨hb, hc⟩ := hclosed b c hedge
    obtain ⟨w, hw, hwb⟩ := (contains_iff_covers g b).1 hb
    obtain ⟨j, hj⟩ := layer_of_done hdone hw
    have huc : u.contains c = true := (mem_group_iff h.mem ha).2 ⟨hc, hunit⟩
    have hub : u.contains b = false := by
      by_contra hub
      exact hne ((mem_group_iff h.mem (by simpa using hub)).1 huc).2
    exact Nat.succ_le_of_lt ((ih hj hwb rfl).trans_lt (h.lt hj ⟨b, c, hedge, huc, hub, hwb⟩))

theorem depth_of_layer (hclosed : g.Closed) (hdone : (layers g.edges (groupsOf g.nodes)).2 = [])
    (h : Layer g.edges (groupsOf g.nodes) k u) (ha : u.contains a = true) : g.Depth a.unit k :=
  ⟨path_of_layer h ha, fun _ hpath => le_layer_of_path hclosed hdone hpath h ha rfl⟩

theorem mem_nodes_of_group (hu : u ∈ groupsOf g.nodes) {n : Node} (hn : n ∈ u.members) : n ∈ g.nodes :=
  (groupsOf_perm g.nodes).mem_iff.1 (List.mem_flatMap.2 ⟨u, hu, hn⟩)

theorem named_of_group (hids : (g.nodes.map (·.id)).Nodup) (hu : u ∈ groupsOf g.nodes) (ha : u.contains a = true) :
    g.Named a.unit u.name := by
  obtain ⟨⟨n, hn, hname⟩, hsmallest⟩ := Group.name_smallest (groupsOf_members_ne_nil g.nodes u hu)
  have hcontains : ∀ {n}, n ∈ u.members → u.contains n.id = true := fun hn => Group.contains_iff.2 ⟨_, hn, rfl⟩
  refine ⟨⟨n, mem_nodes_of_group hu hn, ((mem_group_iff hu ha).1 (hcontains hn)).2.symm, hname⟩, fun m hm hunit => ?_⟩
  have hcm : u.contains m.id = true := (mem_group_iff hu ha).2 ⟨by simpa [Graph.contains] using ⟨m, hm, rfl⟩, hunit.symm⟩
  obtain ⟨m', hm', hid⟩ := Group.contains_iff.1 hcm
  exact List.inj_on_of_nodup_map hids (mem_nodes_of_group hu hm') hm hid ▸ hsmallest m' hm'

/-- No two groups share a name. -/
theorem names_ne (hids : (g.nodes.map (·.id)).Nodup) : (groupsOf g.nodes).Pairwise fun u v => u.name ≠ v.name := by
  have hall : ((groupsOf g.nodes).flatMap fun u => u.members.map (·.id)).Nodup := by
    rw [← List.map_flatMap]
    exact ((groupsOf_perm g.nodes).map _).nodup_iff.2 hids
  refine (List.nodup_flatMap.1 hall).2.imp_of_mem fun {u v} hu hv hdisjoint hname => ?_
  obtain ⟨⟨n, hn, hnu⟩, -⟩ := Group.name_smallest (groupsOf_members_ne_nil g.nodes u hu)
  obtain ⟨⟨m, hm, hmv⟩, -⟩ := Group.name_smallest (groupsOf_members_ne_nil g.nodes v hv)
  have hid : n.id = m.id := Node.id_of_name (by rw [hnu, hmv, hname])
  exact List.disjoint_left.1 hdisjoint (List.mem_map_of_mem hn) (hid ▸ List.mem_map_of_mem hm)

theorem sorted_by_name {layer : List Group} (h : layer.Pairwise fun u v => u.name ≠ v.name) :
    (layer.mergeSort fun a b => decide (a.name ≤ b.name)).Pairwise fun u v => u.name < v.name := by
  have hsorted : (layer.mergeSort fun a b => decide (a.name ≤ b.name)).Pairwise fun u v => decide (u.name ≤ v.name) = true :=
    List.pairwise_mergeSort (fun a b c hab hbc => decide_eq_true ((of_decide_eq_true hab).trans (of_decide_eq_true hbc)))
      (fun a b => by simpa using le_total a.name b.name) layer
  have hne := (List.mergeSort_perm layer fun a b => decide (a.name ≤ b.name)).symm.pairwise h fun hne => hne.symm
  exact hsorted.imp₂ (fun u v hle hne => lt_of_le_of_ne (of_decide_eq_true hle) hne) hne

end Groups

end Graph

/-! ## Canonical schedules -/

/-- What two steps have in common that differ at most in the order in which a group is listed. -/
structure Step.Alike (x y : Step) : Prop where
  coProcess : x.coProcess = y.coProcess
  nodes : x.nodes.Perm y.nodes
  single : x.coProcess = false → x = y

namespace Schedule

/-- The schedule is an order of a graph in which the units come by the length of the
longest way into them, and those of one length by name. -/
structure Canonical (s : Schedule) (g : Graph) : Prop extends s.Orders g where
  filled : ∀ step ∈ s.steps, step.nodes ≠ []
  ranked : ∀ id, g.contains id = true → ∃ k name, g.Depth id.unit k ∧ g.Named id.unit name
  sorted : s.steps.Pairwise fun x y => ∀ a ∈ x.nodes, ∀ b ∈ y.nodes, g.Before a.unit b.unit

end Schedule

/-- The unit of a step's first node. -/
def Step.unit (x : Step) : UnitId := x.nodes.head?.elim .loops NodeId.unit

namespace Schedule

variable {s s' : Schedule} {g g' : Graph}

theorem Canonical.unit_eq (h : s.Canonical g) {x : Step} (hx : x ∈ s.steps) {a : NodeId} (ha : a ∈ x.nodes) :
    x.unit = a.unit := by
  have hwhole := h.whole x hx a ha
  unfold Step.unit
  cases hnodes : x.nodes with
  | nil => exact absurd hnodes (h.filled x hx)
  | cons b rest => exact ((hwhole b).1 (hnodes ▸ List.mem_cons_self)).2.symm

theorem Canonical.exists_node (h : s.Canonical g) {x : Step} (hx : x ∈ s.steps) : ∃ a ∈ x.nodes, x.unit = a.unit := by
  obtain ⟨a, ha⟩ := List.exists_mem_of_ne_nil _ (h.filled x hx)
  exact ⟨a, ha, h.unit_eq hx ha⟩

theorem Canonical.mem_nodes (h : s.Canonical g) {x : Step} (hx : x ∈ s.steps) {b : NodeId} :
    b ∈ x.nodes ↔ g.contains b = true ∧ x.unit = b.unit := by
  obtain ⟨a, ha, hunit⟩ := h.exists_node hx
  rw [hunit]
  exact h.whole x hx a ha b

/-- The units of a canonical schedule, each of them once. -/
theorem Canonical.units (h : s.Canonical g) :
    (s.steps.map Step.unit).Pairwise g.Before ∧
      ∀ u, u ∈ s.steps.map Step.unit ↔ ∃ id, g.contains id = true ∧ id.unit = u := by
  constructor
  · refine List.pairwise_map.2 (h.sorted.imp_of_mem fun {x y} hx hy hbefore => ?_)
    obtain ⟨a, ha, hxa⟩ := h.exists_node hx
    obtain ⟨b, hb, hyb⟩ := h.exists_node hy
    rw [hxa, hyb]
    exact hbefore a ha b hb
  · intro u
    rw [List.mem_map]
    constructor
    · rintro ⟨x, hx, rfl⟩
      obtain ⟨a, ha, hunit⟩ := h.exists_node hx
      exact ⟨a, ((h.mem_nodes hx).1 ha).1, hunit.symm⟩
    · rintro ⟨id, hid, rfl⟩
      have hmem : id ∈ s.steps.flatMap (·.nodes) := by
        rw [h.complete.mem_iff]
        simpa [Graph.contains] using hid
      obtain ⟨x, hx, hin⟩ := List.mem_flatMap.1 hmem
      exact ⟨x, hx, h.unit_eq hx hin⟩

/-- Two canonical schedules of one graph list the same units, in whatever order its nodes
and edges are given. -/
theorem Canonical.units_eq (h : s.Canonical g) (h' : s'.Canonical g') (hg : g.Alike g') :
    s.steps.map Step.unit = s'.steps.map Step.unit := by
  have hnodup : ∀ {g : Graph} {units : List UnitId}, units.Pairwise g.Before → units.Nodup :=
    fun hunits => hunits.imp fun hbefore heq => by
      subst heq
      exact hbefore.asymm hbefore
  obtain ⟨hsorted, hmem⟩ := h.units
  obtain ⟨hsorted', hmem'⟩ := h'.units
  have hperm : (s.steps.map Step.unit).Perm (s'.steps.map Step.unit) := by
    refine (List.perm_ext_iff_of_nodup (hnodup hsorted) (hnodup hsorted')).2 fun u => ?_
    rw [hmem, hmem']
    simp only [hg.contains]
  exact hperm.eq_of_pairwise (fun u v _ _ huv hvu => absurd hvu huv.asymm) hsorted
    (hsorted'.imp fun hbefore => hg.symm.before hbefore)

theorem Canonical.alike_of_unit (h : s.Canonical g) (h' : s'.Canonical g') (hg : g.Alike g') {x y : Step}
    (hx : x ∈ s.steps) (hy : y ∈ s'.steps) (hunit : x.unit = y.unit) : x.Alike y := by
  have honce : ∀ {s : Schedule} {g : Graph}, s.Canonical g → ∀ {x : Step}, x ∈ s.steps → x.nodes.Nodup :=
    fun h x hx => (List.nodup_flatMap.1 h.once).1 x hx
  have hnodes : x.nodes.Perm y.nodes := by
    refine (List.perm_ext_iff_of_nodup (honce h hx) (honce h' hy)).2 fun b => ?_
    rw [h.mem_nodes hx, h'.mem_nodes hy, hg.contains, hunit]
  obtain ⟨a, ha, hxa⟩ := h.exists_node hx
  have hco : x.coProcess = y.coProcess := by
    rw [h.coProcess x hx a ha, h'.coProcess y hy a (hnodes.mem_iff.1 ha)]
  refine ⟨hco, hnodes, fun hsingle => ?_⟩
  -- a unit that is no group has one node
  have hall : ∀ b ∈ x.nodes, b = a := by
    intro b hb
    rcases Graph.unit_eq_iff.1 (((h.whole x hx a ha) b).1 hb).2 with heq | ⟨hloop, -⟩
    · exact heq.symm
    · rw [← h.coProcess x hx a ha, hsingle] at hloop
      cases hloop
  have hx1 : x.nodes = [a] := by
    have hreplicate := List.eq_replicate_of_mem hall
    have hone : x.nodes.length ≤ 1 := List.nodup_replicate.1 (hreplicate ▸ honce h hx)
    have hpos : 0 < x.nodes.length := List.length_pos_of_mem ha
    rw [hreplicate, show x.nodes.length = 1 by omega]
    rfl
  have hy1 : y.nodes = [a] := List.perm_singleton.1 (hx1 ▸ hnodes).symm
  obtain ⟨xs, xco⟩ := x
  obtain ⟨ys, yco⟩ := y
  subst hx1 hy1 hco
  rfl

theorem Canonical.alike (h : s.Canonical g) (h' : s'.Canonical g') (hg : g.Alike g') :
    List.Forall₂ Step.Alike s.steps s'.steps := by
  have hunits := h.units_eq h' hg
  have hlength : s.steps.length = s'.steps.length := by simpa using congrArg List.length hunits
  refine List.forall₂_iff_get.2 ⟨hlength, fun i hi hi' => ?_⟩
  refine h.alike_of_unit h' hg (List.get_mem _ _) (List.get_mem _ _) ?_
  have hat := congrArg (·[i]?) hunits
  simpa [hi, hi'] using hat

end Schedule

namespace Graph

theorem inOrder_canonical {g : Graph} (h : g.Proper) (generation : Nat)
    (hdone : (layers g.edges (groupsOf g.nodes)).2 = []) : (g.inOrder generation).Canonical g where
  toOrders := inOrder_orders h.closed h.nodup generation hdone
  filled := fun step hstep => by
    obtain ⟨u, hu, rfl⟩ := List.mem_map.1 hstep
    simpa [Group.step] using groupsOf_members_ne_nil _ u ((ordered_perm hdone).mem_iff.1 hu)
  ranked := fun id hid => by
    obtain ⟨u, hu, hcontains⟩ := (contains_iff_covers g id).1 hid
    obtain ⟨k, hk⟩ := layer_of_done hdone hu
    exact ⟨k, u.name, depth_of_layer h.closed hdone hk hcontains, named_of_group h.nodup hu hcontains⟩
  sorted := by
    have hlayers := layers_pairwise g.edges (groupsOf g.nodes) (fun layer => List.mergeSort_perm layer _)
      fun layer hlayer => sorted_by_name ((names_ne h.nodup).sublist hlayer)
    refine List.pairwise_map.2 (hlayers.imp ?_)
    rintro u v ⟨j, k, hu, hv, hlt⟩ a ha b hb
    rw [Group.mem_step] at ha hb
    exact ⟨j, k, u.name, v.name, depth_of_layer h.closed hdone hu ha, named_of_group h.nodup hu.mem ha,
      depth_of_layer h.closed hdone hv hb, named_of_group h.nodup hv.mem hb, hlt⟩

theorem exists_canonical {g : Graph} (h : g.Proper) (hacyclic : ¬g.Cyclic) (generation : Nat) :
    ∃ s, g.schedule generation = .ok s ∧ s.Canonical g := by
  obtain ⟨s, hs⟩ := (schedule_ok_iff g generation).2 ((ordered_iff_not_cyclic h.closed).2 hacyclic)
  rw [schedule_eq] at hs
  split_ifs at hs with hdone
  exact ⟨_, (schedule_eq g generation).trans (if_pos hdone), inOrder_canonical h generation hdone⟩

theorem proper_ofTopology (t : Topology) : (ofTopology t).Proper := ⟨closed_ofTopology t, nodup_ofTopology t⟩

/-- Where a way from unit to unit starts at a single node of a topology, nodes lead along it. -/
theorem way_of_leads {t : Topology} {a : NodeId} {v : UnitId}
    (h : Relation.TransGen (ofTopology t).Leads a.unit v) (ha : a.coProcessed = false) :
    ∃ b, b.unit = v ∧ b.coProcessed = false ∧ Relation.TransGen (fun x y => (x, y) ∈ (ofTopology t).edges) a b := by
  have hsame : ∀ {a b : NodeId}, a.coProcessed = false → b.unit = a.unit → b = a := by
    intro a b ha hunit
    rcases unit_eq_iff.1 hunit with heq | ⟨-, hloop⟩
    · exact heq
    · rw [ha] at hloop
      cases hloop
  have hsingle : ∀ {x y : NodeId}, (x, y) ∈ (ofTopology t).edges → y.coProcessed = false :=
    fun hedge => ((mem_edges t _ _).1 hedge).1.target_single
  induction h with
  | single h =>
    obtain ⟨-, x, y, hedge, hx, rfl⟩ := h
    obtain rfl := hsame ha hx
    exact ⟨y, rfl, hsingle hedge, .single hedge⟩
  | tail _ h ih =>
    obtain ⟨b, rfl, hb, hway⟩ := ih
    obtain ⟨-, x, y, hedge, hx, rfl⟩ := h
    obtain rfl := hsame hb hx
    exact ⟨y, rfl, hsingle hedge, hway.tail hedge⟩

/-- Data reaches no loop, so a cycle of units is one of nodes. -/
theorem cycle_of_cyclic {t : Topology} (h : (ofTopology t).Cyclic) :
    ∃ id, Relation.TransGen (fun x y => (x, y) ∈ (ofTopology t).edges) id id := by
  obtain ⟨u, hcycle⟩ := h
  obtain ⟨-, -, -, x, a, hedge, -, rfl⟩ := (Relation.TransGen.tail'_iff.1 hcycle)
  have ha := ((mem_edges t _ _).1 hedge).1.target_single
  obtain ⟨b, hunit, hb, hway⟩ := way_of_leads hcycle ha
  rcases unit_eq_iff.1 hunit with rfl | ⟨hloop, -⟩
  · exact ⟨b, hway⟩
  · rw [hb] at hloop
    cases hloop

/-- The schedule of a graph without cycles lists its units by the length of the longest way into them, and those of one
length by the smallest name of their nodes; no two units share both. So it is the same, but for the order within the
step of the loops, in whatever order the nodes and edges are given. The graphs of topologies are such graphs unless
edges lead from a node back to it. -/
theorem schedules_canonical :
    (∀ t : Topology, (ofTopology t).Proper ∧
      ((∀ id, ¬Relation.TransGen (fun x y => (x, y) ∈ (ofTopology t).edges) id id) → ¬(ofTopology t).Cyclic)) ∧
    (∀ g : Graph, g.Proper → ¬g.Cyclic → ∀ generation, ∃ s, g.schedule generation = .ok s ∧ s.Canonical g) ∧
    (∀ g g' : Graph, g.Proper → ¬g.Cyclic → g.Alike g' → ∀ generation generation', ∃ s s',
      g.schedule generation = .ok s ∧ g'.schedule generation' = .ok s' ∧ List.Forall₂ Step.Alike s.steps s'.steps) := by
  refine ⟨fun t => ⟨proper_ofTopology t, fun hacyclic hcyclic => ?_⟩, fun g => exists_canonical,
    fun g g' hproper hacyclic halike generation generation' => ?_⟩
  · obtain ⟨id, hid⟩ := cycle_of_cyclic hcyclic
    exact hacyclic id hid
  · obtain ⟨s, hs, hcanonical⟩ := exists_canonical hproper hacyclic generation
    obtain ⟨s', hs', hcanonical'⟩ :=
      exists_canonical (halike.proper hproper) (mt halike.cyclic.2 hacyclic) generation'
    exact ⟨s, s', hs, hs', hcanonical.alike hcanonical' halike⟩

/-- Two inputs that pass into an output in an order of their own, and two loops, of which one has a channel. -/
def mixing (sources : List PortKey) : Topology where
  ports := (((Arena.empty.insert { name := "b", dataType := .audio, direction := .input, owner := .driver }).2.insert
    { name := "a", dataType := .audio, direction := .input, owner := .driver }).2.insert
    { name := "", dataType := .audio, direction := .output, owner := .driver, sources }).2
  loops := ((Arena.empty.insert {}).2.insert { channels := [⟨0, 0⟩] }).2
  channels := (Arena.empty.insert { loop := ⟨1, 0⟩, dataType := .audio, input := some ⟨1, 0⟩, output := some ⟨2, 0⟩ }).2

theorem schedules_canonical_mixing :
    let g := ofTopology (mixing [⟨0, 0⟩, ⟨1, 0⟩])
    let g' := ofTopology (mixing [⟨1, 0⟩, ⟨0, 0⟩])
    g.edges ≠ g'.edges ∧ (∃ s, g.schedule 1 = .ok s ∧ s.Canonical g) ∧
      ∃ s s', g.schedule 1 = .ok s ∧ g'.schedule 2 = .ok s' ∧ List.Forall₂ Step.Alike s.steps s'.steps := by
  obtain ⟨hproper, hcanonical, halike⟩ := schedules_canonical
  intro g g'
  have hacyclic : ¬g.Cyclic := by
    have hok : (g.schedule 1).isOk = true := by decide +kernel
    refine (ordered_iff_not_cyclic (hproper _).1.closed).1 ((schedule_ok_iff g 1).1 ?_)
    cases h : g.schedule 1 with
    | error e =>
      rw [h] at hok
      cases hok
    | ok s => exact ⟨s, rfl⟩
  have hsame : g.Alike g' := ⟨.refl _, fun e => List.Perm.mem_iff (by decide +kernel)⟩
  exact ⟨by decide +kernel, hcanonical g (hproper _).1 hacyclic 1, halike g g' (hproper _).1 hacyclic hsame 1 2⟩

end Graph

end Overdub
