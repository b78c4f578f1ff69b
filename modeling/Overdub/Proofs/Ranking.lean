import Mathlib
import Overdub.Graph.Schedule
/-!
# Which graphs have a processing order

Forming layers succeeds exactly when the nodes can be ranked: nodes of one unit
share a rank, and every edge between two units leads to a higher one. The layers
themselves are such a ranking, and where there is one, a group of the lowest rank
among those that are left waits for nobody, so no group is ever stuck.
-/

namespace Overdub.Graph

/-- Two nodes are ordered as one. -/
def SameUnit (a b : NodeId) : Prop := a = b ∨ a.coProcessed = true ∧ b.coProcessed = true

theorem SameUnit.symm {a b : NodeId} (h : SameUnit a b) : SameUnit b a := h.imp Eq.symm And.symm

/-- The known nodes of a unit share their rank, and every edge from one unit to another leads to a higher one. -/
structure RanksOn (edges : List (NodeId × NodeId)) (known : NodeId → Prop) (rank : NodeId → Nat) : Prop where
  unit : ∀ a b, known a → known b → SameUnit a b → rank a = rank b
  edge : ∀ a b, (a, b) ∈ edges → known a → known b → ¬SameUnit a b → rank a < rank b

/-- A ranking of the nodes of a graph. -/
def Ranks (g : Graph) (rank : NodeId → Nat) : Prop := RanksOn g.edges (g.contains · = true) rank

/-- Some order of processing exists for a graph. -/
def Ordered (g : Graph) : Prop := ∃ rank, g.Ranks rank

/-! ## Groups are units -/

/-- A node of one of the groups. -/
def Covers (groups : List Group) (id : NodeId) : Prop := ∃ u ∈ groups, u.contains id = true

/-- The groups hold whole units. -/
structure Units (groups : List Group) : Prop where
  same : ∀ u ∈ groups, ∀ a b, u.contains a = true → u.contains b = true → SameUnit a b
  whole : ∀ u ∈ groups, ∀ a b, u.contains a = true → Covers groups b → SameUnit a b → u.contains b = true

theorem Units.sublist {groups groups' : List Group} (h : Units groups) (hs : ∀ u ∈ groups', u ∈ groups) :
    Units groups' :=
  ⟨fun u hu => h.same u (hs u hu), fun u hu a b ha ⟨v, hv, hb⟩ => h.whole u (hs u hu) a b ha ⟨v, hs v hv, hb⟩⟩

theorem Group.contains_iff {u : Group} {id : NodeId} : u.contains id = true ↔ ∃ n ∈ u.members, n.id = id := by
  simp [Group.contains]

theorem covers_cons {u : Group} {groups : List Group} {id : NodeId} :
    Covers (u :: groups) id ↔ u.contains id = true ∨ Covers groups id := by simp [Covers]

theorem mem_companions {n m : Node} {nodes : List Node} :
    m ∈ companions n nodes ↔ m ∈ nodes ∧ n.id.coProcessed = true ∧ m.id.coProcessed = true := by
  simp [companions, together]

theorem mem_strangers {n m : Node} {nodes : List Node} :
    m ∈ strangers n nodes ↔ m ∈ nodes ∧ ¬(n.id.coProcessed = true ∧ m.id.coProcessed = true) := by
  simp only [strangers, List.mem_filter, together, Bool.not_eq_true', Bool.and_eq_false_iff, not_and_or,
    Bool.not_eq_true]

theorem covers_groupsOf (nodes : List Node) (id : NodeId) : Covers (groupsOf nodes) id ↔ ∃ n ∈ nodes, n.id = id := by
  fun_induction groupsOf nodes with
  | case1 => simp [Covers]
  | case2 n rest ih =>
    rw [covers_cons, ih, List.exists_mem_cons_iff, Group.contains_iff, List.exists_mem_cons_iff, or_assoc]
    refine or_congr_right ⟨?_, ?_⟩
    · rintro (⟨m, hm, hid⟩ | ⟨m, hm, hid⟩)
      · exact ⟨m, (mem_companions.1 hm).1, hid⟩
      · exact ⟨m, (mem_strangers.1 hm).1, hid⟩
    · rintro ⟨m, hm, hid⟩
      by_cases ht : n.id.coProcessed = true ∧ m.id.coProcessed = true
      · exact .inl ⟨m, mem_companions.2 ⟨hm, ht⟩, hid⟩
      · exact .inr ⟨m, mem_strangers.2 ⟨hm, ht⟩, hid⟩

/-- A group has one node, or nothing but loops. -/
theorem same_of_group (n : Node) (rest : List Node) {a : NodeId}
    (ha : (⟨n :: companions n rest, n.id.coProcessed⟩ : Group).contains a = true) :
    a = n.id ∨ n.id.coProcessed = true ∧ a.coProcessed = true := by
  obtain ⟨m, hm, rfl⟩ := Group.contains_iff.1 ha
  rcases List.mem_cons.1 hm with rfl | hm
  · exact .inl rfl
  · exact .inr (mem_companions.1 hm).2

/-- Dividing nodes into groups keeps the loops together. -/
theorem units_groupsOf (nodes : List Node) : Units (groupsOf nodes) := by
  fun_induction groupsOf nodes with
  | case1 => exact ⟨List.forall_mem_nil _, List.forall_mem_nil _⟩
  | case2 n rest ih =>
    have hstranger : ∀ id, Covers (groupsOf (strangers n rest)) id →
        ¬(n.id.coProcessed = true ∧ id.coProcessed = true) := by
      intro id hid
      obtain ⟨m, hm, rfl⟩ := (covers_groupsOf _ id).1 hid
      exact (mem_strangers.1 hm).2
    refine ⟨List.forall_mem_cons.2 ⟨fun a b ha hb => ?_, ih.same⟩,
      List.forall_mem_cons.2 ⟨fun a b ha hb hab => ?_, fun u hu a b ha hb hab => ?_⟩⟩
    · rcases same_of_group n rest ha with rfl | ⟨hn, ha⟩
      · exact (same_of_group n rest hb).imp Eq.symm id
      · rcases same_of_group n rest hb with rfl | ⟨-, hb⟩
        · exact .inr ⟨ha, hn⟩
        · exact .inr ⟨ha, hb⟩
    · rcases hab with rfl | ⟨hca, hcb⟩
      · exact ha
      · have hn : n.id.coProcessed = true := (same_of_group n rest ha).elim (· ▸ hca) And.left
        exact (covers_cons.1 hb).elim id fun hb => absurd ⟨hn, hcb⟩ (hstranger b hb)
    · rcases hab with rfl | ⟨hca, hcb⟩
      · exact ha
      · have hn : ¬n.id.coProcessed = true := fun hn => hstranger a ⟨u, hu, ha⟩ ⟨hn, hca⟩
        refine (covers_cons.1 hb).elim (fun hb => absurd ?_ hn) fun hb => ih.whole u hu a b ha hb (.inr ⟨hca, hcb⟩)
        exact (same_of_group n rest hb).elim (· ▸ hcb) And.left

/-! ## Layers rank the nodes -/

theorem waits_iff {edges : List (NodeId × NodeId)} {pending : List Group} {u : Group} :
    waits edges pending u = true ↔
      ∃ a b, (a, b) ∈ edges ∧ u.contains b = true ∧ u.contains a = false ∧ Covers pending a := by
  simp [waits, Covers, and_assoc]

theorem mem_blocked {edges : List (NodeId × NodeId)} {pending : List Group} {u : Group} :
    u ∈ blocked edges pending ↔ u ∈ pending ∧ waits edges pending u = true := List.mem_filter

/-- Groups that all become ready are ranked by the number of layers that they wait for. -/
theorem ranks_of_layers {edges : List (NodeId × NodeId)} {pending : List Group} (hunits : Units pending)
    (hdone : (layers edges pending).2 = []) : ∃ rank, RanksOn edges (Covers pending) rank := by
  fun_induction layers edges pending with
  | case1 pending hlt later stuck hlayers ih =>
    have hsub : ∀ u ∈ blocked edges pending, u ∈ pending := fun u hu => (mem_blocked.1 hu).1
    obtain ⟨rank, hrank⟩ := ih (hunits.sublist hsub) (by rw [hlayers]; exact hdone)
    classical
    refine ⟨fun id => if Covers (blocked edges pending) id then rank id + 1 else 0,
      ⟨fun a b ha hb hab => ?_, fun a b hedge ha hb hab => ?_⟩⟩
    · have hiff : Covers (blocked edges pending) a ↔ Covers (blocked edges pending) b :=
        ⟨fun ⟨u, hu, hua⟩ => ⟨u, hu, hunits.whole u (hsub u hu) a b hua hb hab⟩,
          fun ⟨u, hu, hub⟩ => ⟨u, hu, hunits.whole u (hsub u hu) b a hub ha hab.symm⟩⟩
      by_cases hca : Covers (blocked edges pending) a
      · simp only [hca, hiff.1 hca, if_true, hrank.unit a b hca (hiff.1 hca) hab]
      · simp only [hca, mt hiff.2 hca, if_false]
    · -- what waits for a pending group is not of this layer
      obtain ⟨u, hu, hub⟩ := hb
      have hua : u.contains a = false := by
        by_contra hua
        exact hab (hunits.same u hu a b (by simpa using hua) hub)
      have hcb : Covers (blocked edges pending) b :=
        ⟨u, mem_blocked.2 ⟨hu, waits_iff.2 ⟨a, b, hedge, hub, hua, ha⟩⟩, hub⟩
      simp only [hcb, if_true]
      split_ifs with hca
      · exact Nat.succ_lt_succ (hrank.edge a b hedge hca hcb hab)
      · exact Nat.succ_pos _
  | case2 pending hge =>
    subst hdone
    exact ⟨fun _ => 0, ⟨fun _ _ _ _ _ => rfl, fun a b _ ha => absurd ha (by simp [Covers])⟩⟩

/-- Where the nodes can be ranked, every group becomes ready. -/
theorem layers_of_ranks {edges : List (NodeId × NodeId)} {pending : List Group} {rank : NodeId → Nat}
    (hunits : Units pending) (hfull : ∀ u ∈ pending, ∃ a, u.contains a = true)
    (hrank : RanksOn edges (Covers pending) rank) : (layers edges pending).2 = [] := by
  fun_induction layers edges pending with
  | case1 pending hlt later stuck hlayers ih =>
    have hsub : ∀ u ∈ blocked edges pending, u ∈ pending := fun u hu => (mem_blocked.1 hu).1
    have hcovers : ∀ {id}, Covers (blocked edges pending) id → Covers pending id := fun ⟨u, hu, h⟩ => ⟨u, hsub u hu, h⟩
    have hstuck := ih (hunits.sublist hsub) (fun u hu => hfull u (hsub u hu))
      ⟨fun a b ha hb => hrank.unit a b (hcovers ha) (hcovers hb),
        fun a b h ha hb => hrank.edge a b h (hcovers ha) (hcovers hb)⟩
    rwa [hlayers] at hstuck
  | case2 pending hge =>
    by_contra hne
    -- a node of the lowest rank is in a group that waits for nobody
    obtain ⟨v, hv⟩ := List.exists_mem_of_ne_nil pending hne
    obtain ⟨start, hstart⟩ := hfull v hv
    obtain ⟨b, ⟨u, hu, hub⟩, hmin⟩ : ∃ b, Covers pending b ∧ ∀ a, Covers pending a → rank b ≤ rank a := by
      have hsome : ∃ r, ∃ b, Covers pending b ∧ rank b = r := ⟨_, start, ⟨v, hv, hstart⟩, rfl⟩
      classical
      obtain ⟨b, hb, hr⟩ := Nat.find_spec hsome
      exact ⟨b, hb, fun a ha => hr ▸ Nat.find_min' hsome ⟨a, ha, rfl⟩⟩
    have hall : blocked edges pending = pending :=
      List.filter_sublist.eq_of_length_le (Nat.le_of_not_lt hge)
    obtain ⟨a, b', hedge, hub', hua, hca⟩ := waits_iff.1 (mem_blocked.1 (hall.symm ▸ hu : u ∈ blocked edges pending)).2
    have hunit : ¬SameUnit a b' := fun hab => by
      rw [hunits.whole u hu b' a hub' hca hab.symm] at hua
      cases hua
    have hlt := hrank.edge a b' hedge hca ⟨u, hu, hub'⟩ hunit
    have heq := hrank.unit b' b ⟨u, hu, hub'⟩ ⟨u, hu, hub⟩ (hunits.same u hu b' b hub' hub)
    have hle := hmin a hca
    omega

theorem groupsOf_full (nodes : List Node) : ∀ u ∈ groupsOf nodes, ∃ a, u.contains a = true := by
  fun_induction groupsOf nodes with
  | case1 => exact List.forall_mem_nil _
  | case2 n rest ih => exact List.forall_mem_cons.2 ⟨⟨n.id, by simp [Group.contains]⟩, ih⟩

/-- A graph has a schedule exactly when its nodes can be ranked. -/
theorem schedule_ok_iff (g : Graph) (generation : Nat) : (∃ s, g.schedule generation = .ok s) ↔ g.Ordered := by
  have hcovers : Covers (groupsOf g.nodes) = fun id => g.contains id = true := by
    funext id
    rw [covers_groupsOf]
    simp [Graph.contains]
  have hschedule : (∃ s, g.schedule generation = .ok s) ↔ (layers g.edges (groupsOf g.nodes)).2 = [] := by
    unfold schedule
    split
    next hlayers =>
    rw [hlayers]
    split_ifs with h <;> simp_all
  rw [hschedule]
  unfold Ordered Ranks
  rw [← hcovers]
  constructor
  · exact ranks_of_layers (units_groupsOf _)
  · rintro ⟨rank, hrank⟩
    exact layers_of_ranks (units_groupsOf _) (groupsOf_full _) hrank

end Overdub.Graph
