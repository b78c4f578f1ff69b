import Mathlib
import Overdub.Graph.Schedule
/-!
# Names of nodes and groups

A node is named by its key and what its user calls it. The key alone tells it from
every other node: a text is cut where its characters stop being of a kind, which
gives back the sort of object, the slot, the generation and what the node does for
the object (`Node.id_of_name`). A group is named by the smallest name in it.
-/

namespace Overdub

/-! ## Names tell nodes apart -/

/-- Equal lists fall apart at the same place if each does where the elements stop being of a kind. -/
theorem append_inj_of_all {α : Type} {p : α → Bool} {l l' r r' : List α} (hl : ∀ a ∈ l, p a = true)
    (hl' : ∀ a ∈ l', p a = true) (hr : ∀ a ∈ r.head?, p a = false) (hr' : ∀ a ∈ r'.head?, p a = false)
    (h : l ++ r = l' ++ r') : l = l' ∧ r = r' := by
  have hstop : ∀ {r : List α}, (∀ a ∈ r.head?, p a = false) → r.takeWhile p = [] := by
    intro r hr
    cases r with
    | nil => rfl
    | cons a r => rw [List.takeWhile_cons_of_neg (by simp [hr a rfl])]
  have hfront := congrArg (List.takeWhile p) h
  rw [List.takeWhile_append_of_pos hl, List.takeWhile_append_of_pos hl', hstop hr, hstop hr', List.append_nil,
    List.append_nil] at hfront
  subst hfront
  exact ⟨rfl, List.append_cancel_left h⟩

namespace NodeId

/-- What the key of a node is a key of. -/
def kind : NodeId → ObjectKind
  | portPrepare _ | portProcess _ => .port
  | loop _ => .loop
  | channel _ => .channel
  | chain _ => .chain

/-- The slot of a node's key and its generation. -/
def slot : NodeId → Nat × UInt32
  | portPrepare key | portProcess key => (key.index, key.generation)
  | loop key => (key.index, key.generation)
  | channel key => (key.index, key.generation)
  | chain key => (key.index, key.generation)

/-- What is written behind the key. -/
def stage : NodeId → String
  | portPrepare _ => "/prepare"
  | portProcess _ => "/process"
  | _ => ""

theorem ext_parts {a b : NodeId} (hkind : a.kind = b.kind) (hslot : a.slot = b.slot) (hstage : a.stage = b.stage) :
    a = b := by
  rcases a with ⟨i, u⟩ | ⟨i, u⟩ | ⟨i, u⟩ | ⟨i, u⟩ | ⟨i, u⟩ <;>
    rcases b with ⟨j, v⟩ | ⟨j, v⟩ | ⟨j, v⟩ | ⟨j, v⟩ | ⟨j, v⟩ <;>
      simp_all [kind, slot, stage]

end NodeId

namespace Node

/-- What is written behind a node. -/
def note (n : Node) : String := if n.label.isEmpty then "" else s!" ({n.label})"

theorem toList_name (n : Node) :
    n.name.toList = n.id.kind.label.toList ++ '#' :: (Nat.toDigits 10 n.id.slot.1 ++
      'v' :: (Nat.toDigits 10 n.id.slot.2.toNat ++ (n.id.stage.toList ++ n.note.toList))) := by
  have hname : n.name = n.id.text ++ n.note := by
    unfold name note
    split_ifs
    · simp
    · simp [String.append_assoc, toString]
  have htext : n.id.text.toList = n.id.kind.label.toList ++ '#' :: (Nat.toDigits 10 n.id.slot.1 ++
      'v' :: (Nat.toDigits 10 n.id.slot.2.toNat ++ n.id.stage.toList)) := by
    cases n.id <;>
      simp [NodeId.text, Key.text, Key.slotText, NodeId.kind, NodeId.slot, NodeId.stage, toString,
        Nat.repr_eq_ofList_toDigits]
  rw [hname, String.toList_append, htext]
  simp

theorem name_ne_empty (n : Node) : n.name ≠ "" := by
  intro h
  have hlist := n.toList_name
  rw [h] at hlist
  simp at hlist

theorem head?_note (n : Node) : ∀ c ∈ n.note.toList.head?, c = ' ' := by
  unfold note
  split_ifs
  · simp
  · simp [toString]

/-- No two nodes share a name, whatever their users call them. -/
theorem id_of_name {m n : Node} (h : m.name = n.name) : m.id = n.id := by
  have hdigits : ∀ i : Nat, ∀ c ∈ Nat.toDigits 10 i, c.isDigit = true :=
    fun i c => Nat.isDigit_of_mem_toDigits (by omega) (by omega)
  have hlabel : ∀ kind : ObjectKind, ∀ c ∈ kind.label.toList, (c != '#') = true := by
    intro kind
    cases kind <;> simp [ObjectKind.label]
  have hstage : ∀ id : NodeId, ∀ c ∈ id.stage.toList, (c != ' ') = true := by
    intro id
    cases id <;> simp [NodeId.stage]
  have hbehind : ∀ n : Node, ∀ c ∈ (n.id.stage.toList ++ n.note.toList).head?, c.isDigit = false := by
    intro n
    have hnote := n.head?_note
    cases n.id <;> simp_all [NodeId.stage]
  replace h := congrArg String.toList h
  rw [toList_name, toList_name] at h
  obtain ⟨hkind, h⟩ := append_inj_of_all (hlabel _) (hlabel _) (by simp) (by simp) h
  obtain ⟨hindex, h⟩ := append_inj_of_all (hdigits _) (hdigits _) (by simp) (by simp) (List.cons.inj h).2
  obtain ⟨hgeneration, h⟩ := append_inj_of_all (hdigits _) (hdigits _) (hbehind m) (hbehind n) (List.cons.inj h).2
  obtain ⟨hstages, -⟩ := append_inj_of_all (hstage _) (hstage _) (by simpa using m.head?_note)
    (by simpa using n.head?_note) h
  refine NodeId.ext_parts ?_ (Prod.ext ?_ ?_) (String.toList_inj.1 hstages)
  · revert hkind
    cases m.id.kind <;> cases n.id.kind <;> decide
  · exact Nat.repr_injective (by rw [Nat.repr_eq_ofList_toDigits, hindex, Nat.repr_eq_ofList_toDigits])
  · refine UInt32.toNat_inj.1 (Nat.repr_injective ?_)
    rw [Nat.repr_eq_ofList_toDigits, hgeneration, Nat.repr_eq_ofList_toDigits]

end Node

/-! ## The smallest name of a group -/

namespace Graph

theorem foldr_smallest (names : List String) (hfull : ∀ x ∈ names, x ≠ "") (hne : names ≠ []) :
    names.foldr (fun a b => if b.isEmpty || a ≤ b then a else b) "" ∈ names ∧
      ∀ x ∈ names, names.foldr (fun a b => if b.isEmpty || a ≤ b then a else b) "" ≤ x := by
  induction names with
  | nil => exact absurd rfl hne
  | cons a rest ih =>
    rw [List.forall_mem_cons] at hfull
    by_cases hrest : rest = []
    · subst hrest
      simp
    · obtain ⟨hmem, hle⟩ := ih hfull.2 hrest
      simp only [List.foldr_cons]
      generalize rest.foldr (fun a b => if b.isEmpty || a ≤ b then a else b) "" = b at hmem hle ⊢
      have hb : b.isEmpty = false := by simpa using hfull.2 b hmem
      rw [hb, Bool.false_or]
      split_ifs with hab
      · have hab := of_decide_eq_true hab
        exact ⟨List.mem_cons_self, List.forall_mem_cons.2 ⟨le_refl a, fun x hx => hab.trans (hle x hx)⟩⟩
      · have hba := le_of_lt (lt_of_not_ge fun h => hab (decide_eq_true h))
        exact ⟨List.mem_cons_of_mem _ hmem, List.forall_mem_cons.2 ⟨hba, hle⟩⟩

theorem Group.name_smallest {u : Group} (h : u.members ≠ []) :
    (∃ n ∈ u.members, n.name = u.name) ∧ ∀ n ∈ u.members, u.name ≤ n.name := by
  have hfull : ∀ x ∈ u.members.map (·.name), x ≠ "" := by
    intro x hx
    obtain ⟨n, -, rfl⟩ := List.mem_map.1 hx
    exact n.name_ne_empty
  obtain ⟨hmem, hle⟩ := foldr_smallest _ hfull (by simpa using h)
  exact ⟨List.mem_map.1 hmem, fun n hn => hle _ (List.mem_map_of_mem hn)⟩

end Graph

end Overdub
