import Mathlib
import Overdub.Proofs.Arena
/-!
# How many values an arena holds

`Arena.Whole` adds to `Arena.Sound` that nothing is forgotten: every vacant slot
is on the free list, and the size is the number of the others. Each operation
keeps it, so that the size is the number of keys that lead to a value.
-/

namespace Overdub.Arena

variable {kind : ObjectKind} {α β : Type}

/-- The free slots are all the vacant ones, and the size counts the others. -/
structure Whole (a : Arena kind α) : Prop extends a.Sound where
  listed : ∀ i generation, a.slots[i]? = some ⟨generation, none⟩ → i ∈ a.free
  counted : a.size = a.slots.countP (·.value.isSome)

theorem empty_whole : (empty : Arena kind α).Whole :=
  { empty_sound with listed := nofun, counted := rfl }

theorem Whole.mem_free {a : Arena kind α} (h : a.Whole) {i : Nat} :
    i ∈ a.free ↔ ∃ generation, a.slots[i]? = some ⟨generation, none⟩ :=
  ⟨h.vacant i, fun ⟨generation, hslot⟩ => h.listed i generation hslot⟩

/-- The size is the number of keys. -/
theorem Whole.length_keys {a : Arena kind α} (h : a.Whole) : a.keys.length = a.size := by
  have hfst : a.slots = a.slots.zipIdx.map Prod.fst := (List.zipIdx_map_fst 0 a.slots).symm
  rw [h.counted, keys, List.length_map, toList, List.length_filterMap_eq_countP]
  conv_rhs => rw [hfst, List.countP_map]
  exact List.countP_congr fun x _ => by simp

/-- What is in one slot changes, and the count with it. -/
theorem countP_set {slots : List (Slot α)} {i : Nat} {old : Slot α} (h : slots[i]? = some old) (new : Slot α) :
    (slots.set i new).countP (·.value.isSome) + (if old.value.isSome then 1 else 0) =
      slots.countP (·.value.isSome) + if new.value.isSome then 1 else 0 := by
  obtain ⟨hlt, rfl⟩ := List.getElem?_eq_some_iff.1 h
  rw [List.countP_set hlt]
  have hpos : slots[i].value.isSome = true → 0 < slots.countP (·.value.isSome) := fun hsome =>
    List.countP_pos_iff.2 ⟨slots[i], List.getElem_mem hlt, hsome⟩
  split_ifs with hold
  all_goals try have hone := hpos hold
  all_goals omega

/-- A slot that holds a value gets another one, or the same again. -/
theorem Whole.refill {a : Arena kind α} (h : a.Whole) {i : Nat} {old new : Slot α} (hslot : a.slots[i]? = some old)
    (hold : old.value.isSome = true) (hnew : new.value.isSome = true) :
    ({ a with slots := a.slots.set i new } : Arena kind α).Whole := by
  have hcount := countP_set hslot new
  have hi : i ∉ a.free := fun hfree => by
    obtain ⟨generation, hvacant⟩ := h.vacant i hfree
    rw [hslot] at hvacant
    cases hvacant
    cases hold
  refine { h.setSlot hi new a.size with listed := fun j generation hj => ?_, counted := ?_ }
  · dsimp only at hj ⊢
    rw [List.getElem?_set] at hj
    split_ifs at hj
    · cases hj
      cases hnew
    · exact h.listed j generation hj
  · dsimp only
    rw [h.counted]
    simp only [hold, hnew, if_true] at hcount
    omega

theorem Whole.modify {a : Arena kind α} (h : a.Whole) (k : Key kind) (f : α → α) : (a.modify k f).Whole := by
  unfold Arena.modify
  split
  · exact h
  · next value hk => exact h.refill (slot_of_get? hk) rfl rfl

theorem Whole.map {a : Arena kind α} (h : a.Whole) (f : α → β) : (a.map f).Whole := by
  refine { h.toSound.map f with listed := fun i generation hi => ?_, counted := ?_ }
  · simp only [Arena.map, List.getElem?_map, Option.map_eq_some_iff] at hi
    obtain ⟨⟨own, value⟩, hslot, heq⟩ := hi
    cases value <;> cases heq
    exact h.listed i own hslot
  · simp only [Arena.map, h.counted, List.countP_map]
    exact List.countP_congr fun x _ => by simp

theorem Whole.erase {a : Arena kind α} (h : a.Whole) (k : Key kind) : (a.erase k).Whole := by
  refine { h.toSound.erase k with listed := ?_, counted := ?_ } <;> unfold Arena.erase remove
  · cases hk : a.get? k with
    | none => exact h.listed
    | some value =>
      intro i generation hi
      dsimp only at hi ⊢
      rw [List.getElem?_set] at hi
      split_ifs at hi with heq hlt
      · exact heq ▸ List.mem_cons_self
      · exact List.mem_cons_of_mem _ (h.listed i generation hi)
  · cases hk : a.get? k with
    | none => exact h.counted
    | some value =>
      have hcount := countP_set (slot_of_get? hk) ⟨k.generation + 1, none⟩
      simp only [Option.isSome_some, Option.isSome_none, if_true, Bool.false_eq_true, if_false] at hcount
      dsimp only
      rw [h.counted]
      omega

theorem Whole.insert {a : Arena kind α} (h : a.Whole) (value : α) : (a.insert value).2.Whole := by
  refine { h.toSound.insert value with listed := ?_, counted := ?_ } <;> unfold Arena.insert
  · cases hfree : a.free with
    | nil =>
      intro i generation hi
      dsimp only at hi
      rcases Nat.lt_trichotomy i a.slots.length with hlt | heq | hgt
      · rw [List.getElem?_append_left hlt] at hi
        have hmem := h.listed i generation hi
        rw [hfree] at hmem
        cases hmem
      · simp [heq] at hi
      · rw [List.getElem?_eq_none (by simp; omega)] at hi
        cases hi
    | cons index free =>
      intro i generation hi
      dsimp only at hi ⊢
      rw [List.getElem?_set] at hi
      split_ifs at hi with heq hlt
      · cases hi
      · have hmem := h.listed i generation hi
        rw [hfree] at hmem
        exact (List.mem_cons.1 hmem).resolve_left (Ne.symm heq)
  · cases hfree : a.free with
    | nil => simp [h.counted]
    | cons index free =>
      obtain ⟨generation, hslot⟩ := h.vacant index (hfree ▸ List.mem_cons_self)
      have hcount := countP_set hslot ⟨(a.slots[index]?.map (·.generation)).getD 0, some value⟩
      simp only [Option.isSome_some, Option.isSome_none, if_true, Bool.false_eq_true, if_false] at hcount
      dsimp only
      rw [h.counted]
      omega

/-! ## Following another arena -/

theorem Whole.grow {a : Arena kind α} (h : a.Whole) (index : Nat) : (a.grow index).Whole := by
  have hget : ∀ i, (a.grow index).slots[i]? =
      if i < a.slots.length then a.slots[i]? else if i ≤ index then some ⟨0, none⟩ else none := by
    intro i
    simp only [Arena.grow]
    split_ifs with hlt hle
    · exact List.getElem?_append_left hlt
    · rw [List.getElem?_append_right (by omega), List.getElem?_replicate, if_pos (by omega)]
    · rw [List.getElem?_append_right (by omega), List.getElem?_replicate, if_neg (by omega)]
  have hmem : ∀ i, i ∈ (a.grow index).free ↔ i ∈ a.free ∨ a.slots.length ≤ i ∧ i ≤ index := by
    intro i
    simp only [Arena.grow, List.mem_append, List.mem_reverse, List.mem_map, List.mem_range]
    constructor
    · rintro (⟨j, hj, rfl⟩ | hi)
      · exact .inr ⟨by omega, by omega⟩
      · exact .inl hi
    · rintro (hi | ⟨hle, hge⟩)
      · exact .inr hi
      · exact .inl ⟨i - a.slots.length, by omega, by omega⟩
  have hlt : ∀ i ∈ a.free, i < a.slots.length := fun i hi => by
    obtain ⟨generation, hslot⟩ := h.vacant i hi
    exact (List.getElem?_eq_some_iff.1 hslot).1
  refine ⟨⟨?_, fun i hi => ?_⟩, fun i generation hi => ?_, ?_⟩
  · refine (List.nodup_reverse.2 (List.nodup_range.map fun i j hij => ?_)).append h.nodup fun i hi hfree => ?_
    · exact Nat.add_left_cancel hij
    · obtain ⟨j, -, rfl⟩ := List.mem_map.1 (List.mem_reverse.1 hi)
      have := hlt _ hfree
      omega
  · rw [hget]
    rcases (hmem i).1 hi with hfree | ⟨hle, hge⟩
    · rw [if_pos (hlt i hfree)]
      exact h.vacant i hfree
    · exact ⟨0, by rw [if_neg (by omega), if_pos hge]⟩
  · rw [hmem]
    rw [hget] at hi
    split_ifs at hi with hin hle
    · exact .inl (h.listed i generation hi)
    · exact .inr ⟨by omega, hle⟩
  · simp [Arena.grow, h.counted, List.countP_replicate]

theorem Whole.insertAt {a : Arena kind α} (h : a.Whole) (k : Key kind) (value : α) : (a.insertAt k value).2.Whole := by
  have hgrown := h.grow k.index
  have hlt : k.index < (a.grow k.index).slots.length := by
    simp only [Arena.grow, List.length_append, List.length_replicate]
    omega
  unfold Arena.insertAt
  generalize a.grow k.index = b at hgrown hlt ⊢
  dsimp only
  obtain ⟨⟨generation, content⟩, hslot⟩ : ∃ s, b.slots[k.index]? = some s := ⟨_, List.getElem?_eq_getElem hlt⟩
  rw [hslot]
  cases content with
  | some old => exact hgrown.refill hslot rfl rfl
  | none =>
    have hcount := countP_set hslot ⟨k.generation, some value⟩
    simp only [Option.isSome_some, Option.isSome_none, if_true, Bool.false_eq_true, if_false] at hcount
    show ({ slots := b.slots.set k.index ⟨k.generation, some value⟩, free := b.free.erase k.index,
            size := b.size + 1 } : Arena kind α).Whole
    refine ⟨⟨hgrown.nodup.erase _, fun i hi => ?_⟩, fun i own hi => ?_, ?_⟩
    · obtain ⟨hne, hi⟩ := (hgrown.nodup.mem_erase_iff).1 hi
      rw [List.getElem?_set_ne (Ne.symm hne)]
      exact hgrown.vacant i hi
    · rw [List.getElem?_set] at hi
      split_ifs at hi with heq
      · cases hi
      · exact (hgrown.nodup.mem_erase_iff).2 ⟨Ne.symm heq, hgrown.listed i own hi⟩
    · exact (congrArg (· + 1) hgrown.counted).trans hcount.symm

end Overdub.Arena
