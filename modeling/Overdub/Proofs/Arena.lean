import Mathlib.Tactic.SplitIfs
import Overdub.Arena
/-!
# Looking up what an arena stores

`get?_modify` is the one equation of a change in place: the value under its key
changes and no other key sees a difference, not even one of another generation
of the same slot. `get?_insert` and `get?_erase` are those of insertion and
removal; the first rests on every slot of the free list being vacant
(`Arena.Sound`), and it is why an issued key led nowhere before.
-/

namespace Overdub.Arena

variable {kind : ObjectKind} {α : Type}

/-- A key that leads to a value shows the generation of its slot. -/
theorem slot_of_get? {a : Arena kind α} {k : Key kind} {value : α} (h : a.get? k = some value) :
    a.slots[k.index]? = some ⟨k.generation, some value⟩ := by
  obtain ⟨s, hs, hv⟩ := Option.bind_eq_some_iff.1 h
  obtain ⟨generation, content⟩ := s
  simp only [Slot.valueAt] at hv
  split at hv
  · next hg => subst hg hv; exact hs
  · cases hv

theorem mem_toList_of_get? {a : Arena kind α} {k : Key kind} {value : α} (h : a.get? k = some value) :
    (k, value) ∈ a.toList := by
  refine List.mem_filterMap.2 ⟨(⟨k.generation, some value⟩, k.index), ?_, rfl⟩
  exact List.mk_mem_zipIdx_iff_getElem?.2 (slot_of_get? h)

theorem mem_keys_of_get? {a : Arena kind α} {k : Key kind} {value : α} (h : a.get? k = some value) : k ∈ a.keys :=
  List.mem_map.2 ⟨(k, value), mem_toList_of_get? h, rfl⟩

theorem get?_modify (a : Arena kind α) (k k' : Key kind) (f : α → α) :
    (a.modify k f).get? k' = if k' = k then (a.get? k).map f else a.get? k' := by
  unfold modify
  cases h : a.get? k with
  | none => by_cases hk : k' = k <;> simp [hk, h]
  | some value =>
    have hslot := slot_of_get? h
    have hlt : k.index < a.slots.length := (List.getElem?_eq_some_iff.1 hslot).1
    by_cases hk : k' = k
    · subst hk
      simp [get?, hlt, Slot.valueAt]
    · simp only [hk, if_false, get?]
      by_cases hi : k.index = k'.index
      · have hg : k.generation ≠ k'.generation := by
          intro hg
          exact hk (by cases k; cases k'; simp_all)
        rw [← hi, hslot, List.getElem?_set_self hlt]
        simp [Slot.valueAt, hg]
      · rw [List.getElem?_set_ne hi]

theorem get?_set (a : Arena kind α) (k k' : Key kind) (value : α) :
    (a.set k value).get? k' = if k' = k then (a.get? k).map fun _ => value else a.get? k' :=
  get?_modify a k k' _

@[simp] theorem get?_modify_self (a : Arena kind α) (k : Key kind) (f : α → α) :
    (a.modify k f).get? k = (a.get? k).map f := by simp [get?_modify]

theorem get?_modify_ne (a : Arena kind α) {k k' : Key kind} (f : α → α) (h : k' ≠ k) :
    (a.modify k f).get? k' = a.get? k' := by simp [get?_modify, h]

theorem get?_modify_eq_map (a : Arena kind α) (k k' : Key kind) (f : α → α) :
    (a.modify k f).get? k' = (a.get? k').map fun value => if k' = k then f value else value := by
  rw [get?_modify]
  split_ifs with hk
  · rw [hk]
  · rw [Option.map_id']

theorem get?_map {β : Type} (a : Arena kind α) (f : α → β) (k : Key kind) :
    (a.map f).get? k = (a.get? k).map f := by
  simp only [get?, map, List.getElem?_map]
  cases a.slots[k.index]? with
  | none => rfl
  | some slot => simp only [Option.map_some, Option.bind_some, Slot.valueAt]; split <;> rfl

/-! ## Values with their keys -/

theorem mem_toList {a : Arena kind α} {k : Key kind} {value : α} : (k, value) ∈ a.toList ↔ a.get? k = some value := by
  refine ⟨fun h => ?_, mem_toList_of_get?⟩
  obtain ⟨⟨slot, index⟩, hslot, hvalue⟩ := List.mem_filterMap.1 h
  obtain ⟨v, hv, heq⟩ := Option.map_eq_some_iff.1 hvalue
  cases heq
  simp only [get?, List.mk_mem_zipIdx_iff_getElem?.1 hslot, Option.bind_some, Slot.valueAt, if_true, hv]

theorem mem_keys {a : Arena kind α} {k : Key kind} : k ∈ a.keys ↔ a.contains k = true := by
  simp only [keys, List.mem_map, Prod.exists, mem_toList, exists_and_right, exists_eq_right, contains,
    Option.isSome_iff_exists]

/-- No two slots share a key. -/
theorem nodup_keys (a : Arena kind α) : a.keys.Nodup := by
  have hindices : a.slots.zipIdx.Pairwise (·.2 ≠ ·.2) := by
    have hrange : (a.slots.zipIdx.map Prod.snd).Nodup := by
      rw [List.zipIdx_map_snd]
      exact List.nodup_range'
    exact List.pairwise_map.1 hrange
  refine List.pairwise_map.2 (hindices.filterMap _ fun s s' hne x hx x' hx' hkeys => hne ?_)
  obtain ⟨v, -, rfl⟩ := Option.map_eq_some_iff.1 hx
  obtain ⟨v', -, rfl⟩ := Option.map_eq_some_iff.1 hx'
  exact congrArg Key.index hkeys

/-! ## Insertion and removal -/

/-- The free slots are vacant, and each is listed once. -/
structure Sound (a : Arena kind α) : Prop where
  nodup : a.free.Nodup
  vacant : ∀ i ∈ a.free, ∃ generation, a.slots[i]? = some ⟨generation, none⟩

theorem empty_sound : (empty : Arena kind α).Sound := ⟨List.nodup_nil, List.forall_mem_nil _⟩

/-- A change of one slot that is not free leaves the free slots vacant. -/
theorem Sound.setSlot {a : Arena kind α} (h : a.Sound) {i : Nat} (hi : i ∉ a.free) (slot : Slot α) (size : Nat) :
    ({ a with slots := a.slots.set i slot, size } : Arena kind α).Sound := by
  refine ⟨h.nodup, fun j hj => ?_⟩
  rw [List.getElem?_set_ne (by rintro rfl; exact hi hj)]
  exact h.vacant j hj

theorem Sound.not_free {a : Arena kind α} (h : a.Sound) {k : Key kind} {value : α} (hk : a.get? k = some value) :
    k.index ∉ a.free := by
  intro hfree
  obtain ⟨generation, hslot⟩ := h.vacant _ hfree
  rw [slot_of_get? hk] at hslot
  cases hslot

theorem Sound.modify {a : Arena kind α} (h : a.Sound) (k : Key kind) (f : α → α) : (a.modify k f).Sound := by
  unfold Arena.modify
  split
  · exact h
  · next hk => exact h.setSlot (h.not_free hk) _ _

theorem Sound.map {β : Type} {a : Arena kind α} (h : a.Sound) (f : α → β) : (a.map f).Sound := by
  refine ⟨h.nodup, fun i hi => ?_⟩
  obtain ⟨generation, hslot⟩ := h.vacant i hi
  exact ⟨generation, by simp [Arena.map, hslot]⟩

theorem Sound.erase {a : Arena kind α} (h : a.Sound) (k : Key kind) : (a.erase k).Sound := by
  unfold Arena.erase remove
  split
  · exact h
  · next value hk =>
    have hset := h.setSlot (h.not_free hk) ⟨k.generation + 1, none⟩ (a.size - 1)
    have hlt : k.index < a.slots.length := (List.getElem?_eq_some_iff.1 (slot_of_get? hk)).1
    refine ⟨List.nodup_cons.2 ⟨h.not_free hk, h.nodup⟩, List.forall_mem_cons.2 ⟨⟨k.generation + 1, ?_⟩, hset.vacant⟩⟩
    exact List.getElem?_set_self hlt

/-- What an insertion does to the slots: the issued key is that of a vacant slot or of the end, its slot gets
the value, and the other slots stay. -/
structure Issued (a : Arena kind α) (value : α) (k : Key kind) (b : Arena kind α) : Prop where
  vacant : a.slots[k.index]? = some ⟨k.generation, none⟩ ∨ a.slots[k.index]? = none
  filled : b.slots[k.index]? = some ⟨k.generation, some value⟩
  others : ∀ i, i ≠ k.index → b.slots[i]? = a.slots[i]?
  free : b.free = a.free.tail ∧ k.index ∉ a.free.tail

theorem Sound.issued {a : Arena kind α} (h : a.Sound) (value : α) :
    a.Issued value (a.insert value).1 (a.insert value).2 := by
  unfold Arena.insert
  cases hfree : a.free with
  | nil =>
    dsimp only
    refine ⟨.inr (List.getElem?_eq_none (Nat.le_refl _)), by simp, fun i (hi : i ≠ a.slots.length) => ?_,
      by simp [hfree]⟩
    rcases Nat.lt_or_gt_of_ne hi with hlt | hgt
    · exact List.getElem?_append_left hlt
    · rw [List.getElem?_eq_none (by simp; omega), List.getElem?_eq_none (by omega)]
  | cons index free =>
    obtain ⟨generation, hslot⟩ := h.vacant index (hfree ▸ List.mem_cons_self)
    have hlt : index < a.slots.length := (List.getElem?_eq_some_iff.1 hslot).1
    have hgen : (a.slots[index]?.map (·.generation)).getD 0 = generation := by simp [hslot]
    dsimp only
    rw [hgen]
    exact ⟨.inl hslot, List.getElem?_set_self hlt, fun i hi => List.getElem?_set_ne (Ne.symm hi),
      by simp [hfree], hfree ▸ (List.nodup_cons.1 (hfree ▸ h.nodup)).1⟩

/-- An issued key led nowhere before. -/
theorem Sound.get?_issued {a : Arena kind α} (h : a.Sound) (value : α) : a.get? (a.insert value).1 = none := by
  rcases (h.issued value).vacant with hvacant | hend
  · simp only [get?, hvacant, Option.bind_some, Slot.valueAt, if_true]
  · simp only [get?, hend, Option.bind_none]

/-- An insertion stores the value under the issued key and leaves the others alone. -/
theorem Sound.get?_insert {a : Arena kind α} (h : a.Sound) (value : α) (k : Key kind) :
    (a.insert value).2.get? k = if k = (a.insert value).1 then some value else a.get? k := by
  have hissued := h.issued value
  generalize (a.insert value).1 = issued at hissued ⊢
  generalize (a.insert value).2 = b at hissued ⊢
  split_ifs with hk
  · subst hk
    simp only [get?, hissued.filled, Option.bind_some, Slot.valueAt, if_true]
  · unfold get?
    by_cases hi : k.index = issued.index
    · have hg : issued.generation ≠ k.generation := by
        intro hg
        exact hk (by cases k; cases issued; simp_all)
      rw [hi, hissued.filled]
      rcases hissued.vacant with hvacant | hend
      · simp [hvacant, Slot.valueAt, hg]
      · simp [hend, Slot.valueAt, hg]
    · rw [hissued.others k.index hi]

theorem Sound.insert {a : Arena kind α} (h : a.Sound) (value : α) : (a.insert value).2.Sound := by
  have hissued := h.issued value
  refine ⟨hissued.free.1 ▸ h.nodup.tail, fun i hi => ?_⟩
  rw [hissued.free.1] at hi
  rw [hissued.others i fun heq => hissued.free.2 (heq ▸ hi)]
  exact h.vacant i (List.mem_of_mem_tail hi)

theorem remove_of_get? {a : Arena kind α} {k : Key kind} {value : α} (h : a.get? k = some value) :
    a.remove k = (some value, a.erase k) := by
  have hvalue : (a.remove k).1 = some value := by simp only [remove, h]
  exact Prod.ext hvalue rfl

theorem remove_of_none {a : Arena kind α} {k : Key kind} (h : a.get? k = none) : a.remove k = (none, a) := by
  simp only [remove, h]

/-- A removed key leads nowhere, and the others lead where they did. -/
theorem get?_erase (a : Arena kind α) (k k' : Key kind) :
    (a.erase k).get? k' = if k' = k then none else a.get? k' := by
  unfold erase remove
  cases hk : a.get? k with
  | none =>
    split_ifs with heq
    · exact heq ▸ hk
    · rfl
  | some value =>
    have hslot := slot_of_get? hk
    have hlt : k.index < a.slots.length := (List.getElem?_eq_some_iff.1 hslot).1
    dsimp only
    unfold get?
    by_cases hi : k'.index = k.index
    · rw [hi, List.getElem?_set_self hlt, hslot]
      by_cases heq : k' = k
      · simp [heq, Slot.valueAt]
      · have hg : k.generation ≠ k'.generation := by
          intro hg
          exact heq (by cases k; cases k'; simp_all)
        simp [heq, Slot.valueAt, hg]
    · have heq : k' ≠ k := by
        rintro rfl
        exact hi rfl
      rw [List.getElem?_set_ne (Ne.symm hi), if_neg heq]

theorem get?_eraseAll (a : Arena kind α) (keys : List (Key kind)) (k : Key kind) :
    (keys.foldl erase a).get? k = if k ∈ keys then none else a.get? k := by
  induction keys generalizing a with
  | nil => simp
  | cons key keys ih =>
    rw [List.foldl_cons, ih, get?_erase]
    by_cases hk : k = key <;> by_cases hkeys : k ∈ keys <;> simp [hk, hkeys]

/-! ## Following another arena -/

/-- No key leads into the slot, of whatever generation. -/
def Vacant (a : Arena kind α) (index : Nat) : Prop := ∀ k : Key kind, k.index = index → a.get? k = none

theorem Sound.vacant_issued {a : Arena kind α} (h : a.Sound) (value : α) : a.Vacant (a.insert value).1.index := by
  intro k hk
  unfold get?
  rw [hk]
  rcases (h.issued value).vacant with hslot | hend
  · simp [hslot, Slot.valueAt]
  · simp [hend]

/-- An arena with the same keys has the same vacant slots. -/
theorem Vacant.of_map {γ : Type} {a : Arena kind α} {b : Arena kind β} {f : α → γ} {g : β → γ} {index : Nat}
    (h : a.Vacant index) (hab : ∀ k, (a.get? k).map f = (b.get? k).map g) : b.Vacant index := by
  intro k hk
  have hkey := hab k
  rw [h k hk, Option.map_none] at hkey
  exact Option.map_eq_none_iff.1 hkey.symm

theorem get?_grow (a : Arena kind α) (index : Nat) (k : Key kind) : (a.grow index).get? k = a.get? k := by
  unfold get? grow
  dsimp only
  by_cases hlt : k.index < a.slots.length
  · rw [List.getElem?_append_left hlt]
  · have hge : a.slots.length ≤ k.index := Nat.le_of_not_lt hlt
    rw [List.getElem?_append_right hge, List.getElem?_eq_none hge, List.getElem?_replicate]
    split_ifs <;> simp [Slot.valueAt]

/-- Storing under a key from elsewhere turns out whatever was in its slot, and leaves the other slots alone. -/
theorem get?_insertAt (a : Arena kind α) (k k' : Key kind) (value : α) :
    (a.insertAt k value).2.get? k' =
      if k' = k then some value else if k'.index = k.index then none else a.get? k' := by
  have hslots : (a.insertAt k value).2.slots = (a.grow k.index).slots.set k.index ⟨k.generation, some value⟩ := by
    unfold insertAt
    dsimp only
    split <;> rfl
  have hlt : k.index < (a.grow k.index).slots.length := by
    simp only [grow, List.length_append, List.length_replicate]
    omega
  have hget : (a.insertAt k value).2.get? k' =
      ((a.grow k.index).slots.set k.index ⟨k.generation, some value⟩)[k'.index]?.bind (Slot.valueAt k'.generation) := by
    rw [get?, hslots]
  rw [hget]
  by_cases hi : k'.index = k.index
  · rw [hi, List.getElem?_set_self hlt]
    by_cases hk : k' = k
    · simp [hk, Slot.valueAt]
    · have hg : k.generation ≠ k'.generation := by
        intro hg
        exact hk (by cases k; cases k'; simp_all)
      simp [hk, Slot.valueAt, hg]
  · have hk : k' ≠ k := by
      rintro rfl
      exact hi rfl
    rw [List.getElem?_set_ne (Ne.symm hi), if_neg hk, if_neg hi, ← get?_grow a k.index k', get?]

theorem Vacant.get?_insertAt {a : Arena kind α} {k : Key kind} (h : a.Vacant k.index) (k' : Key kind) (value : α) :
    (a.insertAt k value).2.get? k' = if k' = k then some value else a.get? k' := by
  rw [Arena.get?_insertAt]
  split_ifs with hk hi
  · rfl
  · exact (h k' hi).symm
  · rfl

/-! ## Arenas with the same keys -/

/-- The two arenas have the same keys, and `r` holds of the values under each. -/
def Related (r : Key kind → α → α → Prop) (a b : Arena kind α) : Prop :=
  ∀ k, Option.Rel (r k) (a.get? k) (b.get? k)

variable {r : Key kind → α → α → Prop} {a b c : Arena kind α}

theorem Related.refl (h : ∀ k v, r k v v) (a : Arena kind α) : Related r a a := fun k => by
  cases a.get? k with
  | none => exact .none
  | some v => exact .some (h k v)

theorem Related.mono {r' : Key kind → α → α → Prop} (h : Related r a b) (hr : ∀ k u v, r k u v → r' k u v) :
    Related r' a b := fun k => by
  have h₁ := h k
  generalize a.get? k = u at h₁ ⊢
  generalize b.get? k = v at h₁ ⊢
  cases h₁ with
  | none => exact .none
  | some h₁ => exact .some (hr k _ _ h₁)

theorem Related.comp {r' r'' : Key kind → α → α → Prop} (h : Related r a b) (h' : Related r' b c)
    (ht : ∀ k u v w, r k u v → r' k v w → r'' k u w) : Related r'' a c := fun k => by
  have h₁ := h k
  have h₂ := h' k
  generalize a.get? k = u at h₁ ⊢
  generalize b.get? k = v at h₁ h₂
  generalize c.get? k = w at h₂ ⊢
  cases h₁ with
  | none => cases h₂; exact .none
  | some h₁ => cases h₂ with
    | some h₂ => exact .some (ht k _ _ _ h₁ h₂)

theorem Related.modify {k : Key kind} {f : α → α} (h : Related r a b)
    (hf : ∀ u v, a.get? k = some u → b.get? k = some v → r k u v → r k u (f v)) : Related r a (b.modify k f) :=
  fun k' => by
    by_cases hk : k' = k
    · subst hk
      rw [get?_modify_self]
      have h₁ := h k'
      cases hu : a.get? k' <;> cases hv : b.get? k' <;> rw [hu, hv] at h₁
      · exact .none
      · cases h₁
      · cases h₁
      · cases h₁ with
        | some h₁ => exact .some (hf _ _ hu hv h₁)
    · rw [get?_modify_ne _ _ hk]
      exact h k'

theorem Related.modify_both {k : Key kind} {f g : α → α} (h : Related r a b) (hf : ∀ u v, r k u v → r k (f u) (g v)) :
    Related r (a.modify k f) (b.modify k g) := fun k' => by
  have h₁ := h k'
  by_cases hk : k' = k
  · subst hk
    rw [get?_modify_self, get?_modify_self]
    generalize a.get? k' = u at h₁ ⊢
    generalize b.get? k' = v at h₁ ⊢
    cases h₁ with
    | none => exact .none
    | some h₁ => exact .some (hf _ _ h₁)
  · rw [get?_modify_ne _ _ hk, get?_modify_ne _ _ hk]
    exact h₁

theorem Related.isSome (h : Related r a b) (k : Key kind) : (a.get? k).isSome = (b.get? k).isSome := by
  have h₁ := h k
  generalize a.get? k = u at h₁ ⊢
  generalize b.get? k = v at h₁ ⊢
  cases h₁ <;> rfl

theorem Related.none_left (h : Related r a b) {k : Key kind} (hk : a.get? k = none) : b.get? k = none := by
  have hsome := h.isSome k
  rw [hk] at hsome
  exact Option.isNone_iff_eq_none.1 (by simpa using hsome.symm)

theorem Related.some_left {k : Key kind} {u : α} (h : Related r a b) (hu : a.get? k = some u) :
    ∃ v, b.get? k = some v ∧ r k u v := by
  have h₁ := h k
  rw [hu] at h₁
  cases hv : b.get? k <;> rw [hv] at h₁ <;> cases h₁
  next h₁ => exact ⟨_, rfl, h₁⟩

theorem Related.some_right {k : Key kind} {v : α} (h : Related r a b) (hv : b.get? k = some v) :
    ∃ u, a.get? k = some u ∧ r k u v := by
  have h₁ := h k
  rw [hv] at h₁
  cases hu : a.get? k <;> rw [hu] at h₁ <;> cases h₁
  next h₁ => exact ⟨_, rfl, h₁⟩

end Overdub.Arena
