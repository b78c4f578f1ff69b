import Mathlib
import Overdub.Arena.Linked
import Overdub.Proofs.Census
/-!
# The chain of vacant slots

`Chain` says which slots a walk from one slot visits before it ends.
`LinkedArena.Threads` ties a linked arena to a plain one: the same slots, and a
chain that visits what the plain one lists as free, in that order. Every operation
keeps the two tied and answers the same (`Threads.insert`, `Threads.insertAt`,
`Threads.remove`, `Threads.modify`), so that what is known of the plain arena is
known of the linked one. The one hard step is `Chain.bypass`, taking a slot out of
the middle.
-/

namespace Overdub

variable {kind : ObjectKind} {α : Type}

/-- The slot without its place in the chain. -/
def LinkedSlot.slot : LinkedSlot α → Slot α
  | taken generation value => ⟨generation, some value⟩
  | vacant generation _ => ⟨generation, none⟩

@[simp] theorem LinkedSlot.slot_relink (s : LinkedSlot α) (next : Option Nat) : (s.relink next).slot = s.slot := by
  cases s <;> rfl

theorem LinkedSlot.valueAt_slot (s : LinkedSlot α) (generation : UInt32) :
    Arena.Slot.valueAt generation s.slot = s.valueAt generation := by
  cases s with
  | taken own value => rfl
  | vacant own next => exact ite_self none

theorem LinkedSlot.isTaken_slot (s : LinkedSlot α) : s.slot.value.isSome = s.isTaken := by
  cases s <;> rfl

/-- Walking from a slot visits these slots, all vacant, and ends. -/
inductive Chain (slots : List (LinkedSlot α)) : Option Nat → List Nat → Prop
  | nil : Chain slots none []
  | cons {i generation next visited} : slots[i]? = some (.vacant generation next) → Chain slots next visited →
      Chain slots (some i) (i :: visited)

namespace Chain

variable {slots : List (LinkedSlot α)} {first : Option Nat} {visited : List Nat}

/-- The walk does not see a change of slots that it does not visit. -/
theorem congr {slots' : List (LinkedSlot α)} (h : Chain slots first visited)
    (hsame : ∀ i ∈ visited, slots'[i]? = slots[i]?) : Chain slots' first visited := by
  induction h with
  | nil => exact .nil
  | cons hslot _ ih =>
    exact .cons ((hsame _ List.mem_cons_self).trans hslot) (ih fun i hi => hsame i (List.mem_cons_of_mem _ hi))

theorem set (h : Chain slots first visited) {i : Nat} (hi : i ∉ visited) (s : LinkedSlot α) :
    Chain (slots.set i s) first visited :=
  h.congr fun _ hj => List.getElem?_set_ne (by rintro rfl; exact hi hj)

theorem lt_length (h : Chain slots first visited) {i : Nat} (hi : i ∈ visited) : i < slots.length := by
  induction h with
  | nil => cases hi
  | cons hslot _ ih =>
    rcases List.mem_cons.1 hi with rfl | hi
    · exact (List.getElem?_eq_some_iff.1 hslot).1
    · exact ih hi

theorem append (h : Chain slots first visited) (more : List (LinkedSlot α)) : Chain (slots ++ more) first visited :=
  h.congr fun _ hi => List.getElem?_append_left (h.lt_length hi)

/-- The first slot and the way on from it. -/
theorem step {i : Nat} (h : Chain slots first (i :: visited)) :
    first = some i ∧ ∃ generation next, slots[i]? = some (.vacant generation next) ∧ Chain slots next visited := by
  cases h with
  | cons hslot hrest => exact ⟨rfl, _, _, hslot, hrest⟩

theorem eq_none (h : Chain slots first []) : first = none := by
  cases h
  rfl

/-- A chain without circles is no longer than there are slots. -/
theorem length_le (h : Chain slots first visited) (hnodup : visited.Nodup) : visited.length ≤ slots.length := by
  have hsubset : visited ⊆ List.range slots.length := fun i hi => List.mem_range.2 (h.lt_length hi)
  simpa using (hnodup.subperm hsubset).length_le

/-- The slot behind which a chain is led on no longer leads to the one after it. -/
theorem bypass {before later : List Nat} {i last : Nat} {generation : UInt32} {next : Option Nat}
    (h : Chain slots first (before ++ i :: later)) (hnodup : (before ++ i :: later).Nodup)
    (hslot : slots[i]? = some (.vacant generation next)) (hlast : before.getLast? = some last) :
    Chain (slots.modify last (·.relink next)) first (before ++ later) := by
  induction before generalizing first with
  | nil => cases hlast
  | cons j before ih =>
    obtain ⟨rfl, own, after, hj, hrest⟩ := h.step
    obtain ⟨hnew, hnodup⟩ := List.nodup_cons.1 hnodup
    cases before with
    | nil =>
      -- The slot to be changed comes right before the one to be taken out.
      obtain rfl : j = last := Option.some.inj hlast
      obtain ⟨-, _, _, hi, hlater⟩ := hrest.step
      cases hi.symm.trans hslot
      refine .cons (by rw [List.getElem?_modify_eq, hj]; rfl) (hlater.congr fun k hk => ?_)
      refine List.getElem?_modify_ne _ _ ?_
      rintro rfl
      exact hnew (List.mem_cons_of_mem _ hk)
    | cons j' before =>
      have hlast' : (j' :: before).getLast? = some last := by rwa [List.getLast?_cons_cons] at hlast
      have hne : last ≠ j := by
        rintro rfl
        exact hnew (List.mem_append_left _ (List.mem_of_getLast? hlast'))
      exact .cons ((List.getElem?_modify_ne _ _ hne).trans hj) (ih hrest hnodup hlast')

end Chain

namespace LinkedArena

/-- The slots are those of a plain arena, and the chain visits its free ones in order. -/
structure Threads (l : LinkedArena kind α) (a : Arena kind α) : Prop where
  slots : a.slots = l.slots.map (·.slot)
  chain : Chain l.slots l.first a.free
  size : l.size = a.size

variable {l : LinkedArena kind α} {a : Arena kind α}

theorem empty_threads : Threads (.empty : LinkedArena kind α) .empty := ⟨rfl, .nil, rfl⟩

namespace Threads

theorem length (h : l.Threads a) : a.slots.length = l.slots.length := by
  rw [h.slots, List.length_map]

theorem get?_eq (h : l.Threads a) (k : Key kind) : a.get? k = l.get? k := by
  unfold Arena.get? LinkedArena.get?
  rw [h.slots, List.getElem?_map]
  cases l.slots[k.index]? with
  | none => rfl
  | some s => exact s.valueAt_slot k.generation

theorem toList_eq (h : l.Threads a) : a.toList = l.toList := by
  unfold Arena.toList LinkedArena.toList
  rw [h.slots, List.zipIdx_map, List.filterMap_map]
  refine List.filterMap_congr fun x _ => ?_
  obtain ⟨s, i⟩ := x
  cases s <;> rfl

/-- A slot that is vacant in the one arena is vacant in the other. -/
theorem vacant_iff (h : l.Threads a) {i : Nat} {generation : UInt32} :
    a.slots[i]? = some ⟨generation, none⟩ ↔ ∃ next, l.slots[i]? = some (.vacant generation next) := by
  rw [h.slots, List.getElem?_map, Option.map_eq_some_iff]
  constructor
  · rintro ⟨s, hs, hslot⟩
    cases s with
    | taken => cases hslot
    | vacant own next =>
      cases hslot
      exact ⟨next, hs⟩
  · rintro ⟨next, hs⟩
    exact ⟨_, hs, rfl⟩

theorem taken_iff (h : l.Threads a) {i : Nat} {generation : UInt32} {value : α} :
    a.slots[i]? = some ⟨generation, some value⟩ ↔ l.slots[i]? = some (.taken generation value) := by
  rw [h.slots, List.getElem?_map, Option.map_eq_some_iff]
  constructor
  · rintro ⟨s, hs, hslot⟩
    cases s with
    | taken own own' =>
      cases hslot
      exact hs
    | vacant => cases hslot
  · exact fun hs => ⟨_, hs, rfl⟩

/-- The chain visits each vacant slot once, and nothing else. -/
theorem mem_free (h : l.Threads a) (ha : a.Whole) {i : Nat} :
    i ∈ a.free ↔ ∃ generation next, l.slots[i]? = some (.vacant generation next) := by
  simp only [ha.mem_free, h.vacant_iff]

theorem counted (h : l.Threads a) (ha : a.Whole) : l.size = l.slots.countP (·.isTaken) := by
  rw [h.size, ha.counted, h.slots, List.countP_map]
  exact List.countP_congr fun s _ => by simp [LinkedSlot.isTaken_slot]

/-- A value comes into a slot that the chain does not visit. -/
theorem set (h : l.Threads a) {i : Nat} (hi : i ∉ a.free) (generation : UInt32) (value : α) :
    ({ l with slots := l.slots.set i (.taken generation value) } : LinkedArena kind α).Threads
      { a with slots := a.slots.set i ⟨generation, some value⟩ } where
  slots := by
    dsimp only
    rw [h.slots, List.map_set]
    rfl
  chain := h.chain.set hi _
  size := h.size

theorem modify (h : l.Threads a) (ha : a.Sound) (k : Key kind) (f : α → α) :
    (l.modify k f).Threads (a.modify k f) := by
  unfold LinkedArena.modify Arena.modify
  rw [← h.get?_eq]
  cases hk : a.get? k with
  | none => exact h
  | some value => exact h.set (ha.not_free hk) _ _

theorem remove (h : l.Threads a) (ha : a.Sound) (k : Key kind) :
    (l.remove k).1 = (a.remove k).1 ∧ (l.remove k).2.Threads (a.remove k).2 := by
  unfold LinkedArena.remove Arena.remove
  rw [← h.get?_eq]
  cases hk : a.get? k with
  | none => exact ⟨rfl, h⟩
  | some value =>
    have hlt : k.index < l.slots.length := h.length ▸ (List.getElem?_eq_some_iff.1 (Arena.slot_of_get? hk)).1
    refine ⟨rfl, ?_, ?_, ?_⟩
    · dsimp only
      rw [h.slots, List.map_set]
      rfl
    · exact .cons (List.getElem?_set_self hlt) (h.chain.set (ha.not_free hk) _)
    · dsimp only
      rw [h.size]

/-- The chain never leads to a slot that is taken. -/
theorem insert (h : l.Threads a) (ha : a.Sound) (value : α) :
    ∃ k l', l.insert value = some (k, l') ∧ l'.Threads (a.insert value).2 ∧
      (l.slots.length < UInt32.size → k = (a.insert value).1) := by
  have hchain := h.chain
  unfold LinkedArena.insert Arena.insert
  cases hfree : a.free with
  | nil =>
    rw [hfree] at hchain
    have hfirst := hchain.eq_none
    rw [hfirst] at hchain ⊢
    dsimp only
    refine ⟨_, _, rfl, ⟨?_, hchain.append _, congrArg (· + 1) h.size⟩, fun hroom => ?_⟩
    · dsimp only
      rw [h.slots, List.map_append]
      rfl
    · rw [Nat.mod_eq_of_lt hroom, h.length]
  | cons index free =>
    rw [hfree] at hchain
    obtain ⟨hfirst, generation, next, hslot, hrest⟩ := hchain.step
    have hgeneration : (a.slots[index]?.map (·.generation)).getD 0 = generation := by
      rw [h.vacant_iff.2 ⟨next, hslot⟩]
      rfl
    have hindex : index ∉ free := (List.nodup_cons.1 (hfree ▸ ha.nodup)).1
    rw [hfirst]
    dsimp only
    rw [hslot, hgeneration]
    refine ⟨_, _, rfl, ⟨?_, hrest.set hindex _, congrArg (· + 1) h.size⟩, fun _ => rfl⟩
    dsimp only
    rw [h.slots, List.map_set]
    rfl

/-- Vacant slots come in front of the chain, the last of them first. -/
theorem extend (h : l.Threads a) (n : Nat) :
    (l.extend n).Threads { a with
      slots := a.slots ++ List.replicate n ⟨0, none⟩
      free := ((List.range n).map (a.slots.length + ·)).reverse ++ a.free } := by
  induction n generalizing l a with
  | zero => simpa [LinkedArena.extend] using h
  | succ n ih =>
    have hfirst : ({ l with slots := l.slots ++ [.vacant 0 l.first], first := some l.slots.length } :
        LinkedArena kind α).Threads
          { a with slots := a.slots ++ [⟨0, none⟩], free := a.slots.length :: a.free } := by
      refine ⟨?_, ?_, h.size⟩
      · dsimp only
        rw [h.slots, List.map_append]
        rfl
      · rw [h.length]
        exact .cons (List.getElem?_concat_length ..) (h.chain.append _)
    have hrange : (List.range (n + 1)).map (a.slots.length + ·) =
        a.slots.length :: (List.range n).map ((a.slots ++ [(⟨0, none⟩ : Slot α)]).length + ·) := by
      rw [List.range_succ_eq_map, List.map_cons, List.map_map]
      refine congrArg₂ List.cons rfl (List.map_congr_left fun i _ => ?_)
      simp only [Function.comp_apply, List.length_append, List.length_singleton]
      omega
    have hnext := ih hfirst
    rw [hrange, List.reverse_cons, List.append_assoc]
    rwa [List.append_assoc] at hnext

theorem grow (h : l.Threads a) (index : Nat) : (l.grow index).Threads (a.grow index) := by
  unfold LinkedArena.grow Arena.grow
  rw [← h.length]
  exact h.extend _

/-- What comes after a slot of the chain takes its place. -/
theorem bypass (h : l.Threads a) (hnodup : a.free.Nodup) {before later : List Nat} {i : Nat} {generation : UInt32}
    {next : Option Nat} (hfree : a.free = before ++ i :: later) (hslot : l.slots[i]? = some (.vacant generation next)) :
    (l.bypass before.getLast? next).Threads { a with free := a.free.erase i } := by
  have hchain := h.chain
  rw [hfree] at hchain hnodup
  have hi : i ∉ before := fun hi => (List.nodup_append.1 hnodup).2.2 i hi i List.mem_cons_self rfl
  have hrest : a.free.erase i = before ++ later := by
    rw [hfree, List.erase_append_right _ hi, List.erase_cons_head]
  rw [hrest]
  unfold LinkedArena.bypass
  cases hlast : before.getLast? with
  | none =>
    obtain rfl : before = [] := List.getLast?_eq_none_iff.1 hlast
    obtain ⟨-, own, after, hown, hlater⟩ := hchain.step
    cases hown.symm.trans hslot
    exact ⟨h.slots, hlater, h.size⟩
  | some last =>
    refine ⟨?_, hchain.bypass hnodup hslot hlast, h.size⟩
    dsimp only
    rw [h.slots]
    refine List.ext_getElem? fun j => ?_
    rw [List.getElem?_map, List.getElem?_map, List.getElem?_modify]
    cases l.slots[j]? with
    | none => rfl
    | some s => split_ifs <;> simp

/-- The walk comes to the slot it looks for. It has passed the first slots of the chain. -/
theorem unlinkFrom (h : l.Threads a) (hnodup : a.free.Nodup) {passed later : List Nat} {i left : Nat}
    {cursor : Option Nat} (hfree : a.free = passed ++ later) (hi : i ∈ later) (hcursor : Chain l.slots cursor later)
    (hleft : later.length ≤ left) :
    ∃ l', l.unlinkFrom i left passed.getLast? cursor = some l' ∧ l'.Threads { a with free := a.free.erase i } := by
  induction later generalizing passed left cursor with
  | nil => cases hi
  | cons j later ih =>
    obtain ⟨rfl, generation, next, hslot, hrest⟩ := hcursor.step
    obtain ⟨left, rfl⟩ := Nat.exists_eq_add_of_lt (Nat.lt_of_lt_of_le (Nat.succ_pos later.length) hleft)
    rw [Nat.zero_add] at hleft ⊢
    rw [LinkedArena.unlinkFrom, hslot, Option.bind_some]
    by_cases hji : j = i
    · subst hji
      rw [if_pos rfl]
      exact ⟨_, rfl, h.bypass hnodup hfree hslot⟩
    · rw [if_neg hji]
      have hi' : i ∈ later := (List.mem_cons.1 hi).resolve_left (Ne.symm hji)
      have hfree' : a.free = (passed ++ [j]) ++ later := by rw [hfree, List.append_assoc, List.singleton_append]
      have hfound := ih hfree' hi' hrest (Nat.le_of_succ_le_succ hleft)
      rwa [List.getLast?_concat] at hfound

theorem unlink (h : l.Threads a) (hnodup : a.free.Nodup) {i : Nat} (hi : i ∈ a.free) :
    ∃ l', l.unlink i = some l' ∧ l'.Threads { a with free := a.free.erase i } :=
  h.unlinkFrom hnodup (List.nil_append _).symm hi h.chain (h.chain.length_le hnodup)

/-- A slot is taken out of the chain wherever it is, and the walk to it never fails. -/
theorem insertAt (h : l.Threads a) (ha : a.Whole) (k : Key kind) (value : α) :
    ∃ l', l.insertAt k value = some ((a.insertAt k value).1, l') ∧ l'.Threads (a.insertAt k value).2 := by
  have hgrown := h.grow k.index
  have hwhole := ha.grow k.index
  have hlt : k.index < (a.grow k.index).slots.length := by
    simp only [Arena.grow, List.length_append, List.length_replicate]
    omega
  unfold LinkedArena.insertAt Arena.insertAt
  generalize l.grow k.index = m at hgrown ⊢
  generalize a.grow k.index = b at hgrown hwhole hlt ⊢
  dsimp only
  obtain ⟨s, hs⟩ : ∃ s, m.slots[k.index]? = some s := ⟨_, List.getElem?_eq_getElem (hgrown.length ▸ hlt)⟩
  cases s with
  | taken generation old =>
    have hslot := hgrown.taken_iff.2 hs
    have hfree : k.index ∉ b.free := fun hfree => by
      obtain ⟨own, hvacant⟩ := hwhole.vacant _ hfree
      cases hslot.symm.trans hvacant
    rw [hs, hslot]
    exact ⟨_, rfl, hgrown.set hfree _ _⟩
  | vacant generation next =>
    have hslot := hgrown.vacant_iff.2 ⟨next, hs⟩
    obtain ⟨m', hunlink, hthreads⟩ := hgrown.unlink hwhole.nodup (hwhole.listed _ _ hslot)
    have hfree : k.index ∉ b.free.erase k.index := fun hfree => (hwhole.nodup.mem_erase_iff.1 hfree).1 rfl
    have hstored := hthreads.set hfree k.generation value
    rw [hs, hslot]
    refine ⟨_, by dsimp only; rw [hunlink]; rfl, ?_⟩
    exact ⟨hstored.slots, hstored.chain, congrArg (· + 1) hstored.size⟩

end Threads
end LinkedArena
end Overdub
