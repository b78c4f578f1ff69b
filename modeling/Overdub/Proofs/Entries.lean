import Mathlib
import Overdub.Proofs.Vacancies
/-!
# An arena is a finite map with fresh keys

A trace lists the calls of an arena with their replies. `held` reads off it what
is under a key: the value last stored there, as long as nothing has removed it and
nothing has turned it out of its slot. `LinkedArena.finite_map` says that the
arena always agrees with its trace, that every further call succeeds and replies
in accordance with it, and that keys are fresh.

All of it is shown for the plain arena, one call at a time (`Arena.get?_access`,
`Arena.Whole.accords`, `Fresh.access`), and carried over by `Threads`.
-/

namespace Overdub

variable {kind : ObjectKind} {α : Type}

/-- A call of an arena. -/
inductive Access (kind : ObjectKind) (α : Type) where
  | insert (value : α)
  | insertAt (k : Key kind) (value : α)
  | remove (k : Key kind)
  | get (k : Key kind)
  /-- The value is handed out to be changed. -/
  | modify (k : Key kind) (f : α → α)

/-- What a call replies. -/
inductive Reply (kind : ObjectKind) (α : Type) where
  | issued (k : Key kind)
  | found (value : Option α)

/-! ## Traces -/

namespace Access

/-- What is under a key after a call and its reply, given what was there before. -/
def revise (k : Key kind) (before : Option α) : Access kind α × Reply kind α → Option α
  | (.insert value, .issued k') => if k = k' then some value else before
  | (.insertAt k' value, _) => if k = k' then some value else if k.index = k'.index then none else before
  | (.remove k', _) => if k = k' then none else before
  | (.modify k' f, _) => if k = k' then before.map f else before
  | _ => before

/-- What is under a key after a whole trace. -/
def held (trace : List (Access kind α × Reply kind α)) (k : Key kind) : Option α := trace.foldl (revise k) none

/-- The key that a call has issued. -/
def issued? : Access kind α × Reply kind α → Option (Key kind)
  | (.insert _, .issued k) => some k
  | _ => none

/-- The key under which a call has removed a value. -/
def removed? : Access kind α × Reply kind α → Option (Key kind)
  | (.remove k, .found (some _)) => some k
  | _ => none

def issued (trace : List (Access kind α × Reply kind α)) : List (Key kind) := trace.filterMap issued?

def removed (trace : List (Access kind α × Reply kind α)) : List (Key kind) := trace.filterMap removed?

/-- How often a trace has removed a value from a slot. -/
def removals (trace : List (Access kind α × Reply kind α)) (i : Nat) : Nat :=
  (removed trace).countP fun k => k.index = i

/-- The reply to a call is what the entries demand. -/
inductive Accords (entries : Key kind → Option α) : Access kind α → Reply kind α → Prop
  /-- The issued key is of a slot that holds nothing, whatever the generation. -/
  | insert {value k} : (∀ k', k'.index = k.index → entries k' = none) → Accords entries (.insert value) (.issued k)
  /-- What comes back is the one entry of the same slot. -/
  | insertAt {k value old} : (∀ v, old = some v ↔ ∃ k', k'.index = k.index ∧ entries k' = some v) →
      Accords entries (.insertAt k value) (.found old)
  | remove (k : Key kind) : Accords entries (.remove k) (.found (entries k))
  | get (k : Key kind) : Accords entries (.get k) (.found (entries k))
  | modify (k : Key kind) (f : α → α) : Accords entries (.modify k f) (.found (entries k))

theorem held_concat (trace : List (Access kind α × Reply kind α)) (x : Access kind α × Reply kind α) (k : Key kind) :
    held (trace ++ [x]) k = revise k (held trace k) x := List.foldl_concat ..

theorem issued_concat (trace : List (Access kind α × Reply kind α)) (x : Access kind α × Reply kind α) :
    issued (trace ++ [x]) = issued trace ++ (issued? x).toList := by
  rw [issued, List.filterMap_append, issued, List.filterMap_cons]
  cases issued? x <;> rfl

theorem removed_concat (trace : List (Access kind α × Reply kind α)) (x : Access kind α × Reply kind α) :
    removed (trace ++ [x]) = removed trace ++ (removed? x).toList := by
  rw [removed, List.filterMap_append, removed, List.filterMap_cons]
  cases removed? x <;> rfl

theorem removals_concat (trace : List (Access kind α × Reply kind α)) (x : Access kind α × Reply kind α) (i : Nat) :
    removals (trace ++ [x]) i = removals trace i + (removed? x).toList.countP fun k => k.index = i := by
  rw [removals, removed_concat, List.countP_append, removals]

end Access

open Access

/-! ## Calls of a plain arena -/

namespace Arena

/-- One call. -/
def access (a : Arena kind α) : Access kind α → Reply kind α × Arena kind α
  | .insert value => (.issued (a.insert value).1, (a.insert value).2)
  | .insertAt k value => (.found (a.insertAt k value).1, (a.insertAt k value).2)
  | .remove k => (.found (a.remove k).1, (a.remove k).2)
  | .get k => (.found (a.get? k), a)
  | .modify k f => (.found (a.get? k), a.modify k f)

/-- Calls from the start, with their trace. -/
def play (calls : List (Access kind α)) : List (Access kind α × Reply kind α) × Arena kind α :=
  calls.foldl (fun (trace, a) call => (trace ++ [(call, (a.access call).1)], (a.access call).2)) ([], .empty)

theorem play_concat (calls : List (Access kind α)) (call : Access kind α) :
    play (calls ++ [call]) =
      ((play calls).1 ++ [(call, ((play calls).2.access call).1)], ((play calls).2.access call).2) :=
  List.foldl_concat ..

theorem remove_eq (a : Arena kind α) (k : Key kind) : a.remove k = (a.get? k, a.erase k) := by
  cases hk : a.get? k with
  | none => rw [erase, remove_of_none hk]
  | some value => exact remove_of_get? hk

theorem Whole.access {a : Arena kind α} (h : a.Whole) (call : Access kind α) : (a.access call).2.Whole := by
  cases call with
  | insert value => exact h.insert value
  | insertAt k value => exact h.insertAt k value
  | remove k => exact h.erase k
  | get k => exact h
  | modify k f => exact h.modify k f

/-- Every call changes the entries as its trace says. -/
theorem get?_access {a : Arena kind α} (h : a.Sound) (call : Access kind α) (k : Key kind) :
    (a.access call).2.get? k = revise k (a.get? k) (call, (a.access call).1) := by
  cases call with
  | insert value => exact h.get?_insert value k
  | insertAt k' value => exact get?_insertAt a k' k value
  | remove k' => exact get?_erase a k' k
  | get k' => rfl
  | modify k' f =>
    simp only [access, revise, get?_modify]
    split_ifs with hk
    · rw [hk]
    · rfl

/-- What is turned out of a slot is what some key of the slot led to. -/
theorem insertAt_displaced (a : Arena kind α) (k : Key kind) (value v : α) :
    (a.insertAt k value).1 = some v ↔ ∃ k' : Key kind, k'.index = k.index ∧ a.get? k' = some v := by
  have hreply : (a.insertAt k value).1 = (a.grow k.index).slots[k.index]?.bind (·.value) := by
    unfold insertAt
    dsimp only
    cases (a.grow k.index).slots[k.index]?.bind (·.value) <;> rfl
  rw [hreply, Option.bind_eq_some_iff]
  constructor
  · rintro ⟨⟨generation, content⟩, hslot, rfl⟩
    refine ⟨⟨k.index, generation⟩, rfl, ?_⟩
    rw [← get?_grow a k.index, get?, hslot, Option.bind_some, Slot.valueAt, if_pos rfl]
  · rintro ⟨k', hindex, hk'⟩
    rw [← get?_grow a k.index] at hk'
    exact ⟨_, hindex ▸ slot_of_get? hk', rfl⟩

theorem Whole.accords {a : Arena kind α} (h : a.Whole) (call : Access kind α) : Accords a.get? call (a.access call).1 := by
  cases call with
  | insert value => exact .insert (h.toSound.vacant_issued value)
  | insertAt k value => exact .insertAt (a.insertAt_displaced k value)
  | remove k =>
    rw [Arena.access, remove_eq]
    exact .remove k
  | get k => exact .get k
  | modify k f => exact .modify k f

/-- There never are fewer slots. -/
theorem length_access (a : Arena kind α) (call : Access kind α) :
    a.slots.length ≤ (a.access call).2.slots.length := by
  cases call with
  | insert value =>
    simp only [access, insert]
    split <;> simp
  | insertAt k value =>
    have hslots : (a.insertAt k value).2.slots = (a.grow k.index).slots.set k.index ⟨k.generation, some value⟩ := by
      unfold insertAt
      dsimp only
      split <;> rfl
    rw [access, hslots, List.length_set, grow, List.length_append]
    exact Nat.le_add_right _ _
  | remove k =>
    simp only [access, remove]
    split <;> simp
  | get k => exact Nat.le_refl _
  | modify k f =>
    simp only [access, modify]
    split <;> simp

theorem play_whole (calls : List (Access kind α)) : (play calls).2.Whole := by
  induction calls using List.reverseRecOn with
  | nil => exact empty_whole
  | append_singleton calls call ih =>
    rw [play_concat]
    exact ih.access call

theorem get?_play (calls : List (Access kind α)) (k : Key kind) : (play calls).2.get? k = held (play calls).1 k := by
  induction calls using List.reverseRecOn with
  | nil => rfl
  | append_singleton calls call ih =>
    rw [play_concat, held_concat, ← ih]
    exact get?_access (play_whole calls).toSound call k

/-! ## Fresh keys -/

/-- The generation of a slot, zero beyond the last one. -/
def age (a : Arena kind α) (i : Nat) : Nat := (a.slots[i]?.map (·.generation.toNat)).getD 0

theorem age_of_get? {a : Arena kind α} {k : Key kind} {value : α} (h : a.get? k = some value) :
    a.age k.index = k.generation.toNat := by
  rw [age, slot_of_get? h]
  rfl

/-- A key of an earlier generation leads nowhere. -/
theorem get?_of_lt_age {a : Arena kind α} {k : Key kind} (h : k.generation.toNat < a.age k.index) : a.get? k = none := by
  cases hk : a.get? k with
  | none => rfl
  | some value =>
    rw [age_of_get? hk] at h
    exact absurd h (Nat.lt_irrefl _)

theorem Sound.age_issued {a : Arena kind α} (h : a.Sound) (value : α) :
    (a.insert value).1.generation.toNat = a.age (a.insert value).1.index := by
  unfold Arena.insert
  cases hfree : a.free with
  | nil => simp [age]
  | cons index free =>
    obtain ⟨generation, hslot⟩ := h.vacant index (hfree ▸ List.mem_cons_self)
    simp [age, hslot]

theorem Sound.age_insert {a : Arena kind α} (h : a.Sound) (value : α) (i : Nat) : (a.insert value).2.age i = a.age i := by
  by_cases hi : i = (a.insert value).1.index
  · rw [hi, ← h.age_issued value, age, (h.issued value).filled]
    rfl
  · rw [age, (h.issued value).others i hi, age]

theorem age_modify (a : Arena kind α) (k : Key kind) (f : α → α) (i : Nat) : (a.modify k f).age i = a.age i := by
  unfold modify
  cases hk : a.get? k with
  | none => rfl
  | some value =>
    have hslot := slot_of_get? hk
    have hlt : k.index < a.slots.length := (List.getElem?_eq_some_iff.1 hslot).1
    unfold age
    dsimp only
    by_cases hi : k.index = i
    · rw [← hi, List.getElem?_set_self hlt, hslot]
      rfl
    · rw [List.getElem?_set_ne hi]

/-- A removal raises the generation of its slot. -/
theorem age_erase {a : Arena kind α} {k : Key kind} {value : α} (hk : a.get? k = some value) (i : Nat) :
    (a.erase k).age i = if i = k.index then (k.generation + 1).toNat else a.age i := by
  have hlt : k.index < a.slots.length := (List.getElem?_eq_some_iff.1 (slot_of_get? hk)).1
  simp only [erase, remove, hk, age]
  split_ifs with hi
  · rw [hi, List.getElem?_set_self hlt]
    rfl
  · rw [List.getElem?_set_ne (Ne.symm hi)]

/-- The generations count the removals, and with them the issued keys are told apart. -/
structure Fresh (trace : List (Access kind α × Reply kind α)) (a : Arena kind α) : Prop where
  age : ∀ i, a.age i = removals trace i
  /-- An issued key is of an earlier generation, or leads to a value. -/
  issued : ∀ k ∈ issued trace, k.generation.toNat < a.age k.index ∨ (a.get? k).isSome = true
  nodup : (Access.issued trace).Nodup
  removed : ∀ k ∈ removed trace, k.generation.toNat < a.age k.index

theorem empty_fresh : Fresh [] (.empty : Arena kind α) where
  age := fun _ => rfl
  issued := nofun
  nodup := .nil
  removed := nofun

/-- A call that neither issues nor removes anything. -/
theorem Fresh.idle {trace : List (Access kind α × Reply kind α)} {a b : Arena kind α} (h : Fresh trace a)
    {x : Access kind α × Reply kind α} (hissued : issued? x = none) (hremoved : removed? x = none)
    (hage : ∀ i, b.age i = a.age i) (hget : ∀ k, (a.get? k).isSome = true → (b.get? k).isSome = true) :
    Fresh (trace ++ [x]) b where
  age := fun i => by
    rw [hage, h.age, removals_concat, hremoved]
    rfl
  issued := fun k hk => by
    rw [issued_concat, hissued, Option.toList_none, List.append_nil] at hk
    rw [hage]
    exact (h.issued k hk).imp_right (hget k)
  nodup := by
    rw [issued_concat, hissued, Option.toList_none, List.append_nil]
    exact h.nodup
  removed := fun k hk => by
    rw [removed_concat, hremoved, Option.toList_none, List.append_nil] at hk
    rw [hage]
    exact h.removed k hk

theorem Fresh.insert {trace : List (Access kind α × Reply kind α)} {a : Arena kind α} (h : Fresh trace a) (ha : a.Sound)
    (value : α) : Fresh (trace ++ [(.insert value, .issued (a.insert value).1)]) (a.insert value).2 := by
  have hremoved : removed? (Access.insert value, Reply.issued (a.insert value).1) = none := rfl
  refine ⟨fun i => ?_, fun k hk => ?_, ?_, fun k hk => ?_⟩
  · rw [ha.age_insert, h.age, removals_concat, hremoved]
    rfl
  · rw [ha.age_insert, ha.get?_insert]
    rw [issued_concat] at hk
    rcases List.mem_append.1 hk with hk | hk
    · refine (h.issued k hk).imp_right fun hsome => ?_
      split_ifs
      · rfl
      · exact hsome
    · rw [if_pos (List.mem_singleton.1 hk)]
      exact .inr rfl
  · rw [issued_concat]
    refine h.nodup.append (List.nodup_singleton _) (List.disjoint_singleton.2 fun hk => ?_)
    rcases h.issued _ hk with hlt | hsome
    · rw [ha.age_issued] at hlt
      exact Nat.lt_irrefl _ hlt
    · rw [ha.get?_issued] at hsome
      cases hsome
  · rw [removed_concat, hremoved, Option.toList_none, List.append_nil] at hk
    rw [ha.age_insert]
    exact h.removed k hk

theorem Fresh.erase {trace : List (Access kind α × Reply kind α)} {a : Arena kind α} (h : Fresh trace a) {k : Key kind}
    {value : α} (hk : a.get? k = some value) (hfew : removals trace k.index + 1 < UInt32.size) :
    Fresh (trace ++ [(.remove k, .found (some value))]) (a.erase k) := by
  have hremoved : removed? (Access.remove k, Reply.found (some value)) = some k := rfl
  have hissued : issued? (Access.remove k, Reply.found (some value)) = none := rfl
  have hgeneration : k.generation.toNat = removals trace k.index := (age_of_get? hk).symm.trans (h.age _)
  have hnext : (k.generation + 1).toNat = k.generation.toNat + 1 := by
    rw [UInt32.toNat_add]
    exact Nat.mod_eq_of_lt (by rw [hgeneration]; exact hfew)
  -- No slot gets younger.
  have hage : ∀ i, a.age i ≤ (a.erase k).age i := by
    intro i
    rw [age_erase hk]
    split_ifs with hi
    · rw [hi, age_of_get? hk, hnext]
      exact Nat.le_succ _
    · exact Nat.le_refl _
  have hgone : k.generation.toNat < (a.erase k).age k.index := by
    rw [age_erase hk, if_pos rfl, hnext]
    exact Nat.lt_succ_self _
  refine ⟨fun i => ?_, fun k' hk' => ?_, ?_, fun k' hk' => ?_⟩
  · rw [age_erase hk, removals_concat, hremoved]
    split_ifs with hi
    · rw [hnext, hgeneration, hi]
      simp
    · rw [h.age]
      simp [Ne.symm hi]
  · rw [issued_concat, hissued, Option.toList_none, List.append_nil] at hk'
    rcases h.issued k' hk' with hlt | hsome
    · exact .inl (Nat.lt_of_lt_of_le hlt (hage _))
    · by_cases heq : k' = k
      · exact .inl (heq ▸ hgone)
      · rw [get?_erase, if_neg heq]
        exact .inr hsome
  · rw [issued_concat, hissued, Option.toList_none, List.append_nil]
    exact h.nodup
  · rw [removed_concat, hremoved] at hk'
    rcases List.mem_append.1 hk' with hk' | hk'
    · exact Nat.lt_of_lt_of_le (h.removed k' hk') (hage _)
    · obtain rfl : k' = k := List.mem_singleton.1 hk'
      exact hgone

/-- A call that does not store under a key from elsewhere, as long as the generation of no slot has come round. -/
theorem Fresh.access {trace : List (Access kind α × Reply kind α)} {a : Arena kind α} (h : Fresh trace a) (ha : a.Sound)
    {call : Access kind α} (hcall : ∀ k value, call ≠ .insertAt k value)
    (hfew : ∀ i, removals (trace ++ [(call, (a.access call).1)]) i < UInt32.size) :
    Fresh (trace ++ [(call, (a.access call).1)]) (a.access call).2 := by
  cases call with
  | insert value => exact h.insert ha value
  | insertAt k value => exact absurd rfl (hcall k value)
  | remove k =>
    simp only [Arena.access, remove_eq] at hfew ⊢
    cases hk : a.get? k with
    | none =>
      rw [Arena.erase, remove_of_none hk]
      exact h.idle rfl rfl (fun _ => rfl) fun _ hsome => hsome
    | some value =>
      refine h.erase hk ?_
      have hslot := hfew k.index
      rw [hk, removals_concat] at hslot
      simpa [removed?] using hslot
  | get k => exact h.idle rfl rfl (fun _ => rfl) fun _ hsome => hsome
  | modify k f =>
    refine h.idle rfl rfl (a.age_modify k f) fun k' hsome => ?_
    rw [Arena.access, get?_modify_eq_map, Option.isSome_map]
    exact hsome

theorem play_fresh {calls : List (Access kind α)} (hcalls : ∀ k value, .insertAt k value ∉ calls)
    (hfew : ∀ i, removals (play calls).1 i < UInt32.size) : Fresh (play calls).1 (play calls).2 := by
  induction calls using List.reverseRecOn with
  | nil => exact empty_fresh
  | append_singleton calls call ih =>
    rw [play_concat] at hfew ⊢
    have hbefore : Fresh (play calls).1 (play calls).2 := by
      refine ih (fun k value hmem => hcalls k value (List.mem_append_left _ hmem)) fun i => ?_
      have hlater := hfew i
      rw [removals_concat] at hlater
      exact Nat.lt_of_le_of_lt (Nat.le_add_right _ _) hlater
    refine hbefore.access (play_whole calls).toSound (fun k value heq => ?_) hfew
    exact hcalls k value (List.mem_append_right _ (heq ▸ List.mem_singleton_self _))

end Arena

/-! ## Calls of a linked arena -/

namespace LinkedArena

/-- One call. -/
def access (l : LinkedArena kind α) : Access kind α → Option (Reply kind α × LinkedArena kind α)
  | .insert value => (l.insert value).map fun (k, l) => (.issued k, l)
  | .insertAt k value => (l.insertAt k value).map fun (old, l) => (.found old, l)
  | .remove k => some (.found (l.remove k).1, (l.remove k).2)
  | .get k => some (.found (l.get? k), l)
  | .modify k f => some (.found (l.get? k), l.modify k f)

/-- Calls from the start, with their trace. -/
def play (calls : List (Access kind α)) : Option (List (Access kind α × Reply kind α) × LinkedArena kind α) :=
  calls.foldlM (fun (trace, l) call => (l.access call).map fun (reply, l) => (trace ++ [(call, reply)], l)) ([], .empty)

/-- Every call succeeds and does what it does to a plain arena. An issued key is the same
as long as its 32 bits are enough for the slots. -/
theorem Threads.access {l : LinkedArena kind α} {a : Arena kind α} (h : l.Threads a) (ha : a.Whole)
    (call : Access kind α) :
    ∃ reply l', l.access call = some (reply, l') ∧ l'.Threads (a.access call).2 ∧
      (l.slots.length < UInt32.size → reply = (a.access call).1) := by
  cases call with
  | insert value =>
    obtain ⟨k, l', hinsert, hthreads, hkey⟩ := h.insert ha.toSound value
    exact ⟨.issued k, l', by rw [LinkedArena.access, hinsert]; rfl, hthreads, fun hroom => congrArg Reply.issued (hkey hroom)⟩
  | insertAt k value =>
    obtain ⟨l', hinsert, hthreads⟩ := h.insertAt ha k value
    exact ⟨_, l', by rw [LinkedArena.access, hinsert]; rfl, hthreads, fun _ => rfl⟩
  | remove k =>
    obtain ⟨hvalue, hthreads⟩ := h.remove ha.toSound k
    exact ⟨_, _, rfl, hthreads, fun _ => congrArg Reply.found hvalue⟩
  | get k => exact ⟨_, _, rfl, h, fun _ => congrArg Reply.found (h.get?_eq k).symm⟩
  | modify k f => exact ⟨_, _, rfl, h.modify ha.toSound k f, fun _ => congrArg Reply.found (h.get?_eq k).symm⟩

theorem threads_play (calls : List (Access kind α)) :
    ∃ trace l, play calls = some (trace, l) ∧ trace.map (·.1) = calls ∧ l.Threads (Arena.play calls).2 ∧
      (l.slots.length < UInt32.size → trace = (Arena.play calls).1) := by
  induction calls using List.reverseRecOn with
  | nil => exact ⟨[], .empty, rfl, rfl, empty_threads, fun _ => rfl⟩
  | append_singleton calls call ih =>
    obtain ⟨trace, l, hplay, hcalls, hthreads, htrace⟩ := ih
    obtain ⟨reply, l', haccess, hthreads', hreply⟩ := hthreads.access (Arena.play_whole calls) call
    refine ⟨trace ++ [(call, reply)], l', ?_, ?_, ?_, fun hroom => ?_⟩
    · unfold play at hplay ⊢
      rw [List.foldlM_append, hplay]
      simp [haccess]
    · rw [List.map_append, hcalls]
      rfl
    · rw [Arena.play_concat]
      exact hthreads'
    · have hgrown := (Arena.play calls).2.length_access call
      rw [hthreads.length, hthreads'.length] at hgrown
      have hbefore := Nat.lt_of_le_of_lt hgrown hroom
      rw [Arena.play_concat, htrace hbefore, hreply hbefore]

/-- What an arena shows is what is under each key, and no slot is lost. -/
structure Agrees (entries : Key kind → Option α) (l : LinkedArena kind α) : Prop where
  get : ∀ k, l.get? k = entries k
  /-- The chain visits every vacant slot once, and no other. -/
  chain : ∃ visited, Chain l.slots l.first visited ∧ visited.Nodup ∧
    ∀ i, i ∈ visited ↔ ∃ generation next, l.slots[i]? = some (.vacant generation next)
  size : l.size = l.slots.countP (·.isTaken)
  listed : ∀ k value, (k, value) ∈ l.toList ↔ entries k = some value
  /-- Each entry is listed once, in the order of the slots. -/
  ordered : (l.toList.map (·.1.index)).Pairwise (· < ·)

theorem Threads.agrees {l : LinkedArena kind α} {a : Arena kind α} (h : l.Threads a) (ha : a.Whole) :
    l.Agrees a.get? where
  get := fun k => (h.get?_eq k).symm
  chain := ⟨a.free, h.chain, ha.nodup, fun _ => h.mem_free ha⟩
  size := h.counted ha
  listed := fun k value => by rw [← h.toList_eq, Arena.mem_toList]
  ordered := by
    have hindices : (l.slots.zipIdx.map Prod.snd).Pairwise (· < ·) := by
      rw [List.zipIdx_map_snd]
      exact List.pairwise_lt_range'
    refine List.pairwise_map.2 ((List.pairwise_map.1 hindices).filterMap _ fun s s' hlt x hx x' hx' => ?_)
    obtain ⟨slot, index⟩ := s
    obtain ⟨slot', index'⟩ := s'
    cases slot <;> cases hx
    cases slot' <;> cases hx'
    exact hlt

/-- An arena is a finite map. After any calls it agrees with their trace, every further
call succeeds and replies in accordance with it, and without keys from elsewhere a key
is issued once, so that a removed one never leads anywhere again. -/
theorem finite_map (calls : List (Access kind α)) :
    ∃ trace l, play calls = some (trace, l) ∧ trace.map (·.1) = calls ∧
      (l.slots.length < UInt32.size →
        l.Agrees (held trace) ∧
        (∀ call, ∃ reply l', l.access call = some (reply, l') ∧ Accords (held trace) call reply) ∧
        ((∀ k value, .insertAt k value ∉ calls) → (∀ i, removals trace i < UInt32.size) →
          (issued trace).Nodup ∧ ∀ k ∈ removed trace, l.get? k = none)) := by
  obtain ⟨trace, l, hplay, hcalls, hthreads, htrace⟩ := threads_play calls
  refine ⟨trace, l, hplay, hcalls, fun hroom => ?_⟩
  have hwhole := Arena.play_whole calls
  have heq := htrace hroom
  have hheld : (Arena.play calls).2.get? = held trace := funext fun k => heq ▸ Arena.get?_play calls k
  refine ⟨hheld ▸ hthreads.agrees hwhole, fun call => ?_, fun hown hfew => ?_⟩
  · obtain ⟨reply, l', haccess, -, hreply⟩ := hthreads.access hwhole call
    refine ⟨reply, l', haccess, ?_⟩
    rw [hreply hroom, ← hheld]
    exact hwhole.accords call
  · subst heq
    have hfresh := Arena.play_fresh hown hfew
    exact ⟨hfresh.nodup, fun k hk => (hthreads.get?_eq k).symm.trans (Arena.get?_of_lt_age (hfresh.removed k hk))⟩

/-- A slot is used again, and the key it had before stays dead. -/
theorem finite_map_of_reuse :
    ∃ trace l, play [.insert 1, .insert 2, .remove (⟨0, 0⟩ : LoopKey), .insert 3] = some (trace, l) ∧
      l.Agrees (held trace) ∧ (issued trace).Nodup ∧ issued trace = [⟨0, 0⟩, ⟨1, 0⟩, ⟨0, 1⟩] ∧
      l.get? ⟨0, 0⟩ = none := by
  obtain ⟨trace, l, hplay, -, hafter⟩ := finite_map [.insert 1, .insert 2, .remove (⟨0, 0⟩ : LoopKey), .insert 3]
  have hrun : play [.insert 1, .insert 2, .remove (⟨0, 0⟩ : LoopKey), .insert 3] = some (
      [(.insert 1, .issued ⟨0, 0⟩), (.insert 2, .issued ⟨1, 0⟩), (.remove ⟨0, 0⟩, .found (some 1)),
        (.insert 3, .issued ⟨0, 1⟩)],
      { slots := [.taken 1 3, .taken 0 2], first := none, size := 2 }) := rfl
  cases hplay.symm.trans hrun
  obtain ⟨hagrees, -, hfresh⟩ := hafter (by decide)
  obtain ⟨hnodup, hremoved⟩ := hfresh (by simp) fun i => Nat.lt_of_le_of_lt List.countP_le_length (by decide)
  exact ⟨_, _, hplay, hagrees, hnodup, rfl, hremoved _ List.mem_cons_self⟩

end LinkedArena
end Overdub
