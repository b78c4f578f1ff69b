import Overdub.Proofs.Faults
import Overdub.Proofs.Lineage
/-!
# The sync lines of loops

The sync line of a loop is the loop, its sync source, the source of that one, and so on.
Where all of it takes part and triggers get along it (`Followed`), the clocks on it lead
each other, and what else there is does not show in them. So a loop on whose line nothing
fails ends where it does among other loops, or among the same ones in another order, as
long as its line is the same (`SameLine.clockAt_process`).
-/

namespace Overdub

/-- Whoever is upstream of the members of a group is one of them, if their sources are. -/
theorem upstream_closed {source : LoopKey → Option LoopKey} {among : LoopKey → Bool}
    (hclosed : ∀ k k', among k → source k = some k' → among k') {d : Nat} {k last : LoopKey} (hk : among k)
    (h : upstream source d k = some last) : among last := by
  induction d generalizing k with
  | zero =>
    cases h
    exact hk
  | succ d ih =>
    obtain ⟨next, hnext, h⟩ := Option.bind_eq_some_iff.1 h
    exact ih (hclosed k next hk hnext) h

namespace Ensemble
variable {e e' : Ensemble} {among : LoopKey → Bool} {c : Clocks} {n : Nat}

/-- Two ensembles that agree about a group which contains the sources of its members. In both all clocks of the
group take part, and each of them is within reach of those upstream. -/
structure Shares (e e' : Ensemble) (among : LoopKey → Bool) (c : Clocks) : Prop where
  source : ∀ k, among k → e'.source k = e.source k
  closed : ∀ k source, among k → e.source k = some source → among source
  outside : ∀ k, among k = false → c k = .still
  listed : ∀ k, among k → c k = .still ∨ k ∈ e.keys ∧ k ∈ e'.keys
  near : ∀ k d z, among k → upstream e.source d k = some z →
    c z = .still ∨ ∃ d' ≤ Scheduler.maxHops + 1, upstream e.source d' k = some z

namespace Shares

theorem upstream_eq (h : Shares e e' among c) (d : Nat) {k : LoopKey} (hk : among k) :
    upstream e'.source d k = upstream e.source d k := by
  induction d generalizing k with
  | zero => rfl
  | succ d ih =>
    rw [upstream, upstream, h.source k hk]
    cases hs : e.source k with
    | none => rfl
    | some source => exact ih (h.closed k source hk hs)

/-- What stands still stays so, so that the ensembles go on agreeing. -/
theorem of_still {c' : Clocks} (h : Shares e e' among c) (hstill : ∀ k, c k = .still → c' k = .still) :
    Shares e e' among c' where
  source := h.source
  closed := h.closed
  outside k hk := hstill k (h.outside k hk)
  listed k hk := (h.listed k hk).imp_left (hstill k)
  near k d z hk hz := (h.near k d z hk hz).imp_left (hstill z)

theorem endsAlone (h : Shares e e' among c) {k : LoopKey} (hk : among k) :
    e'.endsAlone n c k = e.endsAlone n c k := by
  unfold Ensemble.endsAlone
  rw [h.source k hk]

theorem fired_iff (h : Shares e e' among c) {k : LoopKey} (hk : among k) (hmem : k ∈ e.keys) :
    e.fired n c k = true ↔ ∃ d z, upstream e.source d k = some z ∧ e.endsAlone n c z = true := by
  refine passAll_iff hmem fun d z hz hend => ?_
  refine (h.near k d z hk hz).resolve_left fun hstill => ?_
  simp [Ensemble.endsAlone, hstill] at hend

theorem symm (h : Shares e e' among c) : Shares e' e among c where
  source k hk := (h.source k hk).symm
  closed k source hk hs := h.closed k source hk ((h.source k hk).symm.trans hs)
  outside := h.outside
  listed k hk := (h.listed k hk).imp_right And.symm
  near k d z hk hz := by
    rw [h.upstream_eq d hk] at hz
    refine (h.near k d z hk hz).imp_right ?_
    rintro ⟨d', hd', hz'⟩
    exact ⟨d', hd', (h.upstream_eq d' hk).trans hz'⟩

theorem fired (h : Shares e e' among c) {k : LoopKey} (hk : among k) (hmem : k ∈ e.keys) (hmem' : k ∈ e'.keys) :
    e'.fired n c k = e.fired n c k := by
  rw [Bool.eq_iff_iff, h.fired_iff hk hmem, h.symm.fired_iff hk hmem']
  refine exists_congr fun d => exists_congr fun z => ?_
  rw [h.upstream_eq d hk]
  refine and_congr_right fun hz => ?_
  rw [h.endsAlone (upstream_closed h.closed hk hz)]

theorem advance (h : Shares e e' among c) (n : Nat) : e'.advance n c = e.advance n c := by
  funext k
  by_cases hstill : c k = .still
  · rw [advance_still hstill, advance_still hstill]
  have hk : among k = true := Bool.eq_true_of_not_eq_false fun hk => hstill (h.outside k hk)
  obtain ⟨hmem, hmem'⟩ := (h.listed k hk).resolve_left hstill
  unfold Ensemble.advance
  rw [h.fired hk hmem hmem']

theorem settle (h : Shares e e' among c) : Shares e e' among (settle c) :=
  h.of_still fun k hk => by rw [Ensemble.settle, hk, Clock.still_settled]

theorem chunk (h : Shares e e' among c) (n : Nat) :
    e'.chunk n c = e.chunk n c ∧ Shares e e' among (e.chunk n c) :=
  ⟨h.settle.advance n, h.settle.of_still fun _ hk => advance_still hk⟩

/-- Ensembles that agree about a group lead its clocks alike. -/
theorem frames (h : Shares e e' among c) (n : Nat) : e'.frame^[n] c = e.frame^[n] c := by
  induction n generalizing c with
  | zero => rw [Function.iterate_zero, Function.iterate_zero]
  | succ n ih =>
    obtain ⟨hframe, hnext⟩ : e'.frame c = e.frame c ∧ Shares e e' among (e.frame c) := h.chunk 1
    rw [Function.iterate_succ_apply, Function.iterate_succ_apply, hframe, ih hnext]

end Shares

end Ensemble

namespace Scheduler

variable {s s' : Scheduler} {loops loops' : Loops} {keys keys' : List LoopKey} {x y z : LoopKey} {n : Nat}

/-! ## The sync line of a loop -/

/-- The loop is the other one or follows it, however far around. -/
def Above (loops : Loops) (x y : LoopKey) : Prop := ∃ d, upstream (source? loops) d x = some y

theorem Above.refl (loops : Loops) (x : LoopKey) : Above loops x x := ⟨0, rfl⟩

theorem Above.source (h : Above loops x y) (hs : source? loops y = some z) : Above loops x z := by
  obtain ⟨d, hd⟩ := h
  exact ⟨d + 1, (upstream_step hd).trans hs⟩

theorem Above.trans (h : Above loops x y) (h' : Above loops y z) : Above loops x z := by
  obtain ⟨d, hd⟩ := h
  obtain ⟨d', hd'⟩ := h'
  exact ⟨d + d', by rw [upstream_add, hd, Option.bind_some, hd']⟩

/-- The sync line of a loop is followed: all loops on it take part, and triggers get from each of them to those
below it. -/
structure Followed (keys : List LoopKey) (loops : Loops) (x : LoopKey) : Prop where
  listed : ∀ y l, Above loops x y → loops.get? y = some l → y ∈ keys
  near : ∀ y d z, Above loops x y → upstream (source? loops) d y = some z → loops.contains z = true →
    ∃ d' ≤ maxHops + 1, upstream (source? loops) d' y = some z

/-- Triggers get along chains that are not too long. -/
theorem followed_of_short (hkeys : ∀ key l, loops.get? key = some l → key ∈ keys)
    (hshort : ∀ d, maxHops + 1 < d → clockUp loops d x = none) : Followed keys loops x where
  listed y l _ hl := hkeys y l hl
  near := by
    rintro y d z ⟨i, hi⟩ hz hthere
    refine ⟨d, Nat.le_of_not_lt fun hd => ?_, hz⟩
    obtain ⟨l, hl⟩ := Option.isSome_iff_exists.1 hthere
    have hnone := hshort (i + d) (by omega)
    rw [clockUp, upstream_add, hi, Option.bind_some, hz, Option.bind_some, clockAt, hl] at hnone
    cases hnone

open Classical in
/-- The loops on the sync line of a loop. -/
noncomputable def lineOf (loops : Loops) (x : LoopKey) : LoopKey → Bool := fun y => Above loops x y

@[simp] theorem lineOf_eq_true : lineOf loops x y = true ↔ Above loops x y := by simp [lineOf]

@[simp] theorem lineOf_eq_false : lineOf loops x y = false ↔ ¬ Above loops x y := by
  rw [← Bool.not_eq_true, lineOf_eq_true]

theorem Followed.group (h : Followed keys loops x) (hnd : keys.Nodup) :
    Group ⟨source? loops, keys⟩ (lineOf loops x) loops where
  nodup := hnd
  source := rfl
  closed _ _ hk hs := lineOf_eq_true.2 ((lineOf_eq_true.1 hk).source hs)
  cover k l hk hl := h.listed k l (lineOf_eq_true.1 hk) hl

/-- Nothing fails on the sync line of the loop. -/
def Spared (loops : Loops) (x : LoopKey) (failures : List Failure) : Prop := ∀ f ∈ failures, ¬ Above loops x f.loop

theorem spared_iff {failures : List Failure} : Spared loops x failures ↔ Unfailing (lineOf loops x) failures :=
  forall_congr' fun _ => forall_congr' fun _ => lineOf_eq_false.symm

/-! ## Loops elsewhere -/

/-- The sync line of the loop is the same in both: whom its loops follow, and where they are in time. -/
structure SameLine (x : LoopKey) (loops loops' : Loops) : Prop where
  source : ∀ y, Above loops x y → source? loops' y = source? loops y
  clock : ∀ y, Above loops x y → clockAt loops' y = clockAt loops y

namespace SameLine

theorem upstream_eq (h : SameLine x loops loops') (d : Nat) (hy : Above loops x y) :
    upstream (source? loops') d y = upstream (source? loops) d y := by
  induction d generalizing y with
  | zero => rfl
  | succ d ih =>
    rw [upstream, upstream, h.source y hy]
    cases hs : source? loops y with
    | none => rfl
    | some source => exact ih (hy.source hs)

theorem above_iff (h : SameLine x loops loops') : Above loops' x y ↔ Above loops x y :=
  exists_congr fun d => by rw [h.upstream_eq d (.refl loops x)]

theorem lineOf_eq (h : SameLine x loops loops') : lineOf loops' x = lineOf loops x := by
  funext y
  rw [Bool.eq_iff_iff, lineOf_eq_true, lineOf_eq_true, h.above_iff]

theorem clocks_eq (h : SameLine x loops loops') :
    clocks (lineOf loops' x) loops' = clocks (lineOf loops x) loops := by
  funext y
  rw [h.lineOf_eq]
  unfold clocks
  split
  · next hy => rw [h.clock y (lineOf_eq_true.1 hy)]
  · rfl

theorem trans {loops'' : Loops} (h : SameLine x loops loops') (h' : SameLine x loops' loops'') :
    SameLine x loops loops'' where
  source y hy := (h'.source y (h.above_iff.2 hy)).trans (h.source y hy)
  clock y hy := (h'.clock y (h.above_iff.2 hy)).trans (h.clock y hy)

theorem followed (h : SameLine x loops loops') (hf : Followed keys loops x)
    (hkeys : ∀ y ∈ keys, Above loops x y → y ∈ keys') : Followed keys' loops' x where
  listed y l hy hl := by
    rw [h.above_iff] at hy
    have hclock := h.clock y hy
    rw [clockAt, hl] at hclock
    obtain ⟨l₀, hl₀, -⟩ := Option.map_eq_some_iff.1 hclock.symm
    exact hkeys y (hf.listed y l₀ hy hl₀) hy
  near y d z hy hz hthere := by
    rw [h.above_iff] at hy
    rw [h.upstream_eq d hy] at hz
    have hclock := h.clock z (hy.trans ⟨d, hz⟩)
    have hsome : loops.contains z = true := by
      have hmap := congrArg Option.isSome hclock
      rw [clockAt, clockAt, Option.isSome_map, Option.isSome_map] at hmap
      exact hmap.symm.trans hthere
    obtain ⟨d', hd', hz'⟩ := hf.near y d z hy hz hsome
    exact ⟨d', hd', (h.upstream_eq d' hy).trans hz'⟩

theorem shares (h : SameLine x loops loops') (hf : Followed keys loops x) (hf' : Followed keys' loops' x) :
    Ensemble.Shares ⟨source? loops, keys⟩ ⟨source? loops', keys'⟩ (lineOf loops x) (clocks (lineOf loops x) loops) where
  source k hk := h.source k (lineOf_eq_true.1 hk)
  closed k source hk hs := lineOf_eq_true.2 ((lineOf_eq_true.1 hk).source hs)
  outside k hk := by simp [clocks, hk]
  listed k hk := by
    cases hl : loops.get? k with
    | none => exact .inl (clocks_of_none hl)
    | some l =>
      have hk := lineOf_eq_true.1 hk
      have hclock := h.clock k hk
      rw [clockAt, clockAt, hl] at hclock
      obtain ⟨l', hl', -⟩ := Option.map_eq_some_iff.1 hclock
      exact .inr ⟨hf.listed k l hk hl, hf'.listed k l' (h.above_iff.2 hk) hl'⟩
  near k d z hk hz := by
    cases hl : loops.get? z with
    | none => exact .inl (clocks_of_none hl)
    | some l => exact .inr (hf.near k d z (lineOf_eq_true.1 hk) hz (by rw [Arena.contains, hl]; rfl))

end SameLine

/-- Where clocks of a group are the same, and the loop is there in both or in neither. -/
theorem clockAt_eq {among : LoopKey → Bool} (hy : among y = true)
    (hthere : (clockAt loops y).isSome = (clockAt loops' y).isSome) (h : clocks among loops y = clocks among loops' y) :
    clockAt loops y = clockAt loops' y := by
  simp only [clocks, hy, if_true] at h
  generalize clockAt loops y = u at hthere h ⊢
  generalize clockAt loops' y = v at hthere h ⊢
  cases u <;> cases v <;> simp_all

/-- A loop on whose sync line nothing fails ends where it does among any other loops, if its line is the same and
nothing on it fails there either. -/
theorem SameLine.clockAt_process (h : SameLine x loops loops') (hnd : keys.Nodup) (hnd' : keys'.Nodup)
    (ha : s.Ahead loops) (ha' : s'.Ahead loops') (hn : n < maxFrames) (hf : Followed keys loops x)
    (hf' : Followed keys' loops' x) (hspared : Spared loops x (s.failures loops keys n))
    (hspared' : Spared loops' x (s'.failures loops' keys' n)) :
    clockAt (s.process loops keys n).2.1 x = clockAt (s'.process loops' keys' n).2.1 x := by
  have hrun := ((spared_iff.1 hspared).run (e := ⟨source? loops, keys⟩) (hf.group hnd) ha).frames hn
  have hrun' := ((spared_iff.1 hspared').run (e := ⟨source? loops', keys'⟩) (hf'.group hnd') ha').frames hn
  rw [h.lineOf_eq] at hrun'
  have hstart := h.clocks_eq
  rw [h.lineOf_eq] at hstart
  rw [hstart, (h.shares hf hf').frames n, ← hrun] at hrun'
  refine clockAt_eq (lineOf_eq_true.2 (.refl loops x)) ?_ (congrFun hrun' x).symm
  -- a cycle neither adds nor removes loops
  have hkept := clockAt_isSome (processFrom_syncSource hnd ha n (.ok ())) x
  have hkept' := clockAt_isSome (processFrom_syncSource hnd' ha' n (.ok ())) x
  exact hkept.trans ((congrArg Option.isSome (h.clock x (.refl loops x))).symm.trans hkept'.symm)

end Scheduler

end Overdub
