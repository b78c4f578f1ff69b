import Mathlib
import Overdub.Midi.MergeBuffer
/-!
# Merging runs sorts

A merge buffer is sorted by merging its ordered runs pair by pair. What comes out
is in order, and of the entries of one key it holds exactly those that went in, in
the order they were written: the sort is stable. Both are shown for one merge
first, then for a round of merges, and by induction for all rounds.
-/

namespace Overdub.Midi

variable {α : Type} (key : α → Nat)

/-- The entries stand in the order of their keys. -/
def Ascending (l : List α) : Prop := l.Pairwise fun a b => key a ≤ key b

/-- The entries of one key. -/
def keyed (k : Nat) (l : List α) : List α := l.filter fun a => key a = k

theorem keyed_append (k : Nat) (l l' : List α) : keyed key k (l ++ l') = keyed key k l ++ keyed key k l' :=
  List.filter_append ..

theorem keyed_cons (k : Nat) (a : α) (l : List α) :
    keyed key k (a :: l) = if key a = k then a :: keyed key k l else keyed key k l := by
  simp only [keyed, List.filter_cons, decide_eq_true_eq]

variable {key}

theorem keyed_eq_nil {k : Nat} {l : List α} (h : ∀ a ∈ l, k < key a) : keyed key k l = [] := by
  rw [keyed, List.filter_eq_nil_iff]
  intro a ha
  have hlt := h a ha
  simp only [decide_eq_true_eq]
  omega

/-- Lists with the same entries of each key have the same entries. -/
theorem mem_of_keyed {l l' : List α} (h : ∀ k, keyed key k l = keyed key k l') {a : α} : a ∈ l ↔ a ∈ l' := by
  have hself : ∀ l : List α, a ∈ l ↔ a ∈ keyed key (key a) l := by simp [keyed]
  rw [hself, h, ← hself]

/-! ## One merge -/

theorem mem_mergeOrdered {l r : List α} {a : α} : a ∈ mergeOrdered key l r ↔ a ∈ l ∨ a ∈ r := by
  fun_induction mergeOrdered key l r with
  | case1 => simp
  | case2 => simp
  | case3 x l y r hlt ih =>
    simp only [List.mem_cons] at ih ⊢
    tauto
  | case4 x l y r hge ih =>
    simp only [List.mem_cons] at ih ⊢
    tauto

theorem ascending_mergeOrdered {l r : List α} (hl : Ascending key l) (hr : Ascending key r) :
    Ascending key (mergeOrdered key l r) := by
  fun_induction mergeOrdered key l r with
  | case1 => exact hr
  | case2 => exact hl
  | case3 x l y r hlt ih =>
    obtain ⟨hfirst, hrest⟩ := List.pairwise_cons.mp hr
    refine List.pairwise_cons.mpr ⟨fun a ha => ?_, ih hl hrest⟩
    rcases mem_mergeOrdered.mp ha with ha | ha
    · rcases List.mem_cons.mp ha with rfl | ha
      · exact hlt.le
      · exact hlt.le.trans ((List.pairwise_cons.mp hl).1 a ha)
    · exact hfirst a ha
  | case4 x l y r hge ih =>
    obtain ⟨hfirst, hrest⟩ := List.pairwise_cons.mp hl
    refine List.pairwise_cons.mpr ⟨fun a ha => ?_, ih hrest hr⟩
    have hle : key x ≤ key y := Nat.le_of_not_lt hge
    rcases mem_mergeOrdered.mp ha with ha | ha
    · exact hfirst a ha
    · rcases List.mem_cons.mp ha with rfl | ha
      · exact hle
      · exact hle.trans ((List.pairwise_cons.mp hr).1 a ha)

/-- Of equal keys, those of the left list come first. -/
theorem keyed_mergeOrdered {l r : List α} (hl : Ascending key l) (k : Nat) :
    keyed key k (mergeOrdered key l r) = keyed key k l ++ keyed key k r := by
  fun_induction mergeOrdered key l r with
  | case1 => rfl
  | case2 => rw [keyed, keyed, List.filter_nil, List.append_nil]
  | case3 x l y r hlt ih =>
    -- An entry that overtakes the left list is smaller than all of it.
    have hover : key y = k → keyed key k (x :: l) = [] := by
      rintro rfl
      refine keyed_eq_nil fun a ha => ?_
      rcases List.mem_cons.mp ha with rfl | ha
      · exact hlt
      · exact hlt.trans_le ((List.pairwise_cons.mp hl).1 a ha)
    rw [keyed_cons, keyed_cons key k y, ih hl]
    split_ifs with hy
    · rw [hover hy, List.nil_append, List.nil_append]
    · rfl
  | case4 x l y r hge ih =>
    rw [keyed_cons, keyed_cons key k x, ih (List.pairwise_cons.mp hl).2]
    split_ifs <;> rfl

/-! ## All merges -/

theorem mergePairs_spec {runs : List (List α)} (h : ∀ run ∈ runs, Ascending key run) :
    (∀ run ∈ mergePairs key runs, Ascending key run) ∧
      ∀ k, keyed key k (mergePairs key runs).flatten = keyed key k runs.flatten := by
  fun_induction mergePairs key runs with
  | case1 first second rest ih =>
    simp only [List.forall_mem_cons] at h
    obtain ⟨hfirst, hsecond, hrest⟩ := h
    obtain ⟨hascending, hkeyed⟩ := ih hrest
    refine ⟨List.forall_mem_cons.mpr ⟨ascending_mergeOrdered hfirst hsecond, hascending⟩, fun k => ?_⟩
    simp only [List.flatten_cons, keyed_append, keyed_mergeOrdered hfirst, hkeyed, List.append_assoc]
  | case2 => exact ⟨h, fun k => rfl⟩

theorem mergeRuns_spec {runs : List (List α)} (h : ∀ run ∈ runs, Ascending key run) :
    Ascending key (mergeRuns key runs) ∧ ∀ k, keyed key k (mergeRuns key runs) = keyed key k runs.flatten := by
  fun_induction mergeRuns key runs with
  | case1 => exact ⟨List.Pairwise.nil, fun k => rfl⟩
  | case2 run => exact ⟨h run List.mem_cons_self, fun k => by simp⟩
  | case3 first second rest ih =>
    obtain ⟨hascending, hkeyed⟩ := mergePairs_spec h
    obtain ⟨hsorted, hall⟩ := ih hascending
    exact ⟨hsorted, fun k => (hall k).trans (hkeyed k)⟩

/-- The ordered runs, laid end to end, are the list. -/
theorem orderedRuns_spec (l : List α) :
    (∀ run ∈ orderedRuns key l, Ascending key run) ∧ (orderedRuns key l).flatten = l := by
  induction l with
  | nil => exact ⟨List.forall_mem_nil _, rfl⟩
  | cons x rest ih =>
    obtain ⟨hascending, hflat⟩ := ih
    unfold orderedRuns
    split
    · next y run runs hruns =>
      rw [hruns, List.forall_mem_cons] at hascending
      rw [hruns] at hflat
      split_ifs with hlt
      · exact ⟨List.forall_mem_cons.mpr ⟨List.pairwise_singleton _ _, List.forall_mem_cons.mpr hascending⟩,
          by rw [List.flatten_cons, hflat]; rfl⟩
      · refine ⟨List.forall_mem_cons.mpr ⟨List.pairwise_cons.mpr ⟨fun a ha => ?_, hascending.1⟩, hascending.2⟩,
          by rw [← hflat]; rfl⟩
        have hle : key x ≤ key y := Nat.le_of_not_lt hlt
        rcases List.mem_cons.mp ha with rfl | ha
        · exact hle
        · exact hle.trans ((List.pairwise_cons.mp hascending.1).1 a ha)
    · exact ⟨List.forall_mem_cons.mpr ⟨List.pairwise_singleton _ _, hascending⟩, by rw [List.flatten_cons, hflat]; rfl⟩

/-- Sorting puts the messages in order of time, and those of one time in the order
they were written. -/
theorem MergeBuffer.sort_spec (b : MergeBuffer) :
    Ascending (·.time.toNat) b.sort.entries ∧
      ∀ k, keyed (·.time.toNat) k b.sort.entries = keyed (·.time.toNat) k b.entries := by
  obtain ⟨hascending, hflat⟩ := @orderedRuns_spec _ (fun m : Message => m.time.toNat) b.entries
  obtain ⟨hsorted, hkeyed⟩ := mergeRuns_spec hascending
  rw [hflat] at hkeyed
  exact ⟨hsorted, hkeyed⟩

theorem MergeBuffer.mem_sort {b : MergeBuffer} {m : Message} : m ∈ b.sort.entries ↔ m ∈ b.entries :=
  mem_of_keyed b.sort_spec.2

end Overdub.Midi
