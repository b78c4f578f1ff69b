import Overdub.Midi.PooledMerge
import Overdub.Proofs.Merge
/-!
# Merging by a table of runs

A pooled buffer sorts its entries where they lie. Read by a table of starts, they are
a list of runs laid end to end (`starts`): marking finds the ordered runs
(`markRuns_eq`), one merge is that of two runs (`mergeRange_eq`), and a pass merges
the runs in pairs although it rewrites the table that it still reads, because the new
starts never catch up with the old ones (`mergePass_eq`). So all passes together do
what merging the runs of a list does (`mergeRounds_eq`), in the room that was there.
-/

namespace Overdub.Midi

namespace Shelf
variable {α : Type}

theorem extend_eq {s : Shelf α} {more : List α} (h : s.items.length + more.length ≤ s.room) :
    s.extend more = { s with items := s.items ++ more } := by
  unfold extend
  dsimp only
  rw [if_pos h]

theorem push_eq {s : Shelf α} (h : s.items.length < s.room) (x : α) : s.push x = { s with items := s.items ++ [x] } :=
  extend_eq h

end Shelf

/-! ## Slices -/

section Slices
variable {α : Type} {l : List α} {start stop : Nat}

/-- The items from index `start` up to `stop`. -/
def slice (l : List α) (start stop : Nat) : List α := (l.drop start).take (stop - start)

theorem slice?_eq (h : start ≤ stop) (hstop : stop ≤ l.length) : slice? l start stop = some (slice l start stop) :=
  if_pos ⟨h, hstop⟩

theorem slice_eq_nil (h : stop ≤ start) : slice l start stop = [] := by
  rw [slice, Nat.sub_eq_zero_of_le h, List.take_zero]

theorem length_slice (start : Nat) (hstop : stop ≤ l.length) : (slice l start stop).length = stop - start := by
  rw [slice, List.length_take, List.length_drop]
  omega

theorem slice_eq_cons (h : start < stop) {x : α} (hx : l[start]? = some x) :
    slice l start stop = x :: slice l (start + 1) stop := by
  obtain ⟨hstart, rfl⟩ := List.getElem?_eq_some_iff.mp hx
  rw [slice, List.drop_eq_getElem_cons hstart, show stop - start = stop - (start + 1) + 1 by omega, List.take_succ_cons]
  rfl

theorem slice_middle (front middle back : List α) :
    slice (front ++ (middle ++ back)) front.length (front.length + middle.length) = middle := by
  rw [slice, List.drop_left, Nat.add_sub_cancel_left, List.take_left]

end Slices

theorem mergeOrdered_nil {α : Type} (key : α → Nat) (l : List α) : mergeOrdered key l [] = l := by
  cases l <;> simp [mergeOrdered]

theorem perm_mergeOrdered {α : Type} (key : α → Nat) (l r : List α) : (mergeOrdered key l r).Perm (l ++ r) := by
  fun_induction mergeOrdered key l r with
  | case1 => exact .refl _
  | case2 => exact .of_eq (List.append_nil _).symm
  | case3 x l y r hlt ih => exact (ih.cons y).trans List.perm_middle.symm
  | case4 x l y r hge ih => exact ih.cons x

theorem perm_mergePairs {α : Type} (key : α → Nat) (groups : List (List α)) :
    (mergePairs key groups).flatten.Perm groups.flatten := by
  fun_induction mergePairs key groups with
  | case1 first second rest ih =>
    rw [List.flatten_cons, List.flatten_cons, List.flatten_cons, ← List.append_assoc]
    exact (perm_mergeOrdered key first second).append ih
  | case2 => exact .refl _

/-! ## Entries -/

/-- The time of an entry. -/
def MergeEntry.key (pool : List Message) (e : MergeEntry) : Nat := (e.message? pool).elim 0 (·.time.toNat)

namespace PooledMerge

/-- Each entry has its message. -/
def Resolved (pool : List Message) (entries : List MergeEntry) : Prop := ∀ e ∈ entries, (e.message? pool).isSome

section Sorting
variable {pool : List Message} {entries : List MergeEntry}

theorem timeAt_eq (h : Resolved pool entries) {i : Nat} {e : MergeEntry} (he : entries[i]? = some e) :
    ∃ time, timeAt pool entries i = some time ∧ time.toNat = e.key pool := by
  obtain ⟨m, hm⟩ := Option.isSome_iff_exists.mp (h e (List.mem_of_getElem? he))
  refine ⟨m.time, ?_, ?_⟩
  · rw [timeAt, he, Option.bind_some, hm, Option.map_some]
  · rw [MergeEntry.key, hm, Option.elim_some]

/-- Two parts of the entries are merged like two lists. -/
theorem mergeRange_eq (h : Resolved pool entries) {i mid j stop : Nat} (hi : i ≤ mid) (hmid : mid ≤ entries.length)
    (hj : j ≤ stop) (hstop : stop ≤ entries.length) {out : Shelf MergeEntry}
    (hroom : out.items.length + (mid - i) + (stop - j) ≤ out.room) :
    mergeRange pool entries i mid j stop out =
      some { out with items := out.items ++ mergeOrdered (MergeEntry.key pool) (slice entries i mid) (slice entries j stop) } := by
  fun_induction mergeRange pool entries i mid j stop out with
  | case1 i j out hboth ihright ihleft =>
    obtain ⟨himid, hjstop⟩ := hboth
    have hleft : entries[i]? = some entries[i] := List.getElem?_eq_getElem (by omega)
    have hright : entries[j]? = some entries[j] := List.getElem?_eq_getElem (by omega)
    obtain ⟨left, htleft, hkleft⟩ := timeAt_eq h hleft
    obtain ⟨right, htright, hkright⟩ := timeAt_eq h hright
    have hpush : ∀ e, out.push e = { out with items := out.items ++ [e] } := Shelf.push_eq (by omega)
    have hmore : ∀ e : MergeEntry, (out.items ++ [e]).length = out.items.length + 1 := fun e => by simp
    simp only [hpush, hmore] at ihright ihleft
    rw [htleft, htright, slice_eq_cons himid hleft, slice_eq_cons hjstop hright, mergeOrdered, ← hkleft, ← hkright]
    simp only [Option.bind_some, hleft, hright, hpush, UInt32.lt_iff_toNat_lt]
    split_ifs
    · rw [ihright _ hi hjstop (by omega), slice_eq_cons himid hleft, List.append_assoc, List.singleton_append]
    · rw [ihleft _ himid hj (by omega), slice_eq_cons hjstop hright, List.append_assoc, List.singleton_append]
  | case2 i j out hboth =>
    have hone : mergeOrdered (MergeEntry.key pool) (slice entries i mid) (slice entries j stop) =
        slice entries i mid ++ slice entries j stop := by
      rcases Nat.lt_or_ge i mid with himid | himid
      · rw [slice_eq_nil (l := entries) (show stop ≤ j by omega), mergeOrdered_nil, List.append_nil]
      · rw [slice_eq_nil (l := entries) himid, mergeOrdered, List.nil_append]
    have hlefts := length_slice i hmid
    have hrights := length_slice j hstop
    rw [slice?_eq hi hmid, slice?_eq hj hstop, Option.bind_some, Option.map_some, hone,
      Shelf.extend_eq (s := out) (by omega), Shelf.extend_eq (by rw [List.length_append]; show _ ≤ out.room; omega), List.append_assoc]

/-! ## Passes -/

/-- Where lists start that are laid end to end from an index on. -/
def starts {α : Type} (start : Nat) : List (List α) → List Nat
  | [] => []
  | run :: rest => start :: starts (start + run.length) rest

theorem length_starts {α : Type} (start : Nat) (groups : List (List α)) : (starts start groups).length = groups.length := by
  induction groups generalizing start with
  | nil => rfl
  | cons run rest ih => exact congrArg (· + 1) (ih _)

theorem set?_next {runs : Shelf Nat} {new gap rest : List Nat} {a : Nat} (h : runs.items = new ++ (gap ++ a :: rest))
    (x : Nat) :
    runs.set? new.length x = some { runs with items := new ++ [x] ++ ((gap ++ [a]).tail ++ rest) } := by
  unfold Shelf.set?
  rw [if_pos (by rw [h]; simp), h]
  cases gap <;> simp

theorem startOf_end {runs : Shelf Nat} {count run : Nat} (h : count ≤ run) :
    startOf entries runs count run = some entries.length := if_neg (Nat.not_lt.mpr h)

/-- Behind the starts that have been read, the next one is that of the next run. -/
theorem startOf_next {runs : Shelf Nat} {start : Nat} (read : List Nat) (rest : List (List MergeEntry)) (tail : List Nat)
    (hruns : runs.items = read ++ (starts start rest ++ tail)) (hlength : entries.length = start + rest.flatten.length)
    {count run : Nat} (hrun : run = read.length) (hcount : count = run + rest.length) :
    startOf entries runs count run = some start := by
  subst hrun hcount
  cases rest with
  | nil =>
    rw [List.length_nil, Nat.add_zero, startOf_end (Nat.le_refl _), hlength]
    rfl
  | cons run rest =>
    unfold startOf
    rw [if_pos (by simp), hruns, List.getElem?_append_right (Nat.le_refl _), Nat.sub_self]
    rfl

/-- The runs from some place on are merged in pairs. In front of what is left of the old starts there are the new
ones, and between them old ones that have been read. -/
theorem mergePass_eq (h : Resolved pool entries) {rest : List (List MergeEntry)} {front : List MergeEntry}
    (hentries : entries = front ++ rest.flatten) {new gap tail : List Nat} {runs : Shelf Nat}
    (hruns : runs.items = new ++ (gap ++ (starts front.length rest ++ tail))) {out : Shelf MergeEntry}
    (hroom : out.items.length + rest.flatten.length ≤ out.room) {count r merged : Nat} (hmerged : merged = new.length)
    (hr : r = merged + gap.length) (hcount : count = r + rest.length) :
    ∃ tail', mergePass pool entries count r merged runs out =
      some (merged + (mergePairs (MergeEntry.key pool) rest).length,
        { runs with items := new ++ (starts front.length (mergePairs (MergeEntry.key pool) rest) ++ tail') },
        { out with items := out.items ++ (mergePairs (MergeEntry.key pool) rest).flatten }) := by
  fun_induction mergePairs (MergeEntry.key pool) rest generalizing front new gap runs out r merged with
  | case1 first second rest ih =>
    have hlength : entries.length = front.length + first.length + second.length + rest.flatten.length := by
      simp [hentries, Nat.add_assoc]
    simp only [List.flatten_cons, List.length_append, List.length_cons] at hentries hroom hcount
    have hstart : startOf entries runs count r = some front.length := by
      refine startOf_next (new ++ gap) (first :: second :: rest) tail ?_ ?_ ?_ hcount
      · rw [hruns, List.append_assoc]
      · simp only [List.flatten_cons, List.length_append]
        omega
      · rw [List.length_append]
        omega
    have hmid : startOf entries runs count (r + 1) = some (front.length + first.length) := by
      refine startOf_next (new ++ gap ++ [front.length]) (second :: rest) tail ?_ ?_ ?_ ?_
      · simp [hruns, starts]
      · rw [List.flatten_cons, List.length_append]
        omega
      · simp only [List.length_append, List.length_singleton]
        omega
      · rw [List.length_cons]
        omega
    have hstop : startOf entries runs count (r + 2) = some (front.length + first.length + second.length) := by
      refine startOf_next (new ++ gap ++ [front.length, front.length + first.length]) rest tail ?_ hlength ?_ ?_
      · simp [hruns, starts]
      · simp only [List.length_append, List.length_cons, List.length_nil]
        omega
      · omega
    have hmerge : mergeRange pool entries front.length (front.length + first.length) (front.length + first.length)
        (front.length + first.length + second.length) out =
        some { out with items := out.items ++ mergeOrdered (MergeEntry.key pool) first second } := by
      have hfirst := slice_middle front first (second ++ rest.flatten)
      have hsecond := slice_middle (front ++ first) second rest.flatten
      rw [← hentries] at hfirst
      rw [List.length_append, List.append_assoc, ← hentries] at hsecond
      rw [mergeRange_eq h (by omega) (by omega) (by omega) (by omega) (by omega), hfirst, hsecond]
    have hboth : (mergeOrdered (MergeEntry.key pool) first second).length = first.length + second.length :=
      (perm_mergeOrdered _ first second).length_eq.trans List.length_append
    -- The first of the old starts that are left gives way to the new one.
    obtain ⟨tail', hpass⟩ := @ih (front ++ first ++ second) (by simp [hentries]) (new ++ [front.length])
      ((gap ++ [front.length]).tail ++ [front.length + first.length])
      { runs with items := new ++ [front.length] ++ ((gap ++ [front.length]).tail ++ (front.length + first.length) ::
        (starts (front.length + first.length + second.length) rest ++ tail)) } (by simp [Nat.add_assoc])
      { out with items := out.items ++ mergeOrdered (MergeEntry.key pool) first second }
      (by rw [List.length_append, hboth]; show _ ≤ out.room; omega) (r + 2) (merged + 1)
      (by simp [hmerged]) (by simp; omega) (by omega)
    refine ⟨tail', ?_⟩
    rw [mergePass, if_pos (by omega), hstart, Option.bind_some, hmid, Option.bind_some, hstop, Option.bind_some,
      hmerged, set?_next hruns, Option.bind_some, hmerge, Option.bind_some, ← hmerged]
    refine hpass.trans ?_
    simp [starts, hboth, Nat.add_assoc, Nat.add_comm 1]
  | case2 rest hshort =>
    rcases rest with _ | ⟨run, _ | ⟨second, rest⟩⟩
    · rw [mergePass, if_neg (by rw [hcount]; simp)]
      obtain ⟨items, room⟩ := runs
      obtain rfl : items = _ := hruns
      exact ⟨gap ++ tail, by simp [starts]⟩
    · simp only [List.flatten_cons, List.flatten_nil, List.append_nil, List.length_singleton] at hentries hroom hcount
      have hlength : entries.length = front.length + run.length := by rw [hentries, List.length_append]
      have hstart : startOf entries runs count r = some front.length := by
        refine startOf_next (new ++ gap) [run] tail ?_ ?_ ?_ hcount
        · rw [hruns, List.append_assoc]
        · simpa using hlength
        · rw [List.length_append]
          omega
      -- A run without a neighbour is copied.
      have hmerge : mergeRange pool entries front.length entries.length entries.length entries.length out =
          some { out with items := out.items ++ run } := by
        have hrun := slice_middle front run []
        rw [List.append_nil, ← hentries, ← hlength] at hrun
        rw [mergeRange_eq h (by omega) (Nat.le_refl _) (Nat.le_refl _) (Nat.le_refl _) (by omega), hrun,
          slice_eq_nil (Nat.le_refl _), mergeOrdered_nil]
      refine ⟨(gap ++ [front.length]).tail ++ tail, ?_⟩
      rw [mergePass, if_pos (by omega), hstart, Option.bind_some, startOf_end (by omega), Option.bind_some,
        startOf_end (by omega), Option.bind_some, hmerged, set?_next hruns, Option.bind_some, hmerge, Option.bind_some,
        mergePass, if_neg (by omega)]
      simp [starts]
    · exact absurd rfl (hshort run second rest)

/-- Merging in passes merges the runs of a list, and stays within the room. -/
theorem mergeRounds_eq {groups : List (List MergeEntry)} (h : Resolved pool groups.flatten) {room : Nat}
    (hroom : groups.flatten.length ≤ room) {tail : List Nat} {runs : Shelf Nat}
    (hruns : runs.items = starts 0 groups ++ tail) (left : List MergeEntry) :
    ∃ table left', mergeRounds pool groups.length runs ⟨groups.flatten, room⟩ ⟨left, room⟩ =
      some (⟨table, runs.room⟩, ⟨mergeRuns (MergeEntry.key pool) groups, room⟩, ⟨left', room⟩) := by
  fun_induction mergeRuns (MergeEntry.key pool) groups generalizing runs tail left with
  | case1 =>
    rw [mergeRounds, if_neg (by simp)]
    exact ⟨runs.items, left, rfl⟩
  | case2 run =>
    rw [mergeRounds, if_neg (by simp), List.flatten_cons, List.flatten_nil, List.append_nil]
    exact ⟨runs.items, left, rfl⟩
  | case3 first second rest ih =>
    have hperm := perm_mergePairs (MergeEntry.key pool) (first :: second :: rest)
    obtain ⟨tail', hpass⟩ := @mergePass_eq pool _ h (first :: second :: rest) [] rfl [] [] tail runs hruns ⟨[], room⟩
      ((Nat.zero_add _).trans_le hroom) _ _ _ rfl rfl (Nat.zero_add _).symm
    simp only [List.length_nil, Nat.zero_add, List.nil_append] at hpass
    rw [mergeRounds, if_pos (by simp)]
    split
    · next hnone =>
      cases hpass.symm.trans hnone
    · next hsome =>
      cases hpass.symm.trans hsome
      exact ih (fun e he => h e (hperm.mem_iff.mp he)) (hperm.length_eq.trans_le hroom) rfl _

/-- Indices from one on at which the key falls. -/
def falls {α : Type} (key : α → Nat) (i : Nat) (before : α) : List α → List Nat
  | [] => []
  | x :: rest => if key x < key before then i :: falls key (i + 1) x rest else falls key (i + 1) x rest

/-- The ordered runs start in front of the first item and wherever the key falls. -/
theorem starts_orderedRuns {α : Type} (key : α → Nat) (start : Nat) (x : α) (rest : List α) :
    starts start (orderedRuns key (x :: rest)) = start :: falls key (start + 1) x rest := by
  induction rest generalizing start x with
  | nil => rfl
  | cons y rest ih =>
    have hrest := ih (start + 1) y
    obtain ⟨run, runs, hruns⟩ : ∃ run runs, orderedRuns key (y :: rest) = (y :: run) :: runs := by
      rw [orderedRuns]
      split
      · split_ifs
        exacts [⟨_, _, rfl⟩, ⟨_, _, rfl⟩]
      · exact ⟨_, _, rfl⟩
    rw [hruns] at hrest
    rw [orderedRuns, hruns, falls]
    dsimp only
    split_ifs
    · exact congrArg (start :: ·) hrest
    · rw [starts, ← (List.cons.inj hrest).2]
      simp only [List.length_cons, Nat.add_assoc, Nat.add_comm 1]

/-- Marking finds where the time falls. -/
theorem markRuns_eq (h : Resolved pool entries) {i : Nat} {before : MergeEntry} {rest : List MergeEntry}
    (hentries : entries.drop i = before :: rest) {runs : Shelf Nat} (hroom : runs.items.length + rest.length ≤ runs.room) :
    markRuns pool entries runs (i + 1) rest.length =
      some { runs with items := runs.items ++ falls (MergeEntry.key pool) (i + 1) before rest } := by
  induction rest generalizing i before runs with
  | nil => rw [List.length_nil, markRuns, falls, List.append_nil]
  | cons e rest ih =>
    rw [List.length_cons] at hroom
    have hat : ∀ d, entries[i + d]? = (before :: e :: rest)[d]? := fun d => by rw [← hentries, List.getElem?_drop]
    obtain ⟨old, hold, hkold⟩ := timeAt_eq h (hat 0)
    obtain ⟨new, hnew, hknew⟩ := timeAt_eq h (hat 1)
    have hnext : entries.drop (i + 1) = e :: rest := by rw [← List.drop_drop, hentries]; rfl
    rw [List.length_cons, markRuns, Nat.add_sub_cancel, falls, ← hkold, ← hknew]
    rw [Nat.add_zero] at hold
    rw [hold, hnew]
    simp only [Option.bind_some, UInt32.lt_iff_toNat_lt]
    split_ifs
    · rw [Shelf.push_eq (by omega), ih hnext (by simp; omega), List.append_assoc]
      rfl
    · exact ih hnext (by omega)

end Sorting

end PooledMerge

end Overdub.Midi
