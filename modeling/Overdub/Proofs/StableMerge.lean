import Overdub.Proofs.MergePass
/-!
# The merge buffer is a stable sort

Lists in order with the same entries of each key are equal, so the merged runs are
what a stable sort makes of the list (`mergeRuns_orderedRuns`). A pooled buffer shows
the messages of a plain one (`PooledMerge.Shows`), and every call keeps it so, in the
room that was there at the start. What a buffer tells after any calls
(`PooledMerge.stable_sort`) is then told by what has been accepted.
-/

namespace Overdub.Midi

/-! ## Stable sorting -/

section Stable
variable {α : Type} {key : α → Nat}

/-- Lists in order are equal if they have the same entries of each key. -/
theorem Ascending.eq_of_keyed {l l' : List α} (h : Ascending key l) (h' : Ascending key l')
    (hkeyed : ∀ k, keyed key k l = keyed key k l') : l = l' := by
  induction l generalizing l' with
  | nil =>
    refine (List.eq_nil_iff_forall_not_mem.mpr fun a ha => ?_).symm
    exact List.not_mem_nil ((mem_of_keyed hkeyed).mpr ha)
  | cons x rest ih =>
    cases l' with
    | nil => exact absurd ((mem_of_keyed hkeyed).mp List.mem_cons_self) List.not_mem_nil
    | cons y rest' =>
      obtain ⟨hfirst, hrest⟩ := List.pairwise_cons.mp h
      obtain ⟨hfirst', hrest'⟩ := List.pairwise_cons.mp h'
      -- Each of the first entries is somewhere in the other list, so they have one key.
      have hkey : key x = key y := by
        refine Nat.le_antisymm ?_ ?_
        · rcases List.mem_cons.mp ((mem_of_keyed hkeyed).mpr (List.mem_cons_self (a := y))) with heq | hmem
          · exact heq ▸ Nat.le_refl _
          · exact hfirst y hmem
        · rcases List.mem_cons.mp ((mem_of_keyed hkeyed).mp (List.mem_cons_self (a := x))) with heq | hmem
          · exact heq ▸ Nat.le_refl _
          · exact hfirst' x hmem
      have hhead := hkeyed (key x)
      rw [keyed_cons, keyed_cons, if_pos rfl, if_pos hkey.symm] at hhead
      obtain ⟨rfl, -⟩ := List.cons.inj hhead
      refine congrArg (x :: ·) (ih hrest hrest' fun k => ?_)
      have hall := hkeyed k
      rw [keyed_cons, keyed_cons] at hall
      split_ifs at hall
      · exact (List.cons.inj hall).2
      · exact hall

/-- The stable sort of a list by a key. -/
def sortedBy (key : α → Nat) (l : List α) : List α := l.mergeSort fun a b => decide (key a ≤ key b)

theorem sortedBy_spec (key : α → Nat) (l : List α) :
    Ascending key (sortedBy key l) ∧ ∀ k, keyed key k (sortedBy key l) = keyed key k l := by
  have htrans : ∀ a b c : α, decide (key a ≤ key b) = true → decide (key b ≤ key c) = true →
      decide (key a ≤ key c) = true := fun a b c hab hbc =>
    decide_eq_true ((of_decide_eq_true hab).trans (of_decide_eq_true hbc))
  have htotal : ∀ a b : α, (decide (key a ≤ key b) || decide (key b ≤ key a)) = true := fun a b => by
    simpa using Nat.le_total _ _
  refine ⟨(List.pairwise_mergeSort htrans htotal l).imp of_decide_eq_true, fun k => ?_⟩
  -- The entries of one key are in order already, so they are still there in that order, and no others are.
  have hequal : (keyed key k l).Pairwise fun a b => decide (key a ≤ key b) = true := by
    refine List.pairwise_of_forall_mem_list fun a ha b hb => decide_eq_true ?_
    have hka := of_decide_eq_true (List.mem_filter.mp ha).2
    have hkb := of_decide_eq_true (List.mem_filter.mp hb).2
    omega
  have hsublist : (keyed key k (keyed key k l)).Sublist (keyed key k (sortedBy key l)) :=
    (List.sublist_mergeSort htrans htotal hequal List.filter_sublist).filter _
  have hidem : keyed key k (keyed key k l) = keyed key k l := by simp [keyed]
  rw [hidem] at hsublist
  exact (hsublist.eq_of_length ((List.mergeSort_perm l _).filter _).length_eq.symm).symm

/-- Merging the ordered runs of a list is a stable sort. -/
theorem mergeRuns_orderedRuns (key : α → Nat) (l : List α) : mergeRuns key (orderedRuns key l) = sortedBy key l := by
  obtain ⟨hruns, hflat⟩ := @orderedRuns_spec _ key l
  obtain ⟨hsorted, hkeyed⟩ := mergeRuns_spec hruns
  obtain ⟨hstable, hsame⟩ := sortedBy_spec key l
  exact hsorted.eq_of_keyed hstable fun k => by rw [hkeyed, hflat, hsame]

/-- What was sorted once and appended to can be sorted as if it had never been. -/
theorem sortedBy_congr {l l' : List α} (h : ∀ k, keyed key k l = keyed key k l') : sortedBy key l = sortedBy key l' := by
  obtain ⟨hsorted, hkeyed⟩ := sortedBy_spec key l
  obtain ⟨hsorted', hkeyed'⟩ := sortedBy_spec key l'
  exact hsorted.eq_of_keyed hsorted' fun k => by rw [hkeyed, hkeyed', h]

theorem length_sortedBy (key : α → Nat) (l : List α) : (sortedBy key l).length = l.length :=
  (List.mergeSort_perm l _).length_eq

theorem sortedBy_of_short {l : List α} (h : l.length < 2) : sortedBy key l = l := by
  rcases l with _ | ⟨x, _ | ⟨y, rest⟩⟩
  · exact List.mergeSort_nil
  · exact List.mergeSort_singleton x
  · exact absurd h (by simp)

theorem map_sortedBy {β : Type} (key : α → Nat) {f : α → β} (key' : β → Nat) (h : ∀ a, key' (f a) = key a) (l : List α) :
    (sortedBy key l).map f = sortedBy key' (l.map f) :=
  List.map_mergeSort fun a _ b _ => by rw [h, h]

end Stable

theorem mapM_eq_some {α β : Type} {f : α → Option β} {l : List α} {l' : List β} (h : l.map f = l'.map some) :
    l.mapM f = some l' := by
  induction l generalizing l' with
  | nil => rw [List.map_eq_nil_iff.mp (h.symm.trans List.map_nil)]; rfl
  | cons a rest ih =>
    cases l' with
    | nil => cases h
    | cons b rest' =>
      obtain ⟨hfirst, hrest⟩ := List.cons.inj h
      rw [List.mapM_cons, hfirst, ih hrest]
      rfl

theorem MergeBuffer.sort_entries (b : MergeBuffer) : b.sort.entries = sortedBy (·.time.toNat) b.entries :=
  mergeRuns_orderedRuns _ _

/-! ## What a pooled buffer shows -/

namespace PooledMerge

/-- A pooled buffer stands for a plain one, with all the room that this has. -/
structure Shows (b : PooledMerge) (plain : MergeBuffer) : Prop where
  poolRoom : b.pool.room = plain.capacity
  entriesRoom : b.entries.room = plain.capacity
  scratchRoom : b.scratch.room = plain.capacity
  runsRoom : b.runs.room = plain.capacity
  fits : plain.entries.length ≤ plain.capacity
  copied : b.pool.items.length ≤ b.entries.items.length
  messages : b.entries.items.map (MergeEntry.message? b.pool.items) = plain.entries.map some
  sorted : b.sorted = plain.sorted

namespace Shows
variable {b : PooledMerge} {plain : MergeBuffer}

theorem length_eq (h : b.Shows plain) : b.entries.items.length = plain.entries.length := by
  have hlength := congrArg List.length h.messages
  rwa [List.length_map, List.length_map] at hlength

theorem resolved (h : b.Shows plain) : Resolved b.pool.items b.entries.items := by
  intro e he
  have hmem : e.message? b.pool.items ∈ plain.entries.map some := h.messages ▸ List.mem_map_of_mem he
  obtain ⟨m, -, hm⟩ := List.mem_map.mp hmem
  rw [← hm, Option.isSome_some]

/-- What can be read of it are the messages of the plain buffer. -/
theorem read (h : b.Shows plain) : b.messages = some plain.messages := by
  unfold PooledMerge.messages MergeBuffer.messages
  rw [h.sorted]
  split_ifs
  · rw [mapM_eq_some h.messages, Option.map_some]
  · rfl

/-- A full buffer refuses a message. -/
theorem write_full (h : b.Shows plain) (hfull : plain.entries.length = plain.capacity) (m : Message) :
    b.writeValue m = (b, .error (.mergeBufferFull plain.capacity)) ∧
      b.writeRef m = (b, .error (.mergeBufferFull plain.capacity)) := by
  have hroom : b.entries.items.length = b.entries.room := by rw [h.length_eq, h.entriesRoom, hfull]
  unfold writeValue writeRef
  rw [if_pos (.inr hroom), if_pos hroom, h.entriesRoom]
  exact ⟨rfl, rfl⟩

/-- With room left, a message is borrowed. -/
theorem writeRef_room (h : b.Shows plain) (hroom : plain.entries.length < plain.capacity) (m : Message) :
    (b.writeRef m).2 = .ok () ∧
      (b.writeRef m).1.Shows { plain with entries := plain.entries ++ [m], sorted := false } := by
  have hlength := h.length_eq
  have hentries : b.entries.items.length < b.entries.room := by rw [hlength, h.entriesRoom]; exact hroom
  unfold writeRef
  rw [if_neg (Nat.ne_of_lt hentries), Shelf.push_eq hentries]
  refine ⟨rfl, h.poolRoom, h.entriesRoom, h.scratchRoom, h.runsRoom, ?_, ?_, ?_, rfl⟩
  · rw [List.length_append]
    exact hroom
  · rw [List.length_append]
    exact Nat.le_add_right_of_le h.copied
  · rw [List.map_append, List.map_append, h.messages]
    rfl

/-- With room left, a message is copied. -/
theorem writeValue_room (h : b.Shows plain) (hroom : plain.entries.length < plain.capacity) (m : Message) :
    (b.writeValue m).2 = .ok () ∧
      (b.writeValue m).1.Shows { plain with entries := plain.entries ++ [m], sorted := false } := by
  have hlength := h.length_eq
  have hcopied := h.copied
  have hentries : b.entries.items.length < b.entries.room := by rw [hlength, h.entriesRoom]; exact hroom
  have hpool : b.pool.items.length < b.pool.room := by rw [h.poolRoom]; omega
  -- The pool only grows, so all places in it stay what they are.
  have hkept : b.entries.items.map (MergeEntry.message? (b.pool.items ++ [m])) = plain.entries.map some := by
    rw [← h.messages]
    refine List.map_congr_left fun e he => ?_
    cases e with
    | owned index =>
      obtain ⟨x, hx⟩ := Option.isSome_iff_exists.mp (h.resolved _ he)
      have hindex : index < b.pool.items.length := (List.getElem?_eq_some_iff.mp hx).1
      exact List.getElem?_append_left hindex
    | borrowed => rfl
  have hnew : MergeEntry.message? (b.pool.items ++ [m]) (.owned ((b.pool.items ++ [m]).length - 1)) = some m := by
    rw [List.length_append, List.length_singleton, Nat.add_sub_cancel]
    exact List.getElem?_concat_length
  unfold writeValue
  rw [if_neg (not_or.mpr ⟨Nat.ne_of_lt hpool, Nat.ne_of_lt hentries⟩), Shelf.push_eq hpool]
  dsimp only
  rw [Shelf.push_eq hentries]
  refine ⟨rfl, h.poolRoom, h.entriesRoom, h.scratchRoom, h.runsRoom, ?_, ?_, ?_, rfl⟩
  · rw [List.length_append]
    exact hroom
  · rw [List.length_append, List.length_append, List.length_singleton, List.length_singleton]
    omega
  · rw [List.map_append, List.map_append, hkept, List.map_singleton, List.map_singleton, hnew]

/-- Sorting puts the entries in the order of a stable sort, and makes no room. -/
theorem sort_eq (h : b.Shows plain) :
    ∃ table left, b.sort = some { b with
      entries := ⟨sortedBy (MergeEntry.key b.pool.items) b.entries.items, plain.capacity⟩
      scratch := ⟨left, plain.capacity⟩, runs := ⟨table, plain.capacity⟩, sorted := true } := by
  have hfits : b.entries.items.length ≤ plain.capacity := h.length_eq.trans_le h.fits
  have hresolved := h.resolved
  obtain ⟨⟨pool, _⟩, ⟨entries, _⟩, ⟨scratch, _⟩, ⟨runs, _⟩, sorted⟩ := b
  obtain ⟨rfl, rfl, rfl, rfl, -, -, -, -⟩ := h
  by_cases hshort : entries.length < 2
  · refine ⟨runs, scratch, ?_⟩
    unfold PooledMerge.sort
    rw [if_pos hshort, sortedBy_of_short hshort]
  · rcases entries with _ | ⟨x, rest⟩
    · exact absurd Nat.zero_lt_two hshort
    · have hrest : [0].length + rest.length ≤ plain.capacity := (Nat.add_comm _ _).trans_le hfits
      have hpush : (Shelf.clear ⟨runs, plain.capacity⟩).push 0 = ⟨[0], plain.capacity⟩ :=
        Shelf.push_eq (s := ⟨[], plain.capacity⟩) (Nat.lt_of_lt_of_le (Nat.zero_lt_succ _) hfits) 0
      have hmark := @markRuns_eq pool _ hresolved 0 x rest rfl ⟨[0], plain.capacity⟩ hrest
      rw [List.singleton_append, ← starts_orderedRuns] at hmark
      have hflat := (@orderedRuns_spec _ (MergeEntry.key pool) (x :: rest)).2
      have hrounds : ∃ table left, mergeRounds pool (orderedRuns (MergeEntry.key pool) (x :: rest)).length
          ⟨starts 0 (orderedRuns (MergeEntry.key pool) (x :: rest)), plain.capacity⟩
          ⟨(orderedRuns (MergeEntry.key pool) (x :: rest)).flatten, plain.capacity⟩ ⟨scratch, plain.capacity⟩ =
          some (⟨table, plain.capacity⟩, ⟨mergeRuns (MergeEntry.key pool) (orderedRuns (MergeEntry.key pool) (x :: rest)),
            plain.capacity⟩, ⟨left, plain.capacity⟩) :=
        mergeRounds_eq (by rw [hflat]; exact hresolved) (by rw [hflat]; exact hfits) (List.append_nil _).symm scratch
      rw [hflat, mergeRuns_orderedRuns] at hrounds
      obtain ⟨table, left, hrounds⟩ := hrounds
      refine ⟨table, left, ?_⟩
      unfold PooledMerge.sort
      rw [if_neg hshort]
      dsimp only
      rw [hpush, List.length_cons, Nat.add_sub_cancel, hmark, Option.bind_some, length_starts, hrounds, Option.map_some]

/-- A sorted buffer shows what the plain one has once it is sorted. -/
theorem sort (h : b.Shows plain) : ∃ b', b.sort = some b' ∧ b'.Shows plain.sort := by
  obtain ⟨table, left, hsort⟩ := h.sort_eq
  let time (m : Option Message) : Nat := m.elim 0 (·.time.toNat)
  have hmessages : (sortedBy (MergeEntry.key b.pool.items) b.entries.items).map (MergeEntry.message? b.pool.items) =
      (sortedBy (·.time.toNat) plain.entries).map some := by
    rw [map_sortedBy (MergeEntry.key b.pool.items) time fun _ => rfl,
      map_sortedBy (fun m : Message => m.time.toNat) time fun _ => rfl, h.messages]
  refine ⟨_, hsort, h.poolRoom, rfl, rfl, rfl, ?_, ?_, ?_, rfl⟩
  · rw [plain.sort_entries, length_sortedBy]
    exact h.fits
  · rw [length_sortedBy]
    exact h.copied
  · rw [plain.sort_entries]
    exact hmessages

theorem clear (h : b.Shows plain) : b.clear.Shows plain.clear :=
  ⟨h.poolRoom, h.entriesRoom, h.scratchRoom, h.runsRoom, Nat.zero_le _, Nat.le_refl _, rfl, rfl⟩

theorem recycle (h : b.Shows plain) : b.recycle.Shows plain.clear :=
  ⟨h.poolRoom, h.entriesRoom, h.scratchRoom, h.runsRoom, Nat.zero_le _, Nat.le_refl _, rfl, rfl⟩

end Shows

theorem withRoom_shows (capacity : Nat) : (withRoom capacity).Shows (.empty capacity) :=
  ⟨rfl, rfl, rfl, rfl, Nat.zero_le _, Nat.le_refl _, rfl, rfl⟩

end PooledMerge

/-! ## Calls -/

/-- What is asked of a buffer. -/
inductive MergeCall where
  | value (m : Message)
  | reference (m : Message)
  | sort
  | clear
  | recycle

namespace MergeCall

/-- Carries out a call, and hands out its result. -/
def run (b : PooledMerge) : MergeCall → Option (PooledMerge × Except Error Unit)
  | value m => some (b.writeValue m)
  | reference m => some (b.writeRef m)
  | sort => b.sort.map fun b => (b, .ok ())
  | clear => some (b.clear, .ok ())
  | recycle => some (b.recycle, .ok ())

/-- Carries out calls in turn, and hands out each with its result. -/
def runAll (b : PooledMerge) : List MergeCall → Option (PooledMerge × List (MergeCall × Except Error Unit))
  | [] => some (b, [])
  | call :: rest =>
    (call.run b).bind fun (b, result) => (runAll b rest).map fun (b, trace) => (b, (call, result) :: trace)

/-- What is accepted since the last clearing, after one call more. -/
def collect (accepted : List Message) : MergeCall × Except Error Unit → List Message
  | (value m, .ok ()) | (reference m, .ok ()) => accepted ++ [m]
  | (clear, _) | (recycle, _) => []
  | (value _, .error _) | (reference _, .error _) | (sort, _) => accepted

/-- Whether something was accepted since the last sort or clearing, after one call more. -/
def stir (pending : Bool) : MergeCall × Except Error Unit → Bool
  | (value _, .ok ()) | (reference _, .ok ()) => true
  | (clear, _) | (recycle, _) | (sort, _) => false
  | (value _, .error _) | (reference _, .error _) => pending

/-- The messages accepted since the last clearing, in the order they were written. -/
def accepted (trace : List (MergeCall × Except Error Unit)) : List Message := trace.foldl collect []

/-- Something was accepted since the last sort or clearing. -/
def pending (trace : List (MergeCall × Except Error Unit)) : Bool := trace.foldl stir false

end MergeCall

/-! ## Histories -/

namespace MergeBuffer

/-- A buffer holds what was accepted, and in order unless something is pending. -/
structure Holds (b : MergeBuffer) (capacity : Nat) (accepted : List Message) (pending : Bool) : Prop where
  capacity : b.capacity = capacity
  entries : ∀ k, keyed (·.time.toNat) k b.entries = keyed (·.time.toNat) k accepted
  sorted : b.sorted = !pending
  ascending : b.sorted = true → Ascending (·.time.toNat) b.entries

namespace Holds
variable {b : MergeBuffer} {capacity : Nat} {accepted : List Message} {pending : Bool}

theorem length_eq (h : b.Holds capacity accepted pending) : b.entries.length = accepted.length := by
  rw [← length_sortedBy (·.time.toNat), sortedBy_congr h.entries, length_sortedBy]

theorem messages (h : b.Holds capacity accepted pending) :
    b.messages = if pending then .error .notSorted else .ok (sortedBy (·.time.toNat) accepted) := by
  unfold MergeBuffer.messages
  rw [h.sorted]
  cases pending with
  | true => rfl
  | false =>
    obtain ⟨hsorted, hkeyed⟩ := sortedBy_spec (·.time.toNat) accepted
    exact congrArg Except.ok ((h.ascending h.sorted).eq_of_keyed hsorted fun k => (h.entries k).trans (hkeyed k).symm)

theorem write (h : b.Holds capacity accepted pending) (m : Message) :
    Holds { b with entries := b.entries ++ [m], sorted := false } capacity (accepted ++ [m]) true :=
  ⟨h.capacity, fun k => by rw [keyed_append, keyed_append, h.entries], rfl, nofun⟩

theorem sort (h : b.Holds capacity accepted pending) : b.sort.Holds capacity accepted false :=
  ⟨h.capacity, fun k => (b.sort_spec.2 k).trans (h.entries k), rfl, fun _ => b.sort_spec.1⟩

theorem clear (h : b.Holds capacity accepted pending) : b.clear.Holds capacity [] false :=
  ⟨h.capacity, fun _ => rfl, rfl, fun _ => .nil⟩

end Holds

end MergeBuffer

namespace PooledMerge

/-- The buffer holds what was accepted, as a plain one would. -/
def Tells (b : PooledMerge) (capacity : Nat) (accepted : List Message) (pending : Bool) : Prop :=
  ∃ plain, b.Shows plain ∧ plain.Holds capacity accepted pending

variable {b : PooledMerge} {capacity : Nat} {accepted : List Message} {pending : Bool}

/-- What writing a message comes to: a full buffer refuses it, and any other tells of it. -/
def Written (b : PooledMerge) (capacity : Nat) (accepted : List Message) (m : Message)
    (outcome : PooledMerge × Except Error Unit) : Prop :=
  if accepted.length = capacity then outcome = (b, .error (.mergeBufferFull capacity))
  else outcome.2 = .ok () ∧ outcome.1.Tells capacity (accepted ++ [m]) true

/-- Copying and borrowing come to the same. -/
theorem Tells.write (h : b.Tells capacity accepted pending) (m : Message) :
    b.Written capacity accepted m (b.writeValue m) ∧ b.Written capacity accepted m (b.writeRef m) := by
  obtain ⟨plain, hshows, hholds⟩ := h
  have hlength := hholds.length_eq
  have hfits := hshows.fits
  obtain rfl := hholds.capacity
  unfold Written
  split_ifs with hfull
  · exact hshows.write_full (hlength.trans hfull) m
  · have hroom : plain.entries.length < plain.capacity := by omega
    obtain ⟨hvalue, hcopied⟩ := hshows.writeValue_room hroom m
    obtain ⟨href, hborrowed⟩ := hshows.writeRef_room hroom m
    exact ⟨⟨hvalue, _, hcopied, hholds.write m⟩, href, _, hborrowed, hholds.write m⟩

/-- Either way the history goes on. -/
theorem Written.tells {m : Message} {outcome : PooledMerge × Except Error Unit}
    (hwritten : b.Written capacity accepted m outcome) (h : b.Tells capacity accepted pending) :
    ∀ call ∈ [MergeCall.value m, .reference m],
      outcome.1.Tells capacity (MergeCall.collect accepted (call, outcome.2)) (MergeCall.stir pending (call, outcome.2)) := by
  unfold Written at hwritten
  rw [List.forall_mem_cons, List.forall_mem_singleton]
  split_ifs at hwritten
  · rw [hwritten]
    exact ⟨h, h⟩
  · rw [hwritten.1]
    exact ⟨hwritten.2, hwritten.2⟩

theorem Tells.sort (h : b.Tells capacity accepted pending) :
    ∃ b', b.sort = some b' ∧ b'.Tells capacity accepted false := by
  obtain ⟨plain, hshows, hholds⟩ := h
  obtain ⟨b', hsort, hsorted⟩ := hshows.sort
  exact ⟨b', hsort, _, hsorted, hholds.sort⟩

theorem Tells.messages (h : b.Tells capacity accepted pending) :
    b.messages = some (if pending then .error .notSorted else .ok (sortedBy (·.time.toNat) accepted)) := by
  obtain ⟨plain, hshows, hholds⟩ := h
  rw [hshows.read, hholds.messages]

theorem Tells.rooms (h : b.Tells capacity accepted pending) :
    b.capacity = capacity ∧ b.pool.room = capacity ∧ b.scratch.room = capacity ∧ b.runs.room = capacity := by
  obtain ⟨plain, hshows, hholds⟩ := h
  rw [← hholds.capacity]
  exact ⟨hshows.entriesRoom, hshows.poolRoom, hshows.scratchRoom, hshows.runsRoom⟩

/-- Every call has a result, and the buffer goes on telling what was accepted. -/
theorem Tells.call (h : b.Tells capacity accepted pending) (call : MergeCall) :
    ∃ b' result, call.run b = some (b', result) ∧
      b'.Tells capacity (MergeCall.collect accepted (call, result)) (MergeCall.stir pending (call, result)) := by
  cases call with
  | value m => exact ⟨_, _, rfl, (h.write m).1.tells h _ (by simp)⟩
  | reference m => exact ⟨_, _, rfl, (h.write m).2.tells h _ (by simp)⟩
  | sort =>
    obtain ⟨b', hsort, htells⟩ := h.sort
    exact ⟨b', .ok (), by rw [MergeCall.run, hsort]; rfl, htells⟩
  | clear =>
    obtain ⟨plain, hshows, hholds⟩ := h
    exact ⟨_, _, rfl, _, hshows.clear, hholds.clear⟩
  | recycle =>
    obtain ⟨plain, hshows, hholds⟩ := h
    exact ⟨_, _, rfl, _, hshows.recycle, hholds.clear⟩

theorem Tells.runAll (h : b.Tells capacity accepted pending) (calls : List MergeCall) :
    ∃ b' trace, MergeCall.runAll b calls = some (b', trace) ∧ trace.map (·.1) = calls ∧
      b'.Tells capacity (trace.foldl MergeCall.collect accepted) (trace.foldl MergeCall.stir pending) := by
  induction calls generalizing b accepted pending with
  | nil => exact ⟨b, [], rfl, rfl, h⟩
  | cons call rest ih =>
    obtain ⟨next, result, hrun, hnext⟩ := h.call call
    obtain ⟨last, trace, hrest, hcalls, hlast⟩ := ih hnext
    refine ⟨last, (call, result) :: trace, ?_, congrArg (call :: ·) hcalls, hlast⟩
    rw [MergeCall.runAll, hrun, Option.bind_some]
    dsimp only
    rw [hrest, Option.map_some]

/-- After any calls, a buffer has the room that it had at the start. It can be read unless a message was accepted
since the last sort or clearing, and what is read, as what is read after one more sort, is the stable sort by time of
the messages accepted since the last clearing, in the order they were written. A message is refused exactly if as many
as there is room for have been accepted, and then nothing changes. -/
theorem stable_sort (capacity : Nat) (calls : List MergeCall) :
    ∃ b trace, MergeCall.runAll (withRoom capacity) calls = some (b, trace) ∧ trace.map (·.1) = calls ∧
      (b.capacity = capacity ∧ b.pool.room = capacity ∧ b.scratch.room = capacity ∧ b.runs.room = capacity) ∧
      b.messages = some (if MergeCall.pending trace then .error .notSorted
        else .ok (sortedBy (·.time.toNat) (MergeCall.accepted trace))) ∧
      (∃ sorted, b.sort = some sorted ∧ sorted.capacity = capacity ∧
        sorted.messages = some (.ok (sortedBy (·.time.toNat) (MergeCall.accepted trace)))) ∧
      ∀ m, if (MergeCall.accepted trace).length = capacity then
          b.writeValue m = (b, .error (.mergeBufferFull capacity)) ∧
            b.writeRef m = (b, .error (.mergeBufferFull capacity))
        else (b.writeValue m).2 = .ok () ∧ (b.writeRef m).2 = .ok () := by
  have hempty : (withRoom capacity).Tells capacity [] false :=
    ⟨.empty capacity, withRoom_shows capacity, rfl, fun _ => rfl, rfl, fun _ => .nil⟩
  obtain ⟨b, trace, hrun, hcalls, htells⟩ := hempty.runAll calls
  obtain ⟨sorted, hsort, htold⟩ := htells.sort
  refine ⟨b, trace, hrun, hcalls, htells.rooms, htells.messages, ⟨sorted, hsort, htold.rooms.1, htold.messages⟩,
    fun m => ?_⟩
  obtain ⟨hvalue, href⟩ : b.Written capacity (MergeCall.accepted trace) m (b.writeValue m) ∧
      b.Written capacity (MergeCall.accepted trace) m (b.writeRef m) := htells.write m
  unfold Written at hvalue href
  split_ifs at hvalue href ⊢
  · exact ⟨hvalue, href⟩
  · exact ⟨hvalue.1, href.1⟩

end PooledMerge

end Overdub.Midi
