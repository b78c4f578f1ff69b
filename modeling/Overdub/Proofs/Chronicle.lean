import Mathlib
import Overdub.Midi.CaptureRing
import Overdub.Proofs.Sequence
/-!
# Captured messages and their true age

A capture ring knows times modulo `2 ^ 32` only. A `Chronicle` is what it stands
for: every message ever captured, with the frame it was captured at on a count
that never starts over. As long as the depth and all cycles are shorter than
`2 ^ 31` frames, nothing in the ring ever gets as old as `2 ^ 32` frames, so the
age the ring computes is the true one. The messages in the ring are then the end
of the chronicle: of the last messages that have room, all but some at the front
that are too old to be in the window (`Follows`).
-/

namespace Overdub.Midi

/-- Every message ever captured, oldest first, with the frame it was captured at. -/
structure Chronicle where
  entries : List (Nat × Message) := []
  /-- The frames in front of the current cycle. -/
  start : Nat := 0
  /-- The frames up to the end of the current cycle. -/
  total : Nat := 0

namespace Chronicle

/-- Begins a cycle. -/
def nextCycle (c : Chronicle) (frames : UInt32) : Chronicle :=
  { c with start := c.total, total := c.total + frames.toNat }

/-- Notes a message captured at a frame of the current cycle. -/
def put (c : Chronicle) (m : Message) : Chronicle :=
  { c with entries := c.entries ++ [(c.start + m.time.toNat, m)] }

/-- How long ago an entry was captured, counted from the end of the current cycle. -/
def age (c : Chronicle) (e : Nat × Message) : Nat := c.total - e.1

/-- Of the last `capacity` messages those that are not older than `depth`, with
times counted from `depth` frames before the end of the current cycle. -/
def window (c : Chronicle) (capacity : Nat) (depth : UInt32) : List Message :=
  ((c.entries.rtake capacity).filter fun e => c.age e ≤ depth.toNat).map fun e =>
    e.2.withTime (.ofNat (depth.toNat - c.age e))

end Chronicle

/-- A cycle of captured input. -/
structure CaptureCycle where
  frames : UInt32
  messages : List Message

namespace CaptureCycle

/-- The messages come in time order and lie inside the cycle, which is shorter
than `2 ^ 31` frames. -/
structure Valid (c : CaptureCycle) : Prop where
  short : c.frames.toNat < 2 ^ 31
  inside : ∀ m ∈ c.messages, m.time < c.frames
  ordered : InOrder c.messages

end CaptureCycle

/-- Captures the input of one cycle. -/
def CaptureRing.capture (r : CaptureRing) (c : CaptureCycle) : CaptureRing :=
  c.messages.foldl (fun r m => (r.put m).1) (r.nextCycle c.frames).1

/-- Notes the input of one cycle. -/
def Chronicle.note (l : Chronicle) (c : CaptureCycle) : Chronicle := c.messages.foldl put (l.nextCycle c.frames)

/-! ## Times on the wrapping count -/

/-- An entry as it lies in a ring. -/
def stamped (e : Nat × Message) : Message := e.2.withTime (.ofNat e.1)

/-- The age of a message on the wrapping count is true below `2 ^ 32`. -/
theorem toNat_sub_stamped {total : Nat} {e : Nat × Message} (hpast : e.1 ≤ total) (hyoung : total - e.1 < 2 ^ 32) :
    (UInt32.ofNat total - (stamped e).time).toNat = total - e.1 := by
  rw [stamped, Message.time_withTime, UInt32.toNat_sub, UInt32.toNat_ofNat', UInt32.toNat_ofNat']
  omega

theorem length_rtake_le {α : Type} (l : List α) (n : Nat) : (l.rtake n).length ≤ n := by
  rw [List.rtake, List.length_drop]
  omega

theorem rtake_append {α : Type} (l l' : List α) (n : Nat) :
    (l ++ l').rtake n = l.rtake (n - l'.length) ++ l'.rtake n := by
  unfold List.rtake
  rw [List.drop_append, List.length_append]
  congr 1
  · rcases Nat.le_total l'.length n with hle | hle
    · congr 1
      omega
    · rw [List.drop_of_length_le (by omega), List.drop_of_length_le (by omega)]
  · congr 1
    omega

/-- The last elements and one more: its predecessors are among the last ones already. -/
theorem rtake_concat {α : Type} (l : List α) (x : α) (n : Nat) : (l ++ [x]).rtake n = (l.rtake n ++ [x]).rtake n := by
  rw [rtake_append, rtake_append]
  congr 1
  unfold List.rtake
  rw [List.drop_drop, List.length_drop]
  congr 1
  omega

theorem dropWhile_congr {α : Type} {p q : α → Bool} {l : List α} (h : ∀ x ∈ l, p x = q x) :
    l.dropWhile p = l.dropWhile q := by
  induction l with
  | nil => rfl
  | cons x rest ih =>
    rw [List.forall_mem_cons] at h
    rw [List.dropWhile_cons, List.dropWhile_cons, h.1, ih h.2]

/-- In a list sorted by some measure, what is left behind those at the front
that are too large is small. -/
theorem mem_dropWhile_sorted {α : Type} {f : α → Nat} {l : List α} (h : l.Pairwise fun x y => f y ≤ f x) {n : Nat}
    {x : α} (hx : x ∈ l.dropWhile fun y => decide (n < f y)) : f x ≤ n := by
  induction l with
  | nil => simp at hx
  | cons y rest ih =>
    obtain ⟨hle, hrest⟩ := List.pairwise_cons.mp h
    rw [List.dropWhile_cons] at hx
    split at hx
    · exact ih hrest hx
    · next hy =>
      have hy' : f y ≤ n := by simpa using hy
      rcases List.mem_cons.mp hx with rfl | hx
      · exact hy'
      · exact Nat.le_trans (hle x hx) hy'

/-! ## The ring follows the chronicle -/

namespace CaptureRing

/-- What a ring of some depth and capacity has in common with the chronicle of
its input: its messages are the last ones, without some at the front that are
older than the depth. -/
structure Follows (r : CaptureRing) (l : Chronicle) (capacity : Nat) (depth : UInt32) : Prop where
  capacity_eq : r.capacity = capacity
  depth_eq : r.depth = depth
  start : r.start = .ofNat l.start
  stop : r.stop = .ofNat l.total
  ordered : l.entries.Pairwise fun e e' => e.1 ≤ e'.1
  past : ∀ e ∈ l.entries, e.1 ≤ l.total
  events : ∃ gone kept, l.entries.rtake capacity = gone ++ kept ∧ r.events = kept.map stamped ∧
    (∀ e ∈ gone, depth.toNat < l.age e) ∧ ∀ e ∈ kept, l.age e < 2 ^ 31

variable {r : CaptureRing} {l : Chronicle} {capacity : Nat} {depth : UInt32}

theorem follows_empty (depth : UInt32) (capacity : Nat) : (empty depth capacity).Follows {} capacity depth where
  capacity_eq := rfl
  depth_eq := rfl
  start := rfl
  stop := rfl
  ordered := List.Pairwise.nil
  past := by simp
  events := ⟨[], [], by simp, rfl, by simp, by simp⟩

theorem sublist_of_last {gone kept : List (Nat × Message)} (hlast : l.entries.rtake capacity = gone ++ kept) :
    kept.Sublist l.entries :=
  (List.sublist_append_right gone kept).trans (hlast ▸ List.drop_sublist _ _)

/-- A new cycle drops what has become too old, and all that stays is younger than
`2 ^ 31` frames. -/
theorem Follows.nextCycle (h : r.Follows l capacity depth) (hdepth : depth.toNat < 2 ^ 31) {frames : UInt32}
    (hframes : frames.toNat < 2 ^ 31) : (r.nextCycle frames).1.Follows (l.nextCycle frames) capacity depth := by
  obtain ⟨gone, kept, hlast, hevents, hgone, hkept⟩ := h.events
  have hsub := sublist_of_last hlast
  have hstop : r.stop + frames = .ofNat (l.total + frames.toNat) := by
    rw [h.stop, UInt32.ofNat_add, UInt32.ofNat_toNat]
  let tooOld (e : Nat × Message) : Bool := depth.toNat < (l.nextCycle frames).age e
  -- All that is left is young enough for the ring to see the true ages.
  have hdropped : (r.nextCycle frames).1.events = (kept.dropWhile tooOld).map stamped := by
    show r.events.dropWhile (fun m => r.depth < r.stop + frames - m.time) = _
    rw [hevents, h.depth_eq, hstop, List.dropWhile_map]
    congr 1
    apply dropWhile_congr
    intro e he
    have hyoung := hkept e he
    have hpast := h.past e (hsub.subset he)
    unfold Chronicle.age at hyoung
    simp only [Function.comp_apply, UInt32.lt_iff_toNat_lt, tooOld]
    rw [toNat_sub_stamped (by omega) (by omega)]
    rfl
  exact
    { capacity_eq := h.capacity_eq
      depth_eq := h.depth_eq
      start := h.stop
      stop := hstop
      ordered := h.ordered
      past := fun e he => Nat.le_trans (h.past e he) (Nat.le_add_right _ _)
      events := by
        refine ⟨gone ++ kept.takeWhile tooOld, kept.dropWhile tooOld, ?_, hdropped, ?_, ?_⟩
        · rw [List.append_assoc, List.takeWhile_append_dropWhile]
          exact hlast
        · intro e he
          rcases List.mem_append.mp he with he | he
          · exact Nat.lt_of_lt_of_le (hgone e he) (Nat.sub_le_sub_right (Nat.le_add_right _ _) _)
          · exact of_decide_eq_true (List.mem_takeWhile_imp (p := tooOld) he)
        · intro e he
          -- Ages fall from front to back, so behind the first message that stays all are young.
          have hages : kept.Pairwise fun e e' => (l.nextCycle frames).age e' ≤ (l.nextCycle frames).age e :=
            (h.ordered.sublist hsub).imp fun hle => Nat.sub_le_sub_left hle _
          exact Nat.lt_of_le_of_lt (mem_dropWhile_sorted hages he) hdepth }

/-- Of the messages and the new one, a ring keeps as many as it has room for. -/
theorem put_events (h : r.events.length ≤ r.capacity) (m : Message) :
    (r.put m).1.events = (r.events ++ [m.withTime (r.start + m.time)]).rtake r.capacity := by
  show (if r.capacity = 0 then if r.capacity ≤ r.events.length then r.events.tail else r.events
    else (if r.capacity ≤ r.events.length then r.events.tail else r.events) ++ [m.withTime (r.start + m.time)]) = _
  rw [List.rtake, List.length_append, List.length_singleton]
  by_cases hnone : r.capacity = 0
  · have hempty : r.events = [] := List.eq_nil_of_length_eq_zero (by omega)
    simp [hnone, hempty]
  · rw [if_neg hnone]
    split_ifs with hfull
    · rw [show r.events.length + 1 - r.capacity = 1 by omega, List.drop_append_of_le_length (by omega), List.drop_one]
    · rw [show r.events.length + 1 - r.capacity = 0 by omega, List.drop_zero]

/-- A captured message comes behind all others; if there is no room left, the
oldest one goes. -/
theorem Follows.put (h : r.Follows l capacity depth) {m : Message} (hm : l.start + m.time.toNat ≤ l.total)
    (hyoung : l.total - l.start < 2 ^ 31) (hlater : ∀ e ∈ l.entries, e.1 ≤ l.start + m.time.toNat) :
    (r.put m).1.Follows (l.put m) capacity depth := by
  obtain ⟨gone, kept, hlast, hevents, hgone, hkept⟩ := h.events
  have hstamp : m.withTime (r.start + m.time) = stamped (l.start + m.time.toNat, m) := by
    rw [stamped, h.start, UInt32.ofNat_add, UInt32.ofNat_toNat]
  have hroom : r.events.length ≤ r.capacity := by
    have hlength := length_rtake_le l.entries capacity
    rw [hlast, List.length_append] at hlength
    rw [hevents, List.length_map, h.capacity_eq]
    omega
  -- What has no more room goes from the front, be it in the ring or too old for it already.
  have hnext : (l.put m).entries.rtake capacity =
      gone.rtake (capacity - (kept ++ [(l.start + m.time.toNat, m)]).length) ++
        (kept ++ [(l.start + m.time.toNat, m)]).rtake capacity := by
    rw [← rtake_append, ← List.append_assoc, ← hlast, ← rtake_concat]
    rfl
  exact
    { capacity_eq := h.capacity_eq
      depth_eq := h.depth_eq
      start := h.start
      stop := h.stop
      ordered := by
        refine List.pairwise_append.mpr ⟨h.ordered, List.pairwise_singleton _ _, ?_⟩
        intro e he e' he'
        rw [List.mem_singleton.mp he']
        exact hlater e he
      past := by
        intro e he
        rcases List.mem_append.mp he with he | he
        · exact h.past e he
        · rw [List.mem_singleton.mp he]
          exact hm
      events := by
        refine ⟨_, _, hnext, ?_, fun e he => hgone e (List.mem_of_mem_drop he), fun e he => ?_⟩
        · rw [put_events hroom, hevents, hstamp, h.capacity_eq, List.rtake, List.rtake, List.map_drop,
            List.map_append, List.length_append, List.length_append, List.length_map]
          rfl
        · rcases List.mem_append.mp (List.mem_of_mem_drop he) with he | he
          · exact hkept e he
          · rw [List.mem_singleton.mp he]
            show l.total - (l.start + m.time.toNat) < 2 ^ 31
            omega }

/-- Within a cycle every message of it comes behind all that was captured before. -/
theorem Follows.putAll (h : r.Follows l capacity depth) {messages : List Message} (hordered : InOrder messages)
    (hinside : ∀ m ∈ messages, l.start + m.time.toNat ≤ l.total) (hyoung : l.total - l.start < 2 ^ 31)
    (hlater : ∀ e ∈ l.entries, ∀ m ∈ messages, e.1 ≤ l.start + m.time.toNat) :
    (messages.foldl (fun r m => (r.put m).1) r).Follows (messages.foldl .put l) capacity depth := by
  induction messages generalizing r l with
  | nil => exact h
  | cons m rest ih =>
    obtain ⟨hfirst, hrest⟩ := List.pairwise_cons.mp hordered
    rw [List.forall_mem_cons] at hinside
    have hput := h.put hinside.1 hyoung fun e he => hlater e he m List.mem_cons_self
    refine ih hput hrest hinside.2 hyoung ?_
    intro e he m' hm'
    rcases List.mem_append.mp he with he | he
    · exact hlater e he m' (List.mem_cons_of_mem _ hm')
    · rw [List.mem_singleton.mp he]
      exact Nat.add_le_add_left (UInt32.le_iff_toNat_le.mp (hfirst m' hm')) _

theorem Follows.cycle (h : r.Follows l capacity depth) (hdepth : depth.toNat < 2 ^ 31) {c : CaptureCycle}
    (hc : c.Valid) : (r.capture c).Follows (l.note c) capacity depth := by
  refine (h.nextCycle hdepth hc.short).putAll hc.ordered ?_ ?_ ?_
  · intro m hm
    exact Nat.add_le_add_left (Nat.le_of_lt (UInt32.lt_iff_toNat_lt.mp (hc.inside m hm))) _
  · show l.total + c.frames.toNat - l.total < 2 ^ 31
    have hshort := hc.short
    omega
  · intro e he m _
    exact Nat.le_trans (h.past e he) (Nat.le_add_right _ _)

theorem Follows.cycles (h : r.Follows l capacity depth) (hdepth : depth.toNat < 2 ^ 31) {cycles : List CaptureCycle}
    (hcycles : ∀ c ∈ cycles, c.Valid) :
    (cycles.foldl capture r).Follows (cycles.foldl .note l) capacity depth := by
  induction cycles generalizing r l with
  | nil => exact h
  | cons c rest ih =>
    rw [List.forall_mem_cons] at hcycles
    exact ih (h.cycle hdepth hcycles.1) hcycles.2

/-! ## The window -/

/-- The window of the ring is that of the chronicle. -/
theorem Follows.window_eq (h : r.Follows l capacity depth) : r.window = l.window capacity depth := by
  obtain ⟨gone, kept, hlast, hevents, hgone, hkept⟩ := h.events
  have hsub := sublist_of_last hlast
  have htrue : ∀ e ∈ kept, (r.age (stamped e)).toNat = l.age e := by
    intro e he
    have hyoung := hkept e he
    unfold age
    unfold Chronicle.age at hyoung ⊢
    rw [h.stop, toNat_sub_stamped (h.past e (hsub.subset he)) (by omega)]
  have hnone : gone.filter (fun e => decide (l.age e ≤ depth.toNat)) = [] := by
    rw [List.filter_eq_nil_iff]
    intro e he
    simpa using hgone e he
  unfold window Chronicle.window
  rw [hlast, hevents, h.depth_eq, List.filter_append, hnone, List.nil_append, List.filter_map, List.map_map]
  rw [List.filter_congr (q := fun e => decide (l.age e ≤ depth.toNat)) (by
    intro e he
    simp only [Function.comp_apply, UInt32.le_iff_toNat_le, htrue e he])]
  apply List.map_congr_left
  intro e he
  obtain ⟨hmem, hle⟩ := List.mem_filter.mp he
  have hle : l.age e ≤ depth.toNat := of_decide_eq_true hle
  show e.2.withTime (UInt32.ofNat e.1 - (r.stop - depth)) = _
  congr 1
  have hpast := h.past e (hsub.subset hmem)
  rw [UInt32.ofNat_sub hle, Chronicle.age, UInt32.ofNat_sub hpast, UInt32.ofNat_toNat, h.stop]
  grind

theorem window_inOrder (l : Chronicle) (hordered : l.entries.Pairwise fun e e' => e.1 ≤ e'.1) (capacity : Nat)
    (depth : UInt32) : InOrder (l.window capacity depth) := by
  unfold InOrder Chronicle.window
  rw [List.pairwise_map]
  refine (hordered.sublist (List.filter_sublist.trans (List.drop_sublist _ _))).imp ?_
  intro e e' hle
  have hlt := depth.toNat_lt
  rw [Message.time_withTime, Message.time_withTime, UInt32.le_iff_toNat_le, UInt32.toNat_ofNat',
    UInt32.toNat_ofNat', Chronicle.age, Chronicle.age]
  omega

/-- A ring that follows the chronicle hands out the window of it, if that finds room. -/
theorem Follows.snapshot_eq {r : CaptureRing} {l : Chronicle} {capacity : Nat} {depth : UInt32}
    (h : r.Follows l capacity depth) {room : Nat} (hroom : (l.window capacity depth).length ≤ room) :
    r.snapshot room = (⟨room, l.window capacity depth⟩, .ok ()) := by
  unfold snapshot
  rw [h.window_eq, Storage.appendAll_eq (by simpa [Storage.empty] using hroom)
    (window_inOrder _ h.ordered capacity depth)]
  rfl

/-- However often the sample count starts over, the ring hands out the messages
of the last `depth` frames, as far as they are among the last `capacity` ones, in
the order they were captured and at their distance from the start of the window. -/
theorem snapshot_is_recent_past {depth : UInt32} (hdepth : depth.toNat < 2 ^ 31) (capacity : Nat)
    {cycles : List CaptureCycle} (hcycles : ∀ c ∈ cycles, c.Valid) {room : Nat}
    (hroom : ((cycles.foldl Chronicle.note {}).window capacity depth).length ≤ room) :
    (cycles.foldl capture (empty depth capacity)).snapshot room =
      (⟨room, (cycles.foldl Chronicle.note {}).window capacity depth⟩, .ok ()) := by
  have hfollows := (follows_empty depth capacity).cycles hdepth hcycles
  exact hfollows.snapshot_eq hroom

/-- Cycles of `2 ^ 31 - 1` frames take the sample count past its end. Of the last
three messages one has left the window, and the next one is as old as the depth. -/
theorem snapshot_is_recent_past_after_wrap :
    let note (time : UInt32) (key : UInt8) : Message := .short time 0x90 key 100
    let cycles : List CaptureCycle :=
      [⟨0x7fffffff, [note 0 1, note 10 2]⟩, ⟨0x7fffffff, [note 0x7ffffffd 3]⟩, ⟨0x7ffffff0, []⟩, ⟨7, [note 0 4]⟩]
    let ring := cycles.foldl capture (empty 0x7ffffff9 3)
    ring.stop = 0x7ffffff5 ∧ ring.events.length = 2 ∧
      ring.snapshot 2 = (⟨2, [note 0 3, note 0x7ffffff2 4]⟩, .ok ()) := by
  intro note cycles ring
  have hvalid : ∀ c ∈ cycles, c.Valid := by
    intro c hc
    simp only [cycles, List.mem_cons, List.not_mem_nil, or_false] at hc
    rcases hc with rfl | rfl | rfl | rfl <;> exact ⟨by decide, by decide, by decide⟩
  have hrecent : (cycles.foldl Chronicle.note {}).window 3 0x7ffffff9 = [note 0 3, note 0x7ffffff2 4] := by
    decide +kernel
  refine ⟨by decide +kernel, by decide +kernel, ?_⟩
  rw [← hrecent]
  exact snapshot_is_recent_past (by decide) 3 hvalid (by rw [hrecent]; decide)

end CaptureRing

end Overdub.Midi
