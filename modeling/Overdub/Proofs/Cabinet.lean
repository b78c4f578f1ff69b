import Overdub.Proofs.Exchange
/-!
# Storages and passes over them

A `Cabinet` is any number of storages, and a `Cabinet.Call` is an operation on one or
two of them. All calls keep the events of every storage in time order and within its
room (`Cabinet.Kept`), and in that order each of them does what it says of the events
before and after a time (`Cabinet.Does`). It is the order that a search by halves rests
on, too: there it finds the first event that is not before a time
(`Storage.searchIndex_eq`).

A `Pass` reads a storage with one cursor, by seeking times and by taking the event under
the cursor. Every event of the storage has been visited by then or is still left, in
order; seeking visits those of the left ones that are before the time, and no others
(`Pass.Divides`).
-/

namespace Overdub.Midi

/-! ## Searching by halves -/

/-- The border that a search by halves finds among `size` indices from `base` on, where
`before` tells the indices in front of the border. -/
def halving (before : Nat → Bool) (base size : Nat) : Nat :=
  if 1 < size then halving before (if before (base + size / 2) then base + size / 2 else base) (size - size / 2)
  else if before base then base + 1 else base
termination_by size

theorem halving_eq {before : Nat → Bool} {border : Nat} (hbefore : ∀ i, before i = decide (i < border)) (base size : Nat)
    (hsize : 0 < size) (hlow : base ≤ border) (hhigh : border ≤ base + size) : halving before base size = border := by
  induction size using Nat.strong_induction_on generalizing base with
  | _ size ih =>
    rw [halving]
    split
    · -- the border stays among the indices that are left
      simp only [hbefore, decide_eq_true_eq]
      apply ih
      · omega
      · omega
      · split <;> omega
      · split <;> omega
    · simp only [hbefore, decide_eq_true_eq]
      split <;> omega

namespace Storage
variable {s s' : Storage}

/-- The index of the first event at or after `time`, searched by halves. -/
def searchIndex (s : Storage) (time : UInt32) : Nat :=
  if s.events = [] then 0 else halving (fun i => s.events[i]?.any (·.time < time)) 0 s.events.length

/-- In order, the events before a time are those at the indices in front of the border. -/
theorem before_eq {events : List Message} (h : InOrder events) (time : UInt32) (i : Nat) :
    events[i]?.any (·.time < time) = decide (i < (events.takeWhile (·.time < time)).length) := by
  induction events generalizing i with
  | nil => rfl
  | cons e rest ih =>
    obtain ⟨hfirst, hrest⟩ := List.pairwise_cons.mp h
    by_cases he : e.time < time
    · rw [List.takeWhile_cons_of_pos (by simpa using he)]
      cases i with
      | zero => simp [he]
      | succ i =>
        rw [List.getElem?_cons_succ, ih hrest, List.length_cons]
        simp
    · -- then no later event is before the time either
      rw [List.takeWhile_cons_of_neg (by simpa using he)]
      simp only [List.length_nil, Nat.not_lt_zero, decide_false, Option.any_eq_false]
      intro x hx
      apply decide_eq_false
      intro hlt
      apply he
      rcases List.mem_cons.mp (List.mem_of_getElem? hx) with rfl | hmem
      · exact hlt
      · exact UInt32.lt_of_le_of_lt (hfirst x hmem) hlt

theorem searchIndex_eq (h : InOrder s.events) (time : UInt32) : s.searchIndex time = s.firstIndexFrom time := by
  unfold searchIndex firstIndexFrom
  split
  · next hempty => rw [hempty]; rfl
  · next hsome =>
    apply halving_eq (before_eq h time)
    · exact List.length_pos_iff.mpr hsome
    · exact Nat.zero_le _
    · rw [Nat.zero_add]
      exact (List.takeWhile_sublist _).length_le

/-- Cutting a storage at the index that is found keeps what is in front of the time,
and hands out just that when it keeps the rest. -/
theorem cut_searched (h : InOrder s.events) (time : UInt32) :
    s.truncateFrom time = { s with events := s.events.take (s.searchIndex time) } ∧
      s.dropBefore time =
        ({ s with events := s.events.drop (s.searchIndex time) }, s.events.take (s.searchIndex time)) := by
  have htake : s.events.take (s.searchIndex time) = s.events.takeWhile (·.time < time) := by
    rw [searchIndex_eq h]
    exact (List.prefix_iff_eq_take.mp (List.takeWhile_prefix _)).symm
  have hdrop : s.events.drop (s.searchIndex time) = s.events.dropWhile (·.time < time) := by
    rw [searchIndex_eq h]
    exact drop_length_takeWhile _ _
  rw [htake, hdrop]
  exact ⟨rfl, rfl⟩

/-! ## One storage -/

theorem truncateFrom_eq (h : InOrder s.events) (time : UInt32) :
    s.truncateFrom time = { s with events := s.events.filter (·.time < time) } := by
  unfold truncateFrom
  rw [Channel.takeWhile_eq_filter h]

theorem dropBefore_eq (h : InOrder s.events) (time : UInt32) :
    s.dropBefore time =
      ({ s with events := s.events.filter (time ≤ ·.time) }, s.events.filter (·.time < time)) := by
  unfold dropBefore
  rw [Channel.takeWhile_eq_filter h, InOrder.dropWhile_before h]

/-- The events are in time order, and there is room for them. -/
structure Kept (s : Storage) : Prop where
  inOrder : InOrder s.events
  bounded : s.Bounded

theorem Kept.append {m : Message} (h : s.Kept) (happend : s.append m = .ok s') : s'.Kept :=
  ⟨inOrder_append h.inOrder happend, (h.bounded.append happend).1⟩

theorem Kept.appendBytes {time : UInt32} {bytes : List UInt8} (h : s.Kept)
    (happend : s.appendBytes time bytes = .ok s') : s'.Kept := by
  unfold Storage.appendBytes at happend
  cases hmessage : Message.ofBytes time bytes with
  | error e =>
    rw [hmessage] at happend
    cases happend
  | ok m =>
    rw [hmessage] at happend
    exact h.append happend

/-- Some of the events, with as much room as before. -/
theorem Kept.part {events : List Message} (h : s.Kept) (hsub : events.Sublist s.events) :
    Kept { s with events } := ⟨h.inOrder.sublist hsub, hsub.length_le.trans h.bounded⟩

theorem Kept.copyFrom {other : Storage} (hother : other.Kept) (hcopy : s.copyFrom other = .ok s') : s'.Kept := by
  unfold Storage.copyFrom at hcopy
  split at hcopy
  · cases hcopy
  · next hfits =>
    cases hcopy
    exact ⟨hother.inOrder, Nat.le_of_not_lt hfits⟩

theorem empty_kept (capacity : Nat) : (empty capacity).Kept := ⟨.nil, Nat.zero_le _⟩

end Storage

/-! ## Cabinets -/

/-- Storages, each under its own name. -/
def Cabinet (ι : Type) := ι → Storage

namespace Cabinet

/-- An operation on one or two storages. -/
inductive Call (ι : Type) where
  | append (i : ι) (m : Message)
  | appendBytes (i : ι) (time : UInt32) (bytes : List UInt8)
  | truncateFrom (i : ι) (time : UInt32)
  | dropBefore (i : ι) (time : UInt32)
  /-- The events of `j` into `i`. -/
  | copyFrom (i j : ι)
  | swap (i j : ι)
  | clear (i : ι)

variable {ι : Type}

/-- Storages without events. -/
def opened (capacity : ι → Nat) : Cabinet ι := fun i => .empty (capacity i)

/-- All storages are in order and within their room. -/
def Kept (c : Cabinet ι) : Prop := ∀ i, (c i).Kept

theorem opened_kept (capacity : ι → Nat) : (opened capacity).Kept := fun i => Storage.empty_kept (capacity i)

variable [DecidableEq ι]

/-- Another storage under a name. -/
def put (c : Cabinet ι) (i : ι) (s : Storage) : Cabinet ι := fun j => if j = i then s else c j

/-- Another storage under a name, unless there is none because of an error. -/
def attempt (c : Cabinet ι) (i : ι) : Except Error Storage → Cabinet ι × Except Error (List Message)
  | .ok s => (c.put i s, .ok [])
  | .error e => (c, .error e)

/-- The storages after a call, and the events that it hands out. -/
def call (c : Cabinet ι) : Call ι → Cabinet ι × Except Error (List Message)
  | .append i m => c.attempt i ((c i).append m)
  | .appendBytes i time bytes => c.attempt i ((c i).appendBytes time bytes)
  | .truncateFrom i time => (c.put i ((c i).truncateFrom time), .ok [])
  | .dropBefore i time => (c.put i ((c i).dropBefore time).1, .ok ((c i).dropBefore time).2)
  | .copyFrom i j => c.attempt i ((c i).copyFrom (c j))
  | .swap i j => ((c.put i (c j)).put j (c i), .ok [])
  | .clear i => (c.put i (c i).clear, .ok [])

/-- The storages after several calls. -/
def run (c : Cabinet ι) (calls : List (Call ι)) : Cabinet ι := calls.foldl (fun c x => (c.call x).1) c

/-- The same room under a name, with other events in it. -/
def withEvents (c : Cabinet ι) (i : ι) (events : List Message) : Cabinet ι := c.put i { c i with events }

/-- What a call does to storages, told by their events. What is not done leaves all of
them as they are. -/
inductive Does (c : Cabinet ι) : Call ι → Cabinet ι → Except Error (List Message) → Prop
  | append {i m} (room : (c i).events.length < (c i).capacity) (last : ∀ e ∈ (c i).events, e.time ≤ m.time) :
      Does c (.append i m) (c.withEvents i ((c i).events ++ [m])) (.ok [])
  | full {i m} (noRoom : (c i).events.length = (c i).capacity) :
      Does c (.append i m) c (.error (.storageFull (c i).capacity))
  | late {i m last} (room : (c i).events.length < (c i).capacity) (hlast : (c i).events.getLast? = some last)
      (older : m.time < last.time) : Does c (.append i m) c (.error (.outOfOrder m.time last.time))
  | bytes {i time bytes m c' answer} (message : Message.ofBytes time bytes = .ok m)
      (does : Does c (.append i m) c' answer) : Does c (.appendBytes i time bytes) c' answer
  | noMessage {i time bytes e} (noMessage : Message.ofBytes time bytes = .error e) :
      Does c (.appendBytes i time bytes) c (.error e)
  | truncate {i time} : Does c (.truncateFrom i time) (c.withEvents i ((c i).events.filter (·.time < time))) (.ok [])
  | drop {i time} : Does c (.dropBefore i time) (c.withEvents i ((c i).events.filter (time ≤ ·.time)))
      (.ok ((c i).events.filter (·.time < time)))
  | copy {i j} (room : (c j).events.length ≤ (c i).capacity) :
      Does c (.copyFrom i j) (c.withEvents i (c j).events) (.ok [])
  | tooMany {i j} (noRoom : (c i).capacity < (c j).events.length) :
      Does c (.copyFrom i j) c (.error (.storageFull (c i).capacity))
  | swap {i j} : Does c (.swap i j) ((c.put i (c j)).put j (c i)) (.ok [])
  | clear {i} : Does c (.clear i) (c.withEvents i []) (.ok [])

variable {c : Cabinet ι}

theorem Kept.put (h : c.Kept) {s : Storage} (hs : s.Kept) (i : ι) : (c.put i s).Kept := by
  intro j
  unfold Cabinet.put
  split
  · exact hs
  · exact h j

theorem Kept.attempt (h : c.Kept) (i : ι) {result : Except Error Storage} (hresult : ∀ s, result = .ok s → s.Kept) :
    (c.attempt i result).1.Kept := by
  cases result with
  | ok s => exact h.put (hresult s rfl) i
  | error e => exact h

theorem Kept.call (h : c.Kept) (call : Call ι) : (c.call call).1.Kept := by
  cases call with
  | append i m => exact h.attempt i fun s hs => (h i).append hs
  | appendBytes i time bytes => exact h.attempt i fun s hs => (h i).appendBytes hs
  | truncateFrom i time => exact h.put ((h i).part (List.takeWhile_sublist _)) i
  | dropBefore i time => exact h.put ((h i).part (List.dropWhile_sublist _)) i
  | copyFrom i j => exact h.attempt i fun s hs => (h j).copyFrom hs
  | swap i j => exact (h.put (h j) i).put (h i) j
  | clear i => exact h.put ((h i).part (List.nil_sublist _)) i

theorem Kept.run (h : c.Kept) (calls : List (Call ι)) : (c.run calls).Kept := by
  induction calls generalizing c with
  | nil => exact h
  | cons call rest ih => exact ih (h.call call)

/-- A message finds room and is not older than any event, or it is refused for one of
the two reasons. -/
theorem Kept.does_append (h : c.Kept) (i : ι) (m : Message) :
    c.Does (.append i m) (c.attempt i ((c i).append m)).1 (c.attempt i ((c i).append m)).2 := by
  have hbounded : (c i).events.length ≤ (c i).capacity := (h i).bounded
  cases happend : (c i).append m with
  | ok s =>
    obtain ⟨rfl, hroom, -⟩ := Storage.append_ok happend
    have horder : InOrder ((c i).events ++ [m]) := ((h i).append happend).inOrder
    refine .append (Nat.lt_of_le_of_ne hbounded hroom) ?_
    intro e he
    exact (List.pairwise_append.mp horder).2.2 e he m List.mem_cons_self
  | error e =>
    rcases Storage.append_error happend with ⟨hfull, rfl⟩ | ⟨hroom, time, htime, hlt, rfl⟩
    · exact .full hfull
    · obtain ⟨last, hlast, rfl⟩ := Option.map_eq_some_iff.mp htime
      exact .late (Nat.lt_of_le_of_ne hbounded hroom) hlast hlt

theorem Kept.does_call (h : c.Kept) (call : Call ι) : c.Does call (c.call call).1 (c.call call).2 := by
  cases call with
  | append i m => exact h.does_append i m
  | appendBytes i time bytes =>
    show c.Does _ (c.attempt i ((c i).appendBytes time bytes)).1 (c.attempt i ((c i).appendBytes time bytes)).2
    unfold Storage.appendBytes
    cases hmessage : Message.ofBytes time bytes with
    | ok m => exact .bytes hmessage (h.does_append i m)
    | error e => exact .noMessage hmessage
  | truncateFrom i time =>
    show c.Does _ (c.put i ((c i).truncateFrom time)) (.ok [])
    rw [Storage.truncateFrom_eq (h i).inOrder]
    exact .truncate
  | dropBefore i time =>
    show c.Does _ (c.put i ((c i).dropBefore time).1) (.ok ((c i).dropBefore time).2)
    rw [Storage.dropBefore_eq (h i).inOrder]
    exact .drop
  | copyFrom i j =>
    show c.Does _ (c.attempt i ((c i).copyFrom (c j))).1 (c.attempt i ((c i).copyFrom (c j))).2
    unfold Storage.copyFrom
    split_ifs with hmore
    · exact .tooMany hmore
    · exact .copy (Nat.le_of_not_lt hmore)
  | swap i j => exact .swap
  | clear i => exact .clear

/-- What fails changes nothing. -/
theorem Does.unchanged {call : Call ι} {c' : Cabinet ι} {answer : Except Error (List Message)}
    (h : c.Does call c' answer) {e : Error} (hfails : answer = .error e) : c' = c := by
  induction h with
  | full | late | noMessage | tooMany => rfl
  | bytes message does ih => exact ih hfails
  | append | truncate | drop | copy | swap | clear => cases hfails

end Cabinet

/-! ## Passes -/

namespace Cursor

/-- A step of a pass over a storage. -/
inductive Move where
  | seek (time : UInt32)
  /-- Takes the event under the cursor, if there is one, and goes on to the next. -/
  | advance
  deriving DecidableEq

/-- An event that a pass has come by. -/
structure Visit where
  event : Message
  /-- It was skipped in seeking a later time. -/
  skipped : Bool

/-- How far a pass has come, and the events that it has visited. -/
structure Pass where
  cursor : Cursor
  visits : List Visit

namespace Pass

def start : Pass := ⟨.start, []⟩

def move (s : Storage) (p : Pass) : Move → Pass
  | .seek time => ⟨(p.cursor.seek s time).1, p.visits ++ (p.cursor.seek s time).2.map (⟨·, true⟩)⟩
  | .advance => ⟨p.cursor.advance s, p.visits ++ (p.cursor.peek s).toList.map (⟨·, false⟩)⟩

def run (s : Storage) (p : Pass) (moves : List Move) : Pass := moves.foldl (move s) p

/-- The events that are still to come. -/
def left (p : Pass) (s : Storage) : List Message := s.events.drop p.cursor.index

/-- The events that have been visited. -/
def visited (p : Pass) : List Message := p.visits.map (·.event)

variable {s : Storage}

theorem visited_seek (p : Pass) (time : UInt32) :
    (p.move s (.seek time)).visited = p.visited ++ (p.left s).takeWhile (·.time < time) := by
  unfold visited move
  rw [List.map_append, List.map_map]
  exact congrArg (p.visited ++ ·) (List.map_id _)

theorem left_seek (p : Pass) (time : UInt32) :
    (p.move s (.seek time)).left s = (p.left s).dropWhile (·.time < time) := Cursor.drop_seek s p.cursor time

theorem peek_eq (p : Pass) : p.cursor.peek s = (p.left s).head? := List.head?_drop.symm

theorem left_advance (p : Pass) : (p.move s .advance).left s = (p.left s).tail := by
  unfold left move Cursor.advance
  dsimp only
  split
  · rw [List.tail_drop]
  · next hend => rw [List.drop_of_length_le (Nat.le_of_not_lt hend), List.tail_nil]

theorem visited_advance (p : Pass) : (p.move s .advance).visited = p.visited ++ (p.left s).head?.toList := by
  unfold visited move
  rw [List.map_append, List.map_map, ← peek_eq]
  exact congrArg (p.visited ++ ·) (List.map_id _)

/-- No move leaves an event out or visits it twice. -/
theorem visited_append_left_move (p : Pass) (m : Move) :
    (p.move s m).visited ++ (p.move s m).left s = p.visited ++ p.left s := by
  cases m with
  | seek time => rw [visited_seek, left_seek, List.append_assoc, List.takeWhile_append_dropWhile]
  | advance =>
    rw [visited_advance, left_advance, List.append_assoc]
    cases p.left s <;> rfl

theorem left_move_sublist (p : Pass) (m : Move) : ((p.move s m).left s).Sublist (p.left s) := by
  cases m with
  | seek time =>
    rw [left_seek]
    exact List.dropWhile_sublist _
  | advance =>
    rw [left_advance]
    exact List.tail_sublist _

theorem run_append (p : Pass) (moves : List Move) (m : Move) : p.run s (moves ++ [m]) = (p.run s moves).move s m := by
  unfold run
  rw [List.foldl_append]
  rfl

theorem visited_append_left (s : Storage) (moves : List Move) :
    (start.run s moves).visited ++ (start.run s moves).left s = s.events := by
  induction moves using List.reverseRecOn with
  | nil => rfl
  | append_singleton moves m ih => rw [run_append, visited_append_left_move, ih]

/-- Whatever time has been sought, the events before it have been visited. -/
theorem le_of_sought (h : InOrder s.events) {moves : List Move} {time : UInt32} (hsought : .seek time ∈ moves) :
    ∀ e ∈ (start.run s moves).left s, time ≤ e.time := by
  induction moves using List.reverseRecOn with
  | nil => cases hsought
  | append_singleton moves m ih =>
    rw [run_append]
    rcases List.mem_append.mp hsought with hearlier | hlast
    · intro e he
      exact ih hearlier e ((left_move_sublist _ m).subset he)
    · rw [← List.mem_singleton.mp hlast]
      exact Cursor.seek_le h _ time

/-- Nothing is skipped but events before a time that was sought. -/
theorem lt_of_skipped (s : Storage) {moves : List Move} {v : Visit} (hv : v ∈ (start.run s moves).visits)
    (hskipped : v.skipped = true) : ∃ time, .seek time ∈ moves ∧ v.event.time < time := by
  induction moves using List.reverseRecOn with
  | nil => cases hv
  | append_singleton moves m ih =>
    rw [run_append] at hv
    cases m with
    | seek time =>
      rcases List.mem_append.mp hv with hearlier | hlast
      · obtain ⟨time', hsought, hlt⟩ := ih hearlier
        exact ⟨time', List.mem_append_left _ hsought, hlt⟩
      · obtain ⟨e, he, rfl⟩ := List.mem_map.mp hlast
        refine ⟨time, List.mem_append_right _ List.mem_cons_self, ?_⟩
        exact of_decide_eq_true (List.mem_takeWhile_imp (p := fun e : Message => e.time < time) he)
    | advance =>
      rcases List.mem_append.mp hv with hearlier | hlast
      · obtain ⟨time', hsought, hlt⟩ := ih hearlier
        exact ⟨time', List.mem_append_left _ hsought, hlt⟩
      · obtain ⟨e, -, rfl⟩ := List.mem_map.mp hlast
        cases hskipped

/-- Each event that is taken is one less to come. -/
theorem length_left_le (s : Storage) (moves : List Move) :
    ((start.run s moves).left s).length ≤ s.events.length - moves.count .advance := by
  induction moves using List.reverseRecOn with
  | nil => exact Nat.le_refl _
  | append_singleton moves m ih =>
    rw [run_append, List.count_append]
    cases m with
    | seek time =>
      have hless : (((start.run s moves).move s (.seek time)).left s).length ≤ ((start.run s moves).left s).length :=
        (left_move_sublist _ _).length_le
      simpa using hless.trans ih
    | advance =>
      rw [left_advance, List.length_tail, List.count_singleton_self]
      omega

/-- A pass has visited the events of a storage in order, up to where it has come, and
goes on from there. -/
structure Divides (s : Storage) (moves : List Move) (p : Pass) : Prop where
  /-- Every event has been visited once or is left, in order. -/
  once : p.visited ++ p.left s = s.events
  /-- Seeking skips those of the left events that are before the time, and no others. -/
  seek : ∀ time, (p.move s (.seek time)).visits = p.visits ++ ((p.left s).filter (·.time < time)).map (⟨·, true⟩) ∧
    (p.move s (.seek time)).left s = (p.left s).filter (time ≤ ·.time)
  /-- The cursor is on the first event that is left, and taking that leaves the others. -/
  peek : p.cursor.peek s = (p.left s).head?
  advance : (p.move s .advance).visits = p.visits ++ (p.left s).head?.toList.map (⟨·, false⟩) ∧
    (p.move s .advance).left s = (p.left s).tail
  /-- No event is left that is before a time that was sought, and only such events have
  been skipped. -/
  sought : ∀ time, .seek time ∈ moves → ∀ e ∈ p.left s, time ≤ e.time
  skipped : ∀ v ∈ p.visits, v.skipped = true → ∃ time, .seek time ∈ moves ∧ v.event.time < time
  /-- Nothing is left once there is no event under the cursor, which takes no more steps
  than there are events. -/
  ends : (p.cursor.peek s = none ↔ p.visited = s.events) ∧
    (s.events.length ≤ moves.count .advance → p.cursor.peek s = none)

theorem run_divides (h : InOrder s.events) (moves : List Move) : (start.run s moves).Divides s moves := by
  have hleft : InOrder ((start.run s moves).left s) := h.sublist (List.drop_sublist _ _)
  have honce := visited_append_left s moves
  constructor
  · exact honce
  · intro time
    constructor
    · rw [← Channel.takeWhile_eq_filter hleft]
      rfl
    · rw [left_seek, hleft.dropWhile_before]
  · exact peek_eq _
  · constructor
    · rw [← peek_eq]
      rfl
    · exact left_advance _
  · intro time hsought
    exact le_of_sought h hsought
  · intro v hv hskipped
    exact lt_of_skipped s hv hskipped
  · rw [peek_eq, List.head?_eq_none_iff]
    constructor
    · constructor
      · intro hempty
        rwa [hempty, List.append_nil] at honce
      · intro hall
        rw [hall] at honce
        exact List.append_right_eq_self.mp honce
    · intro hcount
      apply List.length_eq_zero_iff.mp
      have hle := length_left_le s moves
      omega

end Pass

end Cursor

namespace Cabinet
variable {ι : Type} [DecidableEq ι]

/-- Whatever is called on storages, their events stay in time order and within their room. In that order, each call
does what it says of the events: truncating keeps just those before the time, and dropping hands out just those and
keeps the others. What fails changes nothing. The search by halves finds the first event at or after a time. And a
pass over a storage, by seeking any times and taking any events in between, visits every event once and in order,
those before the time that is sought as skipped. -/
theorem keeps_events_in_order (capacity : ι → Nat) (calls : List (Call ι)) :
    let c := (opened capacity).run calls
    (∀ i, InOrder (c i).events ∧ (c i).events.length ≤ (c i).capacity) ∧
    (∀ call, c.Does call (c.call call).1 (c.call call).2 ∧
      ∀ e, (c.call call).2 = .error e → (c.call call).1 = c) ∧
    (∀ i time, (c i).searchIndex time = (c i).firstIndexFrom time ∧
      (c i).truncateFrom time = { c i with events := (c i).events.take ((c i).searchIndex time) } ∧
      (c i).dropBefore time = ({ c i with events := (c i).events.drop ((c i).searchIndex time) },
        (c i).events.take ((c i).searchIndex time))) ∧
    ∀ i (moves : List Cursor.Move), (Cursor.Pass.start.run (c i) moves).Divides (c i) moves := by
  intro c
  have hkept : c.Kept := (opened_kept capacity).run calls
  refine ⟨?_, ?_, ?_, ?_⟩
  · intro i
    exact ⟨(hkept i).inOrder, (hkept i).bounded⟩
  · intro call
    have hdoes := hkept.does_call call
    exact ⟨hdoes, fun e hfails => hdoes.unchanged hfails⟩
  · intro i time
    exact ⟨Storage.searchIndex_eq (hkept i).inOrder time, Storage.cut_searched (hkept i).inOrder time⟩
  · intro i moves
    exact Cursor.Pass.run_divides (hkept i).inOrder moves

/-- Three notes at 1, 3 and 3 and no room for more than four. A fourth one at 2 is refused. Seeking 3 skips the first
one, and then the other two can be taken; a time in front of them is sought in vain. -/
theorem keeps_events_in_order_notes :
    let note (time : UInt32) : Message := .short time 0x90 60 100
    let c := (opened fun _ : Bool => 4).run [.append true (note 1), .append true (note 3), .append true (note 3)]
    let moves : List Cursor.Move := [.seek 3, .advance, .seek 2]
    let p := Cursor.Pass.start.run (c true) moves
    (c.call (.append true (note 2))).2 = .error (.outOfOrder 2 3) ∧ (c.call (.append true (note 2))).1 = c ∧
      p.visits.map (fun v => (v.event.time, v.skipped)) = [(1, true), (3, false)] ∧
      .seek 3 ∈ moves ∧ ∀ e ∈ p.left (c true), 3 ≤ e.time := by
  intro note c moves p
  have hrefused : (c.call (.append true (note 2))).2 = .error (.outOfOrder 2 3) := rfl
  have hvisits : p.visits.map (fun v => (v.event.time, v.skipped)) = [(1, true), (3, false)] := by decide +kernel
  have hsought : .seek 3 ∈ moves := List.mem_cons_self
  obtain ⟨-, hcalls, -, hpasses⟩ := keeps_events_in_order (fun _ : Bool => 4)
    [.append true (note 1), .append true (note 3), .append true (note 3)]
  obtain ⟨-, hunchanged⟩ := hcalls (.append true (note 2))
  exact ⟨hrefused, hunchanged _ hrefused, hvisits, hsought, (hpasses true moves).sought 3 hsought⟩

end Cabinet

end Overdub.Midi
