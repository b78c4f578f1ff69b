import Overdub.Proofs.Passages
/-!
# The state a take starts from

A take is what a channel records while its loop records, behind what it has kept
aside for it. Before it, the channel `Awaits` the take; some of it recorded, it
`Takes`; and from then on passages that do not record leave the data as it is
(`Rests`). For each phase there is a lemma for one chunk, one for the end of a cycle,
and one for a run.

A restart at loop position 0 restores `Score.stateAt` at the start of the take. That
is the state of the input when the take began if something was kept aside for it, or
if it begins at data position 0. A take behind older data leaves the older start
state standing, and what the older data had in front of it.
-/

namespace Overdub.Midi

/-! ## Messages in data -/

/-- In a list in which what satisfies a predicate comes first. -/
theorem dropWhile_eq_filter {α : Type} {p : α → Bool} {l : List α}
    (h : l.Pairwise fun x y => p y = true → p x = true) : l.dropWhile p = l.filter fun x => !p x := by
  induction l with
  | nil => rfl
  | cons x rest ih =>
    obtain ⟨hfirst, hrest⟩ := List.pairwise_cons.mp h
    by_cases hx : p x = true
    · rw [List.dropWhile_cons_of_pos hx, List.filter_cons_of_neg (by simpa using hx), ih hrest]
    · have hall : ∀ y ∈ x :: rest, (!p y) = true := by
        rw [List.forall_mem_cons]
        exact ⟨by simpa using hx, fun y hy => by simpa using fun hy' => hx (hfirst y hy hy')⟩
      rw [List.dropWhile_cons_of_neg hx, List.filter_eq_self.mpr hall]

theorem drop_length_takeWhile {α : Type} (p : α → Bool) (l : List α) :
    l.drop (l.takeWhile p).length = l.dropWhile p := by
  have hbehind : (l.takeWhile p ++ l.dropWhile p).drop (l.takeWhile p).length = _ := List.drop_left
  rwa [List.takeWhile_append_dropWhile] at hbehind

/-- In order, what is left behind a time are the messages at or after it. -/
theorem InOrder.dropWhile_before {messages : List Message} (h : InOrder messages) (time : UInt32) :
    messages.dropWhile (·.time < time) = messages.filter (time ≤ ·.time) := by
  have hfirst : messages.Pairwise fun x y => decide (y.time < time) = true → decide (x.time < time) = true :=
    h.imp fun hle hy => decide_eq_true (UInt32.lt_of_le_of_lt hle (of_decide_eq_true hy))
  rw [dropWhile_eq_filter hfirst]
  apply List.filter_congr
  intro m _
  rw [← decide_not]
  exact decide_eq_decide.mpr UInt32.not_lt

/-- The messages of `n` frames from a frame on, as they are cut out. -/
theorem cut_eq {messages : List Message} (h : InOrder messages) {frame n : Nat} (hmax : frame + n ≤ maxFrames) :
    (messages.dropWhile (Message.isBefore frame)).takeWhile (Message.isBefore (frame + n)) =
      messages.filter fun m => frame ≤ m.time.toNat ∧ m.time.toNat < frame + n := by
  have hfirst : messages.Pairwise fun x y => y.isBefore frame = true → x.isBefore frame = true :=
    h.imp fun hle hy => decide_eq_true (UInt32.lt_of_le_of_lt hle (of_decide_eq_true hy))
  have htake : ∀ l : List Message, InOrder l →
      l.takeWhile (Message.isBefore (frame + n)) = l.filter (Message.isBefore (frame + n)) := fun l hl =>
    Channel.takeWhile_eq_filter hl _
  rw [dropWhile_eq_filter hfirst, htake _ (List.Pairwise.filter _ h), List.filter_filter]
  refine List.filter_congr fun m _ => ?_
  rw [Bool.eq_iff_iff, Bool.and_eq_true, Bool.not_eq_true', ← Bool.not_eq_true, decide_eq_true_eq,
    Message.isBefore_iff (by omega : frame ≤ maxFrames), Message.isBefore_iff hmax]
  omega

/-- A time counted from a frame on. -/
theorem Message.time_sub {m : Message} {frame : Nat} (h : frame ≤ m.time.toNat) :
    (m.time - UInt32.ofNat frame).toNat = m.time.toNat - frame := by
  have hlt := m.time.toNat_lt
  have hframe : (UInt32.ofNat frame).toNat = frame := by
    rw [UInt32.toNat_ofNat', Nat.mod_eq_of_lt (by omega)]
  rw [UInt32.toNat_sub_of_le _ _ (by rw [UInt32.le_iff_toNat_le, hframe]; exact h), hframe]

theorem Score.timeOf_eq_zero {position : Nat} : Score.timeOf position = 0 ↔ position = 0 := by
  have hmaxFrames : maxFrames = 2 ^ 32 - 1 := rfl
  rw [← UInt32.toNat_inj, timeOf_toNat, UInt32.toNat_zero]
  omega

namespace Passage

/-- The messages of the passage are in order and within its frames. -/
structure Sound (p : Passage) : Prop where
  pos : 0 < p.context.frames
  inOrder : InOrder p.messages
  inside : ∀ m ∈ p.messages, m.time.toNat < p.context.frames

/-- The messages of passages one after the other, from a data position on. -/
def placed (position : Nat) : List Passage → List Message
  | [] => []
  | p :: rest => placedAt (Score.timeOf position) p.messages ++ placed (position + p.context.frames) rest

/-- What is heard in passages. -/
def heard (passages : List Passage) : List (List UInt8) := passages.flatMap fun p => p.messages.map (·.bytes)

/-- The passages follow each other in some position of the loop. -/
def Follow (position : ChunkContext → Nat) : Nat → List Passage → Prop
  | _, [] => True
  | start, p :: rest => position p.context = start ∧ Follow position (start + p.context.frames) rest

variable {position : Nat} {passages : List Passage}

theorem frames_append (passages more : List Passage) : frames (passages ++ more) = frames passages + frames more := by
  unfold frames
  rw [List.map_append, List.sum_append]

theorem frames_concat (passages : List Passage) (p : Passage) :
    frames (passages ++ [p]) = frames passages + p.context.frames := by
  rw [frames_append]
  rfl

theorem frames_pos (hsound : ∀ p ∈ passages, p.Sound) (h : passages ≠ []) : 0 < frames passages := by
  cases passages with
  | nil => exact absurd rfl h
  | cons p rest => exact Nat.add_pos_left (hsound p List.mem_cons_self).pos _

theorem heard_concat (passages : List Passage) (p : Passage) :
    heard (passages ++ [p]) = heard passages ++ p.messages.map (·.bytes) := by
  unfold heard
  rw [List.flatMap_append, List.flatMap_singleton]

theorem placed_append (position : Nat) (passages more : List Passage) :
    placed position (passages ++ more) = placed position passages ++ placed (position + frames passages) more := by
  induction passages generalizing position with
  | nil => rfl
  | cons p rest ih =>
    have hframes : frames (p :: rest) = p.context.frames + frames rest := rfl
    rw [List.cons_append, placed, placed, ih, List.append_assoc, hframes, Nat.add_assoc]

theorem placed_concat (position : Nat) (passages : List Passage) (p : Passage) :
    placed position (passages ++ [p]) =
      placed position passages ++ placedAt (Score.timeOf (position + frames passages)) p.messages := by
  rw [placed_append, placed, placed, List.append_nil]

theorem bytes_placed (position : Nat) (passages : List Passage) :
    (placed position passages).map (·.bytes) = heard passages := by
  induction passages generalizing position with
  | nil => rfl
  | cons p rest ih =>
    rw [placed, List.map_append, ih, placedAt, List.map_map]
    rfl

theorem Follow.at {start : Nat} {of : ChunkContext → Nat} {before later : List Passage} {p : Passage}
    (h : Follow of start (before ++ p :: later)) : of p.context = start + frames before := by
  induction before generalizing start with
  | nil => exact h.1
  | cons first rest ih => exact (ih h.2).trans (Nat.add_assoc _ _ _)

theorem placed_time {m : Message} {n : Nat} (hm : m.time.toNat < n) (hmax : position + n ≤ maxFrames) :
    (Score.timeOf position + m.time).toNat = position + m.time.toNat := by
  have hmaxFrames : maxFrames = 2 ^ 32 - 1 := rfl
  rw [UInt32.toNat_add, Score.timeOf_toNat, Nat.min_eq_left (by omega), Nat.mod_eq_of_lt (by omega)]

/-- Where the messages of passages come to lie. -/
theorem mem_placed (hsound : ∀ p ∈ passages, p.Sound) (hmax : position + frames passages ≤ maxFrames) :
    ∀ m ∈ placed position passages, position ≤ m.time.toNat ∧ m.time.toNat < position + frames passages := by
  induction passages generalizing position with
  | nil => exact List.forall_mem_nil _
  | cons p rest ih =>
    rw [List.forall_mem_cons] at hsound
    have hframes : frames (p :: rest) = p.context.frames + frames rest := rfl
    rw [hframes] at hmax ⊢
    rw [placed, List.forall_mem_append]
    refine ⟨fun m hm => ?_, fun m hm => ?_⟩
    · obtain ⟨x, hx, rfl⟩ := List.mem_map.mp hm
      have hinside := hsound.1.inside x hx
      rw [Message.time_withTime, placed_time hinside (by omega)]
      omega
    · have hbounds := ih hsound.2 (by omega) m hm
      omega

theorem inOrder_placed (hsound : ∀ p ∈ passages, p.Sound) (hmax : position + frames passages ≤ maxFrames) :
    InOrder (placed position passages) := by
  induction passages generalizing position with
  | nil => exact List.Pairwise.nil
  | cons p rest ih =>
    rw [List.forall_mem_cons] at hsound
    have hframes : frames (p :: rest) = p.context.frames + frames rest := rfl
    rw [hframes] at hmax
    have hlater := @mem_placed (position + p.context.frames) rest hsound.2 (by omega)
    rw [placed]
    refine List.pairwise_append.mpr ⟨List.pairwise_map.mpr ?_, ih hsound.2 (by omega), fun m hm x hx => ?_⟩
    · refine hsound.1.inOrder.imp_of_mem fun {x y} hx hy hle => ?_
      rw [UInt32.le_iff_toNat_le] at hle ⊢
      rw [Message.time_withTime, Message.time_withTime, placed_time (hsound.1.inside x hx) (by omega),
        placed_time (hsound.1.inside y hy) (by omega)]
      omega
    · obtain ⟨y, hy, rfl⟩ := List.mem_map.mp hm
      have hinside := hsound.1.inside y hy
      have hbounds := hlater x hx
      rw [UInt32.le_iff_toNat_le, Message.time_withTime, placed_time hinside (by omega)]
      omega

end Passage

/-- The chunks of a valid cycle are sound passages. -/
theorem Channel.PlayCycle.Valid.passageAt {k : Channel.PlayCycle} (h : k.Valid) {frame : Nat} {context : ChunkContext}
    (hpos : 0 < context.frames) (hfits : frame + context.frames ≤ k.frames) : (k.passageAt frame context).Sound := by
  have hmax := Nat.le_trans hfits h.frames_le
  cases hinput : k.input with
  | none =>
    have hnone : (k.passageAt frame context).messages = [] := by
      unfold Channel.PlayCycle.passageAt
      rw [hinput]
      rfl
    exact ⟨hpos, hnone ▸ List.Pairwise.nil, hnone ▸ List.forall_mem_nil _⟩
  | some messages =>
    have hsome : (k.passageAt frame context).messages =
        (messages.filter fun m => frame ≤ m.time.toNat ∧ m.time.toNat < frame + context.frames).map fun m =>
          m.withTime (m.time - UInt32.ofNat frame) := by
      unfold Channel.PlayCycle.passageAt
      rw [hinput]
      exact congrArg (List.map _) (cut_eq (h.inOrder messages hinput) hmax)
    refine ⟨hpos, hsome ▸ List.pairwise_map.mpr ?_, hsome ▸ List.forall_mem_map.mpr fun m hm => ?_⟩
    · refine ((h.inOrder messages hinput).filter _).imp_of_mem fun {x y} hx hy hle => ?_
      have hx := of_decide_eq_true (List.mem_filter.mp hx).2
      have hy := of_decide_eq_true (List.mem_filter.mp hy).2
      rw [UInt32.le_iff_toNat_le] at hle ⊢
      rw [Message.time_withTime, Message.time_withTime, Message.time_sub hx.1, Message.time_sub hy.1]
      omega
    · have hm := of_decide_eq_true (List.mem_filter.mp hm).2
      rw [Message.time_withTime, Message.time_sub hm.1]
      show m.time.toNat - frame < context.frames
      omega

theorem Moment.Sound.passage {m : Moment} (h : m.Sound) {context : ChunkContext} (hpos : 0 < context.frames)
    (hfits : m.channel.track.framesDone + context.frames ≤ m.cycle.frames) : (m.passage context).Sound :=
  h.valid.passageAt hpos hfits

/-! ## What a chunk does to the recorder -/

namespace Recorder
variable {t : Track} {context : ChunkContext} (messages : List Message) (r : Recorder)

theorem pass_input (t : Track) (context : ChunkContext) :
    (r.pass t context messages).input = r.input.feedAll (messages.map (·.bytes)) := by
  unfold pass endAside
  dsimp only
  split_ifs <;> rfl

/-- Without recording, the data stays as it is. -/
theorem pass_of_not_record (h : (t.activityIn context).record = false) :
    (r.pass t context messages).main = r.main ∧ (r.pass t context messages).startState = r.startState := by
  unfold pass endAside
  simp only [h, Bool.false_eq_true, if_false]
  split_ifs <;> exact ⟨rfl, rfl⟩

theorem pass_of_record (h : (t.activityIn context).record = true) :
    r.pass t context messages =
      ((r.endAside (t.activityIn context) t).store .main
        ((t.endAside (t.activityIn context)).recordFrom context.lenBefore) messages).hear messages := by
  unfold pass
  simp only [h, if_true]

/-- Keeping aside goes on behind what has been kept. -/
theorem pass_of_keep (h : (t.activityIn context).preRecord = true) :
    t.endAside (t.activityIn context) = t ∧
      r.pass t context messages = (r.store .preRecord t.preRecordLength messages).hear messages := by
  have hrecord : (t.activityIn context).record = false := by
    cases hr : (t.activityIn context).record with
    | false => rfl
    | true => exact absurd (Track.preRecord_of_record hr) (by simp [h])
  have hends : t.endsPreRecord (t.activityIn context) = false := by simp [Track.endsPreRecord, h]
  have hended := Track.endAside_of_not_ends hends
  unfold pass endAside
  simp only [hended, h, hrecord, hends, Bool.false_eq_true, if_false, if_true, true_and]

/-- A chunk that neither records nor keeps aside only hears what arrives, unless it
drops what has been kept. -/
theorem pass_of_idle (hrecord : (t.activityIn context).record = false)
    (hkeep : (t.activityIn context).preRecord = false) (hlast : t.lastActivity.preRecord = false) :
    t.endAside (t.activityIn context) = t ∧ r.pass t context messages = r.hear messages := by
  have hends : t.endsPreRecord (t.activityIn context) = false := by simp [Track.endsPreRecord, hlast]
  have hended := Track.endAside_of_not_ends hends
  unfold pass endAside
  simp only [hended, hkeep, hrecord, hends, Bool.false_eq_true, if_false, true_and]

end Recorder

/-! ## What a storage holds in front of a position -/

namespace Storage
variable {s : Storage} {position : Nat}

/-- All events lie in front of a data position. -/
def EndsBy (s : Storage) (position : Nat) : Prop := ∀ e ∈ s.events, e.time.toNat < position

theorem EndsBy.mono (h : s.EndsBy position) {later : Nat} (hlater : position ≤ later) : s.EndsBy later :=
  fun e he => Nat.lt_of_lt_of_le (h e he) hlater

theorem lt_timeOf {m : Message} (hmax : position ≤ maxFrames) :
    m.time < Score.timeOf position ↔ m.time.toNat < position := by
  rw [UInt32.lt_iff_toNat_lt, Score.timeOf_toNat, Nat.min_eq_left hmax]

theorem endsBy_truncateFrom (s : Storage) (hmax : position ≤ maxFrames) :
    (s.truncateFrom (Score.timeOf position)).EndsBy position := by
  intro e he
  have hlt := List.mem_takeWhile_imp (p := fun m : Message => decide (m.time < Score.timeOf position)) he
  exact (lt_timeOf hmax).mp (of_decide_eq_true hlt)

/-- Cutting a storage off behind its last event leaves it as it is. -/
theorem EndsBy.truncateFrom (h : s.EndsBy position) (hmax : position ≤ maxFrames) :
    s.truncateFrom (Score.timeOf position) = s := by
  unfold Storage.truncateFrom
  rw [List.takeWhile_eq_self_iff.mpr fun e he => decide_eq_true ((lt_timeOf hmax).mpr (h e he))]

theorem truncateFrom_zero (s : Storage) : s.truncateFrom (Score.timeOf 0) = .empty s.capacity := by
  have hnone : s.events.takeWhile (·.time < Score.timeOf 0) = [] := by
    refine List.eq_nil_iff_forall_not_mem.mpr fun e he => ?_
    exact Nat.not_lt_zero _ (endsBy_truncateFrom s (Nat.zero_le _) e he)
  unfold Storage.truncateFrom
  rw [hnone]
  rfl

variable {passages : List Passage}

/-- What passages store behind a position ends where they end. -/
theorem EndsBy.keepAll (h : s.EndsBy position) (hsound : ∀ p ∈ passages, p.Sound)
    (hmax : position + Passage.frames passages ≤ maxFrames) :
    (s.keepAll (Passage.placed position passages)).EndsBy (position + Passage.frames passages) := by
  obtain ⟨kept, hkept, heq⟩ := s.exists_keepAll (Passage.placed position passages)
  unfold EndsBy
  rw [heq, List.forall_mem_append]
  exact ⟨h.mono (Nat.le_add_right _ _), fun e he => (Passage.mem_placed hsound hmax e (hkept.subset he)).2⟩

/-- What passages store behind a position leaves what lies in front of it as it is. -/
theorem EndsBy.before_keepAll (h : s.EndsBy position) (hsound : ∀ p ∈ passages, p.Sound)
    (hmax : position + Passage.frames passages ≤ maxFrames) :
    ((s.keepAll (Passage.placed position passages)).truncateFrom (Score.timeOf position)).events = s.events := by
  obtain ⟨kept, hkept, heq⟩ := s.exists_keepAll (Passage.placed position passages)
  have hfront : ∀ e ∈ s.events, decide (e.time < Score.timeOf position) = true := fun e he =>
    decide_eq_true ((lt_timeOf (by omega)).mpr (h e he))
  have hbehind : kept.takeWhile (·.time < Score.timeOf position) = [] := by
    refine List.eq_nil_iff_forall_not_mem.mpr fun e he => ?_
    have hlt := endsBy_truncateFrom ⟨s.capacity, kept⟩ (by omega) e he
    have hle := (Passage.mem_placed hsound hmax e (hkept.subset ((List.takeWhile_sublist _).subset he))).1
    omega
  rw [heq]
  show (s.events ++ kept).takeWhile _ = _
  rw [List.takeWhile_append_of_pos hfront, hbehind, List.append_nil]

end Storage

/-! ## The phases of a take -/

namespace Channel

/-- Where in the data a take begins, given what has been kept aside for it. -/
def takeStart (c : Channel) (lead : List Passage) : Nat :=
  if lead.isEmpty then c.track.startOffset.toNat else Passage.frames lead

/-- What lies in front of a take. -/
def takeBase (c : Channel) (lead : List Passage) : Storage :=
  if lead.isEmpty then c.storage.truncateFrom (Score.timeOf c.track.startOffset.toNat)
  else (Storage.empty c.preRecord.capacity).keepAll (Passage.placed 0 lead)

/-- The state that the data start from, given what has been heard in front of what
has been kept aside. Behind older data that is the older state. -/
def takeState (c : Channel) (heard : List (List UInt8)) (lead : List Passage) : Tracker :=
  if lead.isEmpty ∧ c.track.startOffset.toNat ≠ 0 then c.startState else c.inputState.feedAll heard

end Channel

namespace Moment

/-- The channel has not begun to record, and keeps what it hears in some passages
aside. -/
structure Awaits (c : Channel) (heard : List (List UInt8)) (lead : List Passage) (m : Moment) : Prop where
  mode : m.channel.track.mode = c.track.mode
  startOffset : m.channel.track.startOffset = c.track.startOffset
  main : m.now.main = c.storage
  startState : m.now.startState = c.startState
  input : m.now.input = c.inputState.feedAll (heard ++ Passage.heard lead)
  keeps : m.channel.track.lastActivity.preRecord = !lead.isEmpty
  kept : m.channel.track.preRecordLength = Passage.frames lead
  /-- Nothing is kept behind these passages once the next one is. -/
  aside : m.now.aside.truncateFrom (Score.timeOf (Passage.frames lead)) =
    (Storage.empty c.preRecord.capacity).keepAll (Passage.placed 0 lead)
  asideState : lead ≠ [] → m.now.asideState = c.inputState.feedAll heard

/-- The data end with a take. -/
structure HasTaken (c : Channel) (heard : List (List UInt8)) (lead taken : List Passage) (m : Moment) : Prop where
  mode : m.channel.track.mode = c.track.mode
  startOffset : m.channel.track.startOffset = c.takeStart lead
  dataLength : m.channel.track.dataLength = c.takeStart lead + Passage.frames taken
  main : m.now.main = (c.takeBase lead).keepAll (Passage.placed (c.takeStart lead) taken)
  startState : m.now.startState = c.takeState heard lead

variable {c : Channel} {heard : List (List UInt8)} {lead taken : List Passage} {m : Moment} {context : ChunkContext}

theorem Awaits.turn (h : Awaits c heard lead m) (hsound : m.Sound) (hend : m.channel.track.framesDone = m.cycle.frames)
    {next : Channel.PlayCycle} (hnext : next.Valid) : Awaits c heard lead (m.turn next) := by
  obtain ⟨-, hnow, -⟩ := hsound.turn hend hnext
  have htrack := hsound.turn_track hend next
  constructor
  all_goals first | rw [hnow] | rw [htrack]
  exacts [h.mode, h.startOffset, h.main, h.startState, h.input, h.keeps, h.kept, h.aside, h.asideState]

theorem HasTaken.turn (h : HasTaken c heard lead taken m) (hsound : m.Sound)
    (hend : m.channel.track.framesDone = m.cycle.frames) {next : Channel.PlayCycle} (hnext : next.Valid) :
    HasTaken c heard lead taken (m.turn next) := by
  obtain ⟨-, hnow, -⟩ := hsound.turn hend hnext
  have htrack := hsound.turn_track hend next
  constructor
  all_goals first | rw [hnow] | rw [htrack]
  exacts [h.mode, h.startOffset, h.dataLength, h.main, h.startState]

/-- A chunk that neither records nor keeps aside. -/
theorem Awaits.idle (h : Awaits c heard [] m) (hsound : m.Sound)
    (hfits : m.channel.track.framesDone + context.frames ≤ m.cycle.frames)
    (hidle : ((m.passage context).activity c.track.mode).record = false ∧
      ((m.passage context).activity c.track.mode).preRecord = false) :
    Awaits c (heard ++ (m.passage context).messages.map (·.bytes)) [] (m.chunk context) := by
  rw [← h.mode, ← hsound.activityIn] at hidle
  obtain ⟨-, hnow⟩ := hsound.chunk hfits
  obtain ⟨hended, hpass⟩ := Recorder.pass_of_idle (m.passage context).messages m.now hidle.1 hidle.2 h.keeps
  obtain ⟨hoffset, -⟩ := Track.pass_of_not_record hidle.1
  obtain ⟨hmode, -⟩ := m.channel.track.pass_cycle context
  have hkept := m.channel.track.pass_preRecordLength context
  rw [hended, hidle.2] at hkept
  rw [hpass] at hnow
  have htrack := hsound.chunk_track hfits
  constructor
  all_goals first | rw [hnow] | rw [htrack]
  · exact hmode.trans h.mode
  · exact hoffset.trans h.startOffset
  · exact h.main
  · exact h.startState
  · show m.now.input.feedAll _ = _
    rw [h.input, ← Tracker.feedAll_append]
    simp [Passage.heard]
  · exact hidle.2
  · exact hkept.trans h.kept
  · exact h.aside
  · exact nofun

/-- A chunk that is kept aside. -/
theorem Awaits.keep (h : Awaits c heard lead m) (hsound : m.Sound) (hpos : 0 < context.frames)
    (hfits : m.channel.track.framesDone + context.frames ≤ m.cycle.frames)
    (hlead : ∀ p ∈ lead, p.Sound) (hmax : Passage.frames lead + context.frames ≤ maxFrames)
    (hkeep : ((m.passage context).activity c.track.mode).preRecord = true) :
    Awaits c heard (lead ++ [m.passage context]) (m.chunk context) := by
  have hnew := hsound.passage hpos hfits
  rw [← h.mode, ← hsound.activityIn] at hkeep
  obtain ⟨-, hnow⟩ := hsound.chunk hfits
  obtain ⟨hended, hpass⟩ := Recorder.pass_of_keep (m.passage context).messages m.now hkeep
  have hrecord : (m.channel.track.activityIn context).record = false := by
    cases hr : (m.channel.track.activityIn context).record with
    | false => rfl
    | true => exact absurd (Track.preRecord_of_record hr) (by simp [hkeep])
  obtain ⟨hoffset, -⟩ := Track.pass_of_not_record hrecord
  obtain ⟨hmode, -⟩ := m.channel.track.pass_cycle context
  have hkept := m.channel.track.pass_preRecordLength context
  rw [hended, hkeep, if_pos rfl, h.kept] at hkept
  rw [hpass, h.kept] at hnow
  have htrack := hsound.chunk_track hfits
  have hframes : Passage.frames (lead ++ [m.passage context]) = Passage.frames lead + context.frames :=
    Passage.frames_concat lead _
  -- What was kept before ends where this chunk begins.
  have haside : (m.now.store .preRecord (Passage.frames lead) (m.passage context).messages).aside =
      (Storage.empty c.preRecord.capacity).keepAll (Passage.placed 0 (lead ++ [m.passage context])) := by
    rw [Passage.placed_concat, Storage.keepAll_append, ← h.aside, Nat.zero_add]
    rfl
  constructor
  all_goals first | rw [hnow] | rw [htrack]
  · exact hmode.trans h.mode
  · exact hoffset.trans h.startOffset
  · exact h.main
  · exact h.startState
  · show m.now.input.feedAll _ = _
    rw [h.input, ← Tracker.feedAll_append, Passage.heard_concat, List.append_assoc]
  · show (m.channel.track.activityIn context).preRecord = _
    simp [hkeep]
  · exact hkept.trans hframes.symm
  · show (m.now.store .preRecord (Passage.frames lead) (m.passage context).messages).aside.truncateFrom _ = _
    rw [haside]
    have hends := @Storage.EndsBy.keepAll (.empty c.preRecord.capacity) 0 _ (List.forall_mem_nil _)
      (List.forall_mem_append.mpr ⟨hlead, List.forall_mem_singleton.mpr hnew⟩) (by rw [hframes]; omega)
    rw [Nat.zero_add] at hends
    exact hends.truncateFrom (hframes ▸ hmax)
  · intro _
    show (if Score.timeOf (Passage.frames lead) = 0 then m.now.input else m.now.asideState) = _
    by_cases hfirst : lead = []
    · subst hfirst
      have hinput := h.input
      rw [show Passage.heard [] = [] from rfl, List.append_nil] at hinput
      exact hinput
    · have hafter := Passage.frames_pos hlead hfirst
      rw [if_neg fun hzero => Nat.ne_of_gt hafter (Score.timeOf_eq_zero.mp hzero)]
      exact h.asideState hfirst

/-- When the loop begins to record, what was kept aside becomes the data. -/
theorem Awaits.opening (h : Awaits c heard lead m) (hstart : 0 ≤ c.track.startOffset) (hlead : ∀ p ∈ lead, p.Sound)
    {a : Activity} (hrecord : a.record = true) (hkeep : a.preRecord = false) :
    let r := m.now.endAside a m.channel.track
    (m.channel.track.endAside a).startOffset = c.takeStart lead ∧
      r.main.truncateFrom (Score.timeOf (c.takeStart lead)) = c.takeBase lead ∧
      (if Score.timeOf (c.takeStart lead) = 0 then r.input else r.startState) = c.takeState heard lead := by
  have hends : m.channel.track.endsPreRecord a = !lead.isEmpty := by
    unfold Track.endsPreRecord
    rw [h.keeps, hkeep, Bool.not_false, Bool.and_true]
  unfold Recorder.endAside Track.endAside Channel.takeStart Channel.takeBase Channel.takeState
  rw [hends, hrecord]
  cases lead with
  | nil =>
    refine ⟨?_, ?_, ?_⟩
    · show m.channel.track.startOffset = (c.track.startOffset.toNat : Int)
      rw [h.startOffset, Int.toNat_of_nonneg hstart]
    · show m.now.main.truncateFrom _ = _
      rw [h.main]
      rfl
    · have hinput : m.now.input = c.inputState.feedAll heard := h.input.trans (by simp [Passage.heard])
      show (if Score.timeOf c.track.startOffset.toNat = 0 then m.now.input else m.now.startState) = _
      rw [hinput, h.startState]
      simp only [Score.timeOf_eq_zero, List.isEmpty_nil, true_and, ite_not]
  | cons p rest =>
    have hafter := Passage.frames_pos hlead (List.cons_ne_nil p rest)
    refine ⟨?_, h.aside, ?_⟩
    · show (m.channel.track.preRecordLength : Int) = _
      rw [h.kept]
      rfl
    · show (if Score.timeOf (Passage.frames (p :: rest)) = 0 then m.now.input else m.now.asideState) = _
      rw [if_neg fun hzero => Nat.ne_of_gt hafter (Score.timeOf_eq_zero.mp hzero), h.asideState (List.cons_ne_nil p rest)]
      rfl

/-- The first chunk of a take. -/
theorem Awaits.record (h : Awaits c heard lead m) (hstart : 0 ≤ c.track.startOffset) (hlead : ∀ p ∈ lead, p.Sound)
    (hsound : m.Sound) (hfits : m.channel.track.framesDone + context.frames ≤ m.cycle.frames)
    (hrecord : ((m.passage context).activity c.track.mode).record = true) (hempty : context.lenBefore = 0) :
    HasTaken c heard lead [m.passage context] (m.chunk context) ∧
      (m.chunk context).channel.track.lastActivity.preRecord = false := by
  rw [← h.mode, ← hsound.activityIn] at hrecord
  have hquiet := Track.preRecord_of_record hrecord
  obtain ⟨hopened, hbase, hstate⟩ := h.opening hstart hlead hrecord hquiet
  obtain ⟨-, hnow⟩ := hsound.chunk hfits
  obtain ⟨hoffset, hlength⟩ := Track.pass_of_record hrecord
  obtain ⟨hmode, -⟩ := m.channel.track.pass_cycle context
  have hfrom : (m.channel.track.endAside (m.channel.track.activityIn context)).recordFrom context.lenBefore =
      c.takeStart lead := by
    unfold Track.recordFrom
    rw [hempty, hopened]
    omega
  rw [Recorder.pass_of_record _ _ hrecord, hfrom] at hnow
  rw [hfrom] at hlength
  have htrack := hsound.chunk_track hfits
  refine ⟨?_, (congrArg (·.lastActivity.preRecord) htrack).trans hquiet⟩
  constructor
  all_goals first | rw [hnow] | rw [htrack]
  · exact hmode.trans h.mode
  · exact hoffset.trans hopened
  · exact hlength
  · show ((m.now.endAside _ _).main.truncateFrom _).keepAll _ = _
    rw [hbase, Passage.placed, Passage.placed, List.append_nil]
  · exact hstate

theorem takeBase_endsBy (c : Channel) (hlead : ∀ p ∈ lead, p.Sound) (hmax : c.takeStart lead ≤ maxFrames) :
    (c.takeBase lead).EndsBy (c.takeStart lead) := by
  unfold Channel.takeBase
  unfold Channel.takeStart at hmax ⊢
  split_ifs at hmax ⊢
  · exact Storage.endsBy_truncateFrom _ hmax
  · have hends := @Storage.EndsBy.keepAll (.empty c.preRecord.capacity) 0 _ (List.forall_mem_nil _)
      hlead (by omega)
    rwa [Nat.zero_add] at hends

/-- The next chunk of a take. -/
theorem HasTaken.record (h : HasTaken c heard lead taken m) (hquiet : m.channel.track.lastActivity.preRecord = false)
    (hlead : ∀ p ∈ lead, p.Sound) (htaken : ∀ p ∈ taken, p.Sound) (hsome : taken ≠ [])
    (hmax : c.takeStart lead + Passage.frames taken ≤ maxFrames) (hsound : m.Sound)
    (hfits : m.channel.track.framesDone + context.frames ≤ m.cycle.frames)
    (hrecord : ((m.passage context).activity c.track.mode).record = true)
    (hfollows : context.lenBefore = Passage.frames taken) :
    HasTaken c heard lead (taken ++ [m.passage context]) (m.chunk context) ∧
      (m.chunk context).channel.track.lastActivity.preRecord = false := by
  rw [← h.mode, ← hsound.activityIn] at hrecord
  have hquiet' := Track.preRecord_of_record hrecord
  have hends : m.channel.track.endsPreRecord (m.channel.track.activityIn context) = false := by
    unfold Track.endsPreRecord
    rw [hquiet, Bool.false_and]
  have hended := Track.endAside_of_not_ends hends
  obtain ⟨-, hnow⟩ := hsound.chunk hfits
  obtain ⟨hoffset, hlength⟩ := Track.pass_of_record hrecord
  obtain ⟨hmode, -⟩ := m.channel.track.pass_cycle context
  have hfrom : m.channel.track.recordFrom context.lenBefore = c.takeStart lead + Passage.frames taken := by
    unfold Track.recordFrom
    rw [hfollows, h.startOffset]
    omega
  have hafter := Passage.frames_pos htaken hsome
  rw [Recorder.pass_of_record _ _ hrecord, hended, hfrom] at hnow
  unfold Recorder.endAside at hnow
  rw [hended] at hoffset
  rw [hended, hfrom] at hlength
  rw [hends, if_neg Bool.false_ne_true] at hnow
  have htrack := hsound.chunk_track hfits
  have hframes := Passage.frames_concat taken (m.passage context)
  refine ⟨?_, (congrArg (·.lastActivity.preRecord) htrack).trans hquiet'⟩
  constructor
  all_goals first | rw [hnow] | rw [htrack]
  · exact hmode.trans h.mode
  · exact hoffset.trans h.startOffset
  · rw [hlength, hframes, Nat.add_assoc]
    rfl
  · have hkept := ((takeBase_endsBy c hlead (by omega)).keepAll htaken hmax).truncateFrom hmax
    show (m.now.main.truncateFrom _).keepAll _ = _
    rw [h.main, hkept, Passage.placed_concat, Storage.keepAll_append]
  · show (if Score.timeOf _ = 0 then m.now.input else m.now.startState) = _
    rw [if_neg fun hzero => by have := Score.timeOf_eq_zero.mp hzero; omega]
    exact h.startState

/-- A chunk that does not record. -/
theorem HasTaken.rest (h : HasTaken c heard lead taken m) (hsound : m.Sound)
    (hfits : m.channel.track.framesDone + context.frames ≤ m.cycle.frames)
    (hrests : ((m.passage context).activity c.track.mode).record = false) :
    HasTaken c heard lead taken (m.chunk context) := by
  rw [← h.mode, ← hsound.activityIn] at hrests
  obtain ⟨-, hnow⟩ := hsound.chunk hfits
  obtain ⟨hoffset, hlength⟩ := Track.pass_of_not_record hrests
  obtain ⟨hmode, -⟩ := m.channel.track.pass_cycle context
  obtain ⟨hmain, hstate⟩ := Recorder.pass_of_not_record (m.passage context).messages m.now hrests
  have htrack := hsound.chunk_track hfits
  constructor
  all_goals first | rw [hnow] | rw [htrack]
  · exact hmode.trans h.mode
  · exact hoffset.trans h.startOffset
  · exact hlength.trans h.dataLength
  · exact hmain.trans h.main
  · exact hstate.trans h.startState

/-! ### Runs -/

variable {last : Moment} {passages : List Passage}

/-- Runs go along sound passages. -/
theorem Runs.passages_sound (h : Runs m passages last) (hsound : m.Sound) : ∀ p ∈ passages, p.Sound := by
  refine h.along (motive := fun before _ => ∀ p ∈ before, p.Sound) hsound (List.forall_mem_nil _) ?_
    fun _ _ _ hbefore => hbefore
  intro before m context later _ hsound hpos hfits hbefore
  exact List.forall_mem_append.mpr ⟨hbefore, List.forall_mem_singleton.mpr (hsound.passage hpos hfits)⟩

/-- Whatever is done with it, all that arrives is heard. -/
theorem Runs.input (h : Runs m passages last) (hsound : m.Sound) :
    last.now.input = m.now.input.feedAll (Passage.heard passages) := by
  refine h.along (motive := fun before middle => middle.now.input = m.now.input.feedAll (Passage.heard before)) hsound
    rfl ?_ ?_
  · intro before middle context later _ hsound _ hfits hbefore
    rw [(hsound.chunk hfits).2, Recorder.pass_input, hbefore, ← Tracker.feedAll_append, Passage.heard_concat]
  · intro before middle next hsound hend hnext hbefore
    rw [(hsound.turn hend hnext).2.1, hbefore]

/-- Nothing is kept aside at the beginning. -/
theorem awaits_start (hnothing : c.track.preRecordLength = 0 ∧ c.track.lastActivity.preRecord = false)
    (k : Channel.PlayCycle) : Awaits c [] [] (start c k 0 []) := by
  obtain ⟨hnow, -⟩ := start_eq c k 0 []
  exact
    { mode := rfl
      startOffset := rfl
      main := congrArg Recorder.main hnow
      startState := congrArg Recorder.startState hnow
      input := congrArg Recorder.input hnow
      keeps := hnothing.2
      kept := hnothing.1
      aside := by
        rw [hnow]
        exact Storage.truncateFrom_zero c.preRecord
      asideState := fun hsome => absurd rfl hsome }

theorem Awaits.idleAll (h : Awaits c heard [] m) (hrun : Runs m passages last) (hsound : m.Sound)
    (hidle : ∀ p ∈ passages, (p.activity c.track.mode).record = false ∧ (p.activity c.track.mode).preRecord = false) :
    Awaits c (heard ++ Passage.heard passages) [] last := by
  refine hrun.along (motive := fun before middle => Awaits c (heard ++ Passage.heard before) [] middle) hsound ?_ ?_
    fun hsound hend hnext hbefore => hbefore.turn hsound hend hnext
  · rwa [show Passage.heard [] = [] from rfl, List.append_nil]
  · rintro before middle context later rfl hsound _ hfits hbefore
    rw [Passage.heard_concat, ← List.append_assoc]
    exact hbefore.idle hsound hfits (hidle _ (by simp))

theorem Awaits.keepAll (h : Awaits c heard [] m) (hrun : Runs m passages last) (hsound : m.Sound)
    (hkeeps : ∀ p ∈ passages, (p.activity c.track.mode).preRecord = true)
    (hmax : Passage.frames passages ≤ maxFrames) : Awaits c heard passages last := by
  have hpassages := hrun.passages_sound hsound
  refine hrun.along (motive := fun before middle => Awaits c heard before middle) hsound h ?_
    fun hsound hend hnext hbefore => hbefore.turn hsound hend hnext
  rintro before middle context later rfl hsound hpos hfits hbefore
  rw [List.append_cons, Passage.frames_append, Passage.frames_concat] at hmax
  exact hbefore.keep hsound hpos hfits (fun p hp => hpassages p (List.mem_append_left _ hp))
    (Nat.le_trans (Nat.le_add_right _ _) hmax) (hkeeps _ (by simp))

theorem Awaits.recordAll (h : Awaits c heard lead m) (hstart : 0 ≤ c.track.startOffset) (hlead : ∀ p ∈ lead, p.Sound)
    (hrun : Runs m passages last) (hsound : m.Sound) (hsome : passages ≠ [])
    (hrecords : ∀ p ∈ passages, (p.activity c.track.mode).record = true)
    (hfollow : Passage.Follow (·.lenBefore) 0 passages)
    (hmax : c.takeStart lead + Passage.frames passages ≤ maxFrames) :
    HasTaken c heard lead passages last ∧ last.channel.track.lastActivity.preRecord = false := by
  have hpassages := hrun.passages_sound hsound
  -- Only the first chunk ends what is kept aside.
  have hall := hrun.along (motive := fun before middle =>
    before = [] ∧ Awaits c heard lead middle ∨
      before ≠ [] ∧ HasTaken c heard lead before middle ∧ middle.channel.track.lastActivity.preRecord = false)
    hsound (.inl ⟨rfl, h⟩) ?_ ?_
  · exact (hall.resolve_left fun hnone => hsome hnone.1).2
  · rintro before middle context later rfl hsound hpos hfits hbefore
    have hat := hfollow.at
    rw [List.append_cons, Passage.frames_append, Passage.frames_concat] at hmax
    refine .inr ⟨by simp, ?_⟩
    rcases hbefore with ⟨rfl, hawaits⟩ | ⟨hne, htaken, hquiet⟩
    · exact hawaits.record hstart hlead hsound hfits (hrecords _ (by simp)) hat
    · exact htaken.record hquiet hlead (fun p hp => hpassages p (List.mem_append_left _ hp)) hne (by omega) hsound hfits
        (hrecords _ (by simp)) (hat.trans (Nat.zero_add _))
  · rintro before middle next hsound hend hnext (⟨rfl, hawaits⟩ | ⟨hne, htaken, hquiet⟩)
    · exact .inl ⟨rfl, hawaits.turn hsound hend hnext⟩
    · refine .inr ⟨hne, htaken.turn hsound hend hnext, ?_⟩
      rw [hsound.turn_track hend next]
      exact hquiet

theorem HasTaken.restAll (h : HasTaken c heard lead taken m) (hrun : Runs m passages last) (hsound : m.Sound)
    (hrests : ∀ p ∈ passages, (p.activity c.track.mode).record = false) : HasTaken c heard lead taken last := by
  refine hrun.along (motive := fun _ middle => HasTaken c heard lead taken middle) hsound h ?_
    fun hsound hend hnext hbefore => hbefore.turn hsound hend hnext
  rintro before middle context later rfl hsound _ hfits hbefore
  exact hbefore.rest hsound hfits (hrests _ (by simp))

end Moment

namespace Channel
variable {c : Channel} {heard : List (List UInt8)} {lead taken : List Passage}

/-- What a restart at the beginning of a take restores. -/
theorem stateAt_takeStart {c' : Channel} (hlead : ∀ p ∈ lead, p.Sound) (htaken : ∀ p ∈ taken, p.Sound)
    (hmax : c.takeStart lead + Passage.frames taken ≤ maxFrames)
    (hmain : c'.storage = (c.takeBase lead).keepAll (Passage.placed (c.takeStart lead) taken))
    (hstate : c'.startState = c.takeState heard lead) :
    c'.score.stateAt (c.takeStart lead) =
      if lead.isEmpty then
        if c.track.startOffset.toNat = 0 then c.inputState.feedAll heard
        else c.score.stateAt c.track.startOffset.toNat
      else c.inputState.feedAll (heard ++ (Passage.heard lead).take c.preRecord.capacity) := by
  have hfront := (Moment.takeBase_endsBy c hlead (by omega)).before_keepAll htaken hmax
  have hbefore : c'.score.before (c.takeStart lead) = (c.takeBase lead).events := by
    rw [← hfront, ← hmain]
    rfl
  unfold Score.stateAt
  rw [hbefore, show c'.score.startState = c.takeState heard lead from hstate]
  unfold takeBase takeState
  cases hnone : lead.isEmpty with
  | true =>
    simp only [true_and, if_true]
    by_cases hzero : c.track.startOffset.toNat = 0
    · rw [if_neg (fun hbehind => hbehind hzero), if_pos hzero, hzero, Storage.truncateFrom_zero]
      rfl
    · rw [if_pos hzero, if_neg hzero]
      rfl
  | false =>
    have hlater : Passage.frames lead ≤ maxFrames := by
      unfold takeStart at hmax
      rw [hnone] at hmax
      exact Nat.le_trans (Nat.le_add_right _ _) hmax
    have hkept := Storage.keepAll_eq (s := .empty c.preRecord.capacity) (Nat.zero_le _)
      (@Passage.inOrder_placed 0 lead hlead (Nat.zero_add _ ▸ hlater))
    rw [if_neg (fun hbehind => Bool.false_ne_true hbehind.1), if_neg Bool.false_ne_true, if_neg Bool.false_ne_true,
      hkept, Tracker.feedAll_append, ← Passage.bytes_placed 0 lead, ← List.map_take]
    exact Tracker.foldl_feedMessage _ _

/-- A run of cycles in which a take is recorded, behind what is kept aside for it. -/
structure Records (c : Channel) (cycles : List PlayCycle) (before lead taken rest : List Passage) : Prop where
  valid : ∀ k ∈ cycles, k.Valid
  startOffset : 0 ≤ c.track.startOffset
  /-- Nothing is kept aside at first. -/
  nothingAside : c.track.preRecordLength = 0 ∧ c.track.lastActivity.preRecord = false
  passages : cycles.flatMap PlayCycle.passages = before ++ lead ++ taken ++ rest
  idle : ∀ p ∈ before, (p.activity c.track.mode).record = false ∧ (p.activity c.track.mode).preRecord = false
  keeps : ∀ p ∈ lead, (p.activity c.track.mode).preRecord = true
  records : ∀ p ∈ taken, (p.activity c.track.mode).record = true
  nonempty : taken ≠ []
  /-- The loop is empty when the recording begins. -/
  fromEmpty : Passage.Follow (·.lenBefore) 0 taken
  rests : ∀ p ∈ rest, (p.activity c.track.mode).record = false
  /-- The data stay within the times there are. -/
  inTime : c.takeStart lead + Passage.frames taken ≤ maxFrames

/-- The moment at which a take is done, and the run that leads on from there. -/
theorem Records.exists_moment {c : Channel} {cycles : List PlayCycle} {before lead taken rest : List Passage}
    (h : Records c cycles before lead taken rest) :
    ∃ k middle last, k.Valid ∧ Moment.Runs (.start c k 0 []) (before ++ lead ++ taken) middle ∧
      middle.HasTaken c (Passage.heard before) lead taken ∧ Moment.Runs middle rest last ∧
      last.channel.track.framesDone = last.cycle.frames ∧ last.finish = (c.playAll cycles).1 ∧
      (LosesNothing cycles c → last.aired = c.broadcast 0 cycles) := by
  have hvalid := h.valid
  have hpassages := h.passages
  cases cycles with
  | nil =>
    simp only [List.flatMap_nil, List.nil_eq, List.append_eq_nil_iff] at hpassages
    exact absurd hpassages.1.2 h.nonempty
  | cons k cycles =>
    obtain ⟨last, hrun, hend, hfinish, haired⟩ := Moment.runs_cycles (c := c) hvalid 0 []
    rw [hpassages] at hrun
    have hk := hvalid k List.mem_cons_self
    have hbegin := Moment.start_sound c hk 0 []
    obtain ⟨middle, hfront, hrest⟩ := hrun.split
    obtain ⟨second, hearlier, htake⟩ := hfront.split
    obtain ⟨first, hbefore, hlead⟩ := hearlier.split
    have hfirst := hbefore.sound hbegin
    have hsecond := hlead.sound hfirst
    have hsounds := hlead.passages_sound hfirst
    have hinTime : Passage.frames lead ≤ maxFrames := by
      have hinTime := h.inTime
      unfold takeStart at hinTime
      split_ifs at hinTime with hnone
      · rw [List.isEmpty_iff.mp hnone]
        exact Nat.zero_le _
      · omega
    -- One phase after the other.
    have hidle := (Moment.awaits_start h.nothingAside k).idleAll hbefore hbegin h.idle
    have hkept := hidle.keepAll hlead hfirst h.keeps hinTime
    have htaken := hkept.recordAll h.startOffset hsounds htake hsecond h.nonempty h.records h.fromEmpty h.inTime
    exact ⟨k, middle, last, hk, hfront, htaken.1, hrest, hend, hfinish, haired⟩

theorem Records.sound {c : Channel} {cycles : List PlayCycle} {before lead taken rest : List Passage}
    (h : Records c cycles before lead taken rest) : ∀ p ∈ before ++ lead ++ taken ++ rest, p.Sound := by
  obtain ⟨k, middle, last, hk, hfront, -, hrest, -⟩ := h.exists_moment
  exact (hfront.append hrest).passages_sound (Moment.start_sound c hk 0 [])

/-- When its loop restarts at position 0, a channel restores the state that its input
was in when the last take began, as far as there was room for what it had kept aside
in front of it; but a take behind older data, with nothing kept aside, leaves the
state standing that the older data restored. -/
theorem restart_restores_take_start {c : Channel} {cycles : List PlayCycle} {before lead taken rest : List Passage}
    (h : Records c cycles before lead taken rest) :
    let ended := (c.playAll cycles).1
    let start := ended.track.startOffset.toNat
    let restored :=
      if lead.isEmpty ∧ c.track.startOffset ≠ 0 then c.score.stateAt c.track.startOffset.toNat
      else c.inputState.feedAll (Passage.heard before ++ (Passage.heard lead).take c.preRecord.capacity)
    ended.track.startOffset = c.takeStart lead ∧ ended.score.stateAt start = restored ∧
      ∀ (p : Player) (frame : UInt32),
        (((p.rewind ended.score).passOver ended.score (Score.timeOf start)).catchUp frame).1.output = restored := by
  intro ended start restored
  obtain ⟨k, middle, last, hk, hfront, htaken, hrest, hend, hfinish, -⟩ := h.exists_moment
  have hsound := h.sound
  simp only [List.forall_mem_append] at hsound
  have hmiddle := hfront.sound (Moment.start_sound c hk 0 [])
  have hlast := htaken.restAll hrest hmiddle h.rests
  obtain ⟨⟨hrecorder, -⟩, htrack, -⟩ := (hrest.sound hmiddle).finish hend
  rw [hfinish] at hrecorder htrack
  have hoffset : ended.track.startOffset = c.takeStart lead := (congrArg Track.startOffset htrack).trans hlast.startOffset
  have hstart : start = c.takeStart lead := by
    show ended.track.startOffset.toNat = _
    rw [hoffset, Int.toNat_natCast]
  have hstate : ended.score.stateAt start = restored := by
    rw [hstart, stateAt_takeStart hsound.1.1.2 hsound.1.2 h.inTime
      ((congrArg Recorder.main hrecorder).trans hlast.main)
      ((congrArg Recorder.startState hrecorder).trans hlast.startState)]
    have hzero : c.track.startOffset.toNat = 0 ↔ c.track.startOffset = 0 := by
      have := h.startOffset
      omega
    cases lead with
    | nil =>
      by_cases hbehind : c.track.startOffset = 0
      · simp [restored, Passage.heard, hbehind]
      · simp [restored, hbehind, hzero]
    | cons p rest => simp [restored]
  refine ⟨hoffset, hstate, fun p frame => ?_⟩
  exact (Player.ReadyAt.caughtUp (.inl ⟨rfl, rfl⟩) frame).2.2.trans hstate

/-- A take behind two frames kept aside, over older data that began at position 3: a
controller from before and a note that was kept aside are restored. -/
theorem restart_restores_take_start_kept :
    let c : Channel := { Channel.new 8 .direct with
      track := { mode := .direct, dataLength := 9, startOffset := 3 }
      storage := ⟨8, [.short 0 0xB0 1 5]⟩ }
    let volume : Message := .short 1 0xB0 7 80
    let note : Message := .short 3 0x90 60 100
    let idle : ChunkContext := ⟨.stopped, {}, 2, 0, 0, 0, 0⟩
    let ahead : ChunkContext := ⟨.stopped, ⟨some .recording, some 0, some 2⟩, 2, 0, 0, 0, 0⟩
    let recording (n length : Nat) : ChunkContext := ⟨.recording, {}, n, 0, 0, length, length + n⟩
    let first : PlayCycle := { frames := 5, contexts := [idle, ahead, recording 1 0], input := some [volume, note] }
    let second : PlayCycle := { frames := 2, contexts := [recording 2 1], input := some [.short 1 0x80 60 0] }
    let ended := (c.playAll [first, second]).1
    ended.track.startOffset = 2 ∧
      ended.score.stateAt 2 = c.inputState.feedAll [volume.bytes, note.bytes] := by
  intro c volume note idle ahead recording first second ended
  have hrecords : Records c [first, second] [first.passageAt 0 idle] [first.passageAt 2 ahead]
      [first.passageAt 4 (recording 1 0), second.passageAt 0 (recording 2 1)] [] :=
    { valid := List.forall_mem_cons.mpr ⟨⟨by decide, by decide, by decide, by decide, by decide⟩,
        List.forall_mem_singleton.mpr ⟨by decide, by decide, by decide, by decide, by decide⟩⟩
      startOffset := by decide
      nothingAside := ⟨rfl, rfl⟩
      passages := rfl
      idle := List.forall_mem_singleton.mpr ⟨rfl, rfl⟩
      keeps := List.forall_mem_singleton.mpr rfl
      records := List.forall_mem_cons.mpr ⟨rfl, List.forall_mem_singleton.mpr rfl⟩
      nonempty := nofun
      fromEmpty := ⟨rfl, rfl, trivial⟩
      rests := List.forall_mem_nil _
      inTime := by decide }
  obtain ⟨hoffset, hstate, -⟩ := restart_restores_take_start hrecords
  have hstart : ended.track.startOffset = 2 := hoffset
  rw [show (c.playAll [first, second]).1.track.startOffset = 2 from hoffset] at hstate
  exact ⟨hstart, hstate⟩

/-- A controller is turned and then a take is recorded over data that begin at
position 4, with nothing kept aside: the start state is that of the older data. -/
theorem older_start_state_stands :
    let c : Channel := { Channel.new 8 .direct with track := { mode := .direct, dataLength := 8, startOffset := 4 } }
    let volume : Message := .short 1 0xB0 7 80
    let idle : ChunkContext := ⟨.stopped, {}, 4, 0, 0, 0, 0⟩
    let recording : ChunkContext := ⟨.recording, {}, 4, 0, 0, 0, 4⟩
    let cycles : List PlayCycle :=
      [{ frames := 4, contexts := [idle], input := some [volume] },
        { frames := 4, contexts := [recording], input := some [] }]
    let ended := (c.playAll cycles).1
    ended.track.startOffset = 4 ∧ ended.score.stateAt 4 = .fresh ∧
      ended.inputState.control 0 7 = some 80 ∧ (ended.score.stateAt 4).control 0 7 = none := by
  intro c volume idle recording cycles ended
  exact ⟨by decide +kernel, by decide +kernel, by decide +kernel, by decide +kernel⟩

end Channel

end Overdub.Midi
