import Overdub.Proofs.Verdict
/-!
# The last time there is

The time of a stored event is a word of 32 bits, a data position is not. Recording
starts from the last time there is if the position lies behind it (`Score.timeOf`),
but the frames of the chunk in front of a message are added to that. So within one
chunk some messages are `timely` and the others `late`, and the times of those start
over at zero (`placed_late`). A storage refuses what is older than its last event
(`Storage.keepAll_filter`). What a late message comes to is therefore decided by
whether anything has been stored in front of it.
-/

namespace Overdub.Midi

/-! ## Storing what may be too old -/

/-- A list in which what satisfies a predicate comes first falls into two parts. -/
theorem filter_append_filter_not {α : Type} {p : α → Bool} {l : List α}
    (h : l.Pairwise fun x y => p y = true → p x = true) : (l.filter p ++ l.filter fun x => !p x) = l := by
  rw [← dropWhile_eq_filter h]
  induction l with
  | nil => rfl
  | cons x rest ih =>
    obtain ⟨hfirst, hrest⟩ := List.pairwise_cons.mp h
    by_cases hx : p x = true
    · rw [List.filter_cons_of_pos hx, List.dropWhile_cons_of_pos hx, List.cons_append, ih hrest]
    · have hnone : rest.filter p = [] := List.filter_eq_nil_iff.mpr fun y hy hpy => hx (hfirst y hy hpy)
      rw [List.filter_cons_of_neg hx, List.dropWhile_cons_of_neg hx, hnone, List.nil_append]

namespace Storage
variable {s : Storage}

/-- In order, a message that is older than one of the events is refused. -/
theorem keep_of_older (h : InOrder s.events) {m e : Message} (he : e ∈ s.events) (holder : m.time < e.time) :
    s.keep m = s := by
  rcases s.keep_cases m with hsame | ⟨hmore, -⟩
  · exact hsame
  · have horder := inOrder_keep h m
    rw [hmore] at horder
    have hle : e.time ≤ m.time := (List.pairwise_append.mp horder).2.2 e he m List.mem_cons_self
    exact absurd holder (UInt32.not_lt.mpr hle)

/-- Of messages in order, those that are older than an event are refused, and the others are stored as
far as there is room for them. -/
theorem keepAll_filter (hroom : s.events.length ≤ s.capacity) (h : InOrder s.events) {messages : List Message}
    (hmessages : InOrder messages) :
    s.keepAll messages =
      { s with events := s.events ++
        (messages.filter fun m => ∀ e ∈ s.events, e.time ≤ m.time).take (s.capacity - s.events.length) } := by
  induction messages with
  | nil => simp [keepAll]
  | cons m rest ih =>
    obtain ⟨hfirst, hrest⟩ := List.pairwise_cons.mp hmessages
    by_cases hnew : ∀ e ∈ s.events, e.time ≤ m.time
    · -- What comes behind a message that is new enough is so too.
      have hall : ∀ x ∈ m :: rest, ∀ e ∈ s.events, e.time ≤ x.time := by
        rw [List.forall_mem_cons]
        exact ⟨hnew, fun x hx e he => UInt32.le_trans (hnew e he) (hfirst x hx)⟩
      rw [List.filter_eq_self.mpr fun x hx => decide_eq_true (hall x hx)]
      exact keepAll_eq hroom (List.pairwise_append.mpr ⟨h, hmessages, fun e he x hx => hall x hx e he⟩)
    · obtain ⟨e, he, holder⟩ : ∃ e ∈ s.events, ¬ e.time ≤ m.time := by simpa using hnew
      have hsame : s.keepAll (m :: rest) = s.keepAll rest :=
        congrArg (keepAll · rest) (keep_of_older h he (UInt32.not_le.mp holder))
      rw [hsame, ih hrest, List.filter_cons_of_neg (by simpa using hnew)]

end Storage

/-! ## Messages on both sides of the last time -/

/-- The messages of `n` frames from a frame on. -/
def within (frame n : Nat) (messages : List Message) : List Message :=
  messages.filter fun m => frame ≤ m.time.toNat ∧ m.time.toNat < frame + n

/-- Where a message belongs whose frame is recorded behind a data position, counted from the time that
stands for that position. -/
def Message.due (frame position : Nat) (m : Message) : Nat := min position maxFrames + (m.time.toNat - frame)

/-- There is no time for where the message belongs. -/
def Message.isLate (frame position : Nat) (m : Message) : Bool := maxFrames < m.due frame position

/-- The messages of `n` frames whose times do not pass the last one. -/
def timely (frame n position : Nat) (messages : List Message) : List Message :=
  (within frame n messages).filter fun m => !m.isLate frame position

/-- The messages of `n` frames whose times pass the last one. -/
def late (frame n position : Nat) (messages : List Message) : List Message :=
  (within frame n messages).filter fun m => m.isLate frame position

section
variable {frame n position : Nat} {messages : List Message}

theorem timely_append_late (frame n position : Nat) (h : InOrder messages) :
    timely frame n position messages ++ late frame n position messages = within frame n messages := by
  have hfirst : (within frame n messages).Pairwise fun x y =>
      (!y.isLate frame position) = true → (!x.isLate frame position) = true := by
    refine (h.filter _).imp fun {x y} hle hy => ?_
    rw [UInt32.le_iff_toNat_le] at hle
    simp only [Message.isLate, Bool.not_eq_true', decide_eq_false_iff_not] at hy ⊢
    unfold Message.due at hy ⊢
    omega
  simpa [timely, late] using filter_append_filter_not hfirst

theorem mem_timely {m : Message} (hm : m ∈ timely frame n position messages) :
    frame ≤ m.time.toNat ∧ m.due frame position ≤ maxFrames := by
  obtain ⟨hwithin, htimely⟩ := List.mem_filter.mp hm
  have hframe := (of_decide_eq_true (List.mem_filter.mp hwithin).2).1
  simp only [Message.isLate, Bool.not_eq_true', decide_eq_false_iff_not, not_lt] at htimely
  exact ⟨hframe, htimely⟩

theorem mem_late {m : Message} (hm : m ∈ late frame n position messages) :
    frame ≤ m.time.toNat ∧ m.time.toNat < frame + n ∧ maxFrames < m.due frame position := by
  obtain ⟨hwithin, hlate⟩ := List.mem_filter.mp hm
  obtain ⟨hlow, hhigh⟩ := of_decide_eq_true (List.mem_filter.mp hwithin).2
  exact ⟨hlow, hhigh, of_decide_eq_true hlate⟩

/-- A message is stored where it belongs, modulo `2 ^ 32`. -/
theorem placed_time_eq {m : Message} (hframe : frame ≤ m.time.toNat) :
    (Score.timeOf position - .ofNat frame + m.time).toNat = m.due frame position % 2 ^ 32 := by
  have hsum : Score.timeOf position - .ofNat frame + m.time = Score.timeOf position + (m.time - .ofNat frame) := by
    grind
  rw [hsum, UInt32.toNat_add, Score.timeOf_toNat, Message.time_sub hframe]
  rfl

/-- The timely messages where they belong. -/
def placedTimely (frame n position : Nat) (messages : List Message) : List Message :=
  (timely frame n position messages).map fun m => m.withTime (.ofNat (m.due frame position))

/-- The late messages where they end up. -/
def placedLate (frame n position : Nat) (messages : List Message) : List Message :=
  (late frame n position messages).map fun m => m.withTime (.ofNat (m.due frame position - 2 ^ 32))

theorem placedAt_within (h : InOrder messages) :
    placedAt (Score.timeOf position - .ofNat frame) (within frame n messages) =
      placedTimely frame n position messages ++ placedLate frame n position messages := by
  have hmaxFrames : maxFrames = 2 ^ 32 - 1 := rfl
  rw [← timely_append_late frame n position h, placedAt, List.map_append]
  refine congrArg₂ (· ++ ·) (List.map_congr_left fun m hm => ?_) (List.map_congr_left fun m hm => ?_)
  · refine congrArg m.withTime (UInt32.toNat_inj.mp ?_)
    obtain ⟨hframe, hdue⟩ := mem_timely hm
    rw [placed_time_eq hframe, UInt32.toNat_ofNat']
  · refine congrArg m.withTime (UInt32.toNat_inj.mp ?_)
    obtain ⟨hlow, hhigh, hdue⟩ := mem_late hm
    rw [placed_time_eq hlow, UInt32.toNat_ofNat']
    unfold Message.due at hdue ⊢
    omega

/-- Timely messages lie between the first frame and the last time. -/
theorem placedTimely_time {m : Message} (hm : m ∈ placedTimely frame n position messages) :
    min position maxFrames ≤ m.time.toNat := by
  have hmaxFrames : maxFrames = 2 ^ 32 - 1 := rfl
  obtain ⟨x, hx, rfl⟩ := List.mem_map.mp hm
  obtain ⟨-, hdue⟩ := mem_timely hx
  rw [Message.time_withTime, UInt32.toNat_ofNat', Nat.mod_eq_of_lt (by omega)]
  unfold Message.due
  exact Nat.le_add_right _ _

/-- The times of late messages start over at zero, and lie in front of that of the first frame. -/
theorem placedLate_time (hmax : frame + n ≤ maxFrames) {m : Message} (hm : m ∈ placedLate frame n position messages) :
    m.time.toNat < min position maxFrames := by
  have hmaxFrames : maxFrames = 2 ^ 32 - 1 := rfl
  obtain ⟨x, hx, rfl⟩ := List.mem_map.mp hm
  obtain ⟨hlow, hhigh, hdue⟩ := mem_late hx
  rw [Message.time_withTime, UInt32.toNat_ofNat']
  unfold Message.due at hdue ⊢
  omega

theorem inOrder_placedTimely (h : InOrder messages) : InOrder (placedTimely frame n position messages) := by
  have hmaxFrames : maxFrames = 2 ^ 32 - 1 := rfl
  refine List.pairwise_map.mpr (List.Pairwise.imp_of_mem (fun {x y} hx hy hle => ?_) ((h.filter _).filter _))
  have hxdue := (mem_timely hx).2
  have hydue := (mem_timely hy).2
  rw [UInt32.le_iff_toNat_le] at hle ⊢
  rw [Message.time_withTime, Message.time_withTime, UInt32.toNat_ofNat', UInt32.toNat_ofNat']
  unfold Message.due at *
  omega

theorem inOrder_placedLate (position : Nat) (h : InOrder messages) (hmax : frame + n ≤ maxFrames) :
    InOrder (placedLate frame n position messages) := by
  have hmaxFrames : maxFrames = 2 ^ 32 - 1 := rfl
  refine List.pairwise_map.mpr (List.Pairwise.imp_of_mem (fun {x y} hx hy hle => ?_) ((h.filter _).filter _))
  obtain ⟨-, hxhigh, hxdue⟩ := mem_late hx
  obtain ⟨-, hyhigh, hydue⟩ := mem_late hy
  rw [UInt32.le_iff_toNat_le] at hle ⊢
  rw [Message.time_withTime, Message.time_withTime, UInt32.toNat_ofNat', UInt32.toNat_ofNat']
  unfold Message.due at *
  omega

end

/-! ## Recording -/

namespace Channel

/-- Recording cuts the data off at the position, and stores behind it what arrives in the frames. -/
theorem recorded_runRecord (c : Channel) (input : List Message) (hinput : InOrder input) (target : RecordTarget)
    {frame n : Nat} (hmax : frame + n ≤ maxFrames) (position : Nat) :
    (c.runRecord input target frame n position).1.recorded target =
      ((c.recorded target).truncateFrom (Score.timeOf position)).keepAll
        (placedAt (Score.timeOf position - .ofNat frame) (within frame n input)) := by
  have hcut : placedAt (Score.timeOf position) (excerpt frame n input) =
      placedAt (Score.timeOf position - .ofNat frame) (within frame n input) := by
    unfold excerpt within
    rw [cut_eq hinput hmax]
    exact placedAt_excerpt _ _ _
  rw [(c.runRecord_eq input target frame n position).1]
  cases target with
  | main => exact congrArg (c.storage.truncateFrom (Score.timeOf position)).keepAll hcut
  | preRecord => exact congrArg (c.preRecord.truncateFrom (Score.timeOf position)).keepAll hcut

/-- The events that recording at a position leaves standing. -/
theorem truncateFrom_timeOf {s : Storage} (h : InOrder s.events) (position : Nat) :
    (s.truncateFrom (Score.timeOf position)).events =
      s.events.filter fun e => e.time.toNat < min position maxFrames := by
  refine (takeWhile_eq_filter h _).trans (List.filter_congr fun e _ => ?_)
  simp only [UInt32.lt_iff_toNat_lt, Score.timeOf_toNat]

/-- What of the messages of a chunk is not older than what is stored in front of it: those that come in
time, and of the late ones, if there are no others, those that end up behind all that is left standing. -/
def admitted (kept : List Message) (frame n position : Nat) (messages : List Message) : List Message :=
  placedTimely frame n position messages ++
    if timely frame n position messages = [] then
      (placedLate frame n position messages).filter fun m => ∀ e ∈ kept, e.time ≤ m.time
    else []

theorem keepAll_within {s : Storage} {frame n position : Nat} {messages : List Message} (hsorted : InOrder s.events)
    (hroom : s.events.length ≤ s.capacity) (hends : ∀ e ∈ s.events, e.time.toNat < min position maxFrames)
    (h : InOrder messages) (hmax : frame + n ≤ maxFrames) :
    (s.keepAll (placedAt (Score.timeOf position - .ofNat frame) (within frame n messages))).events =
      s.events ++ (admitted s.events frame n position messages).take (s.capacity - s.events.length) := by
  have htimely : InOrder (s.events ++ placedTimely frame n position messages) := by
    refine List.pairwise_append.mpr ⟨hsorted, inOrder_placedTimely h, fun e he m hm => ?_⟩
    exact UInt32.le_iff_toNat_le.mpr ((hends e he).le.trans (placedTimely_time hm))
  rw [placedAt_within h, Storage.keepAll_append, Storage.keepAll_eq hroom htimely]
  unfold admitted
  split_ifs with hnone
  · have hempty : placedTimely frame n position messages = [] := by rw [placedTimely, hnone, List.map_nil]
    rw [hempty, List.take_nil, List.append_nil, List.nil_append]
    exact congrArg Storage.events (Storage.keepAll_filter hroom hsorted (inOrder_placedLate position h hmax))
  · -- Behind a timely message there is no place for a late one.
    rw [List.append_nil]
    cases hleft : s.capacity - s.events.length with
    | zero =>
      have hfull : s.events.length = s.capacity := by omega
      have hstays := Storage.keepAll_filter hroom hsorted (inOrder_placedLate position h hmax)
      rw [hleft, List.take_zero, List.append_nil] at hstays
      rw [List.take_zero, List.append_nil]
      exact congrArg Storage.events hstays
    | succ left =>
      obtain ⟨first, rest, hfirst⟩ : ∃ first rest, placedTimely frame n position messages = first :: rest :=
        List.exists_cons_of_ne_nil fun hnil => hnone (List.map_eq_nil_iff.mp hnil)
      have hstart : min position maxFrames ≤ first.time.toNat :=
        placedTimely_time (hfirst ▸ List.mem_cons_self : first ∈ placedTimely frame n position messages)
      have hstored : InOrder (s.events ++ (placedTimely frame n position messages).take (left + 1)) :=
        htimely.sublist (List.Sublist.append_left (List.take_sublist _ _) _)
      have hlength : (s.events ++ (placedTimely frame n position messages).take (left + 1)).length ≤ s.capacity := by
        rw [List.length_append, List.length_take]
        omega
      rw [Storage.keepAll_filter hlength hstored (inOrder_placedLate position h hmax)]
      have hrefused : (placedLate frame n position messages).filter
          (fun m => ∀ e ∈ s.events ++ (placedTimely frame n position messages).take (left + 1), e.time ≤ m.time) =
            [] := by
        refine List.filter_eq_nil_iff.mpr fun m hm hall => ?_
        have hle := of_decide_eq_true hall first
          (List.mem_append_right _ (by rw [hfirst, List.take_succ_cons]; exact List.mem_cons_self))
        have hlate := placedLate_time hmax hm
        rw [UInt32.le_iff_toNat_le] at hle
        omega
      rw [hrefused, List.take_nil, List.append_nil]

/-- What the data would be if times stopped at the last one: the events in front of the position, and
behind them what arrives in the frames, each message where it belongs or at the last time there is. -/
def saturated (s : Storage) (frame n position : Nat) (messages : List Message) : List Message :=
  (s.events.filter fun e => e.time.toNat < position) ++
    (within frame n messages).map fun m => m.withTime (Score.timeOf (position + (m.time.toNat - frame)))

/-- The position lies within the times, or nothing is stored at the last one. -/
def LastTimeFree (s : Storage) (position : Nat) : Prop :=
  position ≤ maxFrames ∨ ∀ e ∈ s.events, e.time.toNat < maxFrames

theorem filter_eq_of_lastTimeFree {s : Storage} {position : Nat} (h : LastTimeFree s position) :
    (s.events.filter fun e => e.time.toNat < position) =
      s.events.filter fun e => e.time.toNat < min position maxFrames := by
  refine List.filter_congr fun e he => ?_
  rcases h with hposition | hfree
  · rw [Nat.min_eq_left hposition]
  · have hlt := hfree e he
    rw [decide_eq_decide]
    omega

/-- An event at the last time is lost to a position behind it. -/
theorem length_filter_lt {s : Storage} {position : Nat} (h : ¬LastTimeFree s position) :
    (s.events.filter fun e => e.time.toNat < min position maxFrames).length <
      (s.events.filter fun e => e.time.toNat < position).length := by
  have hmaxFrames : maxFrames = 2 ^ 32 - 1 := rfl
  obtain ⟨hposition, e, he, hlast⟩ : ¬position ≤ maxFrames ∧ ∃ e ∈ s.events, ¬e.time.toNat < maxFrames := by
    simpa [LastTimeFree] using h
  have hall : (s.events.filter fun e => e.time.toNat < position) = s.events :=
    List.filter_eq_self.mpr fun x _ => decide_eq_true (by have := x.time.toNat_lt; omega)
  rw [hall]
  refine lt_of_le_of_ne (List.length_filter_le _ _) fun hlength => hlast ?_
  have hkept := of_decide_eq_true (List.length_filter_eq_length_iff.mp hlength e he)
  exact hkept.trans_le (Nat.min_le_right _ _)

theorem saturated_of_not_late {frame n position : Nat} {messages : List Message} (h : InOrder messages)
    (hnone : late frame n position messages = []) :
    (within frame n messages).map (fun m => m.withTime (Score.timeOf (position + (m.time.toNat - frame)))) =
      placedTimely frame n position messages := by
  rw [← timely_append_late frame n position h, hnone, List.append_nil]
  refine List.map_congr_left fun m hm => congrArg m.withTime ?_
  obtain ⟨-, hdue⟩ := mem_timely hm
  have hclamp : clampFrames (position + (m.time.toNat - frame)) = m.due frame position := by
    unfold Message.due at hdue ⊢
    unfold clampFrames
    omega
  rw [Score.timeOf, hclamp]

theorem length_admitted_le (kept : List Message) (frame n position : Nat) {messages : List Message}
    (h : InOrder messages) :
    (admitted kept frame n position messages).length ≤ (within frame n messages).length ∧
      (late frame n position messages ≠ [] → timely frame n position messages ≠ [] →
        (admitted kept frame n position messages).length < (within frame n messages).length) := by
  have hsplit := congrArg List.length (timely_append_late frame n position h)
  rw [List.length_append] at hsplit
  unfold admitted placedTimely
  split_ifs with hnone
  · have hfiltered : ((placedLate frame n position messages).filter fun m => ∀ e ∈ kept, e.time ≤ m.time).length ≤
        (late frame n position messages).length :=
      (List.length_filter_le _ _).trans_eq (List.length_map _)
    simp only [List.length_append, List.length_map]
    exact ⟨by omega, fun _ hsome => absurd hnone hsome⟩
  · simp only [List.append_nil, List.length_map]
    exact ⟨by omega, fun hlate _ => by have := List.length_pos_iff.mpr hlate; omega⟩

/-- If nothing is lost and no time starts over, no message was late and none was stored at the last time. -/
theorem of_append_eq_saturated {s : Storage} {frame n position room : Nat} {messages : List Message}
    (h : InOrder messages) (hmax : frame + n ≤ maxFrames)
    (heq : let kept := s.events.filter fun e => e.time.toNat < min position maxFrames
      kept ++ (admitted kept frame n position messages).take room = saturated s frame n position messages) :
    late frame n position messages = [] ∧ LastTimeFree s position := by
  unfold saturated at heq
  generalize hkept : (s.events.filter fun e => e.time.toNat < min position maxFrames) = kept at heq
  obtain ⟨hadmitted, hfewer⟩ := length_admitted_le kept frame n position h
  have htaken := List.length_take_le' room (admitted kept frame n position messages)
  have hlengths := congrArg List.length heq
  simp only [List.length_append, List.length_map] at hlengths
  have hfree : LastTimeFree s position := by
    by_contra hlost
    have hless := length_filter_lt hlost
    rw [hkept] at hless
    omega
  refine ⟨?_, hfree⟩
  have hsame := filter_eq_of_lastTimeFree hfree
  rw [hkept] at hsame
  rw [hsame] at heq hlengths
  have hplaced := List.append_cancel_left heq
  by_contra hlate
  have hnone : timely frame n position messages = [] := by
    by_contra hsome
    have := hfewer hlate hsome
    omega
  -- All are late, so the first one is stored in front of the position, and not at the last time.
  obtain ⟨m, rest, hm⟩ := List.exists_cons_of_ne_nil hlate
  have hwithin := timely_append_late frame n position h
  rw [hnone, List.nil_append, hm] at hwithin
  have hmem : m.withTime (Score.timeOf (position + (m.time.toNat - frame))) ∈ placedLate frame n position messages := by
    have hfirst : m.withTime (Score.timeOf (position + (m.time.toNat - frame))) ∈
        admitted kept frame n position messages := by
      refine List.mem_of_mem_take (i := room) ?_
      rw [hplaced, ← hwithin]
      exact List.mem_cons_self
    unfold admitted placedTimely at hfirst
    rw [if_pos hnone, hnone, List.map_nil, List.nil_append] at hfirst
    exact List.mem_of_mem_filter hfirst
  have hearly := placedLate_time hmax hmem
  have hdue := (mem_late (hm ▸ List.mem_cons_self : m ∈ late frame n position messages)).2.2
  rw [Message.time_withTime, Score.timeOf_toNat] at hearly
  unfold Message.due at hdue
  omega

/-- Recording at any data position leaves the data in order. What stays is what lies in front of the
position and of the last time; behind it comes what arrives in the frames, as far as there is room: the
messages that come in time, and the late ones only if there are no others, at times that start over at
zero, and only those that are not older than all that stayed. With room for everything, this is what times
that stop at the last one would give exactly if no message is late, and no event is stored at the last time
when the position lies behind it. -/
theorem recording_past_last_time {c : Channel} {target : RecordTarget} (hsorted : InOrder (c.recorded target).events)
    (hroom : (c.recorded target).events.length ≤ (c.recorded target).capacity) {input : List Message}
    (hinput : InOrder input) {frame n : Nat} (hmax : frame + n ≤ maxFrames) (position : Nat) :
    let s := c.recorded target
    let after := ((c.runRecord input target frame n position).1.recorded target).events
    let kept := s.events.filter fun e => e.time.toNat < min position maxFrames
    InOrder after ∧
      after = kept ++ (admitted kept frame n position input).take (s.capacity - kept.length) ∧
      ((saturated s frame n position input).length ≤ s.capacity →
        (after = saturated s frame n position input ↔
          late frame n position input = [] ∧ LastTimeFree s position)) := by
  intro s after kept
  have hcut : (s.truncateFrom (Score.timeOf position)).events = kept := truncateFrom_timeOf hsorted position
  have hcutSorted : InOrder (s.truncateFrom (Score.timeOf position)).events :=
    Recorder.inOrder_truncateFrom hsorted _
  have hkeptRoom : kept.length ≤ s.capacity := (List.length_filter_le _ _).trans hroom
  have hrecorded := recorded_runRecord c input hinput target hmax position
  have hafter : after = kept ++ (admitted kept frame n position input).take (s.capacity - kept.length) := by
    have hends : ∀ e ∈ (s.truncateFrom (Score.timeOf position)).events, e.time.toNat < min position maxFrames := by
      rw [hcut]
      exact fun e he => of_decide_eq_true (List.mem_filter.mp he).2
    have hstored := keepAll_within hcutSorted (hcut.symm ▸ hkeptRoom) hends hinput hmax
    rw [hcut] at hstored
    exact (congrArg Storage.events hrecorded).trans hstored
  refine ⟨?_, hafter, fun hfits => ⟨fun heq => ?_, fun ⟨hnone, hfree⟩ => ?_⟩⟩
  · show InOrder ((c.runRecord input target frame n position).1.recorded target).events
    rw [hrecorded]
    exact Storage.inOrder_keepAll hcutSorted _
  · exact of_append_eq_saturated hinput hmax (hafter.symm.trans heq)
  · have hadmitted : admitted kept frame n position input = placedTimely frame n position input := by
      unfold admitted placedLate
      simp [hnone]
    have hsaturated : saturated s frame n position input = kept ++ placedTimely frame n position input :=
      congrArg₂ (· ++ ·) (filter_eq_of_lastTimeFree hfree) (saturated_of_not_late hinput hnone)
    rw [hsaturated, List.length_append] at hfits
    rw [hafter, hadmitted, hsaturated, List.take_of_length_le (by omega)]

/-- A take that has reached the last time there is, and goes on behind it: the note that was recorded
there is dropped for the next one. -/
theorem recording_past_last_time_again :
    let first : Message := .short 4294967295 0x90 60 100
    let c : Channel := { Channel.new 8 .direct with storage := ⟨8, [first]⟩ }
    let next : Message := .short 1 0x90 62 100
    let after := ((c.runRecord [next] .main 1 1 (2 ^ 32)).1.recorded .main).events
    InOrder after ∧ after = [next.withTime 4294967295] ∧
      saturated c.storage 1 1 (2 ^ 32) [next] = [first, next.withTime 4294967295] := by
  intro first c next after
  have hsorted : InOrder (c.recorded .main).events := List.pairwise_singleton _ _
  have hroom : (c.recorded .main).events.length ≤ (c.recorded .main).capacity := by decide
  have hinput : InOrder [next] := List.pairwise_singleton _ _
  have hmax : 1 + 1 ≤ maxFrames := by decide
  obtain ⟨horder, hafter, -⟩ := recording_past_last_time hsorted hroom hinput hmax (2 ^ 32)
  refine ⟨horder, ?_, by decide⟩
  rw [show after = _ from hafter]
  decide

/-- A note in the frame behind the last time there is goes to the start of the data. -/
example :
    let c := Channel.new 8 .direct
    let note : Message := .short 1 0x90 60 100
    ((c.runRecord [note] .main 0 2 4294967295).1.recorded .main).events = [note.withTime 0] := by decide

end Channel

end Overdub.Midi
