import Overdub.Proofs.Delivery
import Overdub.Proofs.Punctual
import Overdub.Proofs.Reading
/-!
# How a cycle ends

A command can fail in two ways: it finds no buffer, or it cannot store what arrives
(`StorageFails`). A chunk asks which buffers the cycle has before it plays, records or
keeps something aside (`Channel.further_served`), but not before it silences what was
played before. So a cycle without an output reports a missing buffer exactly if the
last chunk in front of it has played (`Channel.finalize_verdict`).
-/

namespace Overdub.Midi

/-! ## Storing -/

/-- Messages could not be stored: there was no room for one of them, or one came out in front of
another one. -/
inductive StorageFails (disorder : Prop) : Except Overdub.Error Unit → Prop
  | full (capacity : Nat) : StorageFails disorder (.error (.midi (.storageFull capacity)))
  | outOfOrder (h : disorder) (time last : UInt32) : StorageFails disorder (.error (.midi (.outOfOrder time last)))

theorem StorageFails.mono {p q : Prop} {result : Except Overdub.Error Unit} (h : StorageFails p result) (himp : p → q) :
    StorageFails q result := by
  cases h with
  | full capacity => exact .full capacity
  | outOfOrder h time last => exact .outOfOrder (himp h) time last

theorem StorageFails.bind {p : Prop} {result : Except Overdub.Error Unit} (h : StorageFails p result)
    (next : Unit → Except Overdub.Error Unit) : StorageFails p (result.bind next) := by
  cases h with
  | full capacity => exact .full capacity
  | outOfOrder h time last => exact .outOfOrder h time last

/-- What is cut out of the messages of a cycle is in order behind what a storage holds in front of it, as
long as it ends within the data positions that there are. -/
theorem inOrder_recorded {s : Storage} (h : InOrder s.events) {messages : List Message} (hmessages : InOrder messages)
    {frame n position : Nat} (hmax : frame + n ≤ maxFrames) (hfits : position + n ≤ 2 ^ 32) :
    InOrder ((s.truncateFrom (Score.timeOf position)).events ++ placedAt (Score.timeOf position - .ofNat frame)
      ((messages.dropWhile (Message.isBefore frame)).takeWhile (Message.isBefore (frame + n)))) := by
  have hmaxFrames : maxFrames = 2 ^ 32 - 1 := rfl
  rw [cut_eq hmessages hmax]
  have hcut : ∀ m ∈ messages.filter fun m => frame ≤ m.time.toNat ∧ m.time.toNat < frame + n,
      position ≤ maxFrames ∧ frame ≤ m.time.toNat ∧
        (Score.timeOf position - .ofNat frame + m.time).toNat = position + (m.time.toNat - frame) := by
    intro m hm
    obtain ⟨hlow, hhigh⟩ := of_decide_eq_true (List.mem_filter.mp hm).2
    have hposition : position ≤ maxFrames := by omega
    refine ⟨hposition, hlow, ?_⟩
    rw [Score.timeOf, show clampFrames position = position from Nat.min_eq_left hposition]
    exact Message.shift_toNat hlow (by omega)
  refine List.pairwise_append.mpr ⟨Recorder.inOrder_truncateFrom h _, ?_, fun e he x hx => ?_⟩
  · refine List.pairwise_map.mpr (List.Pairwise.imp_of_mem (fun {x y} hx hy hle => ?_) (hmessages.filter _))
    obtain ⟨-, -, hx⟩ := hcut x hx
    obtain ⟨-, -, hy⟩ := hcut y hy
    rw [UInt32.le_iff_toNat_le] at hle ⊢
    rw [Message.time_withTime, Message.time_withTime, hx, hy]
    omega
  · obtain ⟨m, hm, rfl⟩ := List.mem_map.mp hx
    obtain ⟨hposition, -, hm⟩ := hcut m hm
    have hlt := Storage.endsBy_truncateFrom s hposition e he
    rw [UInt32.le_iff_toNat_le, Message.time_withTime, hm]
    omega

namespace Channel

/-- The storage that a command writes. -/
def recorded (target : RecordTarget) (c : Channel) : Storage :=
  match target with
  | .main => c.storage
  | .preRecord => c.preRecord

/-- The last message that fails to be stored is the one reported. -/
theorem storeEvents_cons (c : Channel) (target : RecordTarget) (shift : UInt32) (m : Message) (rest : List Message) :
    (∃ e, (c.recorded target).append (m.withTime (shift + m.time)) = .error e ∧
      (c.storeEvents target shift (m :: rest)).2 =
        ((c.hear [m]).storeEvents target shift rest).2.bind fun _ => .error (.midi e)) ∨
    ∃ c' : Channel, (c.recorded target).append (m.withTime (shift + m.time)) = .ok (c'.recorded target) ∧
      (c.storeEvents target shift (m :: rest)).2 = (c'.storeEvents target shift rest).2 := by
  cases target with
  | main =>
    rw [storeEvents]
    dsimp only [recorded]
    rw [show (c.hear [m]).storage = c.storage from rfl]
    cases c.storage.append (m.withTime (shift + m.time)) with
    | error e => exact .inl ⟨e, rfl, rfl⟩
    | ok storage => exact .inr ⟨{ c.hear [m] with storage }, rfl, rfl⟩
  | preRecord =>
    rw [storeEvents]
    dsimp only [recorded]
    rw [show (c.hear [m]).preRecord = c.preRecord from rfl]
    cases c.preRecord.append (m.withTime (shift + m.time)) with
    | error e => exact .inl ⟨e, rfl, rfl⟩
    | ok preRecord => exact .inr ⟨{ c.hear [m] with preRecord }, rfl, rfl⟩

/-- Storing fails for want of room, or because of messages that are not in order. -/
theorem storeEvents_result (c : Channel) (target : RecordTarget) (shift : UInt32) (messages : List Message) :
    (c.storeEvents target shift messages).2 = .ok () ∨
      StorageFails (¬InOrder ((c.recorded target).events ++ placedAt shift messages))
        (c.storeEvents target shift messages).2 := by
  induction messages generalizing c with
  | nil => exact .inl rfl
  | cons m rest ih =>
    have hplaced : placedAt shift (m :: rest) = m.withTime (shift + m.time) :: placedAt shift rest := rfl
    rw [hplaced]
    rcases c.storeEvents_cons target shift m rest with ⟨e, happend, hresult⟩ | ⟨c', happend, hresult⟩
    · rw [hresult]
      refine .inr ?_
      rcases ih (c.hear [m]) with hok | hfails
      · rw [hok]
        rcases Storage.append_error happend with ⟨-, rfl⟩ | ⟨-, last, hlast, holder, rfl⟩
        · exact .full _
        · refine .outOfOrder (fun horder => ?_) _ _
          obtain ⟨x, hx, rfl⟩ := Option.map_eq_some_iff.mp hlast
          exact UInt32.not_le.mpr holder
            ((List.pairwise_append.mp horder).2.2 x (List.mem_of_getLast? hx) _ List.mem_cons_self)
      · exact (hfails.mono fun hdisorder horder => hdisorder
          (horder.sublist (List.Sublist.append_left (List.sublist_cons_self _ _) _))).bind _
    · obtain ⟨hstored, -⟩ := Storage.append_ok happend
      rw [hresult]
      have hrest := ih c'
      rwa [hstored, List.append_assoc, List.singleton_append] at hrest

/-- Recording fails for want of room, or because it runs past the last data position that there is. -/
theorem runRecord_result {c : Channel} {target : RecordTarget} (h : InOrder (c.recorded target).events)
    {input : List Message} (hinput : InOrder input) {frame n : Nat} (hmax : frame + n ≤ maxFrames) (position : Nat) :
    let result := (c.runRecord input target frame n position).2.2
    result = .ok () ∨ StorageFails (2 ^ 32 < position + n) result := by
  intro result
  obtain ⟨c', hstored, hresult⟩ : ∃ c' : Channel,
      c'.recorded target = (c.recorded target).truncateFrom (Score.timeOf position) ∧
        result = (c'.storeEvents target (Score.timeOf position - .ofNat frame)
          ((input.dropWhile (Message.isBefore frame)).takeWhile (Message.isBefore (frame + n)))).2 := by
    cases target <;> exact ⟨_, rfl, rfl⟩
  have hcases := c'.storeEvents_result target (Score.timeOf position - .ofNat frame)
    ((input.dropWhile (Message.isBefore frame)).takeWhile (Message.isBefore (frame + n)))
  rw [← hresult, hstored] at hcases
  exact hcases.imp_right fun hfails => hfails.mono fun hdisorder =>
    Nat.lt_of_not_le fun hfits => hdisorder (inOrder_recorded h hinput hmax hfits)

end Channel

/-! ## Commands -/

namespace Command

/-- The command finds its buffers in a cycle of so many frames. -/
def Served (hasInput hasOutput : Bool) (frames : Nat) : Command → Prop
  | .allSoundOff _ | .playback .. => hasOutput = true
  | .record _ frame n _ => hasInput = true ∧ frame + n ≤ frames
  | .promotePreRecord | .discardPreRecord => True

/-- The command records past the last data position that there is. -/
def Overflows : Command → Prop
  | .record _ _ n position => 2 ^ 32 < position + n
  | .allSoundOff _ | .playback .. | .promotePreRecord | .discardPreRecord => False

end Command

/-- A command leaves the messages that have not arrived in order. -/
theorem Intake.run_coming (i : Intake) (command : Command) :
    (i.run command).coming.isSome = i.coming.isSome ∧
      ((∀ messages ∈ i.coming, InOrder messages) → ∀ messages ∈ (i.run command).coming, InOrder messages) := by
  cases command with
  | allSoundOff | playback | promotePreRecord | discardPreRecord => exact ⟨rfl, id⟩
  | record target frame n position =>
    unfold run
    dsimp only
    split
    · exact ⟨rfl, id⟩
    · next messages hcoming =>
      simp only [arrive, hcoming, Option.map_some, Option.isSome_some, Option.mem_def, Option.some.injEq, forall_eq',
        true_and]
      exact fun h => h.sublist ((List.dropWhile_sublist _).trans (List.dropWhile_sublist _))

namespace Channel.Finish

/-- The end of a cycle that has its buffers, with the data and the input in order. -/
structure Ready (hasInput hasOutput : Bool) (s : Finish) : Prop where
  input : s.input.isSome = hasInput
  output : s.output.isSome = hasOutput
  sorted : s.channel.recorder.Sorted
  inOrder : ∀ messages ∈ s.input, InOrder messages

variable {hasInput hasOutput : Bool} {s : Finish}

theorem Ready.run (h : s.Ready hasInput hasOutput) (command : Command) : (s.run command).Ready hasInput hasOutput := by
  obtain ⟨hchannel, hinput, houtput⟩ := s.run_deck command
  obtain ⟨hsome, horder⟩ := Intake.run_coming s.deck.intake command
  have hsorted := Intake.run_sorted (i := s.deck.intake) h.sorted command
  refine ⟨?_, ?_, ?_, ?_⟩
  · rw [hinput]
    exact hsome.trans h.input
  · rw [houtput, Option.isSome_map, h.output]
  · rw [hchannel]
    exact hsorted
  · rw [hinput]
    exact horder h.inOrder

/-- A command that finds its buffers fails only if it cannot store what arrives. -/
theorem Ready.run_result (h : s.Ready hasInput hasOutput) {command : Command} {frames : Nat}
    (hserved : command.Served hasInput hasOutput frames) (hmax : frames ≤ maxFrames) :
    (s.run command).result = s.result ∨ hasInput = true ∧ StorageFails command.Overflows (s.run command).result := by
  cases command with
  | allSoundOff | playback =>
    obtain ⟨out, hout⟩ := Option.isSome_iff_exists.mp (h.output.trans hserved)
    unfold Finish.run
    rw [hout]
    exact .inl rfl
  | promotePreRecord | discardPreRecord => exact .inl rfl
  | record target frame n position =>
    obtain ⟨hinput, hframes⟩ : hasInput = true ∧ frame + n ≤ frames := hserved
    obtain ⟨messages, hmessages⟩ := Option.isSome_iff_exists.mp (h.input.trans hinput)
    have hsorted : InOrder (s.channel.recorded target).events := by
      cases target
      exacts [h.sorted.main, h.sorted.aside]
    have hresult := runRecord_result hsorted (h.inOrder messages hmessages) (hframes.trans hmax) position
    unfold Finish.run
    rw [hmessages]
    dsimp only
    generalize (s.channel.runRecord messages target frame n position).2.2 = result at hresult
    cases result with
    | ok => exact .inl rfl
    | error e => exact .inr ⟨hinput, hresult.resolve_left nofun⟩

/-- Commands that find their buffers fail only if one of them cannot store what arrives. -/
theorem Ready.foldl_result (h : s.Ready hasInput hasOutput) {commands : List Command} {frames : Nat}
    (hserved : ∀ command ∈ commands, command.Served hasInput hasOutput frames) (hmax : frames ≤ maxFrames) :
    (commands.foldl Finish.run s).result = s.result ∨
      hasInput = true ∧ StorageFails (∃ command ∈ commands, command.Overflows) (commands.foldl Finish.run s).result := by
  induction commands generalizing s with
  | nil => exact .inl rfl
  | cons command rest ih =>
    rw [List.forall_mem_cons] at hserved
    simp only [List.exists_mem_cons_iff]
    rcases ih (h.run command) hserved.2 with hsame | ⟨hinput, hfails⟩
    · rw [List.foldl_cons, hsame]
      exact (h.run_result hserved.1 hmax).imp_right (And.imp_right fun hfails => hfails.mono .inl)
    · exact .inr ⟨hinput, hfails.mono .inr⟩

end Channel.Finish

/-! ## Chunks -/

namespace Channel

/-- But for silencing what was played before, a chunk uses only buffers of its cycle. -/
theorem further_served {c : Channel} {context : ChunkContext} (h : c.track.overruns context.frames = false) :
    ∀ command ∈ c.further context, command.Served c.track.hasInput c.track.hasOutput c.track.cycleFrames := by
  have hfits : c.track.framesDone + context.frames ≤ c.track.cycleFrames := by simpa [Track.overruns] using h
  have hsome : ∀ (b : Bool) (command : Command),
      (b = true → command.Served c.track.hasInput c.track.hasOutput c.track.cycleFrames) →
        ∀ order ∈ (if b = true then [command] else []),
          order.Served c.track.hasInput c.track.hasOutput c.track.cycleFrames := by
    intro b command h
    cases b with
    | false => exact List.forall_mem_nil _
    | true => exact List.forall_mem_singleton.mpr (h rfl)
  obtain ⟨hplay, hrecord, -, hkeep⟩ := c.track.activityIn_ports context
  unfold further
  simp only [List.forall_mem_append, Track.endAside_framesDone]
  refine ⟨fun command hmem => ?_, hsome _ _ hplay, hsome _ _ fun h => ⟨hrecord h, hfits⟩, hsome _ _ fun h => ⟨hkeep h, hfits⟩⟩
  rcases mem_asideOrders hmem with ⟨-, rfl⟩ | ⟨-, rfl⟩ <;> trivial

theorem process_cycle (c : Channel) (context : ChunkContext) :
    (c.process context).1.track.cycleFrames = c.track.cycleFrames ∧
      (c.process context).1.track.hasInput = c.track.hasInput ∧
        (c.process context).1.track.hasOutput = c.track.hasOutput := by
  cases hover : c.track.overruns context.frames with
  | true =>
    unfold process
    rw [if_pos hover]
    exact ⟨rfl, rfl, rfl⟩
  | false =>
    rw [process_orders c context hover]
    exact (c.track.pass_cycle context).2.2

theorem advance_framesDone_le {c : Channel} (h : c.track.framesDone ≤ c.track.cycleFrames) (contexts : List ChunkContext) :
    (c.advance contexts).track.framesDone ≤ c.track.cycleFrames := by
  induction contexts generalizing c with
  | nil => exact h
  | cons context rest ih =>
    obtain ⟨hcycle, -⟩ := c.process_cycle context
    rw [← hcycle] at h ⊢
    refine ih ?_
    rw [process_framesDone, hcycle]
    split_ifs with hover
    · rwa [hcycle] at h
    · simpa [Track.overruns] using hover

/-- A chunk that fits plays only if there is an output. -/
theorem process_playback {c : Channel} {context : ChunkContext} (h : c.track.overruns context.frames = false)
    (houtput : c.track.hasOutput = false) : (c.process context).1.track.lastActivity.playback = false := by
  rw [process_orders c context h]
  refine Bool.eq_false_iff.mpr fun hplayback => ?_
  rw [(c.track.activityIn_ports context).1 hplayback] at houtput
  cases houtput

/-- With an output, or with nothing to silence, chunks use only buffers of their cycle. -/
theorem ordersIn_served {contexts : List ChunkContext} {c : Channel}
    (h : c.track.hasOutput = true ∨ c.track.lastActivity.playback = false) :
    ∀ command ∈ c.ordersIn contexts, command.Served c.track.hasInput c.track.hasOutput c.track.cycleFrames := by
  induction contexts generalizing c with
  | nil => exact List.forall_mem_nil _
  | cons context rest ih =>
    obtain ⟨hcycle, hinput, houtput⟩ := c.process_cycle context
    have hrest : (c.process context).1.track.hasOutput = true ∨
        (c.process context).1.track.lastActivity.playback = false := by
      rw [houtput]
      cases hover : c.track.overruns context.frames with
      | true =>
        unfold process
        rwa [if_pos hover]
      | false => exact (Bool.eq_false_or_eq_true _).imp_right (process_playback hover)
    have hlater := ih hrest
    rw [hcycle, hinput, houtput] at hlater
    unfold ordersIn
    refine List.forall_mem_append.mpr ⟨?_, hlater⟩
    split_ifs with hover
    · exact List.forall_mem_nil _
    · rw [orders_eq, List.forall_mem_append]
      refine ⟨?_, further_served (Bool.eq_false_iff.mpr hover)⟩
      unfold silence
      split_ifs with hinterrupts
      · refine List.forall_mem_singleton.mpr (h.resolve_right fun hlast => ?_)
        simp [interrupts, hlast] at hinterrupts
      · exact List.forall_mem_nil _

/-- If the last chunk has played but there is no output to silence, the next chunk that fits tries to silence it
all the same, and only that. -/
theorem ordersIn_stranded {context : ChunkContext} {rest : List ChunkContext} {c : Channel}
    (hfits : c.track.overruns context.frames = false) (houtput : c.track.hasOutput = false)
    (hlast : c.track.lastActivity.playback = true) :
    ∃ commands, c.ordersIn (context :: rest) = .allSoundOff c.track.framesDone :: commands ∧
      ∀ command ∈ commands, command.Served c.track.hasInput c.track.hasOutput c.track.cycleFrames := by
  obtain ⟨hcycle, hinput, hsame⟩ := c.process_cycle context
  have hlater := @ordersIn_served rest (c.process context).1 (.inr (process_playback hfits houtput))
  rw [hcycle, hinput, hsame] at hlater
  have hidle : (c.track.activityIn context).playback = false := by
    refine Bool.eq_false_iff.mpr fun hplayback => ?_
    rw [(c.track.activityIn_ports context).1 hplayback] at houtput
    cases houtput
  have hsilence : c.silence context = [.allSoundOff c.track.framesDone] := by
    simp [silence, interrupts, hlast, hidle]
  refine ⟨c.further context ++ ordersIn rest (c.process context).1, ?_, ?_⟩
  · rw [ordersIn, hfits, if_neg Bool.false_ne_true, orders_eq, hsilence, List.append_assoc]
    rfl
  · exact List.forall_mem_append.mpr ⟨further_served hfits, hlater⟩

namespace PlayCycle
variable {k : PlayCycle} {c : Channel}

theorem decided_commands (k : PlayCycle) (c : Channel) : (k.decided c).commands = (k.started c).ordersIn k.contexts :=
  advance_commands k.contexts (k.started c)

theorem reachable_decided (h : c.Reachable) : (k.decided c).Reachable := by
  have hdecided : k.decided c = c.after (.prepare k.frames k.input.isSome k.output.isSome :: k.contexts.map .process) := by
    unfold Channel.after decided Channel.advance
    rw [List.foldl_cons, List.foldl_map]
    rfl
  rw [hdecided]
  exact h.after _

theorem decided_sorted (h : c.Reachable) : (k.decided c).recorder.Sorted := by
  have hsorted := ((reachable_decided (k := k) h).atRest.leads none).sorted
  exact ⟨hsorted.main, hsorted.aside⟩

/-- What a cycle appends to its output is in order, within the frames of the cycle. -/
theorem emitted_timed (h : c.Reachable) (hframes : k.frames ≤ maxFrames) : Timed 0 k.frames (k.emitted c) := by
  have hstaged := ordersIn_staged k.contexts (k.started c)
  rw [← decided_commands] at hstaged
  have hdone := advance_framesDone_le (c := k.started c) (Nat.zero_le _) k.contexts
  have hsent := Deck.runAll_timed (d := (k.decided c).deck k.input) (decided_sorted h) (k.decided c).track.dataLength
    k.output.isSome (hstaged.mono (Nat.zero_le _)) (hdone.trans hframes)
  rw [show k.emitted c = (Action.finalize k.input k.output).delivered (k.decided c) from rfl, Action.delivered_eq]
  exact (hsent.mono (Nat.zero_le _) hdone).sublist (List.take_sublist _ _)

/-- If no chunk is empty, it is in front of the end of the cycle. -/
theorem emitted_lt (h : c.Reachable) (hframes : k.frames ≤ maxFrames)
    (hpos : ∀ context ∈ k.contexts, 0 < context.frames) : ∀ m ∈ k.emitted c, m.time.toNat < k.frames := by
  have hwithin := ordersIn_within hpos (k.started c)
  rw [← decided_commands] at hwithin
  have hdone := advance_framesDone_le (c := k.started c) (Nat.zero_le _) k.contexts
  intro m hm
  rw [show k.emitted c = (Action.finalize k.input k.output).delivered (k.decided c) from rfl, Action.delivered_eq] at hm
  have hsent := Deck.runAll_time (d := (k.decided c).deck k.input) (decided_sorted h) (k.decided c).track.dataLength
    k.output.isSome hwithin (hdone.trans hframes) m (List.mem_of_mem_take hm)
  exact hsent.2.trans_le hdone

/-- The cycle has chunks but no output, and the last chunk in front of it has played. -/
def strands (k : PlayCycle) (c : Channel) : Bool :=
  c.track.lastActivity.playback && k.output.isNone && !k.contexts.isEmpty

/-- A cycle that leaves a listener behind tries to silence it. -/
theorem commands_of_strands (hstrands : k.strands c = true) (hfits : (k.contexts.map (·.frames)).sum ≤ k.frames) :
    k.output = none ∧ ∃ commands, (k.decided c).commands = .allSoundOff 0 :: commands ∧
      ∀ command ∈ commands, command.Served k.input.isSome k.output.isSome k.frames := by
  obtain ⟨⟨hlast, hnone⟩, hsome⟩ : (c.track.lastActivity.playback = true ∧ k.output.isNone = true) ∧
      (!k.contexts.isEmpty) = true := by simpa only [strands, Bool.and_eq_true] using hstrands
  have houtput : k.output = none := Option.isNone_iff_eq_none.mp hnone
  obtain ⟨context, rest, hcontexts⟩ : ∃ context rest, k.contexts = context :: rest :=
    List.exists_cons_of_ne_nil (by simpa using hsome)
  rw [hcontexts, List.map_cons, List.sum_cons] at hfits
  have hover : (k.started c).track.overruns context.frames = false := by
    show decide (k.frames < 0 + context.frames) = false
    rw [decide_eq_false_iff_not]
    omega
  refine ⟨houtput, ?_⟩
  rw [decided_commands, hcontexts]
  exact ordersIn_stranded hover (congrArg Option.isSome houtput) hlast

/-- Every other cycle has the buffers that it uses. -/
theorem served_of_not_strands (hstrands : k.strands c = false) :
    ∀ command ∈ (k.decided c).commands, command.Served k.input.isSome k.output.isSome k.frames := by
  rw [decided_commands]
  rcases hcontexts : k.contexts with _ | ⟨context, rest⟩
  · exact List.forall_mem_nil _
  · refine ordersIn_served (c := k.started c) ?_
    show k.output.isSome = true ∨ c.track.lastActivity.playback = false
    unfold strands at hstrands
    rw [hcontexts] at hstrands
    cases houtput : k.output with
    | none => exact .inr (by simpa [houtput] using hstrands)
    | some => exact .inl rfl

end PlayCycle

/-- Whatever has happened to a channel, what the next cycle appends to its output is in
order and within its frames, in front of their end if no chunk is empty. The cycle
reports a missing buffer exactly if it has chunks but no output and the last chunk in
front of it has played, which the first chunk then tries to silence. Apart from that
it fails only if it has an input that it cannot store: for want of room, or because
it records past the last data position that there is. -/
theorem finalize_verdict {c : Channel} (h : c.Reachable) {k : PlayCycle} (hframes : k.frames ≤ maxFrames)
    (hfits : (k.contexts.map (·.frames)).sum ≤ k.frames) (hinput : ∀ messages ∈ k.input, InOrder messages) :
    let result := ((k.decided c).finalize k.input k.output).2.2
    Timed 0 k.frames (k.emitted c) ∧
      ((∀ context ∈ k.contexts, 0 < context.frames) → ∀ m ∈ k.emitted c, m.time.toNat < k.frames) ∧
      (result = (if k.strands c then .error (.missingBuffer "MIDI channel playback target") else .ok ()) ∨
        k.input.isSome = true ∧ StorageFails (∃ command ∈ (k.decided c).commands, command.Overflows) result) := by
  intro result
  refine ⟨PlayCycle.emitted_timed h hframes, PlayCycle.emitted_lt h hframes, ?_⟩
  have hready : Finish.Ready k.input.isSome k.output.isSome ⟨k.decided c, k.input, k.output, 0, .ok ()⟩ :=
    ⟨rfl, rfl, PlayCycle.decided_sorted h, hinput⟩
  have hresult : result = ((k.decided c).commands.foldl Finish.run ⟨k.decided c, k.input, k.output, 0, .ok ()⟩).result := rfl
  rw [hresult]
  cases hstrands : k.strands c with
  | true =>
    obtain ⟨houtput, commands, hqueued, hserved⟩ := PlayCycle.commands_of_strands hstrands hfits
    rw [hqueued, List.foldl_cons]
    rcases (hready.run (.allSoundOff 0)).foldl_result hserved hframes with hsame | ⟨hsome, hfails⟩
    · refine .inl (hsame.trans ?_)
      unfold Finish.run
      rw [houtput]
      rfl
    · refine .inr ⟨hsome, hfails.mono fun hoverflows => ?_⟩
      obtain ⟨command, hmem, hoverflow⟩ := hoverflows
      exact ⟨command, List.mem_cons_of_mem _ hmem, hoverflow⟩
  | false => exact hready.foldl_result (PlayCycle.served_of_not_strands hstrands) hframes

/-- The second half of a loop whose output is gone: the note that is held cannot be silenced. -/
theorem finalize_verdict_gone :
    let c := holding 0x90
    let k : PlayCycle := { half .playing 4 8 with output := none }
    c.Reachable ∧ k.frames ≤ maxFrames ∧ (k.contexts.map (·.frames)).sum ≤ k.frames ∧
      ((k.decided c).finalize k.input k.output).2.2 = .error (.missingBuffer "MIDI channel playback target") := by
  intro c k
  have hreachable : c.Reachable := holding_reachable 0x90
  have hframes : k.frames ≤ maxFrames := by decide
  have hfits : (k.contexts.map (·.frames)).sum ≤ k.frames := by decide
  obtain ⟨-, -, hresult⟩ := finalize_verdict hreachable hframes hfits nofun
  refine ⟨hreachable, hframes, hfits, ?_⟩
  rcases hresult with hresult | ⟨hsome, -⟩
  · have hstrands : k.strands c = true := by decide
    rw [hresult, hstrands]
    rfl
  · cases hsome

end Channel

end Overdub.Midi
