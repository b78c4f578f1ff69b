import Overdub.Proofs.Restart
/-!
# What a cycle sends is in order

The commands of a cycle are staged: none sends in front of a frame up to which an
earlier one may have sent (`Staged`). A chunk queues its commands in such stages, and
the next chunk goes on where it ends (`Channel.ordersIn_staged`). Each command sends
in time order within its stage (`Player.run_timed`), so what the cycle sends is in
time order, too.
-/

namespace Overdub.Midi

/-- The messages are in order, from one frame up to another one. -/
structure Timed (first last : Nat) (messages : List Message) : Prop where
  le : first ≤ last
  inOrder : InOrder messages
  inside : ∀ m ∈ messages, first ≤ m.time.toNat ∧ m.time.toNat ≤ last

namespace Timed
variable {first middle last : Nat} {messages more : List Message}

theorem nil (h : first ≤ last) : Timed first last [] := ⟨h, .nil, List.forall_mem_nil _⟩

theorem append (h : Timed first middle messages) (hmore : Timed middle last more) :
    Timed first last (messages ++ more) where
  le := h.le.trans hmore.le
  inOrder := List.pairwise_append.mpr ⟨h.inOrder, hmore.inOrder, fun m hm x hx =>
    UInt32.le_iff_toNat_le.mpr ((h.inside m hm).2.trans (hmore.inside x hx).1)⟩
  inside := List.forall_mem_append.mpr ⟨fun m hm => ⟨(h.inside m hm).1, (h.inside m hm).2.trans hmore.le⟩,
    fun m hm => ⟨h.le.trans (hmore.inside m hm).1, (hmore.inside m hm).2⟩⟩

theorem mono (h : Timed first last messages) {first' last' : Nat} (hfirst : first' ≤ first) (hlast : last ≤ last') :
    Timed first' last' messages where
  le := hfirst.trans (h.le.trans hlast)
  inOrder := h.inOrder
  inside := fun m hm => ⟨hfirst.trans (h.inside m hm).1, (h.inside m hm).2.trans hlast⟩

theorem sublist (h : Timed first last messages) {fewer : List Message} (hfewer : fewer.Sublist messages) :
    Timed first last fewer where
  le := h.le
  inOrder := List.Pairwise.sublist hfewer h.inOrder
  inside := fun m hm => h.inside m (hfewer.subset hm)

/-- Messages at one time. -/
theorem of_time {frame : Nat} (hmax : frame ≤ maxFrames) (h : ∀ m ∈ messages, m.time = .ofNat frame) :
    Timed frame frame messages := by
  have hmaxFrames : maxFrames = 2 ^ 32 - 1 := rfl
  refine ⟨Nat.le_refl _, List.pairwise_of_forall_mem_list fun m hm x hx => ?_, fun m hm => ?_⟩
  · rw [h m hm, h x hx]
    exact UInt32.le_refl _
  · rw [h m hm, UInt32.toNat_ofNat', Nat.mod_eq_of_lt (by omega)]
    omega

end Timed

/-! ## Stages -/

/-- The command sends from one frame on and up to another one. -/
def Command.Spans (first last : Nat) : Command → Prop
  | .allSoundOff frame => first ≤ frame ∧ frame ≤ last
  | .playback frame n _ _ => first ≤ frame ∧ frame + n ≤ last
  | .record .. | .promotePreRecord | .discardPreRecord => first ≤ last

theorem Command.Spans.le {command : Command} {first last : Nat} (h : command.Spans first last) : first ≤ last := by
  cases command with
  | allSoundOff => exact h.1.trans h.2
  | playback => exact h.1.trans ((Nat.le_add_right _ _).trans h.2)
  | record | promotePreRecord | discardPreRecord => exact h

/-- Commands that send one behind the other, from one frame on and up to another one. -/
inductive Staged : Nat → Nat → List Command → Prop
  | nil {first last : Nat} (h : first ≤ last) : Staged first last []
  | cons {first middle last : Nat} {command : Command} {rest : List Command} (h : command.Spans first middle)
      (hrest : Staged middle last rest) : Staged first last (command :: rest)

namespace Staged
variable {first middle last : Nat} {commands more : List Command}

theorem singleton {command : Command} (h : command.Spans first last) : Staged first last [command] :=
  .cons h (.nil (Nat.le_refl _))

theorem mono (h : Staged middle last commands) (hfirst : first ≤ middle) : Staged first last commands := by
  cases h with
  | nil hle => exact .nil (hfirst.trans hle)
  | @cons _ _ _ command _ hspans hrest =>
    refine .cons ?_ hrest
    cases command with
    | allSoundOff | playback => exact ⟨hfirst.trans hspans.1, hspans.2⟩
    | record | promotePreRecord | discardPreRecord => exact hfirst.trans hspans

theorem le (h : Staged first last commands) : first ≤ last := by
  induction h with
  | nil hle => exact hle
  | cons hspans _ ih => exact hspans.le.trans ih

theorem append (h : Staged first middle commands) (hmore : Staged middle last more) :
    Staged first last (commands ++ more) := by
  induction h with
  | nil hle => exact hmore.mono hle
  | cons hspans _ ih => exact .cons hspans (ih hmore)

/-- A command that there may be. -/
theorem ite {command : Command} {b : Bool} (hle : first ≤ last) (h : command.Spans first last) :
    Staged first last (if b = true then [command] else []) := by
  split_ifs
  · exact singleton h
  · exact nil hle

end Staged

/-! ## Players -/

namespace Player
variable {s : Score}

theorem sendUpTo_inOrder (h : InOrder s.storage.events) {p : Player} {frame start stop : Nat} (hstop : stop ≤ maxFrames)
    (hbehind : ∀ e ∈ s.storage.events.drop p.cursor.index, start ≤ e.time.toNat)
    (hmax : frame + (stop - start) ≤ maxFrames) :
    InOrder (p.sendUpTo s (.ofNat frame - .ofNat start) (.ofNat stop)).2 := by
  have hplayed : ∀ e ∈ (s.storage.events.drop p.cursor.index).takeWhile (Message.isBefore stop),
      (UInt32.ofNat frame - UInt32.ofNat start + e.time).toNat = frame + (e.time.toNat - start) := by
    intro e he
    have hlt : e.time.toNat < stop := (Message.isBefore_iff hstop).mp (List.mem_takeWhile_imp he)
    exact Message.shift_toNat (hbehind e ((List.takeWhile_sublist _).subset he)) (by omega)
  have horder : InOrder ((s.storage.events.drop p.cursor.index).takeWhile (Message.isBefore stop)) :=
    h.sublist ((List.takeWhile_sublist _).trans (List.drop_sublist _ _))
  refine List.pairwise_map.mpr (List.Pairwise.imp_of_mem (fun {x y} hx hy hle => ?_) horder)
  rw [UInt32.le_iff_toNat_le] at hle ⊢
  rw [Message.time_withTime, Message.time_withTime, hplayed x hx, hplayed y hy]
  omega

/-- What is played is sent in order, the state to be restored first. -/
theorem play_timed (h : InOrder s.storage.events) {frame n : Nat} (hmax : frame + n ≤ maxFrames) (position : Int)
    (restart : Bool) (p : Player) : Timed frame (frame + n) (p.play s frame n position restart).2 := by
  rcases play_cases h hmax position restart p with hnothing | ⟨cued, skip, start, stop, hskip, hend, hstop, hbehind, hsent⟩
  · rw [hnothing]
    exact .nil (Nat.le_add_right _ _)
  · have hmaxSent : frame + skip + (stop - start) ≤ maxFrames := by omega
    have hrestored : Timed (frame + skip) (frame + skip) (cued.catchUp (.ofNat (frame + skip))).2 :=
      .of_time (by omega) (catchUp_time _ cued)
    have hplayed : Timed (frame + skip) (frame + skip + (stop - start)) _ :=
      ⟨Nat.le_add_right _ _, sendUpTo_inOrder h hstop hbehind hmaxSent, fun m hm =>
        (sendUpTo_time hstop hbehind hmaxSent m hm).imp_right Nat.le_of_lt⟩
    rw [hsent]
    exact (hrestored.append hplayed).mono (Nat.le_add_right _ _) (by omega)

/-- A command sends in order, within the frames it spans. -/
theorem run_timed (h : InOrder s.storage.events) {command : Command} {first last : Nat}
    (hspans : command.Spans first last) (hmax : last ≤ maxFrames) (p : Player) :
    Timed first last (p.run s command).2 := by
  cases command with
  | allSoundOff frame =>
    have hframe : first ≤ frame ∧ frame ≤ last := hspans
    have hsent : Timed frame frame [Message.short (.ofNat frame) 0xB0 Event.allSoundOff 0] :=
      .of_time (by omega) (List.forall_mem_singleton.mpr rfl)
    exact hsent.mono hframe.1 hframe.2
  | playback frame n position restart =>
    have hframes : first ≤ frame ∧ frame + n ≤ last := hspans
    exact (play_timed h (by omega) position restart p).mono hframes.1 hframes.2
  | record | promotePreRecord | discardPreRecord => exact .nil hspans

end Player

/-- Staged commands send in order. -/
theorem Deck.runAll_timed {d : Deck} (h : d.intake.Sorted) (length : Nat) (live : Bool) {commands : List Command}
    {first last : Nat} (hstaged : Staged first last commands) (hmax : last ≤ maxFrames) :
    Timed first last (d.runAll length live commands).2 := by
  induction hstaged generalizing d with
  | nil hle => exact .nil hle
  | @cons first middle last command rest hspans hrest ih =>
    have hmore := ih (d := (d.run length live command).1) (Intake.run_sorted h command) hmax
    refine Timed.append ?_ hmore
    cases live with
    | false => exact .nil hspans.le
    | true =>
      show Timed _ _ (d.player.carry _ true [command]).2
      rw [Player.carry_singleton]
      exact Player.run_timed h.main hspans (hmore.le.trans hmax) d.player

/-! ## Chunks -/

namespace Channel

/-- A chunk sends from where the channel is on, up to where the chunk ends. -/
theorem orders_staged (c : Channel) (context : ChunkContext) :
    Staged c.track.framesDone (c.track.framesDone + context.frames) (c.orders context) := by
  have haside : Staged c.track.framesDone c.track.framesDone (asideOrders (c.track.activityIn context) c.track) := by
    unfold asideOrders
    split_ifs
    exacts [.singleton (Nat.le_refl _), .singleton (Nat.le_refl _), .nil (Nat.le_refl _)]
  have hsilence : Staged c.track.framesDone c.track.framesDone (c.silence context) :=
    .ite (Nat.le_refl _) ⟨Nat.le_refl c.track.framesDone, Nat.le_refl c.track.framesDone⟩
  rw [orders_eq]
  unfold further
  refine hsilence.append (haside.append (.append (.ite (Nat.le_add_right _ _) ?_)
    (.append (.ite (Nat.le_refl _) (Nat.le_refl _)) (.ite (Nat.le_refl _) (Nat.le_refl _)))))
  unfold playOrder Command.Spans
  rw [Track.endAside_framesDone]
  omega

theorem process_framesDone (c : Channel) (context : ChunkContext) :
    (c.process context).1.track.framesDone =
      if c.track.overruns context.frames then c.track.framesDone else c.track.framesDone + context.frames := by
  cases hover : c.track.overruns context.frames with
  | true =>
    unfold process
    rw [if_pos hover]
    rfl
  | false => exact (c.process_progress context hover).2

/-- The chunks of a cycle send one behind the other. -/
theorem ordersIn_staged (contexts : List ChunkContext) (c : Channel) :
    Staged c.track.framesDone (c.advance contexts).track.framesDone (c.ordersIn contexts) := by
  induction contexts generalizing c with
  | nil => exact .nil (Nat.le_refl _)
  | cons context rest ih =>
    refine Staged.append ?_ (ih (c.process context).1)
    rw [process_framesDone]
    split_ifs
    · exact .nil (Nat.le_refl _)
    · exact c.orders_staged context

/-- Chunks that are not empty send within their frames. -/
theorem ordersIn_within {contexts : List ChunkContext} (hpos : ∀ context ∈ contexts, 0 < context.frames) (c : Channel) :
    ∀ command ∈ c.ordersIn contexts, command.Within c.track.framesDone (c.advance contexts).track.framesDone := by
  induction contexts generalizing c with
  | nil => exact List.forall_mem_nil _
  | cons context rest ih =>
    rw [List.forall_mem_cons] at hpos
    have hlast : (c.process context).1.track.framesDone ≤ (c.advance (context :: rest)).track.framesDone :=
      (ordersIn_staged rest (c.process context).1).le
    have hrest := ih hpos.2 (c.process context).1
    rw [process_framesDone] at hlast hrest
    unfold ordersIn
    split_ifs at hlast hrest ⊢
    · exact hrest
    · refine List.forall_mem_append.mpr ⟨fun command hmem => ?_, fun command hmem => ?_⟩
      · exact (c.orders_within hpos.1 command hmem).mono (Nat.le_refl _) hlast
      · exact (hrest command hmem).mono (Nat.le_add_right _ _) (Nat.le_refl _)

end Channel

end Overdub.Midi
