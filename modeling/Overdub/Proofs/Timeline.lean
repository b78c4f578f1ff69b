import Overdub.Proofs.StartState
/-!
# When messages arrive

Over several cycles, frames are counted from the first one on. `PlayCycle.arrivals`
are the messages that arrive, each with its frame. `Passage.timeline` says the same
of passages: it makes no difference where cycles and chunks end (`arrivals_eq`), and
what some passages in the middle of a run store is what arrives in their frames
(`filter_timeline`, `placed_timeline`).
-/

namespace Overdub.Midi

/-! ## Arrivals -/

/-- Cutting out what lies between two frames, and in front of them. -/
theorem filter_cut {α : Type} {first last : Nat} {before middle later : List (Nat × α)} (hbefore : ∀ x ∈ before, x.1 < first)
    (hmiddle : ∀ x ∈ middle, first ≤ x.1 ∧ x.1 < last) (hlater : ∀ x ∈ later, last ≤ x.1) (hle : first ≤ last) :
    (before ++ middle ++ later).filter (·.1 < first) = before ∧
      (before ++ middle ++ later).filter (fun x => first ≤ x.1 ∧ x.1 < last) = middle := by
  simp only [List.filter_append]
  constructor
  · rw [List.filter_eq_self.mpr fun x hx => decide_eq_true (hbefore x hx), List.filter_eq_nil_iff.mpr fun x hx => ?_,
      List.filter_eq_nil_iff.mpr fun x hx => ?_, List.append_nil, List.append_nil]
    · have := hlater x hx
      simp only [decide_eq_true_eq]
      omega
    · have := hmiddle x hx
      simp only [decide_eq_true_eq]
      omega
  · rw [List.filter_eq_nil_iff.mpr fun x hx => ?_, List.filter_eq_self.mpr fun x hx => decide_eq_true (hmiddle x hx),
      List.filter_eq_nil_iff.mpr fun x hx => ?_, List.nil_append, List.append_nil]
    · have := hlater x hx
      simp only [decide_eq_true_eq]
      omega
    · have := hbefore x hx
      simp only [decide_eq_true_eq]
      omega

namespace Passage

/-- The messages of passages, each with its frame. -/
def timeline (start : Nat) : List Passage → List (Nat × List UInt8)
  | [] => []
  | p :: rest => p.messages.map (fun m => (start + m.time.toNat, m.bytes)) ++ timeline (start + p.context.frames) rest

variable {start position : Nat} {passages : List Passage}

theorem timeline_append (start : Nat) (passages more : List Passage) :
    timeline start (passages ++ more) = timeline start passages ++ timeline (start + frames passages) more := by
  induction passages generalizing start with
  | nil => rfl
  | cons p rest ih =>
    have hframes : frames (p :: rest) = p.context.frames + frames rest := rfl
    rw [List.cons_append, timeline, timeline, ih, List.append_assoc, hframes, Nat.add_assoc]

theorem bytes_timeline (start : Nat) (passages : List Passage) :
    (timeline start passages).map (·.2) = heard passages := by
  induction passages generalizing start with
  | nil => rfl
  | cons p rest ih =>
    rw [timeline, List.map_append, ih, List.map_map]
    rfl

theorem timeline_add (start later : Nat) (passages : List Passage) :
    timeline (start + later) passages = (timeline start passages).map fun x => (x.1 + later, x.2) := by
  induction passages generalizing start with
  | nil => rfl
  | cons p rest ih =>
    rw [timeline, timeline, List.map_append, List.map_map, ← ih, Nat.add_right_comm start later]
    refine congrArg (· ++ _) (List.map_congr_left fun m _ => Prod.ext ?_ rfl)
    show start + later + m.time.toNat = start + m.time.toNat + later
    omega

theorem mem_timeline (hsound : ∀ p ∈ passages, p.Sound) :
    ∀ x ∈ timeline start passages, start ≤ x.1 ∧ x.1 < start + frames passages := by
  induction passages generalizing start with
  | nil => exact List.forall_mem_nil _
  | cons p rest ih =>
    rw [List.forall_mem_cons] at hsound
    have hframes : frames (p :: rest) = p.context.frames + frames rest := rfl
    rw [timeline, List.forall_mem_append, hframes]
    refine ⟨fun x hx => ?_, fun x hx => ?_⟩
    · obtain ⟨m, hm, rfl⟩ := List.mem_map.mp hx
      have hinside := hsound.1.inside m hm
      dsimp only
      omega
    · have hbounds : start + p.context.frames ≤ x.1 ∧ x.1 < start + p.context.frames + frames rest := ih hsound.2 x hx
      omega

/-- What lies in the middle of a timeline, and in front of it. -/
theorem filter_timeline (start : Nat) {before middle later : List Passage} (hsound : ∀ p ∈ before ++ middle ++ later, p.Sound) :
    let all := timeline start (before ++ middle ++ later)
    all.filter (·.1 < start + frames before) = timeline start before ∧
      all.filter (fun x => start + frames before ≤ x.1 ∧ x.1 < start + frames before + frames middle) =
        timeline (start + frames before) middle := by
  intro all
  simp only [List.forall_mem_append] at hsound
  obtain ⟨⟨hbefore, hmiddle⟩, hlater⟩ := hsound
  have hall : all = _ := (timeline_append start (before ++ middle) later).trans (by rw [timeline_append, frames_append])
  rw [hall]
  refine filter_cut (fun x hx => (mem_timeline hbefore x hx).2) (mem_timeline hmiddle) (fun x hx => ?_)
    (Nat.le_add_right _ _)
  have hge := (mem_timeline hlater x hx).1
  omega

/-- What passages store is what arrives in them. -/
theorem placed_timeline (hsound : ∀ p ∈ passages, p.Sound) (hmax : position + frames passages ≤ maxFrames) :
    (placed position passages).map (fun m => (m.time.toNat, m.bytes)) = timeline position passages := by
  induction passages generalizing position with
  | nil => rfl
  | cons p rest ih =>
    rw [List.forall_mem_cons] at hsound
    have hframes : frames (p :: rest) = p.context.frames + frames rest := rfl
    rw [hframes] at hmax
    rw [placed, timeline, List.map_append, ih hsound.2 (by omega), placedAt, List.map_map]
    refine congrArg (· ++ _) (List.map_congr_left fun m hm => Prod.ext ?_ rfl)
    exact placed_time (hsound.1.inside m hm) (by omega)

end Passage

namespace Channel.PlayCycle

/-- The messages that arrive in some cycles, each with its frame. -/
def arrivals (elapsed : Nat) : List PlayCycle → List (Nat × List UInt8)
  | [] => []
  | k :: rest =>
    (k.input.getD []).map (fun m => (elapsed + m.time.toNat, m.bytes)) ++ arrivals (elapsed + k.frames) rest

variable {k : PlayCycle}

/-- The messages of the chunk from a frame on. -/
theorem Valid.messages_passageAt (h : k.Valid) (elapsed : Nat) {frame : Nat} {context : ChunkContext}
    (hfits : frame + context.frames ≤ k.frames) :
    (k.passageAt frame context).messages.map (fun m => (elapsed + frame + m.time.toNat, m.bytes)) =
      (((k.input.getD []).dropWhile (Message.isBefore frame)).takeWhile
        (Message.isBefore (frame + context.frames))).map fun m => (elapsed + m.time.toNat, m.bytes) := by
  unfold PlayCycle.passageAt Passage.messages
  cases hinput : k.input with
  | none => rfl
  | some messages =>
    show (List.map _ _).map _ = _
    rw [List.map_map]
    refine List.map_congr_left fun m hm => Prod.ext ?_ rfl
    rw [cut_eq (h.inOrder messages hinput) (Nat.le_trans hfits h.frames_le)] at hm
    have hbounds := of_decide_eq_true (List.mem_filter.mp hm).2
    show elapsed + frame + (m.time - UInt32.ofNat frame).toNat = elapsed + m.time.toNat
    rw [Message.time_sub hbounds.1]
    omega

theorem Valid.timeline_passagesFrom (h : k.Valid) (elapsed : Nat) {frame : Nat} {contexts : List ChunkContext}
    (hfits : frame + (contexts.map (·.frames)).sum ≤ k.frames) :
    Passage.timeline (elapsed + frame) (k.passagesFrom frame contexts) =
      (((k.input.getD []).dropWhile (Message.isBefore frame)).takeWhile
        (Message.isBefore (frame + (contexts.map (·.frames)).sum))).map
          fun m => (elapsed + m.time.toNat, m.bytes) := by
  have hmax := h.frames_le
  induction contexts generalizing frame with
  | nil =>
    obtain ⟨htake, -⟩ := takeWhile_dropWhile_of_imp (p := Message.isBefore frame) (fun _ => id) (k.input.getD [])
    exact (congrArg (List.map _) (List.append_right_eq_self.mp htake)).symm
  | cons context rest ih =>
    rw [List.map_cons, List.sum_cons, ← Nat.add_assoc] at hfits ⊢
    obtain ⟨-, hdrop⟩ := takeWhile_dropWhile_of_imp
      (Message.isBefore_mono (Nat.le_add_right frame context.frames) (by omega)) (k.input.getD [])
    obtain ⟨htake, -⟩ := takeWhile_dropWhile_of_imp
      (Message.isBefore_mono (Nat.le_add_right (frame + context.frames) (rest.map (·.frames)).sum) (by omega))
      ((k.input.getD []).dropWhile (Message.isBefore frame))
    rw [hdrop] at htake
    rw [PlayCycle.passagesFrom, Passage.timeline, h.messages_passageAt elapsed (by omega), Nat.add_assoc elapsed,
      show (k.passageAt frame context).context.frames = context.frames from rfl, ih hfits, ← List.map_append, htake]

theorem Valid.timeline_passages (h : k.Valid) (elapsed : Nat) :
    Passage.timeline elapsed k.passages =
      (k.input.getD []).map fun m => (elapsed + m.time.toNat, m.bytes) := by
  have hcut : Passage.timeline (elapsed + 0) (k.passagesFrom 0 k.contexts) = _ := h.timeline_passagesFrom elapsed (by
    rw [h.total]
    exact Nat.le_of_eq (Nat.zero_add _))
  have hall : (k.input.getD []).takeWhile (Message.isBefore k.frames) = k.input.getD [] := by
    refine List.takeWhile_eq_self_iff.mpr fun m hm => (Message.isBefore_iff h.frames_le).mpr ?_
    cases hinput : k.input with
    | none =>
      rw [hinput] at hm
      exact absurd hm List.not_mem_nil
    | some messages => exact h.inside messages hinput m (by rwa [hinput] at hm)
  rw [Nat.zero_add, h.total, (Message.cut_zero _).2, hall] at hcut
  exact hcut

theorem Valid.frames_passages (h : k.Valid) : Passage.frames k.passages = k.frames := by
  have hall : ∀ (frame : Nat) (contexts : List ChunkContext),
      Passage.frames (k.passagesFrom frame contexts) = (contexts.map (·.frames)).sum := by
    intro frame contexts
    induction contexts generalizing frame with
    | nil => rfl
    | cons context rest ih => exact congrArg (context.frames + ·) (ih _)
  exact (hall 0 k.contexts).trans h.total

/-- It makes no difference where cycles end. -/
theorem arrivals_eq {cycles : List PlayCycle} (h : ∀ k ∈ cycles, k.Valid) (elapsed : Nat) :
    arrivals elapsed cycles = Passage.timeline elapsed (cycles.flatMap PlayCycle.passages) := by
  induction cycles generalizing elapsed with
  | nil => rfl
  | cons k rest ih =>
    rw [List.forall_mem_cons] at h
    rw [List.flatMap_cons, Passage.timeline_append, h.1.timeline_passages, h.1.frames_passages, arrivals, ih h.2]

end Channel.PlayCycle

end Overdub.Midi
