import Mathlib
import Overdub.Proofs.Outcomes
/-!
# Loops that are known are there

`Session.Attended` says that every loop of the topology is one of the engine. It
holds after any calls, also where removals have failed and left a loop in the engine
that the topology does not have any more: only `addLoop` adds to the loops of the
topology, only `deleteLoop` takes one out of the engine (`keepsLoops`), and the
place of a new loop is one that no other loop of the topology has.
-/

namespace Overdub

/-! ## The loops of the engine -/

namespace Arena

variable {kind : ObjectKind} {α β : Type}

theorem contains_modify (a : Arena kind α) (k : Key kind) (f : α → α) : (a.modify k f).contains = a.contains := by
  funext k'
  rw [contains, get?_modify_eq_map, Option.isSome_map, contains]

theorem contains_map (a : Arena kind α) (f : α → β) : (a.map f).contains = a.contains := by
  funext k
  rw [contains, get?_map, Option.isSome_map, contains]

theorem contains_erase (a : Arena kind α) (k k' : Key kind) : (a.erase k).contains k' = (a.contains k' && k' ≠ k) := by
  rw [contains, get?_erase, contains]
  split_ifs with h <;> simp [h]

end Arena

namespace Engine

/-- The loops that there are. -/
def roll (e : Engine) : LoopKey → Bool := e.loops.contains

theorem roll_setChannel (e : Engine) (c : LoopChannel) : (e.setChannel c).roll = e.roll := by
  unfold setChannel
  split
  · rfl
  · exact e.loops.contains_modify _ _

theorem roll_releaseChannel (e : Engine) (c : LoopChannel) : (e.releaseChannel c).roll = e.roll := by
  unfold releaseChannel
  split <;> rfl

theorem roll_releasePort (e : Engine) (p : EnginePort) : (e.releasePort p).roll = e.roll := by
  unfold releasePort
  split <;> rfl

theorem roll_foldl {β : Type} {f : Engine → β → Engine} (hf : ∀ e b, (f e b).roll = e.roll) (e : Engine) (bs : List β) :
    (bs.foldl f e).roll = e.roll :=
  List.foldlRecOn (motive := fun e' : Engine => e'.roll = e.roll) bs f rfl fun e' h b _ => (hf e' b).trans h

theorem roll_removeChannel (e : Engine) (key : ChannelKey) : (e.removeChannel key).2.roll = e.roll := by
  unfold removeChannel
  split
  · rfl
  · exact e.loops.contains_modify _ _

theorem roll_removePort (e : Engine) (key : PortKey) : (e.removePort key).2.roll = e.roll := by
  unfold removePort
  split
  · rfl
  · exact e.loops.contains_map _

theorem roll_removePorts (e : Engine) (keys : List PortKey) : (e.removePorts keys).2.roll = e.roll := by
  induction keys generalizing e with
  | nil => rfl
  | cons key keys ih => exact (ih _).trans (e.roll_removePort key)

theorem roll_removeChain (e : Engine) (key : ChainKey) : (e.removeChain key).2.roll = e.roll := by
  unfold removeChain
  split
  · rfl
  · exact roll_removePorts _ _

theorem roll_removeLoop (e : Engine) {key k : LoopKey} (h : k ≠ key) : (e.removeLoop key).2.roll k = e.roll k := by
  unfold removeLoop
  cases hl : e.loops.get? key with
  | none => rw [Arena.remove_of_none hl]
  | some l =>
    rw [Arena.remove_of_get? hl]
    refine (congrFun (Arena.contains_map ..) k).trans ?_
    rw [Arena.contains_erase, decide_eq_true h, Bool.and_true]
    rfl

end Engine

namespace Session

/-! ## Calls that keep them -/

/-- The call leaves the loops where they are that the engine has. -/
def KeepsLoops {α : Type} (c : Call α) : Prop := Fixes (·.engine.roll) c

section KeepsLoops

variable {α β : Type}

theorem Reads.keepsLoops {c : Call α} (h : Reads c) : KeepsLoops c := h.fixes

theorem KeepsLoops.bind {c : Call α} {f : α → Call β} (hc : KeepsLoops c) (hf : ∀ a, KeepsLoops (f a)) :
    KeepsLoops (c >>= f) := Fixes.bind hc hf

theorem KeepsLoops.map {c : Call α} (h : KeepsLoops c) (f : α → β) : KeepsLoops (f <$> c) := Fixes.map h f

theorem KeepsLoops.reads {c : Call α} {f : α → Call β} (hc : Reads c) (hf : ∀ a, KeepsLoops (f a)) :
    KeepsLoops (c >>= f) := .bind hc.keepsLoops hf

/-- Before an answer. -/
theorem KeepsLoops.then {c : Call α} {f : α → Call β} (hc : KeepsLoops c) (hf : ∀ a, Reads (f a)) :
    KeepsLoops (c >>= f) := .bind hc fun a => (hf a).keepsLoops

theorem KeepsLoops.exec {command : Engine → Except Error (α × Engine)}
    (h : ∀ e a e', command e = .ok (a, e') → e'.roll = e.roll) : KeepsLoops (exec command) := by
  intro s
  rw [call_exec]
  split
  · next a e' he => exact h _ a e' he
  · rfl

theorem KeepsLoops.run {command : Engine → Except Error Engine}
    (h : ∀ e e', command e = .ok e' → e'.roll = e.roll) : KeepsLoops (run command) := by
  refine .exec fun e a e' he => ?_
  obtain ⟨made, hmade, hpair⟩ := ok_of_map he
  cases hpair
  exact h e _ hmade

theorem KeepsLoops.modify {f : Session → Session} (h : ∀ s, (f s).engine = s.engine) :
    KeepsLoops (MonadState.modifyGet fun s => ((), f s) : Call Unit) := fun s => congrArg Engine.roll (h s)

theorem KeepsLoops.commit {t : Topology} {command : Engine → Except Error Engine}
    (h : ∀ e e', command e = .ok e' → e'.roll = e.roll) : KeepsLoops (commit t command) :=
  (KeepsLoops.run h).bind fun _ => .modify fun _ => rfl

theorem KeepsLoops.retract {t : Topology} {command : Engine → Except Error (α × Engine)}
    (h : ∀ e a e', command e = .ok (a, e') → e'.roll = e.roll) : KeepsLoops (retract t command) := by
  intro s
  rw [call_retract]
  dsimp only
  split
  · exact KeepsLoops.exec h { s with topology := t, publisher := (s.publisher.publishNow t).1 }
  · rfl

theorem KeepsLoops.changeLoops (keys : List LoopKey) (f : Loop → Loop) : KeepsLoops (changeLoops keys f) := by
  refine .reads (.checkLoops keys) fun _ => .run fun e e' he => ?_
  induction keys generalizing e with
  | nil => cases he; rfl
  | cons key keys ih =>
    rw [List.foldlM_cons] at he
    obtain ⟨first, hfirst, hrest⟩ := ok_of_bind he
    obtain ⟨l, -, hset⟩ := ok_of_bind hfirst
    cases hset
    exact (ih _ hrest).trans (e.loops.contains_modify _ _)

theorem roll_liveSources {key : PortKey} {f : List PortKey → List PortKey} {e e' : Engine}
    (h : liveSources key f e = .ok e') : e'.roll = e.roll := by
  obtain ⟨p, -, rfl⟩ := ok_of_map h
  rfl

/-- A chain brings ports and no loops. -/
theorem roll_addChainPorts (config : EngineConfig) (chain : ChainKey) (label : String) (dataType : DataType)
    (direction : Direction) (count : Nat) (t : Topology) (e : Engine) :
    (addChainPorts config chain label dataType direction count t e).2.2.roll = e.roll := by
  unfold addChainPorts
  exact List.foldlRecOn (motive := fun added : List PortKey × Topology × Engine => added.2.2.roll = e.roll) _ _ rfl
    fun _ h _ _ => h

end KeepsLoops

/-- The action adds or removes a loop. -/
def Action.enlists : Action → Bool
  | addLoop | deleteLoop .. => true
  | _ => false

/-- Any other call keeps the loops of the engine. -/
theorem keepsLoops {a : Action} (h : a.enlists = false) : KeepsLoops a.call := by
  cases hkind : a.restructures with
  | false =>
    intro s
    have hwiring := steady_of_not_restructures hkind s
    funext k
    have hk := congrFun (congrArg Wiring.loops hwiring) k
    simp only [Engine.roll, Arena.contains, ← Option.isSome_map (f := Loop.info)]
    exact congrArg Option.isSome hk
  | true =>
    unfold Action.call
    cases a with
    | openPort name dataType direction =>
      refine KeepsLoops.map (.reads .get fun s => ?_) _
      split
      · split
        · exact (Reads.throw _).keepsLoops
        · refine .bind (.modify fun _ => rfl) fun _ => .then (.commit fun e e' he => ?_) fun _ => .pure _
          cases he
          rfl
      · exact (Reads.throw _).keepsLoops
    | closePort key =>
      refine .reads (.lookup _ _) fun info => .reads (.require _ _) fun _ => .reads .get fun _ => ?_
      refine .bind (.retract fun e p e' he => ?_) fun removed => ?_
      · have hroll := e.roll_removePort key
        generalize e.removePort key = made at he hroll
        obtain ⟨_ | gone, f⟩ := made <;> cases he
        · exact hroll
        · exact (f.roll_releasePort _).trans hroll
      · split
        · exact .modify fun _ => rfl
        · exact (Reads.pure _).keepsLoops
    | connectPorts source target =>
      refine .reads (.lookup _ _) fun _ => .reads (.lookup _ _) fun dst => .reads (.require _ _) fun _ =>
        .reads (.require _ _) fun _ => .reads (.require _ _) fun _ => ?_
      split
      · exact (Reads.pure _).keepsLoops
      · exact .reads .get fun _ => .reads (.lift _) fun _ => .commit fun _ _ => roll_liveSources
    | disconnectPorts source target =>
      refine .reads (.lookup _ _) fun dst => .reads (.require _ _) fun _ => .reads .get fun _ => ?_
      refine .retract fun e a e' he => ?_
      obtain ⟨f, hf, hpair⟩ := ok_of_map he
      cases hpair
      exact roll_liveSources hf
    | setSyncSource key source =>
      refine .reads (.checkLoops _) fun _ => .reads .get fun _ => .reads (.require _ _) fun _ => ?_
      exact .bind (.changeLoops _ _) fun _ => .modify fun _ => rfl
    | addChannel loop dataType mode =>
      refine KeepsLoops.map (.reads (.lookup _ _) fun _ => .reads .get fun s => ?_) _
      refine KeepsLoops.then (.commit fun e e' he => ?_) fun _ => .pure _
      obtain ⟨l, -, rfl⟩ := ok_of_map he
      exact e.loops.contains_modify _ _
    | deleteChannel key =>
      refine .reads (.lookup _ _) fun _ => .reads .get fun _ => .retract fun e a e' he => ?_
      have hroll := e.roll_removeChannel key
      generalize e.removeChannel key = made at he hroll
      obtain ⟨_ | gone, f⟩ := made <;> cases he
      · exact hroll
      · exact (f.roll_releaseChannel _).trans hroll
    | connectChannel key port direction =>
      refine .reads (.lookup _ _) fun _ => .reads (.lookup _ _) fun _ => .reads (.require _ _) fun _ =>
        .reads (.require _ _) fun _ => .reads .get fun _ => .commit fun e e' he => ?_
      obtain ⟨c, -, hset⟩ := ok_of_bind he
      cases hset
      exact e.roll_setChannel _
    | disconnectChannel key port =>
      refine .reads (.lookup _ _) fun info => .reads (.require _ _) fun _ => .reads .get fun _ => ?_
      refine .retract fun e a e' he => ?_
      obtain ⟨c, -, hset⟩ := ok_of_bind he
      cases hset
      exact e.roll_setChannel _
    | addChain name effect =>
      refine KeepsLoops.map (fun s => ?_) _
      unfold Session.addChain
      rw [call_bind, call_get]
      dsimp only
      rw [call_bind, call_commit]
      exact ((roll_addChainPorts ..).trans (roll_addChainPorts ..)).trans (roll_addChainPorts ..)
    | deleteChain key =>
      refine KeepsLoops.map (.reads (.lookup _ _) fun _ => .reads .get fun _ => .retract fun e a e' he => ?_) _
      have hroll := e.roll_removeChain key
      generalize e.removeChain key = made at he hroll
      obtain ⟨removed, f⟩ := made
      obtain ⟨⟨c, ports⟩, -, hpair⟩ := ok_of_bind he
      cases hpair
      exact (Engine.roll_foldl Engine.roll_releasePort f ports).trans hroll
    | addLoop | deleteLoop => cases h
    | _ => cases hkind

/-! ## Loops of the topology -/

/-- No other change adds a loop to the topology. -/
theorem Change.loops_within {a : Action} {t u : Topology} (h : Change a t u) (hadd : a ≠ .addLoop) {key : LoopKey}
    (hkey : u.loops.contains key = true) : t.loops.contains key = true := by
  cases h with
  | addLoop => exact absurd rfl hadd
  | deleteLoop =>
    rw [Topology.removeLoop, Arena.contains_map, Arena.contains_erase] at hkey
    exact (Bool.and_eq_true_iff.1 hkey).1
  | setSyncSource => rwa [Arena.contains_modify] at hkey
  | addChannel => rwa [Arena.contains_modify] at hkey
  | deleteChannel => rwa [Topology.removeChannel, Arena.contains_modify] at hkey
  | @addChain _ name effect => rwa [(t.loops_withChain name effect.layout).1] at hkey
  | @deleteChain _ key info =>
    have hloops : (t.removeChain key info).loops = t.loops := Topology.loops_removePorts _ _
    rwa [hloops] at hkey
  | _ => exact hkey

/-- Every loop of the topology is one of the engine. -/
def Attended (s : Session) : Prop := ∀ key, s.topology.loops.contains key = true → s.engine.roll key = true

variable {s : Session}

/-- The place of a new loop is one that no other loop of the topology has. -/
theorem Attended.addLoop (h : s.Attended) (hsound : s.topology.loops.Sound) : (s.act .addLoop).Attended := by
  intro key (hkey : (s.topology.loops.insert {}).2.contains key = true)
  show ((s.engine.loops.insertAt (s.topology.loops.insert {}).1 .new).2.get? key).isSome = true
  rw [Arena.contains, hsound.get?_insert] at hkey
  rw [Arena.get?_insertAt]
  split_ifs at hkey ⊢ with hnew hslot
  · rfl
  · rw [hsound.vacant_issued {} key hslot] at hkey
    cases hkey
  · exact h key hkey

/-- A loop leaves the topology before it leaves the engine, and no other one leaves. -/
theorem Attended.deleteLoop (h : s.Attended) (gone : LoopKey) : (s.act (.deleteLoop gone)).Attended := by
  have hact : s.act (.deleteLoop gone) = (s.call (Session.deleteLoop gone)).2 := rfl
  rw [hact]
  unfold Session.deleteLoop
  rw [call_bind, call_lookup]
  cases hinfo : s.topology.loops.get? gone with
  | none => exact h
  | some info =>
    dsimp only [Engine.expect]
    rw [call_bind, call_get]
    dsimp only
    have hstays : ∀ key, (s.topology.removeLoop gone info).loops.contains key = true →
        key ≠ gone ∧ s.engine.roll key = true := by
      intro key hkey
      rw [Topology.removeLoop, Arena.contains_map, Arena.contains_erase] at hkey
      obtain ⟨hthere, hother⟩ := Bool.and_eq_true_iff.1 hkey
      exact ⟨of_decide_eq_true hother, h key hthere⟩
    rw [call_retract]
    dsimp only
    split
    · rw [call_exec]
      intro key hkey
      obtain ⟨hother, hthere⟩ := hstays key hkey
      refine (congrFun (Engine.roll_foldl Engine.roll_releaseChannel _ _) key).trans ?_
      exact (s.engine.roll_removeLoop hother).trans hthere
    · exact fun key hkey => (hstays key hkey).2

theorem Attended.act (h : s.Attended) (hsound : s.topology.loops.Sound) (a : Action) : (s.act a).Attended := by
  cases henlists : a.enlists with
  | true =>
    cases a with
    | addLoop => exact h.addLoop hsound
    | deleteLoop key => exact h.deleteLoop key
    | _ => cases henlists
  | false =>
    intro key hkey
    rw [show (s.act a).engine.roll = s.engine.roll from keepsLoops henlists s]
    rcases change_act s a with hsame | hchange
    · exact h key (hsame ▸ hkey)
    · exact h key (hchange.loops_within (by rintro rfl; cases henlists) hkey)

end Session
end Overdub
