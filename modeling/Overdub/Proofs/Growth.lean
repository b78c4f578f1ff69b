import Mathlib
import Overdub.Proofs.Outcomes
/-!
# What a change adds or takes away

A change of a session either adds objects and connections or takes some away, and
what it makes of the topology is determined (`Session.Change.unique`). No addition
removes an object (`Session.Change.grows`) and no removal adds one
(`Session.Change.shrinks`).
-/

namespace Overdub

open Function (update)

namespace Wiring

variable {w w' w'' : Wiring}

/-- The object that a node is of exists. -/
def Has (w : Wiring) : NodeId → Prop
  | .portPrepare key => (w.sources key).isSome = true
  | .portProcess key => (w.sources key).isSome = true
  | .loop key => (w.loops key).isSome = true
  | .channel key => (w.ends key).isSome = true
  | .chain key => (w.chains key).isSome = true

/-- Every object of `w` is one of `w'`. -/
structure Within (w w' : Wiring) : Prop where
  ports : ∀ key, (w.sources key).isSome = true → (w'.sources key).isSome = true
  loops : ∀ key, (w.loops key).isSome = true → (w'.loops key).isSome = true
  channels : ∀ key, (w.ends key).isSome = true → (w'.ends key).isSome = true
  chains : ∀ key, (w.chains key).isSome = true → (w'.chains key).isSome = true

namespace Within

theorem refl (w : Wiring) : w.Within w := ⟨fun _ h => h, fun _ h => h, fun _ h => h, fun _ h => h⟩

theorem trans (h : w.Within w') (h' : w'.Within w'') : w.Within w'' :=
  ⟨fun key hkey => h'.ports key (h.ports key hkey), fun key hkey => h'.loops key (h.loops key hkey),
    fun key hkey => h'.channels key (h.channels key hkey), fun key hkey => h'.chains key (h.chains key hkey)⟩

theorem has (h : w.Within w') {id : NodeId} (hid : w.Has id) : w'.Has id := by
  cases id with
  | portPrepare key => exact h.ports key hid
  | portProcess key => exact h.ports key hid
  | loop key => exact h.loops key hid
  | channel key => exact h.channels key hid
  | chain key => exact h.chains key hid

end Within

/-! ## Additions -/

theorem isSome_update {kind : ObjectKind} {α : Type} {f : Key kind → Option α} {key k : Key kind} {a : α}
    (h : (f k).isSome = true) : (update f key (some a) k).isSome = true := by
  rw [Function.update_apply]
  split_ifs
  · rfl
  · exact h

theorem isSome_update_map {kind : ObjectKind} {α : Type} (f : Key kind → Option α) (key k : Key kind) (g : α → α) :
    (update f key ((f key).map g) k).isSome = (f k).isSome := by
  rw [Function.update_apply]
  split_ifs with hk
  · rw [hk, Option.isSome_map]
  · rfl

theorem within_addPort (w : Wiring) (key : PortKey) : w.Within (w.addPort key) :=
  ⟨fun _ => isSome_update, fun _ h => h, fun _ h => h, fun _ h => h⟩

theorem within_addLoop (w : Wiring) (key : LoopKey) : w.Within (w.addLoop key) :=
  ⟨fun _ h => h, fun _ => isSome_update, fun _ h => h, fun _ h => h⟩

theorem within_addChannel (w : Wiring) (loop : LoopKey) (key : ChannelKey) : w.Within (w.addChannel loop key) :=
  ⟨fun _ h => h, fun k h => (isSome_update_map w.loops loop k _).trans h, fun _ => isSome_update, fun _ h => h⟩

theorem within_mapSources (w : Wiring) (key : PortKey) (f : List PortKey → List PortKey) :
    w.Within (w.mapSources key f) ∧ (w.mapSources key f).Within w :=
  ⟨⟨fun k h => (isSome_update_map w.sources key k f).trans h, fun _ h => h, fun _ h => h, fun _ h => h⟩,
    fun k h => (isSome_update_map w.sources key k f).symm.trans h, fun _ h => h, fun _ h => h, fun _ h => h⟩

theorem within_mapEnds (w : Wiring) (key : ChannelKey)
    (f : Option PortKey × Option PortKey → Option PortKey × Option PortKey) :
    w.Within (w.mapEnds key f) ∧ (w.mapEnds key f).Within w :=
  ⟨⟨fun _ h => h, fun _ h => h, fun k h => (isSome_update_map w.ends key k f).trans h, fun _ h => h⟩,
    fun _ h => h, fun _ h => h, fun k h => (isSome_update_map w.ends key k f).symm.trans h, fun _ h => h⟩

theorem within_mapLoop (w : Wiring) (key : LoopKey) (f : LoopInfo → LoopInfo) :
    w.Within (w.mapLoop key f) ∧ (w.mapLoop key f).Within w :=
  ⟨⟨fun _ h => h, fun k h => (isSome_update_map w.loops key k f).trans h, fun _ h => h, fun _ h => h⟩,
    fun _ h => h, fun k h => (isSome_update_map w.loops key k f).symm.trans h, fun _ h => h, fun _ h => h⟩

/-! ## Removals -/

theorem isSome_of_dropped {α β : Type} {dropped : Prop} [Decidable dropped] {o : Option α} {f : α → β}
    (h : (if dropped then none else o.map f).isSome = true) : o.isSome = true := by
  split_ifs at h
  · cases h
  · rwa [Option.isSome_map] at h

theorem dropPort_within (w : Wiring) (key : PortKey) : (w.dropPort key).Within w :=
  ⟨fun _ => isSome_of_dropped, fun _ h => h, fun _ h => (Option.isSome_map ..).symm.trans h, fun _ h => h⟩

theorem forgetChannels_within (w : Wiring) (gone : List ChannelKey) : (w.forgetChannels gone).Within w := by
  refine ⟨fun _ h => h, fun _ h => h, fun k h => ?_, fun _ h => h⟩
  simp only [forgetChannels] at h
  split_ifs at h
  · cases h
  · exact h

theorem forgetLoop_within (w : Wiring) (key : LoopKey) : (w.forgetLoop key).Within w :=
  ⟨fun _ h => h, fun _ => isSome_of_dropped, fun _ h => h, fun _ h => h⟩

theorem dropLoop_within (w : Wiring) (key : LoopKey) (channels : List ChannelKey) : (w.dropLoop key channels).Within w :=
  (forgetLoop_within _ key).trans (w.forgetChannels_within channels)

theorem dropChannel_within (w : Wiring) (loop : LoopKey) (key : ChannelKey) : (w.dropChannel loop key).Within w :=
  (within_mapLoop _ loop _).2.trans (w.forgetChannels_within [key])

theorem dropChain_within (w : Wiring) (key : ChainKey) (ports : List PortKey) : (w.dropChain key ports).Within w := by
  have hchain : (w.setChain key none).Within w := by
    refine ⟨fun _ h => h, fun _ h => h, fun _ h => h, fun k h => ?_⟩
    simp only [setChain, Function.update_apply] at h
    split_ifs at h
    · cases h
    · exact h
  exact List.foldlRecOn (motive := fun u : Wiring => u.Within w) ports dropPort hchain
    fun u hu key _ => (u.dropPort_within key).trans hu

end Wiring

namespace Session

/-- The action adds an object or a connection: the engine has it before a schedule does. -/
def Action.adds : Action → Bool
  | openPort .. | connectPorts .. | addLoop | addChannel .. | connectChannel .. | addChain .. => true
  | _ => false

/-- The connection that the action asks for is there already. -/
def Redundant (a : Action) (t : Topology) : Prop :=
  ∃ source target dst, a = .connectPorts source target ∧ t.ports.get? target = some dst ∧ source ∈ dst.sources

/-- The nodes of a topology are of its objects. -/
theorem has_of_node {t : Topology} {id : NodeId} (h : t.Has id) : t.wiring.Has id := by
  cases id with
  | portPrepare key =>
    obtain ⟨p, hp, -⟩ := h
    exact (Option.isSome_map ..).trans (Option.isSome_iff_exists.2 ⟨p, hp⟩)
  | portProcess key => exact (Option.isSome_map ..).trans h
  | loop key => exact h
  | channel key => exact (Option.isSome_map ..).trans h
  | chain key => exact (Option.isSome_map ..).trans h

theorem chains_withChainPorts (chain : ChainKey) (label : String) (dataType : DataType) (direction : Direction)
    (count : Nat) (t : Topology) : (withChainPorts chain label dataType direction count t).2.chains = t.chains := by
  unfold withChainPorts
  exact List.foldlRecOn (motive := fun added : List PortKey × Topology => added.2.chains = t.chains) _ _ rfl
    fun _ h _ _ => h

/-- A new chain takes the place of no older one. -/
theorem chains_withChain {t : Topology} (h : t.chains.Sound) (name : String) (layout : Effect.Layout) {key : ChainKey}
    (hkey : (t.chains.get? key).isSome = true) : ((withChain name layout t).chains.get? key).isSome = true := by
  have hold : ((t.chains.insert { name }).2.get? key).isSome = true := by
    rw [h.get?_insert]
    split_ifs
    · rfl
    · exact hkey
  unfold withChain
  simp only [chains_withChainPorts, Arena.get?_set]
  split_ifs with hsame
  · rw [Option.isSome_map, ← hsame]
    exact hold
  · exact hold

namespace Change

variable {a : Action} {t u u' : Topology}

/-- What an action makes of a topology is determined. -/
theorem unique (h : Change a t u) (h' : Change a t u') : u = u' := by
  cases h with
  | deleteLoop hinfo =>
    cases h' with
    | deleteLoop hinfo' => rw [Option.some.inj (hinfo.symm.trans hinfo')]
  | deleteChannel hinfo =>
    cases h' with
    | deleteChannel hinfo' => rw [Option.some.inj (hinfo.symm.trans hinfo')]
  | deleteChain hinfo =>
    cases h' with
    | deleteChain hinfo' => rw [Option.some.inj (hinfo.symm.trans hinfo')]
  | _ => cases h'; rfl

theorem not_redundant (h : Change a t u) : ¬Redundant a t := by
  rintro ⟨source, target, dst, rfl, hdst, hmem⟩
  cases h with
  | connectPorts _ hdst' _ _ _ hnew =>
    cases hdst.symm.trans hdst'
    exact hnew hmem

/-- An addition leaves every object where it is. -/
theorem grows (h : Change a t u) (hadds : a.adds = true) (hlinked : t.Linked) (hrooted : t.Rooted) :
    t.wiring.Within u.wiring := by
  cases h with
  | openPort =>
    rw [Topology.wiring_insertPort hlinked.ports rfl]
    exact Wiring.within_addPort _ _
  | connectPorts =>
    rw [Topology.wiring_knownSources]
    exact (Wiring.within_mapSources _ _ _).1
  | addLoop =>
    rw [Topology.wiring_insertLoop hrooted.loops]
    exact Wiring.within_addLoop _ _
  | addChannel =>
    rw [Topology.wiring_insertChannel hlinked.channels]
    exact Wiring.within_addChannel _ _ _
  | @connectChannel _ key port direction =>
    rw [Topology.wiring_joinChannel]
    exact (Wiring.within_mapEnds _ _ _).1
  | @addChain _ name effect =>
    obtain ⟨hloops, hchannels⟩ := Topology.loops_withChain name effect.layout t
    obtain ⟨hextends, -⟩ := Topology.withChain_extends hlinked name effect.layout
    refine ⟨fun key hkey => ?_, fun key hkey => ?_, fun key hkey => ?_, fun key hkey => ?_⟩
    · obtain ⟨p, hp⟩ := Option.isSome_iff_exists.1 ((Option.isSome_map ..).symm.trans hkey)
      exact (Option.isSome_map ..).trans (Option.isSome_iff_exists.2 ⟨p, hextends.ports key p hp⟩)
    · simp only [Topology.wiring, hloops]
      exact hkey
    · simp only [Topology.wiring, hchannels]
      exact hkey
    · rw [Topology.wiring, Option.isSome_map] at hkey ⊢
      exact chains_withChain hlinked.chains name effect.layout hkey
  | _ => cases hadds

/-- A removal brings no object. -/
theorem shrinks (h : Change a t u) (hremoves : a.removes = true) : u.wiring.Within t.wiring := by
  cases h with
  | closePort =>
    rw [Topology.wiring_removePort]
    exact Wiring.dropPort_within _ _
  | disconnectPorts =>
    rw [Topology.wiring_knownSources]
    exact (Wiring.within_mapSources _ _ _).2
  | deleteLoop =>
    rw [Topology.wiring_removeLoop]
    exact Wiring.dropLoop_within _ _ _
  | deleteChannel =>
    rw [Topology.wiring_removeChannel]
    exact Wiring.dropChannel_within _ _ _
  | disconnectChannel =>
    rw [Topology.wiring_leaveChannel]
    exact (Wiring.within_mapEnds _ _ _).2
  | deleteChain =>
    rw [Topology.wiring_removeChain]
    exact Wiring.dropChain_within _ _ _
  | _ => cases hremoves

/-- Which loop follows which has nothing to do with the objects there are. -/
theorem follows {key : LoopKey} {source : Option LoopKey} (h : Change (.setSyncSource key source) t u) :
    t.wiring.Within u.wiring := by
  cases h with
  | setSyncSource =>
    rw [Topology.wiring_modifyLoop]
    exact (Wiring.within_mapLoop _ _ _).1

end Change

end Session

end Overdub
