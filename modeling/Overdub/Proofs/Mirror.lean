import Mathlib
import Overdub.Proofs.Outcomes
/-!
# Both sides of a session agree

What the topology says of a session is what the engine does: the wirings of the
two are the same (`Session.Agrees`), and they name no object that is gone. Every
call that succeeds keeps it so (`Agrees.act`). The proof goes through the calls
that restructure a session one by one, and each case is an equation between the
change of the topology and the command of the engine.
-/

namespace Overdub

/-! ## References -/

/-- Whatever the wiring names is there. -/
structure Wiring.Closed (w : Wiring) : Prop where
  ports : w.PortsKnown
  loops : w.Rooted
  channels : ∀ key, (w.ends key).isSome = (w.owner key).isSome
  chains : ∀ key sides port, w.chains key = some sides → port ∈ sides.ports → (w.sources port).isSome

namespace Topology

theorem isSome_sources (t : Topology) (port : PortKey) : (t.wiring.sources port).isSome = t.ports.contains port :=
  Option.isSome_map ..

theorem Linked.portsKnown {t : Topology} (h : t.Linked) : t.wiring.PortsKnown := by
  refine ⟨fun key sources port hkey hport => ?_, fun key c port hkey hport => ?_, fun key c port hkey hport => ?_⟩ <;>
    rw [isSome_sources] <;> obtain ⟨p, hp, rfl⟩ := Option.map_eq_some_iff.1 hkey
  · exact h.source key p port hp hport
  · exact h.input key p port hp hport
  · exact h.output key p port hp hport

theorem Linked.closed {t : Topology} (h : t.Linked) (hrooted : t.Rooted) : t.wiring.Closed := by
  refine ⟨h.portsKnown, hrooted.wiring, fun key => ?_, fun key sides port hkey hport => ?_⟩
  · exact (Option.isSome_map ..).trans (Option.isSome_map ..).symm
  · obtain ⟨c, hc, rfl⟩ := Option.map_eq_some_iff.1 hkey
    obtain ⟨p, hp, -⟩ := h.owned key c port hc (by
      simp only [Sides.ports, List.mem_append] at hport
      simp only [ChainInfo.inputs, List.mem_append]
      tauto)
    rw [isSome_sources]
    exact Option.isSome_iff_exists.2 ⟨p, hp⟩

end Topology

/-- In a closed wiring a key leads to each channel that a loop of the engine has. -/
theorem Engine.channel?_of_mem {e : Engine} (h : e.wiring.Closed) {key : LoopKey} {l : Loop}
    (hl : e.loops.get? key = some l) {c : LoopChannel} (hc : c ∈ l.channels) : e.channel? c.key = some c := by
  have hinfo : e.wiring.loops key = some l.info := congrArg (Option.map Loop.info) hl
  have howner : e.channelLoops.get? c.key = some key := h.loops.listed key _ c.key hinfo (List.mem_map_of_mem hc)
  have hnodup : (l.channels.map (·.key)).Nodup := h.loops.nodup key _ hinfo
  unfold Engine.channel?
  rw [howner, Option.bind_some, hl, Option.bind_some]
  unfold Loop.channel?
  cases hfound : l.channels.find? (·.key = c.key) with
  | none => exact absurd rfl (of_decide_eq_false (Bool.eq_false_iff.2 (List.find?_eq_none.1 hfound c hc)))
  | some first =>
    have hsame : first.key = c.key := by simpa using List.find?_some hfound
    exact congrArg some (List.inj_on_of_nodup_map hnodup (List.mem_of_find?_eq_some hfound) hc hsame)

namespace Session

/-! ## Calls that succeed -/

/-- If the call succeeds, both sides are wired alike afterwards. -/
def Mirrors {α : Type} (c : Call α) (s : Session) : Prop :=
  ∀ a u, s.call c = (.ok a, u) → u.topology.wiring = u.engine.wiring

section Mirrors

variable {α β : Type} {kind : ObjectKind} {s : Session}

theorem Mirrors.bind {c : Call α} {f : α → Call β} (h : ∀ a u, s.call c = (.ok a, u) → Mirrors (f a) u) :
    Mirrors (c >>= f) s := Makes.bind h

theorem Mirrors.reads {c : Call α} {f : α → Call β} (hc : Reads c) (h : ∀ a, Mirrors (f a) s) :
    Mirrors (c >>= f) s := Makes.reads hc h

theorem Mirrors.get {f : Session → Call β} (h : Mirrors (f s) s) : Mirrors (MonadState.get >>= f) s := h

theorem Mirrors.lookup {arena : Topology → Arena kind α} {key : Key kind} {f : α → Call β}
    (h : ∀ a, (arena s.topology).get? key = some a → Mirrors (f a) s) : Mirrors (lookup arena key >>= f) s :=
  Makes.lookup h

theorem Mirrors.throw (e : Error) : Mirrors (MonadExcept.throw e : Call α) s := Makes.throw e

/-- After a call that changes no connection. -/
theorem Mirrors.of_steady {c : Call α} (h : s.topology.wiring = s.engine.wiring) (hkeeps : Keeps c)
    (hsteady : Steady c) : Mirrors c s := by
  intro a u hmade
  have htopology := hkeeps s
  have hengine := hsteady s
  rw [hmade] at htopology hengine
  exact (congrArg Topology.wiring htopology).trans (h.trans hengine.symm)

/-- Before a call that changes no connection. -/
theorem Mirrors.then {c : Call α} {f : α → Call β} (h : Mirrors c s) (hkeeps : ∀ a, Keeps (f a))
    (hsteady : ∀ a, Steady (f a)) : Mirrors (c >>= f) s :=
  Makes.then h fun a _ halike => Mirrors.of_steady halike (hkeeps a) (hsteady a)

theorem Mirrors.discard {c : Call α} (h : Mirrors c s) : Mirrors (Functor.discard c) s := Makes.discard h

theorem Mirrors.commit {t : Topology} {command : Engine → Except Error Engine}
    (h : ∀ e, command s.engine = .ok e → t.wiring = e.wiring) : Mirrors (commit t command) s := Makes.commit h

theorem Mirrors.retract {t : Topology} {command : Engine → Except Error (α × Engine)}
    (h : ∀ a e, command s.engine = .ok (a, e) → t.wiring = e.wiring) : Mirrors (retract t command) s :=
  Makes.retract fun _ a e _ he => h a e he

end Mirrors

/-- What a change of one loop has made of the engine. -/
theorem changeLoops_made {s u : Session} {key : LoopKey} {f : Loop → Loop} {a : Unit}
    (h : s.call (changeLoops [key] f) = (.ok a, u)) :
    ∃ l, s.engine.loops.get? key = some l ∧
      u = { s with engine := { s.engine with loops := s.engine.loops.set key (f l) } } := by
  unfold changeLoops at h
  rw [call_bind] at h
  have hchecked := Reads.checkLoops [key] s
  generalize s.call (checkLoops [key]) = checked at h hchecked
  obtain ⟨_ | _, v⟩ := checked
  · cases h
  obtain rfl : v = s := hchecked
  dsimp only at h
  rw [call_run] at h
  split at h
  · next e he =>
    cases h
    rw [List.foldlM_cons] at he
    obtain ⟨e', he', hend⟩ := ok_of_bind he
    cases hend
    obtain ⟨l, hl, hset⟩ := ok_of_bind he'
    cases hset
    exact ⟨l, some_of_expect hl, rfl⟩
  · cases h

/-! ## The ports of a chain -/

/-- The same ports were added to both sides. -/
structure PortsAlike (t : Topology) (e : Engine) (keys : List PortKey) (t' : Topology) (e' : Engine) : Prop where
  sound : t'.ports.Sound
  known : t'.wiring = t.wiring.addPorts keys
  live : e'.wiring = e.wiring.addPorts keys
  same : t'.wiring.sources = e'.wiring.sources

theorem PortsAlike.trans {t t' t'' : Topology} {e e' e'' : Engine} {keys later : List PortKey}
    (h : PortsAlike t e keys t' e') (h' : PortsAlike t' e' later t'' e'') : PortsAlike t e (keys ++ later) t'' e'' :=
  ⟨h'.sound, by rw [Wiring.addPorts_append, ← h.known, h'.known], by rw [Wiring.addPorts_append, ← h.live, h'.live],
    h'.same⟩

/-- The engine stores a port under the key that the topology has issued for it. -/
theorem portsAlike_insert {t : Topology} {e f : Engine} (hsound : t.ports.Sound)
    (hsame : t.wiring.sources = e.wiring.sources) (hwiring : f.wiring = e.wiring) {p : PortInfo} {q : EnginePort}
    (hp : p.sources = []) (hq : q.sources = []) :
    PortsAlike t e [(t.ports.insert p).1] { t with ports := (t.ports.insert p).2 }
      (f.insertPort (t.ports.insert p).1 q) := by
  have hvacant : f.ports.Vacant (t.ports.insert p).1.index :=
    (hsound.vacant_issued p).of_map fun k => congrFun (hsame.trans (congrArg Wiring.sources hwiring).symm) k
  have hknown := Topology.wiring_insertPort hsound hp
  have hlive := (Engine.wiring_insertPort hvacant hq).trans (congrArg (Wiring.addPort · _) hwiring)
  refine ⟨hsound.insert p, hknown, hlive, ?_⟩
  rw [hknown, hlive]
  exact congrArg (Function.update · _ _) hsame

theorem addChainPorts_alike {t : Topology} {e : Engine} (hsound : t.ports.Sound)
    (hsame : t.wiring.sources = e.wiring.sources) (config : EngineConfig) (chain : ChainKey) (label : String)
    (dataType : DataType) (direction : Direction) (count : Nat) :
    PortsAlike t e (addChainPorts config chain label dataType direction count t e).1
      (addChainPorts config chain label dataType direction count t e).2.1
      (addChainPorts config chain label dataType direction count t e).2.2 := by
  unfold addChainPorts
  refine List.foldlRecOn (motive := fun added : List PortKey × Topology × Engine =>
    PortsAlike t e added.1 added.2.1 added.2.2) _ _ ⟨hsound, rfl, rfl, hsame⟩ ?_
  rintro ⟨keys, u, f⟩ hadded i _
  let p : PortInfo := { name := s!"{label}_{i + 1}", dataType, direction, owner := .chain chain }
  let made := buildPort config dataType direction f.pool
  exact hadded.trans (portsAlike_insert (p := p) (f := { f with pool := made.2 })
    (q := { origin := .chain chain, port := made.1 }) hadded.sound hadded.same rfl rfl rfl)

/-- A chain that both sides get with the same ports. -/
theorem chain_alike {s : Session} (h : s.topology.wiring = s.engine.wiring) {key : ChainKey}
    {chains : Arena .chain ChainInfo} (hissued : s.topology.chains.Vacant key.index)
    (hnamed : { s.topology with chains }.wiring = s.topology.wiring.setChain key (some ⟨[], [], []⟩))
    {keys : List PortKey} {t : Topology} {e : Engine} (hports : PortsAlike { s.topology with chains } s.engine keys t e)
    (info : ChainInfo) {c : EngineChain}
    (hsides : Sides.mk info.audioInputs info.audioOutputs info.midiInputs =
      ⟨c.audioInputs, c.audioOutputs, c.midiInputs⟩) :
    { t with chains := t.chains.set key info }.wiring = (e.insertChain key c).wiring := by
  have hknown : t.wiring = (s.engine.wiring.addPorts keys).setChain key (some ⟨[], [], []⟩) := by
    rw [hports.known, hnamed, Wiring.addPorts_setChain, h]
  have hvacant : e.chains.Vacant key.index := hissued.of_map fun k => by
    have hlive := congrFun (congrArg Wiring.chains hports.live) k
    rw [Wiring.chains_addPorts, ← h] at hlive
    exact hlive.symm
  have hthere : (t.wiring.chains key).isSome := by simp [hknown, Wiring.setChain]
  rw [Topology.wiring_setChain hthere, hknown, Wiring.setChain_setChain, Engine.wiring_insertChain hvacant, hports.live,
    hsides]

/-! ## Call by call -/

/-- Both sides tell the same, and nothing that is gone. -/
structure Agrees (s : Session) : Prop where
  linked : s.topology.Linked
  rooted : s.topology.Rooted
  alike : s.topology.wiring = s.engine.wiring

namespace Agrees

variable {s : Session}

theorem portsKnown (h : s.Agrees) : s.engine.wiring.PortsKnown := h.alike ▸ h.linked.portsKnown

/-- A loop of the topology is a loop of the engine. -/
theorem loop (h : s.Agrees) {key : LoopKey} {info : LoopInfo} (hinfo : s.topology.loops.get? key = some info) :
    ∃ l, s.engine.loops.get? key = some l ∧ l.info = info :=
  Option.map_eq_some_iff.1 ((congrFun (congrArg Wiring.loops h.alike) key).symm.trans hinfo)

/-- And the other way around. -/
theorem loopInfo (h : s.Agrees) {key : LoopKey} {l : Loop} (hl : s.engine.loops.get? key = some l) :
    s.topology.loops.get? key = some l.info :=
  (congrFun (congrArg Wiring.loops h.alike) key).trans (congrArg (Option.map Loop.info) hl)

theorem owner (h : s.Agrees) {key : ChannelKey} {info : ChannelInfo}
    (hinfo : s.topology.channels.get? key = some info) : s.engine.channelLoops.get? key = some info.loop :=
  (congrFun (congrArg Wiring.owner h.alike) key).symm.trans (congrArg (Option.map ChannelInfo.loop) hinfo)

/-- A channel of the topology is a channel of the engine. -/
theorem channel (h : s.Agrees) {key : ChannelKey} {info : ChannelInfo}
    (hinfo : s.topology.channels.get? key = some info) :
    ∃ c, s.engine.channel? key = some c ∧ (c.input, c.output) = (info.input, info.output) :=
  Option.map_eq_some_iff.1 ((congrFun (congrArg Wiring.ends h.alike) key).symm.trans
    (congrArg (Option.map fun c : ChannelInfo => (c.input, c.output)) hinfo))

/-- A port of the topology is a port of the engine. -/
theorem port (h : s.Agrees) {key : PortKey} {info : PortInfo} (hinfo : s.topology.ports.get? key = some info) :
    ∃ p, s.engine.ports.get? key = some p ∧ p.sources = info.sources :=
  Option.map_eq_some_iff.1 ((congrFun (congrArg Wiring.sources h.alike) key).symm.trans
    (congrArg (Option.map PortInfo.sources) hinfo))

/-- A chain of the topology is a chain of the engine, with the same ports. -/
theorem chain (h : s.Agrees) {key : ChainKey} {info : ChainInfo} (hinfo : s.topology.chains.get? key = some info) :
    ∃ c, s.engine.chains.get? key = some c ∧ (info.inputs ++ info.audioOutputs).Perm c.ports := by
  obtain ⟨c, hc, hsides⟩ := Option.map_eq_some_iff.1 ((congrFun (congrArg Wiring.chains h.alike) key).symm.trans
    (congrArg (Option.map fun c : ChainInfo => Sides.mk c.audioInputs c.audioOutputs c.midiInputs) hinfo))
  obtain ⟨haudioIn, haudioOut, hmidi⟩ := Sides.mk.inj hsides
  refine ⟨c, hc, ?_⟩
  rw [EngineChain.ports, haudioIn, haudioOut, hmidi, ChainInfo.inputs, List.append_assoc, List.append_assoc]
  exact List.perm_append_comm.append_left info.audioInputs

theorem openPort (h : s.Agrees) (name : String) (dataType : DataType) (direction : Direction) :
    Mirrors (openPort name dataType direction) s := by
  refine .get ?_
  split
  · split
    · exact .throw _
    · next id d _ =>
      refine .bind fun _ u hmade => ?_
      rw [call_modify] at hmade
      obtain ⟨-, rfl⟩ := Prod.mk.inj hmade
      refine Mirrors.then (.commit fun e he => ?_) (fun _ => .pure _) fun _ => (Reads.pure _).steady
      cases he
      have hports := portsAlike_insert (e := s.engine)
        (f := { s.engine with pool := (buildPort s.config dataType direction s.engine.pool).2 })
        (p := { name, dataType, direction, owner := .driver })
        (q := { origin := .driver id, port := (buildPort s.config dataType direction s.engine.pool).1 })
        h.linked.ports (congrArg Wiring.sources h.alike) rfl rfl rfl
      exact hports.known.trans ((congrArg (Wiring.addPorts · _) h.alike).trans hports.live.symm)
  · exact .throw _

theorem closePort (h : s.Agrees) (key : PortKey) : Mirrors (closePort key) s := by
  refine .lookup fun info hinfo => .reads (.require _ _) fun _ => .get (Mirrors.then (.retract fun p e he => ?_) ?_ ?_)
  · have hlive := Engine.wiring_removePort h.portsKnown key
    generalize s.engine.removePort key = removed at he hlive
    rw [Topology.wiring_removePort, h.alike, ← hlive]
    obtain ⟨_ | gone, e'⟩ := removed <;> cases he
    · rfl
    · exact (e'.wiring_releasePort _).symm
  · intro p
    split
    · exact .modify fun _ => rfl
    · exact .pure _
  · intro p
    split
    · exact .modify fun _ => rfl
    · exact (Reads.pure _).steady

theorem connectPorts (h : s.Agrees) (source target : PortKey) : Mirrors (connectPorts source target) s := by
  refine .lookup fun src _ => .lookup fun dst _ => .reads (.require _ _) fun _ => .reads (.require _ _) fun _ =>
    .reads (.require _ _) fun _ => ?_
  split
  · exact .of_steady h.alike (.pure _) (Reads.pure _).steady
  · refine .get (.reads (.lift _) fun order => .commit fun e he => ?_)
    rw [Topology.wiring_knownSources, Engine.wiring_liveSources he, h.alike]

theorem disconnectPorts (h : s.Agrees) (source target : PortKey) : Mirrors (disconnectPorts source target) s := by
  refine .lookup fun dst _ => .reads (.require _ _) fun _ => .get (.retract fun a e he => ?_)
  obtain ⟨e', he', hpair⟩ := ok_of_map he
  obtain ⟨-, rfl⟩ := Prod.mk.inj hpair
  rw [Topology.wiring_knownSources, Engine.wiring_liveSources he', h.alike]

theorem addLoop (h : s.Agrees) : Mirrors addLoop s := by
  refine .get (Mirrors.then (.commit fun e he => ?_) (fun _ => .pure _) fun _ => (Reads.pure _).steady)
  obtain rfl := Except.ok.inj he
  have hvacant : s.engine.loops.Vacant (s.topology.loops.insert {}).1.index :=
    (h.rooted.loops.vacant_issued {}).of_map fun k =>
      Option.map_id'.trans (congrFun (congrArg Wiring.loops h.alike) k)
  have hlive := (Engine.wiring_insertLoop hvacant).trans (congrArg (Wiring.addLoop · _) h.alike.symm)
  exact (Topology.wiring_insertLoop h.rooted.loops).trans hlive.symm

theorem deleteLoop (h : s.Agrees) (key : LoopKey) : Mirrors (deleteLoop key) s := by
  refine .lookup fun info hinfo => .get (.retract fun a e he => ?_)
  obtain ⟨l, hl, rfl⟩ := h.loop hinfo
  have hlive := Engine.wiring_removeLoop hl
  generalize s.engine.removeLoop key = removed at he hlive
  obtain ⟨gone, e'⟩ := removed
  cases he
  rw [Engine.wiring_foldl Engine.wiring_releaseChannel, hlive, ← h.alike]
  exact Topology.wiring_removeLoop _ _ _

theorem setSyncSource (h : s.Agrees) (key : LoopKey) (source : Option LoopKey) :
    Mirrors (setSyncSource key source) s := by
  refine .reads (.checkLoops _) fun _ => .get (.reads (.require _ _) fun _ => .bind fun _ u hmade a v hlast => ?_)
  obtain ⟨l, hl, rfl⟩ := changeLoops_made hmade
  rw [call_modify] at hlast
  obtain ⟨-, rfl⟩ := Prod.mk.inj hlast
  have hlive := Engine.wiring_follow hl source
  exact (Topology.wiring_modifyLoop ..).trans ((congrArg (Wiring.mapLoop · key _) h.alike).trans hlive.symm)

theorem addChannel (h : s.Agrees) (loop : LoopKey) (dataType : DataType) (mode : ChannelMode) :
    Mirrors (addChannel loop dataType mode) s := by
  refine .lookup fun info _ => .get (Mirrors.then (.commit fun e he => ?_) (fun _ => .pure _)
    fun _ => (Reads.pure _).steady)
  have hissued := h.linked.channels.get?_issued { loop, dataType }
  have hvacant : s.engine.channelLoops.Vacant (s.topology.channels.insert { loop, dataType }).1.index :=
    (h.linked.channels.vacant_issued { loop, dataType }).of_map fun k =>
      (congrFun (congrArg Wiring.owner h.alike) k).trans Option.map_id'.symm
  have hfresh : ∀ l, s.engine.loops.get? loop = some l →
      (s.topology.channels.insert { loop, dataType }).1 ∉ l.info.channels := by
    intro l hl hmem
    have howner := h.rooted.wiring.listed loop l.info _ (h.loopInfo hl) hmem
    cases howner.symm.trans (congrArg (Option.map ChannelInfo.loop) hissued)
  have hlive := Engine.wiring_insertChannel he hvacant hfresh rfl rfl
  refine (Topology.wiring_insertChannel h.linked.channels loop dataType).trans ?_
  exact (congrArg (Wiring.addChannel · loop _) h.alike).trans hlive.symm

theorem deleteChannel (h : s.Agrees) (key : ChannelKey) : Mirrors (deleteChannel key) s := by
  refine .lookup fun info hinfo => .get (.retract fun a e he => ?_)
  have hlive := Engine.wiring_removeChannel (h.owner hinfo) fun l hl =>
    h.rooted.wiring.nodup info.loop l.info (h.loopInfo hl)
  generalize s.engine.removeChannel key = removed at he hlive
  rw [Topology.wiring_removeChannel, h.alike, ← hlive]
  obtain ⟨_ | gone, e'⟩ := removed <;> cases he
  · rfl
  · exact (e'.wiring_releaseChannel _).symm

theorem connectChannel (h : s.Agrees) (key : ChannelKey) (port : PortKey) (direction : Direction) :
    Mirrors (connectChannel key port direction) s := by
  refine .lookup fun p _ => .lookup fun info hinfo => .reads (.require _ _) fun _ => .reads (.require _ _) fun _ =>
    .get (.commit fun e he => ?_)
  obtain ⟨c, hc, hset⟩ := ok_of_bind he
  have hc := some_of_expect hc
  obtain rfl := Engine.channel?_key hc
  cases hset
  refine (Topology.wiring_joinChannel _ _ port direction).trans ?_
  rw [h.alike]
  cases direction
  · exact (Engine.wiring_setChannel (d := { c with input := some port }) (g := fun ends => (some port, ends.2))
      hc rfl).symm
  · exact (Engine.wiring_setChannel (d := { c with output := some port }) (g := fun ends => (ends.1, some port))
      hc rfl).symm

theorem disconnectChannel (h : s.Agrees) (key : ChannelKey) (port : PortKey) :
    Mirrors (disconnectChannel key port) s := by
  refine .lookup fun info hinfo => .reads (.require _ _) fun _ => .get (.retract fun a e he => ?_)
  obtain ⟨c, hc, hset⟩ := ok_of_bind he
  have hc := some_of_expect hc
  obtain rfl := Engine.channel?_key hc
  cases hset
  obtain ⟨c', hc', hends⟩ := h.channel hinfo
  cases hc.symm.trans hc'
  obtain ⟨hin, hout⟩ := Prod.mk.inj hends
  have hkept : ∀ connection : Option PortKey, (if connection = some port then none else connection) =
      Topology.without port connection := by
    rintro (_ | other)
    · rfl
    · by_cases hport : other = port <;> simp [Topology.without, Option.filter, hport]
  refine (Topology.wiring_leaveChannel _ _ port).trans ?_
  rw [h.alike, ← hin, ← hout]
  dsimp only
  rw [hkept, hkept]
  exact (Engine.wiring_setChannel
    (d := { c with input := Topology.without port c.input, output := Topology.without port c.output })
    (g := fun ends => (Topology.without port ends.1, Topology.without port ends.2)) hc rfl).symm

theorem addChain (h : s.Agrees) (name : String) (effect : Effect.Chain) : Mirrors (addChain name effect) s := by
  refine .get ?_
  have hissued := h.linked.chains.vacant_issued { name }
  have hnamed := Topology.wiring_insertChain h.linked.chains name
  generalize s.topology.chains.insert { name } = inserted at hissued hnamed ⊢
  obtain ⟨key, chains⟩ := inserted
  have hsources : { s.topology with chains }.wiring.sources = s.engine.wiring.sources :=
    show s.topology.wiring.sources = _ from congrArg Wiring.sources h.alike
  have h₁ := addChainPorts_alike (t := { s.topology with chains }) h.linked.ports hsources s.config key
    s!"{name}_in" .audio .output effect.layout.audioInputs
  dsimp only at hissued hnamed h₁ ⊢
  generalize addChainPorts s.config key s!"{name}_in" .audio .output effect.layout.audioInputs
    { s.topology with chains } s.engine = side₁ at h₁ ⊢
  obtain ⟨audioInputs, t₁, e₁⟩ := side₁
  have h₂ := addChainPorts_alike h₁.sound h₁.same s.config key s!"{name}_out" .audio .input effect.layout.audioOutputs
  dsimp only at h₁ h₂ ⊢
  generalize addChainPorts s.config key s!"{name}_out" .audio .input effect.layout.audioOutputs t₁ e₁ = side₂ at h₂ ⊢
  obtain ⟨audioOutputs, t₂, e₂⟩ := side₂
  have h₃ := addChainPorts_alike h₂.sound h₂.same s.config key s!"{name}_midi_in" .midi .output effect.layout.midiInputs
  dsimp only at h₂ h₃ ⊢
  generalize addChainPorts s.config key s!"{name}_midi_in" .midi .output effect.layout.midiInputs t₂ e₂ = side₃
    at h₃ ⊢
  obtain ⟨midiInputs, t₃, e₃⟩ := side₃
  refine Mirrors.then (.commit fun e he => ?_) (fun _ => .pure _) fun _ => (Reads.pure _).steady
  cases he
  exact chain_alike h.alike hissued hnamed ((h₁.trans h₂).trans h₃) { name, audioInputs, audioOutputs, midiInputs } rfl

theorem deleteChain (h : s.Agrees) (key : ChainKey) : Mirrors (deleteChain key) s := by
  refine .lookup fun info hinfo => .get (.retract fun a e he => ?_)
  obtain ⟨c, hc, hports⟩ := h.chain hinfo
  have hlive := Engine.wiring_removeChain h.portsKnown hc
  generalize s.engine.removeChain key = removed at he hlive
  obtain ⟨_ | gone, e'⟩ := removed
  · cases he
  · cases he
    rw [Engine.wiring_foldl Engine.wiring_releasePort, hlive, ← Wiring.dropChain_perm _ key hports, ← h.alike]
    exact Topology.wiring_removeChain _ _ _

/-- Whatever a call that succeeds does to the topology, it does to the engine. -/
theorem mirrors (h : s.Agrees) (a : Action) : Mirrors a.call s := by
  cases hkind : a.restructures with
  | false => exact .of_steady h.alike (keeps_of_not_restructures hkind) (steady_of_not_restructures hkind)
  | true =>
    cases a with
    | openPort name dataType direction => exact (h.openPort name dataType direction).discard
    | closePort key => exact h.closePort key
    | connectPorts source target => exact h.connectPorts source target
    | disconnectPorts source target => exact h.disconnectPorts source target
    | addLoop => exact h.addLoop.discard
    | deleteLoop key => exact h.deleteLoop key
    | setSyncSource key source => exact h.setSyncSource key source
    | addChannel loop dataType mode => exact (h.addChannel loop dataType mode).discard
    | deleteChannel key => exact h.deleteChannel key
    | connectChannel key port direction => exact h.connectChannel key port direction
    | disconnectChannel key port => exact h.disconnectChannel key port
    | addChain name effect => exact (h.addChain name effect).discard
    | deleteChain key => exact (h.deleteChain key).discard
    | _ => cases hkind

end Agrees

/-! ## Runs of calls -/

theorem rooted_act {s : Session} (hlinked : s.topology.Linked) (h : s.topology.Rooted) (a : Action) :
    (s.act a).topology.Rooted := by
  rcases change_act s a with hsame | hchange
  · rwa [hsame]
  · exact hchange.rooted hlinked h

theorem agrees_new (config : EngineConfig) : (new config).Agrees :=
  ⟨Topology.empty_linked, Topology.empty_rooted, rfl⟩

/-- A call that succeeds leaves both sides agreeing. -/
theorem Agrees.act {s : Session} (h : s.Agrees) {a : Action} (hok : (s.call a.call).1.isOk = true) :
    (s.act a).Agrees := by
  refine ⟨linked_act h.linked a, rooted_act h.linked h.rooted a, ?_⟩
  have hmirrors := h.mirrors a
  unfold Session.act
  generalize hmade : s.call a.call = made at hok ⊢
  obtain ⟨_ | u, v⟩ := made
  · cases hok
  · exact hmirrors u v hmade

/-- The actions succeed one after the other. -/
def succeeds : Session → List Action → Bool
  | _, [] => true
  | s, a :: rest => (s.call a.call).1.isOk && (s.act a).succeeds rest

theorem Agrees.after {s : Session} (h : s.Agrees) {actions : List Action} (hok : s.succeeds actions = true) :
    (s.after actions).Agrees := by
  induction actions generalizing s with
  | nil => exact h
  | cons a rest ih =>
    obtain ⟨hfirst, hrest⟩ := Bool.and_eq_true_iff.1 hok
    exact ih (h.act hfirst) hrest

/-- After calls that all succeeded the topology and the engine describe the same session: the same loops, ports,
channels and chains, each loop with the same channels in the same order and the same sync source, each channel with the
same loop and the same ports, each port with the same sources and each chain with the same ports. All of these exist,
and a key leads to each channel that a loop of the engine holds. -/
theorem sides_agree (config : EngineConfig) (actions : List Action)
    (h : (new config).succeeds actions = true) :
    let s := (new config).after actions
    s.topology.wiring = s.engine.wiring ∧ s.engine.wiring.Closed ∧
      ∀ key l c, s.engine.loops.get? key = some l → c ∈ l.channels → s.engine.channel? c.key = some c := by
  intro s
  have hagrees : s.Agrees := (agrees_new config).after h
  have hclosed : s.engine.wiring.Closed := hagrees.alike ▸ hagrees.linked.closed hagrees.rooted
  exact ⟨hagrees.alike, hclosed, fun key l c hl hc => Engine.channel?_of_mem hclosed hl hc⟩

/-- A run that adds, connects and removes objects of every kind. -/
def rehearsal : List Action :=
  [.setDriver (.new { bufferSize := 1 }), .openPort "in" .audio .input, .openPort "out" .audio .output,
    .addLoop, .addLoop, .setSyncSource ⟨1, 0⟩ (some ⟨0, 0⟩), .addChannel ⟨0, 0⟩ .audio .direct,
    .addChannel ⟨1, 0⟩ .audio .direct, .connectChannel ⟨0, 0⟩ ⟨0, 0⟩ .input, .connectChannel ⟨1, 0⟩ ⟨1, 0⟩ .output,
    .addChain "fx" { layout := { audioInputs := 1, audioOutputs := 1 }, process := fun b => (b, .ok ()) },
    .connectChannel ⟨1, 0⟩ ⟨3, 0⟩ .input, .connectPorts ⟨0, 0⟩ ⟨2, 0⟩, .settle,
    .deleteLoop ⟨0, 0⟩, .closePort ⟨1, 0⟩, .disconnectPorts ⟨0, 0⟩ ⟨2, 0⟩, .deleteChain ⟨0, 0⟩, .addLoop]

theorem sides_agree_rehearsal :
    let session := new { bufferSize := 1, poolBuffers := 0, reservedSamples := 1 }
    let s := session.after rehearsal
    session.succeeds rehearsal = true ∧ s.topology.wiring = s.engine.wiring ∧ s.engine.wiring.Closed ∧
      ∀ key l c, s.engine.loops.get? key = some l → c ∈ l.channels → s.engine.channel? c.key = some c :=
  ⟨by decide +kernel, sides_agree _ rehearsal (by decide +kernel)⟩

end Session

end Overdub
