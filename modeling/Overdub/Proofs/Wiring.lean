import Mathlib
import Overdub.Proofs.Calls
/-!
# What both sides of a session know

The topology and the engine are stored differently: a topology keeps the
connections of a channel with its key, the engine keeps them inside of the loop
the channel is in. `Topology.wiring` and `Engine.wiring` read the same description
off either. Every change is described once, as a change of the wiring, and each
side has a lemma that its own code makes that change.
-/

namespace Overdub

/-- The ports of an effect chain. -/
structure Sides where
  audioInputs : List PortKey
  audioOutputs : List PortKey
  midiInputs : List PortKey
  deriving DecidableEq

def Sides.ports (c : Sides) : List PortKey := c.audioInputs ++ c.audioOutputs ++ c.midiInputs

/-- The objects of a session and how they are connected. A key of which nothing is
known is one of an object that does not exist. -/
@[ext]
structure Wiring where
  /-- The ports that pass their data into a port. -/
  sources : PortKey → Option (List PortKey)
  /-- The channels of a loop, and the loop it follows. -/
  loops : LoopKey → Option LoopInfo
  /-- The loop that a channel is in. -/
  owner : ChannelKey → Option LoopKey
  /-- The ports that a channel records from and plays into. -/
  ends : ChannelKey → Option (Option PortKey × Option PortKey)
  chains : ChainKey → Option Sides

def Topology.wiring (t : Topology) : Wiring where
  sources key := (t.ports.get? key).map (·.sources)
  loops := t.loops.get?
  owner key := (t.channels.get? key).map (·.loop)
  ends key := (t.channels.get? key).map fun c => (c.input, c.output)
  chains key := (t.chains.get? key).map fun c => ⟨c.audioInputs, c.audioOutputs, c.midiInputs⟩

namespace Loop

/-- What the control side knows of a loop. -/
def info (l : Loop) : LoopInfo := ⟨l.channels.map (·.key), l.syncSource⟩

/-- The ports that a channel of the loop records from and plays into. -/
def ends (l : Loop) (key : ChannelKey) : Option (Option PortKey × Option PortKey) :=
  (l.channel? key).map fun c => (c.input, c.output)

end Loop

def Engine.wiring (e : Engine) : Wiring where
  sources key := (e.ports.get? key).map (·.sources)
  loops key := (e.loops.get? key).map (·.info)
  owner := e.channelLoops.get?
  ends key := (e.channel? key).map fun c => (c.input, c.output)
  chains key := (e.chains.get? key).map fun c => ⟨c.audioInputs, c.audioOutputs, c.midiInputs⟩

/-! ## Changes -/

namespace Wiring

open Function (update)

/-- A port without sources. -/
def addPort (w : Wiring) (key : PortKey) : Wiring := { w with sources := update w.sources key (some []) }

/-- Several ports without sources. -/
def addPorts (w : Wiring) (keys : List PortKey) : Wiring := keys.foldl addPort w

theorem addPorts_append (w : Wiring) (keys later : List PortKey) :
    w.addPorts (keys ++ later) = (w.addPorts keys).addPorts later := List.foldl_append

def mapSources (w : Wiring) (key : PortKey) (f : List PortKey → List PortKey) : Wiring :=
  { w with sources := update w.sources key ((w.sources key).map f) }

/-- Takes a port out, with every reference to it. -/
def dropPort (w : Wiring) (key : PortKey) : Wiring :=
  { w with
    sources := fun k => if k = key then none else (w.sources k).map (List.filter (· ≠ key))
    ends := fun k => (w.ends k).map fun (input, output) => (Topology.without key input, Topology.without key output) }

/-- Every port that is named is there. -/
structure PortsKnown (w : Wiring) : Prop where
  source : ∀ key sources port, w.sources key = some sources → port ∈ sources → (w.sources port).isSome
  input : ∀ key c port, w.ends key = some c → c.1 = some port → (w.sources port).isSome
  output : ∀ key c port, w.ends key = some c → c.2 = some port → (w.sources port).isSome

theorem PortsKnown.dropPort_eq {w : Wiring} (h : w.PortsKnown) {key : PortKey} (hkey : w.sources key = none) :
    w.dropPort key = w := by
  have hwithout : ∀ connection, (∀ port, connection = some port → (w.sources port).isSome) →
      Topology.without key connection = connection := by
    rintro (_ | port) hknown
    · rfl
    · have hne : port ≠ key := by
        rintro rfl
        simpa [hkey] using hknown port rfl
      simp [Topology.without, hne]
  refine Wiring.ext (funext fun k => ?_) rfl rfl (funext fun k => ?_) rfl
  · show (if k = key then none else _) = _
    split_ifs with hk
    · rw [hk, hkey]
    · cases hsources : w.sources k with
      | none => rfl
      | some sources =>
        refine congrArg some (List.filter_eq_self.2 fun port hport => decide_eq_true fun heq => ?_)
        have hsome := h.source k sources port hsources hport
        rw [heq, hkey] at hsome
        cases hsome
  · show (w.ends k).map _ = _
    cases hends : w.ends k with
    | none => rfl
    | some c =>
      exact congrArg some (Prod.ext (hwithout c.1 (h.input k c · hends)) (hwithout c.2 (h.output k c · hends)))

theorem PortsKnown.dropPort {w : Wiring} (h : w.PortsKnown) (key : PortKey) : (w.dropPort key).PortsKnown := by
  have hkept : ∀ port, port ≠ key → (w.sources port).isSome → ((w.dropPort key).sources port).isSome := by
    intro port hne hsome
    simp only [Wiring.dropPort, hne, if_false, Option.isSome_map]
    exact hsome
  have hwithout : ∀ connection port, Topology.without key connection = some port →
      connection = some port ∧ port ≠ key := by
    intro connection port
    simp [Topology.without, Option.filter_eq_some_iff]
  refine ⟨fun k sources port hk hport => ?_, fun k c port hk hport => ?_, fun k c port hk hport => ?_⟩
  · simp only [Wiring.dropPort] at hk
    split_ifs at hk
    obtain ⟨old, hold, rfl⟩ := Option.map_eq_some_iff.1 hk
    obtain ⟨hmem, hne⟩ := List.mem_filter.1 hport
    exact hkept port (of_decide_eq_true hne) (h.source k old port hold hmem)
  · obtain ⟨old, hold, rfl⟩ := Option.map_eq_some_iff.1 hk
    obtain ⟨hin, hne⟩ := hwithout _ _ hport
    exact hkept port hne (h.input k old port hold hin)
  · obtain ⟨old, hold, rfl⟩ := Option.map_eq_some_iff.1 hk
    obtain ⟨hout, hne⟩ := hwithout _ _ hport
    exact hkept port hne (h.output k old port hold hout)

theorem dropPort_comm (w : Wiring) (a b : PortKey) : (w.dropPort a).dropPort b = (w.dropPort b).dropPort a := by
  have hwithout : ∀ connection, Topology.without b (Topology.without a connection) =
      Topology.without a (Topology.without b connection) := by
    intro connection
    simp only [Topology.without, Option.filter_filter, Bool.and_comm]
  refine Wiring.ext (funext fun k => ?_) rfl rfl (funext fun k => ?_) rfl
  · simp only [dropPort]
    by_cases ha : k = a <;> by_cases hb : k = b <;> simp [ha, hb, Function.comp_def, List.filter_filter, Bool.and_comm]
  · simp [dropPort, Function.comp_def, hwithout]

/-- A loop without channels. -/
def addLoop (w : Wiring) (key : LoopKey) : Wiring := { w with loops := update w.loops key (some {}) }

def mapLoop (w : Wiring) (key : LoopKey) (f : LoopInfo → LoopInfo) : Wiring :=
  { w with loops := update w.loops key ((w.loops key).map f) }

/-- Takes channels out, but leaves them in the lists of their loops. -/
def forgetChannels (w : Wiring) (gone : List ChannelKey) : Wiring :=
  { w with
    owner := fun k => if k ∈ gone then none else w.owner k
    ends := fun k => if k ∈ gone then none else w.ends k }

/-- Takes a loop out; its followers follow nothing. -/
def forgetLoop (w : Wiring) (key : LoopKey) : Wiring :=
  { w with
    loops := fun k => if k = key then none else (w.loops k).map fun l =>
      { l with syncSource := l.syncSource.filter (· ≠ key) } }

/-- Takes a loop out, with the channels it has. -/
def dropLoop (w : Wiring) (key : LoopKey) (channels : List ChannelKey) : Wiring :=
  (w.forgetChannels channels).forgetLoop key

/-- A channel without connections, behind the others of its loop. -/
def addChannel (w : Wiring) (loop : LoopKey) (key : ChannelKey) : Wiring :=
  { w.mapLoop loop fun l => { l with channels := l.channels ++ [key] } with
    owner := update w.owner key (some loop)
    ends := update w.ends key (some (none, none)) }

/-- Takes a channel out of its loop. -/
def dropChannel (w : Wiring) (loop : LoopKey) (key : ChannelKey) : Wiring :=
  (w.forgetChannels [key]).mapLoop loop fun l => { l with channels := l.channels.filter (· ≠ key) }

def mapEnds (w : Wiring) (key : ChannelKey)
    (f : Option PortKey × Option PortKey → Option PortKey × Option PortKey) : Wiring :=
  { w with ends := update w.ends key ((w.ends key).map f) }

/-- Connects one side of a channel. -/
def connect (w : Wiring) (key : ChannelKey) (port : PortKey) (direction : Direction) : Wiring :=
  w.mapEnds key fun (input, output) =>
    match direction with
    | .input => (some port, output)
    | .output => (input, some port)

/-- Disconnects a port from a channel. -/
def disconnect (w : Wiring) (key : ChannelKey) (port : PortKey) : Wiring :=
  w.mapEnds key fun (input, output) => (Topology.without port input, Topology.without port output)

def setChain (w : Wiring) (key : ChainKey) (sides : Option Sides) : Wiring :=
  { w with chains := update w.chains key sides }

theorem setChain_setChain (w : Wiring) (key : ChainKey) (first last : Option Sides) :
    (w.setChain key first).setChain key last = w.setChain key last :=
  congrArg (Wiring.mk _ _ _ _) (Function.update_idem ..)

theorem addPorts_setChain (w : Wiring) (keys : List PortKey) (key : ChainKey) (sides : Option Sides) :
    (w.setChain key sides).addPorts keys = (w.addPorts keys).setChain key sides :=
  List.foldl_hom (setChain · key sides) fun _ _ => rfl

@[simp] theorem chains_addPorts (w : Wiring) (keys : List PortKey) : (w.addPorts keys).chains = w.chains :=
  List.foldlRecOn (motive := fun u : Wiring => u.chains = w.chains) keys addPort rfl fun _ h _ _ => h

/-- Takes a chain out, with its ports. -/
def dropChain (w : Wiring) (key : ChainKey) (ports : List PortKey) : Wiring :=
  ports.foldl dropPort (w.setChain key none)

/-- The order in which the ports of a chain go is of no account. -/
theorem dropChain_perm (w : Wiring) (key : ChainKey) {ports ports' : List PortKey} (h : ports.Perm ports') :
    w.dropChain key ports = w.dropChain key ports' :=
  h.foldl_eq' (fun _ _ _ _ w => w.dropPort_comm _ _) _

end Wiring

/-! ## The control side -/

namespace Topology

open Function (update)

theorem wiring_insertPort {t : Topology} (h : t.ports.Sound) {p : PortInfo} (hp : p.sources = []) :
    { t with ports := (t.ports.insert p).2 }.wiring = t.wiring.addPort (t.ports.insert p).1 := by
  refine Wiring.ext (funext fun k => ?_) rfl rfl rfl rfl
  simp only [wiring, Wiring.addPort, h.get?_insert, Function.update_apply]
  split_ifs <;> simp [hp]

theorem wiring_knownSources (t : Topology) (key : PortKey) (f : List PortKey → List PortKey) :
    (Session.knownSources t key f).wiring = t.wiring.mapSources key f := by
  refine Wiring.ext (funext fun k => ?_) rfl rfl rfl rfl
  simp only [wiring, Session.knownSources, Wiring.mapSources, Arena.get?_modify, Function.update_apply]
  split_ifs
  · simp [Function.comp_def]
  · rfl

theorem wiring_removePort (t : Topology) (key : PortKey) : (t.removePort key).wiring = t.wiring.dropPort key := by
  refine Wiring.ext (funext fun k => ?_) rfl (funext fun k => ?_) (funext fun k => ?_) rfl
  · simp only [wiring, removePort, forgetPort, Wiring.dropPort, Arena.get?_map, Arena.get?_erase]
    split_ifs <;> simp [Function.comp_def]
  · simp [wiring, removePort, forgetPort, Wiring.dropPort, Arena.get?_map, Function.comp_def]
  · simp [wiring, removePort, forgetPort, Wiring.dropPort, Arena.get?_map, Function.comp_def]

theorem wiring_removePorts (t : Topology) (keys : List PortKey) :
    (keys.foldl removePort t).wiring = keys.foldl Wiring.dropPort t.wiring := by
  induction keys generalizing t with
  | nil => rfl
  | cons key keys ih => rw [List.foldl_cons, ih, wiring_removePort, List.foldl_cons]

theorem wiring_insertLoop {t : Topology} (h : t.loops.Sound) :
    { t with loops := (t.loops.insert {}).2 }.wiring = t.wiring.addLoop (t.loops.insert {}).1 := by
  refine Wiring.ext rfl (funext fun k => ?_) rfl rfl rfl
  simp only [wiring, Wiring.addLoop, h.get?_insert, Function.update_apply]

theorem wiring_modifyLoop (t : Topology) (key : LoopKey) (f : LoopInfo → LoopInfo) :
    { t with loops := t.loops.modify key f }.wiring = t.wiring.mapLoop key f := by
  refine Wiring.ext rfl (funext fun k => ?_) rfl rfl rfl
  simp only [wiring, Wiring.mapLoop, Arena.get?_modify, Function.update_apply]

theorem wiring_eraseChannels (t : Topology) (gone : List ChannelKey) :
    { t with channels := gone.foldl Arena.erase t.channels }.wiring = t.wiring.forgetChannels gone := by
  refine Wiring.ext rfl rfl (funext fun k => ?_) (funext fun k => ?_) rfl <;>
    simp only [wiring, Wiring.forgetChannels, Arena.get?_eraseAll] <;> split_ifs <;> rfl

theorem wiring_eraseLoop (t : Topology) (key : LoopKey) :
    { t with
      loops := (t.loops.erase key).map fun l => { l with syncSource := l.syncSource.filter (· ≠ key) } }.wiring =
      t.wiring.forgetLoop key := by
  refine Wiring.ext rfl (funext fun k => ?_) rfl rfl rfl
  simp only [wiring, Wiring.forgetLoop, Arena.get?_map, Arena.get?_erase]
  split_ifs <;> rfl

theorem wiring_removeLoop (t : Topology) (key : LoopKey) (info : LoopInfo) :
    (t.removeLoop key info).wiring = t.wiring.dropLoop key info.channels := by
  rw [Wiring.dropLoop, ← wiring_eraseChannels, ← wiring_eraseLoop]
  rfl

theorem wiring_insertChannel {t : Topology} (h : t.channels.Sound) (loop : LoopKey) (dataType : DataType) :
    { t with
      channels := (t.channels.insert { loop, dataType }).2
      loops := t.loops.modify loop fun l =>
        { l with channels := l.channels ++ [(t.channels.insert { loop, dataType }).1] } }.wiring =
      t.wiring.addChannel loop (t.channels.insert { loop, dataType }).1 := by
  refine Wiring.ext rfl (funext fun k => ?_) (funext fun k => ?_) (funext fun k => ?_) rfl
  · simp only [wiring, Wiring.addChannel, Wiring.mapLoop, Arena.get?_modify, Function.update_apply]
  · simp only [wiring, Wiring.addChannel, Wiring.mapLoop, h.get?_insert, Function.update_apply]
    split_ifs <;> rfl
  · simp only [wiring, Wiring.addChannel, Wiring.mapLoop, h.get?_insert, Function.update_apply]
    split_ifs <;> rfl

theorem wiring_removeChannel (t : Topology) (key : ChannelKey) (info : ChannelInfo) :
    (t.removeChannel key info).wiring = t.wiring.dropChannel info.loop key := by
  rw [Wiring.dropChannel, ← wiring_eraseChannels, ← wiring_modifyLoop]
  rfl

theorem wiring_modifyChannel (t : Topology) (key : ChannelKey) {f : ChannelInfo → ChannelInfo}
    {g : Option PortKey × Option PortKey → Option PortKey × Option PortKey} (hloop : ∀ c, (f c).loop = c.loop)
    (hends : ∀ c, ((f c).input, (f c).output) = g (c.input, c.output)) :
    { t with channels := t.channels.modify key f }.wiring = t.wiring.mapEnds key g := by
  refine Wiring.ext rfl rfl (funext fun k => ?_) (funext fun k => ?_) rfl
  · simp only [wiring, Wiring.mapEnds, Arena.get?_modify_eq_map, Option.map_map]
    refine congrArg (Option.map · _) (funext fun c => ?_)
    dsimp only [Function.comp_apply]
    split_ifs <;> simp [hloop]
  · simp only [wiring, Wiring.mapEnds, Arena.get?_modify, Function.update_apply]
    split_ifs
    · simp [Function.comp_def, hends]
    · rfl

theorem wiring_joinChannel (t : Topology) (key : ChannelKey) (port : PortKey) (direction : Direction) :
    { t with channels := t.channels.modify key (Session.joined port direction) }.wiring =
      t.wiring.connect key port direction := by
  refine t.wiring_modifyChannel key (fun c => ?_) fun c => ?_ <;> cases direction <;> rfl

theorem wiring_leaveChannel (t : Topology) (key : ChannelKey) (port : PortKey) :
    { t with
      channels := t.channels.modify key fun c =>
        { c with input := without port c.input, output := without port c.output } }.wiring =
      t.wiring.disconnect key port :=
  t.wiring_modifyChannel key (fun _ => rfl) fun _ => rfl

theorem wiring_setChain {t : Topology} {key : ChainKey} (h : (t.wiring.chains key).isSome) (info : ChainInfo) :
    { t with chains := t.chains.set key info }.wiring =
      t.wiring.setChain key (some ⟨info.audioInputs, info.audioOutputs, info.midiInputs⟩) := by
  obtain ⟨old, hold⟩ := Option.isSome_iff_exists.1 ((Option.isSome_map ..).symm.trans h)
  refine Wiring.ext rfl rfl rfl rfl (funext fun k => ?_)
  simp only [wiring, Wiring.setChain, Arena.get?_set, Function.update_apply, hold]
  split_ifs <;> rfl

theorem wiring_insertChain {t : Topology} (h : t.chains.Sound) (name : String) :
    { t with chains := (t.chains.insert { name }).2 }.wiring =
      t.wiring.setChain (t.chains.insert { name }).1 (some ⟨[], [], []⟩) := by
  refine Wiring.ext rfl rfl rfl rfl (funext fun k => ?_)
  simp only [wiring, Wiring.setChain, h.get?_insert, Function.update_apply]
  split_ifs <;> rfl

theorem wiring_removeChain (t : Topology) (key : ChainKey) (info : ChainInfo) :
    (t.removeChain key info).wiring = t.wiring.dropChain key (info.inputs ++ info.audioOutputs) := by
  have hchain : { t with chains := t.chains.erase key }.wiring = t.wiring.setChain key none := by
    refine Wiring.ext rfl rfl rfl rfl (funext fun k => ?_)
    simp only [wiring, Wiring.setChain, Arena.get?_erase, Function.update_apply]
    split_ifs <;> rfl
  rw [Wiring.dropChain, ← hchain, ← wiring_removePorts]
  rfl

end Topology

/-! ## The process side -/

namespace Loop

theorem ends_of_not_mem {l : Loop} {key : ChannelKey} (h : key ∉ l.info.channels) : l.ends key = none := by
  unfold ends channel?
  rw [List.find?_eq_none.2, Option.map_none]
  intro c hc
  simp only [decide_eq_true_eq]
  rintro rfl
  exact h (List.mem_map_of_mem hc)

/-- Channels that keep their keys are found where they were. -/
theorem ends_map (l : Loop) {f : LoopChannel → LoopChannel} (hf : ∀ c, (f c).key = c.key) (key : ChannelKey) :
    ({ l with channels := l.channels.map f } : Loop).ends key =
      (l.channel? key).map fun c => ((f c).input, (f c).output) := by
  unfold ends channel?
  rw [List.find?_map]
  simp only [Function.comp_def, hf, Option.map_map]

theorem ends_setChannel (l : Loop) (c : LoopChannel) (key : ChannelKey) :
    (l.setChannel c).ends key = if key = c.key then (l.ends key).map fun _ => (c.input, c.output) else l.ends key := by
  have hkey : ∀ old : LoopChannel, (if old.key = c.key then c else old).key = old.key := by
    intro old
    split_ifs with h
    · exact h.symm
    · rfl
  refine (l.ends_map hkey key).trans ?_
  unfold ends
  cases hfound : l.channel? key with
  | none => split_ifs <;> rfl
  | some old =>
    have hold : old.key = key := by simpa using List.find?_some hfound
    simp only [Option.map_some, hold]
    split_ifs <;> rfl

theorem info_setChannel (l : Loop) (c : LoopChannel) : (l.setChannel c).info = l.info := by
  unfold info setChannel
  simp only [List.map_map, LoopInfo.mk.injEq, and_true]
  refine List.map_congr_left fun old _ => ?_
  simp only [Function.comp_apply]
  split_ifs with h
  · exact h.symm
  · rfl

theorem ends_addChannel {l : Loop} {c : LoopChannel} (h : c.key ∉ l.info.channels) (key : ChannelKey) :
    (l.addChannel c).ends key = if key = c.key then some (c.input, c.output) else l.ends key := by
  unfold ends channel? addChannel
  rw [List.find?_append]
  split_ifs with hkey
  · have hnone := Option.map_eq_none_iff.1 (ends_of_not_mem h)
    rw [hkey, ← channel?, hnone]
    simp
  · simp [Ne.symm hkey]

theorem ends_removeChannel (l : Loop) {gone key : ChannelKey} (h : key ≠ gone) :
    (l.removeChannel gone).ends key = l.ends key := by
  unfold ends channel? removeChannel
  dsimp only
  congr 1
  induction l.channels with
  | nil => rfl
  | cons c rest ih =>
    by_cases hc : c.key = gone
    · rw [List.eraseP_cons_of_pos (by simpa using hc), List.find?_cons_of_neg (by simp [hc, Ne.symm h])]
    · rw [List.eraseP_cons_of_neg (by simpa using hc), List.find?_cons, List.find?_cons, ih]

theorem info_removeChannel {l : Loop} (h : l.info.channels.Nodup) (gone : ChannelKey) :
    (l.removeChannel gone).info = { l.info with channels := l.info.channels.filter (· ≠ gone) } := by
  have hkeys : (l.channels.eraseP (·.key = gone)).map (·.key) = (l.channels.map (·.key)).erase gone := by
    rw [List.erase_eq_eraseP', List.eraseP_map]
    rfl
  have hfilter : l.info.channels.erase gone = l.info.channels.filter (· ≠ gone) := by
    rw [h.erase_eq_filter]
    exact List.filter_congr fun key _ => Bool.eq_iff_iff.2 (by simp)
  exact congrArg (LoopInfo.mk · l.syncSource) (hkeys.trans hfilter)

end Loop

namespace Engine

open Function (update)

theorem wiring_ends (e : Engine) (key : ChannelKey) :
    e.wiring.ends key = (e.channelLoops.get? key).bind fun l => (e.loops.get? l).bind (·.ends key) := by
  simp only [wiring, channel?, Loop.ends]
  cases e.channelLoops.get? key with
  | none => rfl
  | some l => cases h : e.loops.get? l <;> simp [h]

theorem wiring_insertPort {e : Engine} {key : PortKey} (h : e.ports.Vacant key.index) {p : EnginePort}
    (hp : p.sources = []) : (e.insertPort key p).wiring = e.wiring.addPort key := by
  refine Wiring.ext (funext fun k => ?_) rfl rfl rfl rfl
  simp only [wiring, insertPort, Wiring.addPort, h.get?_insertAt, Function.update_apply]
  split_ifs <;> simp [hp]

/-- A port that is not there is not named by any other, so there is nothing to do for it. -/
theorem wiring_removePort {e : Engine} (h : e.wiring.PortsKnown) (key : PortKey) :
    (e.removePort key).2.wiring = e.wiring.dropPort key := by
  unfold removePort
  cases hp : e.ports.get? key with
  | none =>
    simp only [Arena.remove_of_none hp]
    exact (h.dropPort_eq (by simp only [wiring, hp, Option.map_none])).symm
  | some p =>
    simp only [Arena.remove_of_get? hp]
    refine Wiring.ext (funext fun k => ?_) (funext fun k => ?_) rfl (funext fun k => ?_) rfl
    · simp only [wiring, Wiring.dropPort, Arena.get?_map, Arena.get?_erase]
      split_ifs <;> simp [Function.comp_def]
    · simp [wiring, Wiring.dropPort, Arena.get?_map, Loop.info, Function.comp_def]
    · simp only [Wiring.dropPort, wiring_ends, Arena.get?_map, Option.map_bind]
      refine Option.bind_congr fun owner _ => ?_
      rw [Option.bind_map, Function.comp_apply, Option.map_bind]
      refine Option.bind_congr fun l _ => ?_
      refine (Loop.ends_map l ?_ k).trans ?_
      · exact fun _ => rfl
      · simp only [Function.comp_apply, Loop.ends, Option.map_map]
        rfl

theorem wiring_removePorts {e : Engine} (h : e.wiring.PortsKnown) (keys : List PortKey) :
    (e.removePorts keys).2.wiring = keys.foldl Wiring.dropPort e.wiring := by
  induction keys generalizing e with
  | nil => rfl
  | cons key keys ih =>
    have hkey := wiring_removePort h key
    exact (ih (hkey ▸ h.dropPort key)).trans (congrArg (keys.foldl Wiring.dropPort) hkey)

theorem wiring_insertChain {e : Engine} {key : ChainKey} (h : e.chains.Vacant key.index) (c : EngineChain) :
    (e.insertChain key c).wiring = e.wiring.setChain key (some ⟨c.audioInputs, c.audioOutputs, c.midiInputs⟩) := by
  refine Wiring.ext rfl rfl rfl rfl (funext fun k => ?_)
  simp only [wiring, insertChain, Wiring.setChain, h.get?_insertAt, Function.update_apply]
  split_ifs <;> rfl

theorem wiring_removeChain {e : Engine} (h : e.wiring.PortsKnown) {key : ChainKey} {c : EngineChain}
    (hc : e.chains.get? key = some c) : (e.removeChain key).2.wiring = e.wiring.dropChain key c.ports := by
  have hchain : { e with chains := e.chains.erase key }.wiring = e.wiring.setChain key none := by
    refine Wiring.ext rfl rfl rfl rfl (funext fun k => ?_)
    simp only [wiring, Wiring.setChain, Arena.get?_erase, Function.update_apply]
    split_ifs <;> rfl
  have hknown : { e with chains := e.chains.erase key }.wiring.PortsKnown := ⟨h.source, h.input, h.output⟩
  unfold removeChain
  simp only [Arena.remove_of_get? hc]
  rw [wiring_removePorts hknown, hchain]
  rfl

theorem wiring_liveSources {e e' : Engine} {key : PortKey} {f : List PortKey → List PortKey}
    (h : Session.liveSources key f e = .ok e') : e'.wiring = e.wiring.mapSources key f := by
  unfold Session.liveSources at h
  cases hp : e.ports.get? key with
  | none => rw [hp] at h; cases h
  | some p =>
    rw [hp] at h
    cases h
    refine Wiring.ext (funext fun k => ?_) rfl rfl rfl rfl
    simp only [wiring, Wiring.mapSources, Arena.get?_set, Function.update_apply, hp]
    split_ifs <;> rfl

theorem wiring_insertLoop {e : Engine} {key : LoopKey} (h : e.loops.Vacant key.index) :
    (e.insertLoop key .new).wiring = e.wiring.addLoop key := by
  refine Wiring.ext rfl (funext fun k => ?_) rfl (funext fun k => ?_) rfl
  · simp only [wiring, insertLoop, Wiring.addLoop, h.get?_insertAt, Function.update_apply]
    split_ifs <;> rfl
  · simp only [wiring_ends, Wiring.addLoop]
    refine Option.bind_congr fun l _ => ?_
    simp only [insertLoop, h.get?_insertAt]
    split_ifs with hl
    · rw [hl, h key rfl]
      rfl
    · rfl

/-- A loop of the engine that follows another one. -/
theorem wiring_follow {e : Engine} {key : LoopKey} {l : Loop} (h : e.loops.get? key = some l)
    (source : Option LoopKey) :
    { e with loops := e.loops.set key { l with syncSource := source } }.wiring =
      e.wiring.mapLoop key ({ · with syncSource := source }) := by
  refine Wiring.ext rfl (funext fun k => ?_) rfl (funext fun k => ?_) rfl
  · simp only [wiring, Wiring.mapLoop, Arena.get?_set, Function.update_apply, h]
    split_ifs <;> rfl
  · simp only [wiring_ends, Wiring.mapLoop]
    refine Option.bind_congr fun owner _ => ?_
    rw [Arena.get?_set]
    split_ifs with howner
    · rw [howner, h]
      rfl
    · rfl

theorem wiring_removeLoop {e : Engine} {key : LoopKey} {l : Loop} (h : e.loops.get? key = some l) :
    (e.removeLoop key).2.wiring = e.wiring.dropLoop key l.info.channels := by
  have hgone : ∀ k, (l.channels.foldl (fun arena c => arena.erase c.key) e.channelLoops).get? k =
      if k ∈ l.info.channels then none else e.channelLoops.get? k := by
    intro k
    rw [← Arena.get?_eraseAll, Loop.info, List.foldl_map]
  unfold removeLoop
  simp only [Arena.remove_of_get? h]
  refine Wiring.ext rfl (funext fun k => ?_) (funext fun k => ?_) (funext fun k => ?_) rfl
  · simp only [wiring, Wiring.dropLoop, Wiring.forgetLoop, Wiring.forgetChannels, Arena.get?_map, Arena.get?_erase]
    split_ifs <;> simp [Loop.info, Function.comp_def]
  · simp only [wiring, hgone, Wiring.dropLoop, Wiring.forgetLoop, Wiring.forgetChannels]
  · simp only [wiring_ends, hgone, Wiring.dropLoop, Wiring.forgetLoop, Wiring.forgetChannels]
    split_ifs with hk
    · rfl
    · refine Option.bind_congr fun owner _ => ?_
      rw [Arena.get?_map, Arena.get?_erase]
      split_ifs with howner
      · rw [howner, h]
        exact (Loop.ends_of_not_mem hk).symm
      · rw [Option.bind_map]
        rfl

theorem wiring_insertChannel {e e' : Engine} {loop : LoopKey} {c : LoopChannel}
    (h : e.insertChannel loop c = .ok e') (hvacant : e.channelLoops.Vacant c.key.index)
    (hfresh : ∀ l, e.loops.get? loop = some l → c.key ∉ l.info.channels) (hin : c.input = none)
    (hout : c.output = none) : e'.wiring = e.wiring.addChannel loop c.key := by
  unfold insertChannel at h
  cases hl : e.loops.get? loop with
  | none => rw [hl] at h; cases h
  | some l =>
    rw [hl] at h
    cases h
    refine Wiring.ext rfl (funext fun k => ?_) (funext fun k => ?_) (funext fun k => ?_) rfl
    · simp only [wiring, Wiring.addChannel, Wiring.mapLoop, Arena.get?_set, Function.update_apply, hl]
      split_ifs
      · simp [Loop.info, Loop.addChannel]
      · rfl
    · simp only [wiring, Wiring.addChannel, Wiring.mapLoop, hvacant.get?_insertAt, Function.update_apply]
    · simp only [wiring_ends, Wiring.addChannel, Wiring.mapLoop, hvacant.get?_insertAt, Function.update_apply]
      have hloop : ∀ owner, ((e.loops.set loop (l.addChannel c)).get? owner).bind (·.ends k) =
          if k = c.key ∧ owner = loop then some (none, none) else (e.loops.get? owner).bind (·.ends k) := by
        intro owner
        rw [Arena.get?_set]
        by_cases ho : owner = loop
        · simp only [ho, hl, if_true, and_true, Option.map_some, Option.bind_some, hin, hout,
            Loop.ends_addChannel (hfresh l hl)]
        · simp only [ho, if_false, and_false]
      simp only [hloop]
      split_ifs with hk
      · simp [hk]
      · simp [hk]

theorem wiring_removeChannel {e : Engine} {key : ChannelKey} {loop : LoopKey}
    (h : e.channelLoops.get? key = some loop)
    (hnodup : ∀ l, e.loops.get? loop = some l → l.info.channels.Nodup) :
    (e.removeChannel key).2.wiring = e.wiring.dropChannel loop key := by
  unfold removeChannel
  simp only [h]
  refine Wiring.ext rfl (funext fun k => ?_) (funext fun k => ?_) (funext fun k => ?_) rfl
  · simp only [wiring, Wiring.dropChannel, Wiring.mapLoop, Wiring.forgetChannels, Arena.get?_modify,
      Function.update_apply]
    split_ifs
    · cases hl : e.loops.get? loop with
      | none => rfl
      | some l => exact congrArg some (Loop.info_removeChannel (hnodup l hl) key)
    · rfl
  · simp only [wiring, Wiring.dropChannel, Wiring.mapLoop, Wiring.forgetChannels, Arena.get?_erase, List.mem_singleton]
  · simp only [wiring_ends, Wiring.dropChannel, Wiring.mapLoop, Wiring.forgetChannels, Arena.get?_erase,
      List.mem_singleton]
    split_ifs with hk
    · rfl
    · refine Option.bind_congr fun owner _ => ?_
      rw [Arena.get?_modify_eq_map, Option.bind_map]
      refine Option.bind_congr fun l _ => ?_
      simp only [Function.comp_apply]
      split_ifs
      · exact l.ends_removeChannel hk
      · rfl

theorem wiring_setChannel {e : Engine} {c d : LoopChannel}
    {g : Option PortKey × Option PortKey → Option PortKey × Option PortKey} (h : e.channel? d.key = some c)
    (hends : (d.input, d.output) = g (c.input, c.output)) :
    (e.setChannel d).wiring = e.wiring.mapEnds d.key g := by
  obtain ⟨loop, hloop, l, hl, hc⟩ : ∃ loop, e.channelLoops.get? d.key = some loop ∧
      ∃ l, e.loops.get? loop = some l ∧ l.channel? d.key = some c := by
    simpa [channel?, Option.bind_eq_some_iff] using h
  unfold setChannel
  simp only [hloop]
  refine Wiring.ext rfl (funext fun k => ?_) rfl (funext fun k => ?_) rfl
  · simp only [wiring, Wiring.mapEnds, Arena.get?_modify_eq_map, Option.map_map]
    refine congrArg (Option.map · _) (funext fun l => ?_)
    simp only [Function.comp_apply]
    split_ifs
    · exact l.info_setChannel d
    · rfl
  · simp only [wiring_ends, Wiring.mapEnds, Function.update_apply, Arena.get?_modify_eq_map, Option.bind_map]
    split_ifs with hk
    · have hold : l.ends d.key = some (c.input, c.output) := by rw [Loop.ends, hc, Option.map_some]
      subst hk
      simp [hloop, hl, Loop.ends_setChannel, hold, hends]
    · refine Option.bind_congr fun owner _ => Option.bind_congr fun l _ => ?_
      simp only [Function.comp_apply]
      split_ifs
      · rw [Loop.ends_setChannel, if_neg hk]
      · rfl

theorem channel?_key {e : Engine} {key : ChannelKey} {c : LoopChannel} (h : e.channel? key = some c) : c.key = key := by
  obtain ⟨_, -, l, -, hc⟩ : ∃ loop, e.channelLoops.get? key = some loop ∧
      ∃ l, e.loops.get? loop = some l ∧ l.channel? key = some c := by
    simpa [channel?, Option.bind_eq_some_iff] using h
  simpa using List.find?_some hc

@[simp] theorem wiring_releaseChannel (e : Engine) (c : LoopChannel) : (e.releaseChannel c).wiring = e.wiring := by
  unfold releaseChannel
  split <;> rfl

@[simp] theorem wiring_releasePort (e : Engine) (p : EnginePort) : (e.releasePort p).wiring = e.wiring := by
  unfold releasePort
  split <;> rfl

end Engine

end Overdub
