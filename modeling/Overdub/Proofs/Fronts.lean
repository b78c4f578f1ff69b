import Overdub.Proofs.Footprint
import Overdub.Proofs.Mirror
import Overdub.Proofs.Retention
/-!
# Directions and origins of ports

A cycle changes what ports carry, never where they stand: which way the data of a
port goes and who provides it is settled when it is opened (`Engine.fronts_cycle`),
and only the calls that add or remove ports change it
(`Session.keepsPorts_of_not_movesPorts`).
-/

namespace Overdub

/-- Who provides the data of a port. A port that the driver could not open is still its own. -/
def PortOrigin.owner : PortOrigin → PortOwner
  | .driver _ | .detached => .driver
  | .chain key => .chain key

/-- The number that the driver knows a port by. -/
def PortOrigin.number? : PortOrigin → Option Nat
  | .driver id => some id
  | _ => none

/-- The direction and the owner of each port. -/
def Topology.traits (t : Topology) (key : PortKey) : Option (Direction × PortOwner) :=
  (t.ports.get? key).map fun p => (p.direction, p.owner)

theorem Midi.Port.direction_writeAll (p : Midi.Port) (messages : List Midi.Message) :
    (p.writeAll messages).direction = p.direction := by
  rw [writeAll_eq]

theorem Midi.Port.direction_finish (p : Midi.Port) : p.finish.direction = p.direction := by
  have hwritten := p.direction_writeAll p.pending.messages
  unfold finish
  dsimp only
  split
  · rw [foldl_hear]
    exact hwritten
  · exact hwritten

namespace Port

theorem direction_mapAudio {f : Audio.Port → Audio.Port} (hf : ∀ p, (f p).direction = p.direction) (q : Port) :
    (q.mapAudio f).direction = q.direction := by
  cases q with
  | audio p => exact hf p
  | midi p => rfl

theorem direction_mapMidi {f : Midi.Port → Midi.Port} (hf : ∀ p, (f p).direction = p.direction) (q : Port) :
    (q.mapMidi f).direction = q.direction := by
  cases q with
  | audio p => rfl
  | midi p => exact hf p

theorem direction_finish (q : Port) : q.finish.direction = q.direction := by
  cases q with
  | audio p => rfl
  | midi p => exact p.direction_finish

theorem direction_mix (q source : Port) : (q.mix source).direction = q.direction := by
  cases q with
  | audio p => cases source <;> rfl
  | midi p =>
    cases source with
    | audio source => rfl
    | midi source => exact p.direction_writeAll source.messages

end Port

namespace Engine

/-- The direction of each port, and where its data comes from or goes to. -/
def fronts (e : Engine) (key : PortKey) : Option (Direction × PortOrigin) :=
  (e.ports.get? key).map fun p => (p.port.direction, p.origin)

def traits (e : Engine) (key : PortKey) : Option (Direction × PortOwner) :=
  (e.fronts key).map fun front => (front.1, front.2.owner)

/-- The number that the driver knows a port by. -/
def number? (e : Engine) (key : PortKey) : Option Nat := (e.fronts key).bind fun front => front.2.number?

/-! ## What cycles and commands keep -/

theorem fronts_modifyPort {e : Engine} {key : PortKey} {f : Port → Port}
    (hf : ∀ p, e.ports.get? key = some p → (f p.port).direction = p.port.direction) :
    (e.modifyPort key f).fronts = e.fronts := by
  funext k
  simp only [fronts, modifyPort, Arena.get?_modify]
  split_ifs with hk
  · subst hk
    cases hp : e.ports.get? k with
    | none => rfl
    | some p => exact congrArg (fun d => some (d, p.origin)) (hf p hp)
  · rfl

theorem direction_receive (frames : Nat) (io : DriverCycle) (origin : PortOrigin) (q : Port) :
    (receive frames io origin q).direction = q.direction := by
  cases origin with
  | driver id =>
    cases q with
    | audio p =>
      show ((io.audioInput? id).elim (p.prepare frames) (p.prepare frames).fill).direction = p.direction
      cases io.audioInput? id <;> rfl
    | midi p => exact (p.prepare frames).direction_writeAll (io.midiInput id)
  | detached => exact q.direction_prepare frames
  | chain key => rfl

theorem direction_mixSources (e : Engine) (s : Schedule) (key : PortKey) (p : EnginePort) :
    (e.mixSources s key p).direction = p.port.direction := by
  unfold mixSources
  refine List.foldlRecOn (motive := fun q : Port => q.direction = p.port.direction) p.sources _ rfl
    fun q hq source _ => ?_
  split
  · exact (q.direction_mix _).trans hq
  · exact hq

theorem fronts_processPort (e : Engine) (s : Schedule) (io : DriverCycle) (key : PortKey) :
    (e.processPort s io key).1.fronts = e.fronts := by
  unfold processPort
  split
  · rfl
  · next p hp =>
    split
    · exact fronts_modifyPort fun q _ => (Port.direction_finish _).trans (direction_receive ..)
    · refine fronts_modifyPort fun q hq => ?_
      cases hp.symm.trans hq
      exact (Port.direction_finish _).trans (e.direction_mixSources s key p)

theorem fronts_setChannel (e : Engine) (c : LoopChannel) : (e.setChannel c).fronts = e.fronts := by
  funext key
  rw [fronts, fronts, ports_setChannel]

theorem fronts_finishChannel (e : Engine) (s : Schedule) (key : ChannelKey) :
    (e.finishChannel s key).fronts = e.fronts := by
  unfold finishChannel
  split
  · rfl
  · dsimp only
    split
    · split
      · refine (fronts_modifyPort fun p _ => ?_).trans (fronts_setChannel ..)
        apply Port.direction_mapAudio
        exact fun _ => rfl
      · exact fronts_setChannel ..
    · split
      · refine (fronts_modifyPort fun p _ => ?_).trans (fronts_setChannel ..)
        apply Port.direction_mapMidi
        exact fun _ => rfl
      · exact fronts_setChannel ..

theorem fronts_foldl {α : Type} {f : Engine → α → Engine} (hf : ∀ e x, (f e x).fronts = e.fronts) (e : Engine)
    (xs : List α) : (xs.foldl f e).fronts = e.fronts :=
  List.foldlRecOn (motive := fun e' : Engine => e'.fronts = e.fronts) xs f rfl fun e' h x _ => (hf e' x).trans h

theorem fronts_processChain (e : Engine) (key : ChainKey) (frames : Nat) :
    (e.processChain key frames).fronts = e.fronts := by
  cases hc : e.chains.get? key with
  | none => rw [processChain, hc]
  | some c =>
    rw [processChain_eq hc]
    exact fronts_foldl (fun e x => fronts_modifyPort fun p _ => direction_effected _ frames x.2 p.port) e _

theorem fronts_processNode (s : Schedule) (state : Engine × DriverCycle) (id : NodeId) :
    (processNode s state id).1.fronts = state.1.fronts := by
  obtain ⟨e, io⟩ := state
  cases id with
  | portPrepare key => exact fronts_modifyPort fun p _ => p.port.direction_prepare io.frames
  | portProcess key => exact e.fronts_processPort s io key
  | loop key => rfl
  | channel key => exact e.fronts_finishChannel s key
  | chain key => exact e.fronts_processChain key io.frames

/-- A cycle leaves every port where it is. -/
theorem fronts_cycle (s : Schedule) (e : Engine) (io : DriverCycle) : (e.cycle s io).1.fronts = e.fronts :=
  cycle_keeps (φ := fun state => state.1.fronts) s (fun _ _ _ => rfl) (fronts_processNode s) e io

/-! ## What removals and additions change -/

theorem fronts_insertPort {e : Engine} {key : PortKey} (h : e.ports.Vacant key.index) (p : EnginePort) (k : PortKey) :
    (e.insertPort key p).fronts k = if k = key then some (p.port.direction, p.origin) else e.fronts k := by
  simp only [fronts, insertPort, h.get?_insertAt]
  split_ifs <;> rfl

theorem fronts_removePort (e : Engine) (key k : PortKey) :
    (e.removePort key).2.fronts k = if k = key then none else e.fronts k := by
  unfold removePort
  cases hp : e.ports.get? key with
  | none =>
    simp only [Arena.remove_of_none hp]
    split_ifs with hk
    · rw [hk, fronts, hp, Option.map_none]
    · rfl
  | some p =>
    simp only [Arena.remove_of_get? hp, fronts, Arena.get?_map, Arena.get?_erase]
    split_ifs
    · rfl
    · exact Option.map_map ..

theorem fronts_removePorts (e : Engine) (keys : List PortKey) (k : PortKey) :
    (e.removePorts keys).2.fronts k = if k ∈ keys then none else e.fronts k := by
  induction keys generalizing e with
  | nil => simp [removePorts]
  | cons key keys ih =>
    have hrest := ih (e.removePort key).2
    rw [fronts_removePort] at hrest
    refine hrest.trans ?_
    by_cases hk : k = key <;> by_cases hkeys : k ∈ keys <;> simp [hk, hkeys]

theorem fronts_releasePort (e : Engine) (p : EnginePort) : (e.releasePort p).fronts = e.fronts := by
  unfold releasePort
  split <;> rfl

theorem fronts_releaseChannel (e : Engine) (c : LoopChannel) : (e.releaseChannel c).fronts = e.fronts := by
  unfold releaseChannel
  split <;> rfl

theorem fronts_removeChannel (e : Engine) (key : ChannelKey) : (e.removeChannel key).2.fronts = e.fronts := by
  unfold removeChannel
  split <;> rfl

theorem fronts_removeLoop (e : Engine) (key : LoopKey) : (e.removeLoop key).2.fronts = e.fronts := by
  unfold removeLoop
  split <;> rfl

theorem fronts_liveSources {e e' : Engine} {key : PortKey} {f : List PortKey → List PortKey}
    (h : Session.liveSources key f e = .ok e') : e'.fronts = e.fronts := by
  obtain ⟨p, hp, rfl⟩ := Session.ok_of_map h
  funext k
  simp only [fronts, Arena.get?_set]
  split_ifs with hk
  · rw [hk, Session.some_of_expect hp]
    rfl
  · rfl

theorem fronts_adoptAll (e : Engine) (request : AdoptRequest) (keys : List LoopKey) :
    (e.adoptAll request keys).1.fronts = e.fronts := by
  have hadopt : ∀ (e : Engine) key, (e.adopt request key).1.fronts = e.fronts := by
    intro e key
    unfold adopt
    split <;> rfl
  induction keys generalizing e with
  | nil => rfl
  | cons key keys ih => exact (ih _).trans (hadopt e key)

end Engine

namespace Topology

theorem traits_insertPort {t : Topology} (h : t.ports.Sound) (p : PortInfo) (k : PortKey) :
    { t with ports := (t.ports.insert p).2 }.traits k =
      if k = (t.ports.insert p).1 then some (p.direction, p.owner) else t.traits k := by
  simp only [traits, h.get?_insert]
  split_ifs <;> rfl

theorem traits_removePort (t : Topology) (key k : PortKey) :
    (t.removePort key).traits k = if k = key then none else t.traits k := by
  simp only [traits, removePort, forgetPort, Arena.get?_map, Arena.get?_erase]
  split_ifs
  · rfl
  · exact Option.map_map ..

theorem traits_removePorts (t : Topology) (keys : List PortKey) (k : PortKey) :
    (keys.foldl removePort t).traits k = if k ∈ keys then none else t.traits k := by
  induction keys generalizing t with
  | nil => simp
  | cons key keys ih =>
    rw [List.foldl_cons, ih, traits_removePort]
    by_cases hk : k = key <;> by_cases hkeys : k ∈ keys <;> simp [hk, hkeys]

theorem traits_knownSources (t : Topology) (key : PortKey) (f : List PortKey → List PortKey) :
    (Session.knownSources t key f).traits = t.traits := by
  funext k
  simp only [traits, get?_knownSources, Option.map_map]
  refine congrArg (Option.map · _) (funext fun p => ?_)
  simp only [Function.comp_apply]
  split_ifs <;> rfl

end Topology

/-! ## Calls that leave every port where it is -/

namespace Session

/-- The call neither adds nor removes nor turns a port, and leaves the driver alone. -/
def KeepsPorts {α : Type} (c : Call α) : Prop := Fixes (fun s => (s.engine.fronts, s.driver)) c

section KeepsPorts

variable {α β : Type}

theorem Reads.keepsPorts {c : Call α} (h : Reads c) : KeepsPorts c := h.fixes

theorem KeepsPorts.bind {c : Call α} {f : α → Call β} (hc : KeepsPorts c) (hf : ∀ a, KeepsPorts (f a)) : KeepsPorts (c >>= f) :=
  Fixes.bind hc hf

theorem KeepsPorts.reads {c : Call α} {f : α → Call β} (hc : Reads c) (hf : ∀ a, KeepsPorts (f a)) : KeepsPorts (c >>= f) :=
  .bind hc.keepsPorts hf

/-- Before an answer. -/
theorem KeepsPorts.then {c : Call α} {f : α → Call β} (hc : KeepsPorts c) (hf : ∀ a, Reads (f a)) : KeepsPorts (c >>= f) :=
  .bind hc fun a => (hf a).keepsPorts

theorem KeepsPorts.map {c : Call α} (h : KeepsPorts c) (f : α → β) : KeepsPorts (f <$> c) := Fixes.map h f

theorem KeepsPorts.exec {command : Engine → Except Error (α × Engine)}
    (h : ∀ e a e', command e = .ok (a, e') → e'.fronts = e.fronts) : KeepsPorts (exec command) := by
  intro s
  rw [call_exec]
  split
  · next a e' he => exact congrArg (·, s.driver) (h _ a e' he)
  · rfl

theorem KeepsPorts.run {command : Engine → Except Error Engine}
    (h : ∀ e e', command e = .ok e' → e'.fronts = e.fronts) : KeepsPorts (run command) := by
  refine .exec fun e a e' he => ?_
  obtain ⟨made, hmade, hpair⟩ := ok_of_map he
  cases hpair
  exact h e _ hmade

theorem KeepsPorts.modify {f : Session → Session} (hengine : ∀ s, (f s).engine = s.engine)
    (hdriver : ∀ s, (f s).driver = s.driver) : KeepsPorts (MonadState.modifyGet fun s => ((), f s) : Call Unit) := by
  intro s
  show ((f s).engine.fronts, (f s).driver) = _
  rw [hengine, hdriver]

theorem KeepsPorts.commit {t : Topology} {command : Engine → Except Error Engine}
    (h : ∀ e e', command e = .ok e' → e'.fronts = e.fronts) : KeepsPorts (commit t command) :=
  (KeepsPorts.run h).bind fun _ => .modify (fun _ => rfl) fun _ => rfl

theorem KeepsPorts.retract {t : Topology} {command : Engine → Except Error (α × Engine)}
    (h : ∀ e a e', command e = .ok (a, e') → e'.fronts = e.fronts) : KeepsPorts (retract t command) := by
  intro s
  rw [call_retract]
  dsimp only
  split
  · exact KeepsPorts.exec h { s with topology := t, publisher := (s.publisher.publishNow t).1 }
  · rfl

theorem KeepsPorts.changePort (key : PortKey) {f : Port → Port} (hf : ∀ p, (f p).direction = p.direction) :
    KeepsPorts (changePort key f) := by
  refine (Reads.port key).keepsPorts.bind fun _ => .run fun e e' he => ?_
  cases he
  exact Engine.fronts_modifyPort fun p _ => hf p.port

theorem KeepsPorts.changeLoops (keys : List LoopKey) (f : Loop → Loop) : KeepsPorts (changeLoops keys f) := by
  refine (Reads.checkLoops keys).keepsPorts.bind fun _ => .run fun e e' he => ?_
  induction keys generalizing e with
  | nil => cases he; rfl
  | cons key keys ih =>
    rw [List.foldlM_cons] at he
    obtain ⟨first, hfirst, hrest⟩ := ok_of_bind he
    obtain ⟨l, -, hset⟩ := ok_of_bind hfirst
    cases hset
    refine (ih _ hrest).trans ?_
    rfl

theorem KeepsPorts.changeChannel (key : ChannelKey)
    (f : LoopChannel → Audio.Pool → Except Error (α × LoopChannel × Audio.Pool)) : KeepsPorts (changeChannel key f) := by
  refine (Reads.lookup _ key).keepsPorts.bind fun _ => .exec fun e a e' he => ?_
  obtain ⟨c, -, he⟩ := ok_of_bind he
  obtain ⟨⟨a', c', pool⟩, -, he⟩ := ok_of_bind he
  cases he
  exact Engine.fronts_setChannel _ c'

theorem KeepsPorts.changeBody (key : ChannelKey) (f : ChannelBody → ChannelBody) : KeepsPorts (changeBody key f) :=
  .changeChannel _ _

theorem KeepsPorts.changeAudio (key : ChannelKey) (f : Audio.Channel → Audio.Pool → Audio.Channel × Audio.Pool) :
    KeepsPorts (changeAudio key f) := .changeChannel _ _

theorem KeepsPorts.setCaptured (key : PortKey) (depth : Nat) : KeepsPorts (setCaptured key depth) := by
  refine .reads (.lookup _ _) fun info => .reads (.require _ _) fun _ => .run fun e e' he => ?_
  obtain ⟨p, hp, he⟩ := ok_of_bind he
  have hp := some_of_expect hp
  -- the port stays what it was, also where the pool of the engine changes
  have hfronts : ∀ (pool : Audio.Pool) (q : Port), q.direction = p.port.direction →
      ({ e with pool }.modifyPort key fun _ => q).fronts = e.fronts := by
    intro pool q hq
    refine (Engine.fronts_modifyPort fun p' hp' => ?_).trans rfl
    cases hp.symm.trans hp'
    exact hq
  split at he
  · next q _ hq =>
    cases he
    exact hfronts _ _ (by rw [hq]; rfl)
  · next q _ hq =>
    cases he
    exact hfronts e.pool _ (by rw [hq]; rfl)
  · cases he
  · cases he

theorem KeepsPorts.connectPorts (source target : PortKey) : KeepsPorts (connectPorts source target) := by
  refine .reads (.lookup _ _) fun _ => .reads (.lookup _ _) fun dst => ?_
  refine .reads (.require _ _) fun _ => .reads (.require _ _) fun _ => .reads (.require _ _) fun _ => ?_
  split
  · exact (Reads.pure _).keepsPorts
  · exact .reads .get fun _ => .reads (.lift _) fun _ => .commit fun _ _ => Engine.fronts_liveSources

theorem KeepsPorts.disconnectPorts (source target : PortKey) : KeepsPorts (disconnectPorts source target) := by
  refine .reads (.lookup _ _) fun dst => .reads (.require _ _) fun _ => .reads .get fun _ => .retract fun e a e' he => ?_
  obtain ⟨f, hf, hpair⟩ := ok_of_map he
  cases hpair
  exact Engine.fronts_liveSources hf

theorem KeepsPorts.addLoop : KeepsPorts addLoop := by
  refine .reads .get fun _ => .then (.commit fun e e' he => ?_) fun _ => .pure _
  cases he
  rfl

theorem KeepsPorts.deleteLoop (key : LoopKey) : KeepsPorts (deleteLoop key) := by
  refine .reads (.lookup _ _) fun _ => .reads .get fun _ => .retract fun e a e' he => ?_
  cases he
  exact (Engine.fronts_foldl Engine.fronts_releaseChannel _ _).trans (e.fronts_removeLoop key)

theorem KeepsPorts.setSyncSource (key : LoopKey) (source : Option LoopKey) : KeepsPorts (setSyncSource key source) := by
  refine .reads (.checkLoops _) fun _ => .reads .get fun _ => .reads (.require _ _) fun _ => ?_
  exact .bind (.changeLoops _ _) fun _ => .modify (fun _ => rfl) fun _ => rfl

theorem KeepsPorts.adopt (keys : List LoopKey) (request : AdoptRequest) : KeepsPorts (adopt keys request) := by
  refine .reads (.checkLoops _) fun _ => .then (.exec fun e a e' he => ?_) fun _ => .lift _
  cases he
  exact e.fronts_adoptAll request keys

theorem KeepsPorts.addChannel (loop : LoopKey) (dataType : DataType) (mode : ChannelMode) :
    KeepsPorts (addChannel loop dataType mode) := by
  refine .reads (.lookup _ _) fun _ => .reads .get fun _ => .then (.commit fun e e' he => ?_) fun _ => .pure _
  obtain ⟨l, -, rfl⟩ := ok_of_map he
  rfl

theorem KeepsPorts.deleteChannel (key : ChannelKey) : KeepsPorts (deleteChannel key) := by
  refine .reads (.lookup _ _) fun _ => .reads .get fun _ => .retract fun e a e' he => ?_
  have hremoved := e.fronts_removeChannel key
  generalize e.removeChannel key = removed at he hremoved
  obtain ⟨_ | gone, f⟩ := removed <;> cases he
  · exact hremoved
  · exact (f.fronts_releaseChannel gone).trans hremoved

theorem KeepsPorts.connectChannel (key : ChannelKey) (port : PortKey) (direction : Direction) :
    KeepsPorts (connectChannel key port direction) := by
  refine .reads (.lookup _ _) fun _ => .reads (.lookup _ _) fun _ => ?_
  refine .reads (.require _ _) fun _ => .reads (.require _ _) fun _ => .reads .get fun _ => .commit fun e e' he => ?_
  obtain ⟨c, -, he⟩ := ok_of_bind he
  cases he
  exact e.fronts_setChannel _

theorem KeepsPorts.disconnectChannel (key : ChannelKey) (port : PortKey) : KeepsPorts (disconnectChannel key port) := by
  refine .reads (.lookup _ _) fun _ => .reads (.require _ _) fun _ => .reads .get fun _ => .retract fun e a e' he => ?_
  obtain ⟨c, -, he⟩ := ok_of_bind he
  cases he
  exact e.fronts_setChannel _

theorem KeepsPorts.setChainActive (key : ChainKey) (active : Bool) : KeepsPorts (setChainActive key active) := by
  refine .reads (.lookup _ _) fun _ => .run fun e e' he => ?_
  obtain ⟨c, -, he⟩ := ok_of_bind he
  cases he
  rfl

end KeepsPorts

/-- The action adds or removes ports, or has to do with the driver. -/
def Action.movesPorts : Action → Bool
  | openPort .. | closePort .. | addChain .. | deleteChain .. | setDriver .. | changeDriver .. | advance .. => true
  | _ => false

/-- Every other call leaves every port where it is. -/
theorem keepsPorts_of_not_movesPorts {a : Action} (h : a.movesPorts = false) : KeepsPorts a.call := by
  unfold Action.call
  cases a with
  | connectPorts source target => exact .connectPorts source target
  | disconnectPorts source target => exact .disconnectPorts source target
  | setPortGain key gain => exact .changePort _ fun p => by cases p <;> rfl
  | setPortMuted key muted => exact .changePort _ fun p => by cases p <;> rfl
  | setCaptured key depth => exact .setCaptured key depth
  | takePortPeaks key =>
    exact .map (.reads (.portStatus _) fun _ => .then (.changePort _ fun p => by cases p <;> rfl) fun _ => .pure _) _
  | portInfo key => exact ((Reads.lookup _ _).map _).keepsPorts
  | portStatus key => exact ((Reads.portStatus _).map _).keepsPorts
  | addLoop => exact .map .addLoop _
  | deleteLoop key => exact .deleteLoop key
  | setSyncSource key source => exact .setSyncSource key source
  | transition keys mode delay waitForSync => exact .changeLoops _ _
  | setLength key length => exact .changeLoops _ _
  | setPosition key position => exact .changeLoops _ _
  | adopt keys request => exact .adopt keys request
  | loopChannels key => exact ((Reads.loopChannels key).map _).keepsPorts
  | loopStatus key => exact ((Reads.loopStatus key).map _).keepsPorts
  | addChannel loop dataType mode => exact .map (.addChannel loop dataType mode) _
  | deleteChannel key => exact .deleteChannel key
  | connectChannel key port direction => exact .connectChannel key port direction
  | disconnectChannel key port => exact .disconnectChannel key port
  | setChannelMode key mode => exact .changeBody _ _
  | setChannelGain key gain => exact .changeAudio _ _
  | setStartOffset key startOffset => exact .changeBody _ _
  | setPrePlay key prePlay => exact .changeBody _ _
  | loadAudio key samples => exact .reads .get fun _ => .changeAudio _ _
  | loadMidi key events length => exact .changeChannel _ _
  | clearChannel key length => exact .changeChannel _ _
  | takeChannelPeak key => exact .map (.changeChannel _ _) _
  | channelStatus key => exact ((Reads.channelStatus key).map _).keepsPorts
  | audioData key => exact ((Reads.audioData key).map _).keepsPorts
  | midiData key => exact ((Reads.midiData key).map _).keepsPorts
  | setChainActive key active => exact .setChainActive key active
  | chainInfo key => exact ((Reads.lookup _ _).map _).keepsPorts
  | settle => exact .modify (fun _ => rfl) fun _ => rfl
  | _ => cases h

end Session

end Overdub
