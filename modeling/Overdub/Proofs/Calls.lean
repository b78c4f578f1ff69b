import Mathlib
import Overdub.Proofs.Arena
import Overdub.Session.Chains
import Overdub.Session.Channels
import Overdub.Session.Driver
import Overdub.Session.Loops
import Overdub.Session.Ports
/-!
# What a call can do to the topology

`Session.Action` lists the calls of a session, `Session.Change` what each of them
makes of the topology when it does anything to it at all, and `Session.change_act`
says that nothing else happens: a call that is refused, or whose engine command
fails, either leaves the topology alone or has made the same change. The checks a
call makes before it acts are part of the change, so that no later proof looks
into a call again.
-/

namespace Overdub.Session

/-- Makes a call. -/
def call {α : Type} (s : Session) (c : Call α) : Except Error α × Session := c.run.run s

section Steps

variable {α β : Type} {kind : ObjectKind} (s : Session)

@[simp] theorem call_get : s.call (get : Call Session) = (.ok s, s) := rfl

@[simp] theorem call_pure (a : α) : s.call (pure a : Call α) = (.ok a, s) := rfl

@[simp] theorem call_throw (e : Error) : s.call (throw e : Call α) = (.error e, s) := rfl

@[simp] theorem call_modify (f : Session → Session) : s.call (modify f : Call Unit) = (.ok (), f s) := rfl

@[simp] theorem call_lift (x : Except Error α) : s.call (liftM x : Call α) = (x, s) := by cases x <;> rfl

theorem call_bind (c : Call α) (f : α → Call β) :
    s.call (c >>= f) = match s.call c with
      | (.ok a, s') => s'.call (f a)
      | (.error e, s') => (.error e, s') := by
  unfold call
  simp only [ExceptT.run_bind, StateT.run_bind]
  generalize StateT.run c.run s = made
  obtain ⟨e | a, s'⟩ := made <;> rfl

@[simp] theorem call_lookup (arena : Topology → Arena kind α) (key : Key kind) :
    s.call (lookup arena key) = (Engine.expect kind.label ((arena s.topology).get? key), s) := by
  unfold lookup
  rw [call_bind, call_get]
  exact call_lift _ _

@[simp] theorem call_require (condition : Bool) (reason : String) :
    s.call (require condition reason) = (if condition then .ok () else .error (.invalidArgument reason), s) := by
  cases condition <;> rfl

theorem call_exec (command : Engine → Except Error (α × Engine)) :
    s.call (exec command) = match command s.engine with
      | .ok (a, engine) => (.ok a, { s with engine })
      | .error e => (.error e, s) := by
  unfold exec
  rw [call_bind, call_get]
  dsimp only
  rw [call_bind, call_lift]
  cases command s.engine <;> rfl

theorem call_run (command : Engine → Except Error Engine) :
    s.call (run command) = match command s.engine with
      | .ok engine => (.ok (), { s with engine })
      | .error e => (.error e, s) := by
  unfold run
  rw [call_exec]
  cases command s.engine <;> rfl

theorem call_commit (t : Topology) (command : Engine → Except Error Engine) :
    s.call (commit t command) = match command s.engine with
      | .ok engine => (.ok (), { s with engine, topology := t, publisher := s.publisher.request t })
      | .error e => (.error e, s) := by
  unfold commit
  rw [call_bind, call_run]
  cases command s.engine <;> rfl

/-- The topology is replaced before anything of this can fail, and is not put back. -/
theorem call_retract (t : Topology) (command : Engine → Except Error (α × Engine)) :
    s.call (retract t command) =
      let left := { s with topology := t, publisher := (s.publisher.publishNow t).1 }
      match (s.publisher.publishNow t).2 with
      | .ok _ => left.call (exec command)
      | .error e => (.error e, left) := by
  unfold retract
  rw [call_bind, call_get]
  dsimp only
  rw [call_bind, call_modify]
  dsimp only
  rw [call_bind, call_lift]
  cases (s.publisher.publishNow t).2 <;> rfl

theorem call_tryCatch (c : Call α) (handler : Error → Call α) :
    s.call (tryCatch c handler) = match s.call c with
      | (.ok a, s') => (.ok a, s')
      | (.error e, s') => s'.call (handler e) := by
  show (ExceptT.run (ExceptT.tryCatch c handler)).run s = _
  unfold call
  simp only [ExceptT.tryCatch, ExceptT.run, ExceptT.mk, StateT.run_bind]
  generalize StateT.run c s = made
  obtain ⟨e | a, s'⟩ := made <;> rfl

end Steps

/-! ## Calls that only look -/

/-- The call changes nothing at all. -/
def Reads {α : Type} (c : Call α) : Prop := ∀ s : Session, (s.call c).2 = s

section Reads

variable {α β : Type} {kind : ObjectKind}

theorem Reads.bind {c : Call α} {f : α → Call β} (hc : Reads c) (hf : ∀ a, Reads (f a)) : Reads (c >>= f) := by
  intro s
  rw [call_bind]
  have h := hc s
  generalize s.call c = made at h ⊢
  obtain ⟨e | a, s'⟩ := made
  · exact h
  · obtain rfl : s' = s := h
    exact hf a s'

theorem Reads.pure (a : α) : Reads (Pure.pure a) := fun _ => rfl

theorem Reads.get : Reads (MonadState.get : Call Session) := fun _ => rfl

theorem Reads.throw (e : Error) : Reads (MonadExcept.throw e : Call α) := fun _ => rfl

theorem Reads.lift (x : Except Error α) : Reads (liftM x : Call α) := fun s => by rw [call_lift]

theorem Reads.lookup (arena : Topology → Arena kind α) (key : Key kind) : Reads (lookup arena key) := fun s => by
  rw [call_lookup]

theorem Reads.require (condition : Bool) (reason : String) : Reads (require condition reason) := fun s => by
  rw [call_require]

theorem Reads.map {c : Call α} (h : Reads c) (f : α → β) : Reads (f <$> c) := by
  rw [← bind_pure_comp]
  exact h.bind fun _ => .pure _

theorem Reads.checkLoops (keys : List LoopKey) : Reads (checkLoops keys) := by
  induction keys with
  | nil => exact .pure ()
  | cons key keys ih => exact ((Reads.lookup _ key).map _).bind fun _ => ih

theorem Reads.port (key : PortKey) : Reads (port key) :=
  (Reads.lookup _ key).bind fun _ => Reads.get.bind fun _ => .lift _

theorem Reads.portStatus (key : PortKey) : Reads (portStatus key) := (Reads.port key).bind fun _ => .pure _

theorem Reads.channel (key : ChannelKey) : Reads (channel key) :=
  (Reads.lookup _ key).bind fun _ => Reads.get.bind fun _ => .lift _

theorem Reads.loopChannels (key : LoopKey) : Reads (loopChannels key) := (Reads.lookup _ key).bind fun _ => .pure _

theorem Reads.loopStatus (key : LoopKey) : Reads (loopStatus key) :=
  (Reads.checkLoops _).bind fun _ => Reads.get.bind fun _ => (Reads.lift _).bind fun _ => .pure _

theorem Reads.channelStatus (key : ChannelKey) : Reads (channelStatus key) := (Reads.channel key).bind fun _ => .pure _

theorem Reads.audioData (key : ChannelKey) : Reads (audioData key) := by
  refine (Reads.channel key).bind fun c => ?_
  split
  · exact .pure _
  · exact .throw _

theorem Reads.midiData (key : ChannelKey) : Reads (midiData key) := by
  refine (Reads.channel key).bind fun c => ?_
  split
  · exact .pure _
  · exact .throw _

end Reads

/-! ## Calls that leave something alone -/

/-- The call does not change what `φ` shows of a session. -/
def Fixes {α γ : Type} (φ : Session → γ) (c : Call α) : Prop := ∀ s : Session, φ (s.call c).2 = φ s

section Fixes

variable {α β γ : Type} {φ : Session → γ}

theorem Reads.fixes {c : Call α} (h : Reads c) : Fixes φ c := fun s => by rw [h s]

theorem Fixes.bind {c : Call α} {f : α → Call β} (hc : Fixes φ c) (hf : ∀ a, Fixes φ (f a)) : Fixes φ (c >>= f) := by
  intro s
  rw [call_bind]
  have h := hc s
  generalize s.call c = made at h ⊢
  obtain ⟨e | a, s'⟩ := made
  · exact h
  · exact (hf a s').trans h

theorem Fixes.map {c : Call α} (h : Fixes φ c) (f : α → β) : Fixes φ (f <$> c) := by
  rw [← bind_pure_comp]
  exact h.bind fun _ => (Reads.pure _).fixes

theorem Fixes.tryCatch {c : Call α} {handler : Error → Call α} (hc : Fixes φ c) (hh : ∀ e, Fixes φ (handler e)) :
    Fixes φ (MonadExcept.tryCatch c handler) := by
  intro s
  rw [call_tryCatch]
  have h := hc s
  generalize s.call c = made at h ⊢
  obtain ⟨e | a, s'⟩ := made
  · exact (hh e s').trans h
  · exact h

end Fixes

/-! ## Calls that change the engine and the driver alone -/

/-- What `φ` shows of a session is neither of its engine nor of its driver. -/
def Aside {γ : Type} (φ : Session → γ) : Prop := ∀ s engine driver, φ { s with engine, driver } = φ s

section Aside

variable {α γ : Type} {φ : Session → γ} (hφ : Aside φ)
include hφ

theorem Fixes.exec (command : Engine → Except Error (α × Engine)) : Fixes φ (exec command) := fun s => by
  rw [call_exec]
  split
  · exact hφ s _ s.driver
  · rfl

theorem Fixes.run (command : Engine → Except Error Engine) : Fixes φ (run command) := .exec hφ _

theorem Fixes.changeLoops (keys : List LoopKey) (f : Loop → Loop) : Fixes φ (changeLoops keys f) :=
  (Reads.checkLoops keys).fixes.bind fun _ => .run hφ _

theorem Fixes.changePort (key : PortKey) (f : Port → Port) : Fixes φ (changePort key f) :=
  (Reads.port key).fixes.bind fun _ => .run hφ _

theorem Fixes.changeChannel (key : ChannelKey)
    (f : LoopChannel → Audio.Pool → Except Error (α × LoopChannel × Audio.Pool)) : Fixes φ (changeChannel key f) :=
  (Reads.lookup _ key).fixes.bind fun _ => .exec hφ _

theorem Fixes.changeBody (key : ChannelKey) (f : ChannelBody → ChannelBody) : Fixes φ (changeBody key f) :=
  .changeChannel hφ _ _

theorem Fixes.changeAudio (key : ChannelKey) (f : Audio.Channel → Audio.Pool → Audio.Channel × Audio.Pool) :
    Fixes φ (changeAudio key f) := .changeChannel hφ _ _

theorem Fixes.attachDriver (d : DummyDriver) : Fixes φ (attachDriver d) := by
  refine Reads.get.fixes.bind fun s => ?_
  refine (Fixes.run hφ _).bind fun _ => ?_
  split
  · exact fun s => hφ s s.engine _
  · exact (Reads.throw _).fixes

theorem Aside.advance (frames : Nat) (s : Session) : φ (s.advance frames).2 = φ s := by
  unfold Session.advance
  split
  · rfl
  · exact hφ s _ _

end Aside

/-! ## Calls that leave the topology alone -/

/-- The call does not touch the topology. -/
def Keeps {α : Type} (c : Call α) : Prop := ∀ s : Session, (s.call c).2.topology = s.topology

section Keeps

variable {α β : Type}

theorem aside_topology : Aside (·.topology) := fun _ _ _ => rfl

theorem Reads.keeps {c : Call α} (h : Reads c) : Keeps c := fun s => by rw [h s]

theorem Keeps.pure (a : α) : Keeps (Pure.pure a) := (Reads.pure a).keeps

theorem Keeps.throw (e : Error) : Keeps (MonadExcept.throw e : Call α) := (Reads.throw e).keeps

theorem Keeps.bind {c : Call α} {f : α → Call β} (hc : Keeps c) (hf : ∀ a, Keeps (f a)) : Keeps (c >>= f) :=
  Fixes.bind hc hf

theorem Keeps.exec (command : Engine → Except Error (α × Engine)) : Keeps (exec command) :=
  Fixes.exec aside_topology command

theorem Keeps.modify {f : Session → Session} (h : ∀ s, (f s).topology = s.topology) :
    Keeps (MonadState.modifyGet fun s => ((), f s) : Call Unit) := h

theorem Keeps.changeLoops (keys : List LoopKey) (f : Loop → Loop) : Keeps (changeLoops keys f) :=
  Fixes.changeLoops aside_topology keys f

end Keeps

/-! ## The calls -/

/-- A call of the control side, or a step of the other side or of the worker. -/
inductive Action where
  | openPort (name : String) (dataType : DataType) (direction : Direction)
  | closePort (key : PortKey)
  | connectPorts (source target : PortKey)
  | disconnectPorts (source target : PortKey)
  | setPortGain (key : PortKey) (gain : Audio.Sample)
  | setPortMuted (key : PortKey) (muted : Bool)
  | setCaptured (key : PortKey) (depth : Nat)
  | takePortPeaks (key : PortKey)
  | portInfo (key : PortKey)
  | portStatus (key : PortKey)
  | addLoop
  | deleteLoop (key : LoopKey)
  | setSyncSource (key : LoopKey) (source : Option LoopKey)
  | transition (keys : List LoopKey) (mode : LoopMode) (delay : Nat) (waitForSync : Bool)
  | setLength (key : LoopKey) (length : Nat)
  | setPosition (key : LoopKey) (position : Nat)
  | adopt (keys : List LoopKey) (request : AdoptRequest)
  | loopChannels (key : LoopKey)
  | loopStatus (key : LoopKey)
  | addChannel (loop : LoopKey) (dataType : DataType) (mode : ChannelMode)
  | deleteChannel (key : ChannelKey)
  | connectChannel (key : ChannelKey) (port : PortKey) (direction : Direction)
  | disconnectChannel (key : ChannelKey) (port : PortKey)
  | setChannelMode (key : ChannelKey) (mode : ChannelMode)
  | setChannelGain (key : ChannelKey) (gain : Audio.Sample)
  | setStartOffset (key : ChannelKey) (startOffset : Int)
  | setPrePlay (key : ChannelKey) (prePlay : Nat)
  | loadAudio (key : ChannelKey) (samples : Audio.Buffer)
  | loadMidi (key : ChannelKey) (events : List Midi.SequenceEvent) (length : Nat)
  | clearChannel (key : ChannelKey) (length : Nat)
  | takeChannelPeak (key : ChannelKey)
  | channelStatus (key : ChannelKey)
  | audioData (key : ChannelKey)
  | midiData (key : ChannelKey)
  | addChain (name : String) (effect : Effect.Chain)
  | deleteChain (key : ChainKey)
  | setChainActive (key : ChainKey) (active : Bool)
  | chainInfo (key : ChainKey)
  | setDriver (driver : DummyDriver)
  /-- What somebody outside does to the driver. -/
  | changeDriver (change : DummyDriver → DummyDriver)
  /-- The driver processes frames. -/
  | advance (frames : Nat)
  /-- The worker catches up. -/
  | settle

/-- What is done. Answers other than errors are thrown away. -/
def Action.call : Action → Call Unit
  | openPort name dataType direction => discard (Session.openPort name dataType direction)
  | closePort key => Session.closePort key
  | connectPorts source target => Session.connectPorts source target
  | disconnectPorts source target => Session.disconnectPorts source target
  | setPortGain key gain => Session.setPortGain key gain
  | setPortMuted key muted => Session.setPortMuted key muted
  | setCaptured key depth => Session.setCaptured key depth
  | takePortPeaks key => discard (Session.takePortPeaks key)
  | portInfo key => discard (Session.portInfo key)
  | portStatus key => discard (Session.portStatus key)
  | addLoop => discard Session.addLoop
  | deleteLoop key => Session.deleteLoop key
  | setSyncSource key source => Session.setSyncSource key source
  | transition keys mode delay waitForSync => Session.transition keys mode delay waitForSync
  | setLength key length => Session.setLength key length
  | setPosition key position => Session.setPosition key position
  | adopt keys request => Session.adopt keys request
  | loopChannels key => discard (Session.loopChannels key)
  | loopStatus key => discard (Session.loopStatus key)
  | addChannel loop dataType mode => discard (Session.addChannel loop dataType mode)
  | deleteChannel key => Session.deleteChannel key
  | connectChannel key port direction => Session.connectChannel key port direction
  | disconnectChannel key port => Session.disconnectChannel key port
  | setChannelMode key mode => Session.setChannelMode key mode
  | setChannelGain key gain => Session.setChannelGain key gain
  | setStartOffset key startOffset => Session.setStartOffset key startOffset
  | setPrePlay key prePlay => Session.setPrePlay key prePlay
  | loadAudio key samples => Session.loadAudio key samples
  | loadMidi key events length => Session.loadMidi key events length
  | clearChannel key length => Session.clearChannel key length
  | takeChannelPeak key => discard (Session.takeChannelPeak key)
  | channelStatus key => discard (Session.channelStatus key)
  | audioData key => discard (Session.audioData key)
  | midiData key => discard (Session.midiData key)
  | addChain name effect => discard (Session.addChain name effect)
  | deleteChain key => discard (Session.deleteChain key)
  | setChainActive key active => Session.setChainActive key active
  | chainInfo key => discard (Session.chainInfo key)
  | setDriver driver => Session.setDriver driver
  | changeDriver change => modify (·.modifyDriver change)
  | advance frames => modify fun s => (s.advance frames).2
  | settle => modify fun s => s.settle.2

/-- What is left of a session after an action. -/
def act (s : Session) (a : Action) : Session := (s.call a.call).2

/-- What is left of a session after actions in turn. -/
def after (s : Session) (actions : List Action) : Session := actions.foldl act s

@[simp] theorem after_nil (s : Session) : s.after [] = s := rfl

theorem after_append (s : Session) (actions later : List Action) :
    s.after (actions ++ later) = (s.after actions).after later := List.foldl_append

/-! ## What becomes of the topology -/

/-- A channel with one side connected to a port. -/
def joined (port : PortKey) (direction : Direction) (c : ChannelInfo) : ChannelInfo :=
  match direction with
  | .input => { c with input := some port }
  | .output => { c with output := some port }

/-- The ports of one side of a chain, numbered from one, as far as the topology is concerned. -/
def withChainPorts (chain : ChainKey) (label : String) (dataType : DataType) (direction : Direction) (count : Nat)
    (t : Topology) : List PortKey × Topology :=
  (List.range count).foldl (fun (keys, t) i =>
    let (key, ports) := t.ports.insert
      { name := s!"{label}_{i + 1}", dataType, direction, owner := .chain chain }
    (keys ++ [key], { t with ports })) ([], t)

/-- A chain with its ports, as far as the topology is concerned. -/
def withChain (name : String) (layout : Effect.Layout) (t : Topology) : Topology :=
  let (key, chains) := t.chains.insert { name }
  let (audioInputs, t) := withChainPorts key s!"{name}_in" .audio .output layout.audioInputs { t with chains }
  let (audioOutputs, t) := withChainPorts key s!"{name}_out" .audio .input layout.audioOutputs t
  let (midiInputs, t) := withChainPorts key s!"{name}_midi_in" .midi .output layout.midiInputs t
  { t with chains := t.chains.set key { name, audioInputs, audioOutputs, midiInputs } }

/-- What an action makes of the topology, under the checks that come first. -/
inductive Change : Action → Topology → Topology → Prop
  | openPort {t name dataType direction} : Change (.openPort name dataType direction) t
      { t with ports := (t.ports.insert { name, dataType, direction, owner := .driver }).2 }
  | closePort {t key info} : t.ports.get? key = some info → info.owner = .driver →
      Change (.closePort key) t (t.removePort key)
  | connectPorts {t source target src dst order} : t.ports.get? source = some src → t.ports.get? target = some dst →
      source ≠ target → dst.direction = .output → src.dataType = dst.dataType → source ∉ dst.sources →
      (knownSources t target (· ++ [source])).schedule 0 = .ok order →
      Change (.connectPorts source target) t (knownSources t target (· ++ [source]))
  | disconnectPorts {t source target dst} : t.ports.get? target = some dst → source ∈ dst.sources →
      Change (.disconnectPorts source target) t (knownSources t target (List.filter (· ≠ source)))
  | addLoop {t} : Change .addLoop t { t with loops := (t.loops.insert {}).2 }
  | deleteLoop {t key info} : t.loops.get? key = some info → Change (.deleteLoop key) t (t.removeLoop key info)
  | setSyncSource {t key source} : t.loops.contains key = true → (∀ other ∈ source, t.loops.contains other = true) →
      source.any (isFollowed t key t.loops.size) = false →
      Change (.setSyncSource key source) t { t with loops := t.loops.modify key ({ · with syncSource := source }) }
  | addChannel {t loop dataType mode} : t.loops.contains loop = true →
      Change (.addChannel loop dataType mode) t
        { t with
          channels := (t.channels.insert { loop, dataType }).2
          loops := t.loops.modify loop fun l =>
            { l with channels := l.channels ++ [(t.channels.insert { loop, dataType }).1] } }
  | deleteChannel {t key info} : t.channels.get? key = some info →
      Change (.deleteChannel key) t (t.removeChannel key info)
  | connectChannel {t key port direction p c} : t.ports.get? port = some p → t.channels.get? key = some c →
      p.direction = direction → p.dataType = c.dataType →
      Change (.connectChannel key port direction) t { t with channels := t.channels.modify key (joined port direction) }
  | disconnectChannel {t key port c} : t.channels.get? key = some c → c.input = some port ∨ c.output = some port →
      Change (.disconnectChannel key port) t
        { t with
          channels := t.channels.modify key fun c =>
            { c with input := Topology.without port c.input, output := Topology.without port c.output } }
  | addChain {t name effect} : Change (.addChain name effect) t (withChain name effect.layout t)
  | deleteChain {t key info} : t.chains.get? key = some info → Change (.deleteChain key) t (t.removeChain key info)

/-- The call leaves a topology of which `Q` holds. -/
def Leaves {α : Type} (c : Call α) (s : Session) (Q : Topology → Prop) : Prop := Q (s.call c).2.topology

section Leaves

variable {α β : Type} {kind : ObjectKind} {s : Session} {Q : Topology → Prop}

theorem Leaves.of_keeps {c : Call α} (hc : Keeps c) (hQ : Q s.topology) : Leaves c s Q := by
  unfold Leaves
  rwa [hc s]

theorem Leaves.get {f : Session → Call β} (h : Leaves (f s) s Q) : Leaves (MonadState.get >>= f) s Q := h

theorem Leaves.lookup {arena : Topology → Arena kind α} {key : Key kind} {f : α → Call β} (hQ : Q s.topology)
    (h : ∀ a, (arena s.topology).get? key = some a → Leaves (f a) s Q) :
    Leaves (lookup arena key >>= f) s Q := by
  unfold Leaves
  rw [call_bind, call_lookup]
  cases hget : (arena s.topology).get? key with
  | none => exact hQ
  | some a => exact h a hget

theorem Leaves.require {condition : Bool} {reason : String} {f : Unit → Call β} (hQ : Q s.topology)
    (h : condition = true → Leaves (f ()) s Q) : Leaves (require condition reason >>= f) s Q := by
  unfold Leaves
  rw [call_bind, call_require]
  cases hc : condition with
  | false => exact hQ
  | true => exact h hc

theorem Leaves.lift {x : Except Error α} {f : α → Call β} (hQ : Q s.topology)
    (h : ∀ a, x = .ok a → Leaves (f a) s Q) : Leaves (liftM x >>= f) s Q := by
  unfold Leaves
  rw [call_bind, call_lift]
  cases x with
  | error e => exact hQ
  | ok a => exact h a rfl

theorem Leaves.checkLoops {keys : List LoopKey} {f : Unit → Call β} (hQ : Q s.topology)
    (h : (∀ key ∈ keys, s.topology.loops.contains key = true) → Leaves (f ()) s Q) :
    Leaves (checkLoops keys >>= f) s Q := by
  induction keys with
  | nil => exact h (List.forall_mem_nil _)
  | cons key keys ih =>
    have hcons : Session.checkLoops (key :: keys) >>= f =
        Session.lookup (·.loops) key >>= fun _ => Session.checkLoops keys >>= f := by
      simp only [Session.checkLoops, List.forM_eq_forM, List.forM_cons, bind_assoc]
      exact bind_map_left (Function.const _ PUnit.unit) (Session.lookup (·.loops) key) _
    rw [hcons]
    refine .lookup hQ fun info hinfo => ih fun hkeys => h (List.forall_mem_cons.2 ⟨?_, hkeys⟩)
    exact Option.isSome_iff_exists.2 ⟨info, hinfo⟩

/-- After a step that leaves the topology alone. -/
theorem Leaves.keeps {c : Call α} {f : α → Call β} (hc : Keeps c) (hQ : Q s.topology)
    (h : ∀ a s', s'.topology = s.topology → Leaves (f a) s' Q) : Leaves (c >>= f) s Q := by
  unfold Leaves
  rw [call_bind]
  have hkeep := hc s
  generalize s.call c = made at hkeep ⊢
  obtain ⟨e | a, s'⟩ := made
  · exact hkeep ▸ hQ
  · exact h a s' hkeep

/-- Before a step that leaves the topology alone. -/
theorem Leaves.then {c : Call α} {f : α → Call β} (h : Leaves c s Q) (hf : ∀ a, Keeps (f a)) :
    Leaves (c >>= f) s Q := by
  unfold Leaves at h ⊢
  rw [call_bind]
  generalize s.call c = made at h ⊢
  obtain ⟨e | a, s'⟩ := made
  · exact h
  · show Q (s'.call (f a)).2.topology
    rwa [hf a s']

theorem Leaves.discard {c : Call α} (h : Leaves c s Q) : Leaves (Functor.discard c) s Q := by
  show Leaves (Function.const α PUnit.unit <$> c) s Q
  rw [← bind_pure_comp]
  exact h.then fun _ => Keeps.pure _

theorem Leaves.commit {t : Topology} {command : Engine → Except Error Engine} (hQ : Q s.topology) (ht : Q t) :
    Leaves (commit t command) s Q := by
  unfold Leaves
  rw [call_commit]
  split
  · exact ht
  · exact hQ

theorem Leaves.retract {t : Topology} {command : Engine → Except Error (α × Engine)} (ht : Q t) :
    Leaves (retract t command) s Q := by
  refine Leaves.get ?_
  show Leaves (Bind.bind (modify _) _) s Q
  unfold Leaves
  rw [call_bind, call_modify]
  exact Leaves.of_keeps ((Reads.lift _).keeps.bind fun _ => Keeps.exec _) ht

end Leaves

/-! ## Nothing else happens -/

/-- The engine has no part in what the topology gets. -/
theorem addChainPorts_eq (config : EngineConfig) (chain : ChainKey) (label : String) (dataType : DataType)
    (direction : Direction) (count : Nat) (t : Topology) (e : Engine) :
    ((addChainPorts config chain label dataType direction count t e).1,
      (addChainPorts config chain label dataType direction count t e).2.1) =
      withChainPorts chain label dataType direction count t := by
  unfold addChainPorts withChainPorts
  exact (List.foldl_hom (fun added : List PortKey × Topology × Engine => (added.1, added.2.1)) fun _ _ => rfl).symm

theorem addChainPorts_keys (config : EngineConfig) (chain : ChainKey) (label : String) (dataType : DataType)
    (direction : Direction) (count : Nat) (t : Topology) (e : Engine) :
    (addChainPorts config chain label dataType direction count t e).1 =
      (withChainPorts chain label dataType direction count t).1 :=
  congrArg Prod.fst (addChainPorts_eq config chain label dataType direction count t e)

theorem addChainPorts_topology (config : EngineConfig) (chain : ChainKey) (label : String) (dataType : DataType)
    (direction : Direction) (count : Nat) (t : Topology) (e : Engine) :
    (addChainPorts config chain label dataType direction count t e).2.1 =
      (withChainPorts chain label dataType direction count t).2 :=
  congrArg Prod.snd (addChainPorts_eq config chain label dataType direction count t e)

/-- The action adds, removes, connects or disconnects objects. -/
def Action.restructures : Action → Bool
  | openPort .. | closePort .. | connectPorts .. | disconnectPorts .. | addLoop | deleteLoop .. | setSyncSource ..
  | addChannel .. | deleteChannel .. | connectChannel .. | disconnectChannel .. | addChain .. | deleteChain .. => true
  | _ => false

/-- Whatever else a call does, it does to the engine and the driver. -/
theorem fixes_of_not_restructures {γ : Type} {φ : Session → γ} (hφ : Aside φ) {a : Action} (h : a.restructures = false)
    (hworker : a ≠ .settle) : Fixes φ a.call := by
  unfold Action.call
  cases a with
  | setPortGain key gain => exact .changePort hφ _ _
  | setPortMuted key muted => exact .changePort hφ _ _
  | setCaptured key depth =>
    exact (Reads.lookup _ _).fixes.bind fun _ => (Reads.require _ _).fixes.bind fun _ => .run hφ _
  | takePortPeaks key =>
    exact .map ((Reads.portStatus _).fixes.bind fun _ => (Fixes.changePort hφ _ _).bind fun _ => (Reads.pure _).fixes) _
  | portInfo key => exact ((Reads.lookup _ _).map _).fixes
  | portStatus key => exact ((Reads.portStatus _).map _).fixes
  | transition keys mode delay waitForSync => exact .changeLoops hφ _ _
  | setLength key length => exact .changeLoops hφ _ _
  | setPosition key position => exact .changeLoops hφ _ _
  | adopt keys request =>
    exact (Reads.checkLoops _).fixes.bind fun _ => (Fixes.exec hφ _).bind fun _ => (Reads.lift _).fixes
  | loopChannels key => exact ((Reads.loopChannels key).map _).fixes
  | loopStatus key => exact ((Reads.loopStatus key).map _).fixes
  | setChannelMode key mode => exact .changeBody hφ _ _
  | setChannelGain key gain => exact .changeAudio hφ _ _
  | setStartOffset key startOffset => exact .changeBody hφ _ _
  | setPrePlay key prePlay => exact .changeBody hφ _ _
  | loadAudio key samples => exact Reads.get.fixes.bind fun _ => .changeAudio hφ _ _
  | loadMidi key events length => exact .changeChannel hφ _ _
  | clearChannel key length => exact .changeChannel hφ _ _
  | takeChannelPeak key => exact .map (.changeChannel hφ _ _) _
  | channelStatus key => exact ((Reads.channelStatus key).map _).fixes
  | audioData key => exact ((Reads.audioData key).map _).fixes
  | midiData key => exact ((Reads.midiData key).map _).fixes
  | setChainActive key active => exact (Reads.lookup _ _).fixes.bind fun _ => .run hφ _
  | chainInfo key => exact ((Reads.lookup _ _).map _).fixes
  | setDriver driver => exact .tryCatch (.attachDriver hφ _) fun _ => Reads.get.fixes.bind fun _ => .attachDriver hφ _
  | changeDriver change => exact fun s => hφ s s.engine _
  | advance frames => exact hφ.advance frames
  | settle => exact absurd rfl hworker
  | _ => cases h

theorem keeps_of_not_restructures {a : Action} (h : a.restructures = false) : Keeps a.call := by
  by_cases hworker : a = .settle
  · rw [hworker]
    exact Keeps.modify fun _ => rfl
  · exact fixes_of_not_restructures aside_topology h hworker

/-- An action leaves the topology alone or makes its change. -/
theorem change_act (s : Session) (a : Action) :
    (s.act a).topology = s.topology ∨ Change a s.topology (s.act a).topology := by
  show Leaves a.call s fun u => u = s.topology ∨ Change a s.topology u
  cases hkind : a.restructures with
  | false => exact .of_keeps (keeps_of_not_restructures hkind) (.inl rfl)
  | true =>
    cases a with
    | openPort name dataType direction =>
      refine .discard (.get ?_)
      split
      · split
        · exact .of_keeps (.throw _) (.inl rfl)
        · refine .keeps (.modify fun _ => rfl) (.inl rfl) fun _ s' hs' => ?_
          exact (Leaves.commit (.inl hs') (.inr .openPort)).then fun _ => .pure _
      · exact .of_keeps (.throw _) (.inl rfl)
    | closePort key =>
      refine .lookup (.inl rfl) fun info hinfo => .require (.inl rfl) fun howner => .get ?_
      refine (Leaves.retract (.inr (.closePort hinfo (of_decide_eq_true howner)))).then fun removed => ?_
      split
      · exact .modify fun _ => rfl
      · exact .pure _
    | connectPorts source target =>
      refine .lookup (.inl rfl) fun src hsrc => .lookup (.inl rfl) fun dst hdst => ?_
      refine .require (.inl rfl) fun hne => .require (.inl rfl) fun hdirection => .require (.inl rfl) fun htype => ?_
      split
      · exact .of_keeps (.pure _) (.inl rfl)
      · next hnew =>
        refine .get (.lift (.inl rfl) fun order horder => .commit (.inl rfl) (.inr ?_))
        exact .connectPorts hsrc hdst (of_decide_eq_true hne) (of_decide_eq_true hdirection) (of_decide_eq_true htype)
          (fun hmem => hnew (List.contains_iff_mem.2 hmem)) horder
    | disconnectPorts source target =>
      refine .lookup (.inl rfl) fun dst hdst => .require (.inl rfl) fun hsource => .get ?_
      exact .retract (.inr (.disconnectPorts hdst (List.contains_iff_mem.1 hsource)))
    | addLoop => exact .discard (.get ((Leaves.commit (.inl rfl) (.inr .addLoop)).then fun _ => .pure _))
    | deleteLoop key => exact .lookup (.inl rfl) fun info hinfo => .get (.retract (.inr (.deleteLoop hinfo)))
    | setSyncSource key source =>
      refine .checkLoops (.inl rfl) fun hloops => .get (.require (.inl rfl) fun hfree => ?_)
      refine .keeps (.changeLoops _ _) (.inl rfl) fun _ s' hs' => .inr ?_
      exact .setSyncSource (hloops _ (by simp)) (fun other ho => hloops _ (by simp_all))
        (by simpa using hfree)
    | addChannel loop dataType mode =>
      refine .discard (.lookup (.inl rfl) fun info hinfo => .get ?_)
      refine (Leaves.commit (.inl rfl) (.inr (.addChannel ?_))).then fun _ => .pure _
      exact Option.isSome_iff_exists.2 ⟨info, hinfo⟩
    | deleteChannel key => exact .lookup (.inl rfl) fun info hinfo => .get (.retract (.inr (.deleteChannel hinfo)))
    | connectChannel key port direction =>
      refine .lookup (.inl rfl) fun p hp => .lookup (.inl rfl) fun c hc => ?_
      refine .require (.inl rfl) fun hdirection => .require (.inl rfl) fun htype => .get ?_
      refine .commit (.inl rfl) (.inr ?_)
      exact .connectChannel hp hc (of_decide_eq_true hdirection) (of_decide_eq_true htype)
    | disconnectChannel key port =>
      refine .lookup (.inl rfl) fun c hc => .require (.inl rfl) fun hport => .get (.retract (.inr ?_))
      exact .disconnectChannel hc (by simpa using hport)
    | addChain name effect =>
      refine .discard (.get ?_)
      split
      next key chains hkey =>
      dsimp only
      refine Leaves.then (.commit (.inl rfl) (.inr ?_)) fun _ => .pure _
      simp only [addChainPorts_keys, addChainPorts_topology]
      have h := @Change.addChain s.topology name effect
      unfold withChain at h
      rwa [hkey] at h
    | deleteChain key =>
      exact .discard (.lookup (.inl rfl) fun info hinfo => .get (.retract (.inr (.deleteChain hinfo))))
    | _ => cases hkind

end Overdub.Session
