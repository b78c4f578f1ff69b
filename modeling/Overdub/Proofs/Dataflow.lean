import Overdub.Proofs.Walk
/-!
# One cycle computes the data flow of a topology

What ports of each kind carry at the end of a cycle. An input port of the driver is
written to at its own node only (`Scheduled.input`), an output of a chain by the
chain before (`Scheduled.result`), and an output port gathers what the channels
before it in the schedule play and then what its sources carry (`Scheduled.output`).
The invariant of the channels is `Midway`: until the loops have run nothing but
ports has changed, and from then on every channel waits for its node as the loops
left it. That of an output port is `Mixing`.
-/

namespace Overdub.Engine

open Schedule (nodesOf nodesOf_concat)

/-- The engine when its loops have run through a cycle, and no channel is at its
end. -/
def advanced (s : Schedule) (e : Engine) (frames : Nat) : Engine := e.processLoops s s.loops frames

/-- The channels of some steps as the loops leave them. -/
def players (s : Schedule) (e : Engine) (frames : Nat) (steps : List Step) : List LoopChannel :=
  ((nodesOf steps).filterMap channelOf?).filterMap (advanced s e frames).channel?

theorem players_append (s : Schedule) (e : Engine) (frames : Nat) (A B : List Step) :
    players s e frames (A ++ B) = players s e frames A ++ players s e frames B := by
  simp only [players, nodesOf, List.flatMap_append, List.filterMap_append]

theorem players_concat (s : Schedule) (e : Engine) (frames : Nat) (steps : List Step) (step : Step) :
    players s e frames (steps ++ [step]) = players s e frames steps ++
      (step.nodes.filterMap channelOf?).filterMap (advanced s e frames).channel? := by
  rw [players, nodesOf_concat, List.filterMap_append, List.filterMap_append]
  rfl

theorem players_other (s : Schedule) (e : Engine) (frames : Nat) (steps : List Step) {step : Step}
    (h : ∀ id ∈ step.nodes, channelOf? id = none) : players s e frames (steps ++ [step]) = players s e frames steps := by
  rw [players_concat, List.filterMap_eq_nil_iff.2 h, List.filterMap_nil, List.append_nil]

theorem players_channel (s : Schedule) {e : Engine} {frames : Nat} (steps : List Step) {key : ChannelKey} {c : LoopChannel}
    (hc : (advanced s e frames).channel? key = some c) :
    players s e frames (steps ++ [⟨[.channel key], false⟩]) = players s e frames steps ++ [c] := by
  rw [players_concat]
  simp [channelOf?, hc]

/-- An output port with what all channels bring that play into it. -/
def played (s : Schedule) (e : Engine) (io : DriverCycle) (key : PortKey) (q : Port) : Port :=
  let f := (walk s e io s.steps).1
  f.mixed (f.turns e.pool (players s e io.frames s.steps)) key (q.prepare io.frames)

/-- What an output port carries before its gain: the playback of the channels that
play into it, in the order of the schedule, then its sources, in their order. -/
def mixdown (s : Schedule) (e : Engine) (io : DriverCycle) (key : PortKey) (p : EnginePort) : Port :=
  p.sources.foldl (walk s e io s.steps).1.mixFrom (played s e io key p.port)

namespace Scheduled

variable {t : Topology} {s : Schedule} {e : Engine} {io : DriverCycle} {A B : List Step} {port : PortKey}

/-- An input port that no chain fills is written to by its own node only. -/
theorem untouched (h : e.Scheduled t s) (io : DriverCycle) {p : EnginePort} (hp : e.ports.get? port = some p)
    (hdir : p.port.direction = .input) (horigin : ∀ chain, p.origin ≠ .chain chain) (hsplit : s.steps = A ++ B)
    (hlater : .portProcess port ∉ nodesOf A) : (walk s e io A).1.port? port = some p.port := by
  obtain ⟨info, hinfo, -, hknown⟩ := h.known hp
  refine (h.port?_walk io [] fun id hid hwrites => ?_).trans
    (congrArg (Option.map EnginePort.port) hp)
  have hhas := h.has_of_mem hsplit (.inl hid)
  cases hwrites with
  | prepare =>
    obtain ⟨q, hq, hout⟩ := hhas
    cases hinfo.symm.trans hq
    cases hout.symm.trans (hknown.trans hdir)
  | process => exact hlater hid
  | play hends hout =>
    obtain ⟨c, hc, rfl⟩ := h.channelKnown hends
    cases (h.realizes.fitting.output _ c port info hc hout hinfo).symm.trans (hknown.trans hdir)
  | result hsides hmem =>
    obtain ⟨c, hc, rfl⟩ := h.chainKnown hsides
    obtain ⟨q, hq, howner⟩ := h.realizes.linked.owned _ c port hc (List.mem_append_right _ hmem)
    cases hinfo.symm.trans hq
    exact horigin _ ((h.realizes.owner hinfo hp _).2 howner)

/-- Such a port receives at its node what comes in there. -/
theorem process_input (h : e.Scheduled t s) (io : DriverCycle) {p : EnginePort} (hp : e.ports.get? port = some p)
    (hdir : p.port.direction = .input) (horigin : ∀ chain, p.origin ≠ .chain chain)
    (hsplit : s.steps = A ++ ⟨[.portProcess port], false⟩ :: B) :
    processNode s (walk s e io A) (.portProcess port) =
      ((walk s e io A).1.modifyPort port fun q => (receive io.frames io p.origin q).finish, (walk s e io A).2) := by
  have hconst := h.constant_walk io A
  have hport := h.untouched io hp hdir horigin hsplit (h.orders.not_before hsplit (List.mem_singleton_self _))
  have hreceive : receive (walk s e io A).2.frames (walk s e io A).2 p.origin = receive io.frames io p.origin := by
    funext q
    rw [receive_congr hconst.audioInput? hconst.midiInput, hconst.frames]
  rw [processNode_portProcess, processPort_input (h.get?_walk io hp hport) hdir]
  exact congrArg (fun f => ((walk s e io A).1.modifyPort port fun q => (f q).finish, (walk s e io A).2)) hreceive

/-- The node of a port of the engine. -/
theorem exists_process (h : e.Scheduled t s) {p : EnginePort} (hp : e.ports.get? port = some p) :
    ∃ A B, s.steps = A ++ ⟨[.portProcess port], false⟩ :: B := by
  obtain ⟨info, hinfo, -⟩ := h.known hp
  have hhas : t.Has (.portProcess port) := Option.isSome_iff_exists.2 ⟨info, hinfo⟩
  exact h.exists_step hhas rfl

/-- In the end it carries what came in. -/
theorem input (h : e.Scheduled t s) (io : DriverCycle) {p : EnginePort} (hp : e.ports.get? port = some p)
    (hdir : p.port.direction = .input) (horigin : ∀ chain, p.origin ≠ .chain chain) :
    (walk s e io s.steps).1.port? port = some (receive io.frames io p.origin p.port).finish := by
  obtain ⟨A, B, hsplit⟩ := h.exists_process hp
  have hport := h.untouched io hp hdir horigin hsplit (h.orders.not_before hsplit (List.mem_singleton_self _))
  rw [h.final_of_process io hsplit, h.process_input io hp hdir horigin hsplit, port?_modifyPort_self, hport]
  rfl

/-- A chain takes the data of its inputs as they are in the end. -/
theorem chainInput_walk (h : e.Scheduled t s) (io : DriverCycle) {chain : ChainKey} {c : EngineChain}
    (hc : e.chains.get? chain = some c) (hsplit : s.steps = A ++ ⟨[.chain chain], false⟩ :: B) :
    (walk s e io A).1.chainInput c io.frames = (walk s e io s.steps).1.chainInput c io.frames := by
  obtain ⟨info, hinfo, hin, -, hmidi⟩ := h.chainInfo hc
  refine chainInput_congr (fun port hport => ?_) io.frames
  have hmem : port ∈ info.inputs := by rwa [ChainInfo.inputs, hin, hmidi]
  obtain ⟨p, hp, -⟩ := h.realizes.linked.owned chain info port hinfo (List.mem_append_left _ hmem)
  exact h.final_when_read io (Option.isSome_iff_exists.2 ⟨p, hp⟩) (.effect hinfo hmem) (by simp) hsplit
    (List.mem_singleton_self _)

/-- What writes to the output of a chain is the chain, before the port is processed. -/
theorem writes_result (h : e.Scheduled t s) {chain : ChainKey} {c : EngineChain} (hc : e.chains.get? chain = some c)
    (hport : port ∈ c.audioOutputs) {id : NodeId} (hid : t.Has id) (hwrites : Writes e.wiring port id) :
    id = .portProcess port ∨ id = .chain chain := by
  obtain ⟨info, hinfo, -, hout, -⟩ := h.chainInfo hc
  rw [← hout] at hport
  obtain ⟨p, hp, howner⟩ := h.realizes.linked.owned chain info port hinfo (List.mem_append_right _ hport)
  have hdir := h.realizes.fitting.result chain info port p hinfo hport hp
  cases hwrites with
  | prepare =>
    obtain ⟨q, hq, hqdir⟩ := hid
    cases hp.symm.trans hq
    cases hdir.symm.trans hqdir
  | process => exact .inl rfl
  | play hends houtput =>
    obtain ⟨ch, hch, rfl⟩ := h.channelKnown hends
    cases hdir.symm.trans (h.realizes.fitting.output _ ch port p hch houtput hp)
  | @result key sides hsides' hmem =>
    obtain ⟨info', hinfo', rfl⟩ := h.chainKnown hsides'
    obtain ⟨q, hq, howner'⟩ := h.realizes.linked.owned key info' port hinfo' (List.mem_append_right _ hmem)
    cases hp.symm.trans hq
    cases howner.symm.trans howner'
    exact .inr rfl

/-- A port that one node writes to before its own: that node finds it as it was
before the cycle, and its own node finds what the other has made of it. -/
theorem written_once (h : e.Scheduled t s) (io : DriverCycle) {p : EnginePort} (hp : e.ports.get? port = some p)
    {id : NodeId} (hid : t.Has id) (hsingle : id.coProcessed = false) (hflow : t.Flow id (.portProcess port))
    (hne : id ≠ .portProcess port)
    (honly : ∀ id', t.Has id' → Writes e.wiring port id' → id' = .portProcess port ∨ id' = id) :
    ∃ A B C, s.steps = A ++ ⟨[id], false⟩ :: (B ++ ⟨[.portProcess port], false⟩ :: C) ∧
      (walk s e io A).1.port? port = some p.port ∧
      (walk s e io (A ++ ⟨[id], false⟩ :: B)).1.port? port = (processNode s (walk s e io A) id).1.port? port := by
  obtain ⟨before, C, hprocess⟩ := h.exists_process hp
  have hsub : before ⊆ s.steps := fun step hstep => by simp [hprocess, hstep]
  obtain ⟨A, B, rfl⟩ := h.exists_single hsub (h.flow_done hflow hne hid hprocess (List.mem_singleton_self _)) hsingle
  have hsplit : s.steps = A ++ ⟨[id], false⟩ :: (B ++ ⟨[.portProcess port], false⟩ :: C) :=
    hprocess.trans (List.append_assoc ..)
  have hself := h.orders.not_before hprocess (List.mem_singleton_self _)
  refine ⟨A, B, C, hsplit, ?before, ?after⟩
  case before =>
    refine (h.port?_walk io [] fun id' hA hwrites => ?_).trans (congrArg (Option.map EnginePort.port) hp)
    rcases honly id' (h.has_of_mem hsplit (.inl hA)) hwrites with rfl | rfl
    · exact hself (by simp [hA])
    · exact h.orders.not_before hsplit (List.mem_singleton_self _) hA
  case after =>
    rw [← walk_single, List.append_cons]
    refine h.port?_walk io _ fun id' hB hwrites => ?_
    rcases honly id' (h.has_of_mem hsplit (.inr (by simp [hB]))) hwrites with rfl | rfl
    · exact hself (by simp [hB])
    · exact h.orders.not_after hsplit (List.mem_singleton_self _) (by simp [hB])

/-- An output of a chain is an input port of the chain's. -/
theorem resultPort (h : e.Scheduled t s) {chain : ChainKey} {c : EngineChain} {p : EnginePort}
    (hc : e.chains.get? chain = some c) (hport : port ∈ c.audioOutputs) (hp : e.ports.get? port = some p) :
    p.port.direction = .input ∧ p.origin = .chain chain ∧ c.audioOutputs.Nodup ∧ t.Has (.chain chain) ∧
      t.Flow (.chain chain) (.portProcess port) := by
  obtain ⟨info, hinfo, -, hout, -⟩ := h.chainInfo hc
  rw [← hout] at hport ⊢
  obtain ⟨known, hknown, howner⟩ := h.realizes.linked.owned chain info port hinfo (List.mem_append_right _ hport)
  exact ⟨(h.realizes.direction hknown hp).trans (h.realizes.fitting.result chain info port known hinfo hport hknown),
    (h.realizes.owner hknown hp chain).2 howner, h.realizes.fitting.distinct chain info hinfo,
    Option.isSome_iff_exists.2 ⟨info, hinfo⟩, .result hinfo hport⟩

/-- An output of a chain carries what the chain makes of its inputs. -/
theorem result (h : e.Scheduled t s) (io : DriverCycle) {chain : ChainKey} {c : EngineChain} {i : Nat} {p : EnginePort}
    (hc : e.chains.get? chain = some c) (hi : c.audioOutputs[i]? = some port) (hp : e.ports.get? port = some p) :
    (walk s e io s.steps).1.port? port = some (effected
      (c.effect.run ((walk s e io s.steps).1.chainInput c io.frames)).1 io.frames i p.port).finish := by
  have hmem : port ∈ c.audioOutputs := List.mem_of_getElem? hi
  obtain ⟨hdir, horigin, hnodup, hhas, hflow⟩ := h.resultPort hc hmem hp
  obtain ⟨A, B, C, hsplit, hbefore, hafter⟩ := h.written_once io hp hhas rfl hflow nofun fun _ =>
    h.writes_result hc hmem
  have hconst := h.constant_walk io A
  have hthere : (walk s e io A).1.chains.get? chain = some c := hconst.chains ▸ hc
  rw [processNode_chain, port?_processChain hthere hnodup hi, hbefore, hconst.frames, h.chainInput_walk io hc hsplit,
    Option.map_some] at hafter
  have hprocess : s.steps = (A ++ ⟨[.chain chain], false⟩ :: B) ++ ⟨[.portProcess port], false⟩ :: C :=
    hsplit.trans (List.append_assoc A (_ :: B) _).symm
  rw [h.final_of_process io hprocess, processNode_portProcess,
    processPort_input (h.get?_walk io hp hafter) ((direction_effected ..).trans hdir), port?_modifyPort_self, hafter,
    Option.map_some, horigin]
  rfl

/-! ## Channels -/

/-- The loops that a step advances together are all the loops of the schedule. -/
theorem loops_of_step (h : e.Scheduled t s) {step : Step} (hsplit : s.steps = A ++ step :: B)
    (hloops : ∀ b ∈ step.nodes, b.coProcessed = true) : step.nodes.filterMap loopOf? = s.loops := by
  have hstep : step ∈ s.steps := by simp [hsplit]
  obtain ⟨b, hb⟩ := List.exists_mem_of_ne_nil _ (h.busy step hstep)
  have hnone : ∀ steps, (∀ id ∈ nodesOf steps, id ∈ s.nodes ∧ id ∉ step.nodes) →
      (nodesOf steps).filterMap loopOf? = [] := by
    intro steps hsteps
    refine List.filterMap_eq_nil_iff.2 fun id hid => ?_
    obtain ⟨hmem, hnot⟩ := hsteps id hid
    cases id with
    | loop key =>
      refine absurd ((h.orders.whole step hstep b hb _).2 ⟨h.orders.mem_nodes.1 hmem, ?_⟩) hnot
      exact Graph.unit_eq_iff.2 (.inr ⟨hloops b hb, rfl⟩)
    | _ => rfl
  have hnodes := Schedule.nodes_split hsplit
  have hA := hnone A fun id hid =>
    ⟨hnodes ▸ List.mem_append_left _ hid, fun hmem => h.orders.not_before hsplit hmem hid⟩
  have hB := hnone B fun id hid =>
    ⟨hnodes ▸ List.mem_append_right _ (List.mem_append_right _ hid), fun hmem => h.orders.not_after hsplit hmem hid⟩
  rw [Schedule.loops, hnodes, List.filterMap_append, List.filterMap_append, hA, hB, List.nil_append, List.append_nil]

/-- The channel of a node, as the loops leave it. -/
theorem exists_channel (h : e.Scheduled t s) {key : ChannelKey} (hid : t.Has (.channel key)) (frames : Nat) :
    ∃ info c, t.channels.get? key = some info ∧ (advanced s e frames).channel? key = some c ∧
      info.input = c.input ∧ info.output = c.output := by
  obtain ⟨info, hinfo⟩ := Option.isSome_iff_exists.1 hid
  have hends := congrFun (congrArg Wiring.ends
    (h.realizes.alike.trans (e.wiring_processLoops s s.loops frames).symm)) key
  simp only [Topology.wiring, hinfo, Option.map_some] at hends
  obtain ⟨c, hc, hsame⟩ := Option.map_eq_some_iff.1 hends.symm
  obtain ⟨hin, hout⟩ := Prod.mk.inj hsame
  exact ⟨info, c, hinfo, hc, hin.symm, hout.symm⟩

/-- What is true of loops, channels and the pool after some steps of a cycle. -/
structure Midway (s : Schedule) (e : Engine) (io : DriverCycle) (steps : List Step) : Prop where
  pool : (walk s e io steps).1.pool = (walk s e io s.steps).1.poolThrough (players s e io.frames steps) e.pool
  early : (∀ key, .loop key ∉ nodesOf steps) → ∃ ports, (walk s e io steps).1 = { e with ports }
  late : (∃ key, .loop key ∈ nodesOf steps) → ∀ key, .channel key ∉ nodesOf steps →
    (walk s e io steps).1.channel? key = (advanced s e io.frames).channel? key

/-- A channel at its node: it is as the loops left it, it finds in its input what
that carries in the end, and it does what it does with its ports. -/
theorem Midway.finishes (hmid : Midway s e io A) (h : e.Scheduled t s) {key : ChannelKey}
    (hsplit : s.steps = A ++ ⟨[.channel key], false⟩ :: B) :
    ∃ info c, t.channels.get? key = some info ∧ (advanced s e io.frames).channel? key = some c ∧
      info.input = c.input ∧ info.output = c.output ∧ c.key = key ∧
      (walk s e io A).1.inputOf c = (walk s e io s.steps).1.inputOf c ∧ (∃ l, .loop l ∈ nodesOf A) ∧
      Finished (walk s e io A).1 c (walk s e io (A ++ [⟨[.channel key], false⟩])).1 := by
  have hself : NodeId.channel key ∈ (⟨[.channel key], false⟩ : Step).nodes := List.mem_singleton_self _
  have hid : t.Has (.channel key) := h.has_of_mem hsplit (.inr (Schedule.mem_nodesOf.2 ⟨_, List.mem_cons_self, hself⟩))
  obtain ⟨info, c, hinfo, hc, hin, hout⟩ := h.exists_channel hid io.frames
  -- its loop has run
  obtain ⟨l, hl, -⟩ := h.realizes.rooted.wiring.owned key info.loop (congrArg (Option.map ChannelInfo.loop) hinfo)
  have hloop : .loop info.loop ∈ nodesOf A :=
    h.flow_done (.loop hinfo) nofun (Option.isSome_iff_exists.2 ⟨l, hl⟩) hsplit hself
  have hthere : (walk s e io A).1.channel? key = some c :=
    (hmid.late ⟨_, hloop⟩ key (h.orders.not_before hsplit hself)).trans hc
  refine ⟨info, c, hinfo, hc, hin, hout, channel?_key hc, ?_, ⟨_, hloop⟩, ?_⟩
  · unfold inputOf
    refine Option.bind_congr fun port hport => ?_
    rw [← hin] at hport
    exact h.final_when_read io (h.realizes.linked.input key info port hinfo hport) (.record hinfo hport) nofun hsplit hself
  · rw [walk_single, processNode_channel]
    exact finishChannel_spec hthere (h.served_walk io A key c · hthere)

theorem Midway.single (hmid : Midway s e io A) (h : e.Scheduled t s) {id : NodeId} (hsingle : id.coProcessed = false)
    (hsplit : s.steps = A ++ ⟨[id], false⟩ :: B) : Midway s e io (A ++ [⟨[id], false⟩]) := by
  have hloopOf : loopOf? id = none := by
    cases id <;> first | rfl | cases hsingle
  have hmem : ∀ b, b ∈ nodesOf (A ++ [⟨[id], false⟩]) ↔ b ∈ nodesOf A ∨ b = id := by
    intro b
    rw [nodesOf_concat, List.mem_append, List.mem_singleton]
  cases hchannelOf : channelOf? id with
  | some key =>
    obtain rfl := eq_of_channelOf? hchannelOf
    obtain ⟨info, c, -, hc, -, -, rfl, hin, ⟨l, hl⟩, hdone⟩ := hmid.finishes h hsplit
    refine ⟨?_, fun hnone => absurd ((hmem _).2 (.inl hl)) (hnone l), fun _ key hkey => ?_⟩
    · rw [hdone.pool, hin, hmid.pool, players_channel s A hc, poolThrough_concat]
    · rw [hmem, not_or] at hkey
      have hne : key ≠ c.key := fun heq => hkey.2 (congrArg _ heq)
      rw [hdone.channel, ← hmid.late ⟨l, hl⟩ key hkey.1]
      simp [hne]
  | none =>
    obtain ⟨ports, hports⟩ := processNode_touches (s := s) (walk s e io A) hloopOf hchannelOf
    rw [← walk_single] at hports
    refine ⟨?_, fun hnone => ?_, ?_⟩
    · rw [hports, players_other s e io.frames A (by simpa using hchannelOf)]
      exact hmid.pool
    · obtain ⟨ports', hports'⟩ := hmid.early fun key hkey => hnone key ((hmem _).2 (.inl hkey))
      exact ⟨ports, by rw [hports, hports']⟩
    · rintro ⟨l, hl⟩ key hkey
      have hl' : .loop l ∈ nodesOf A := ((hmem _).1 hl).resolve_right (by rintro rfl; cases hsingle)
      rw [hports]
      exact hmid.late ⟨l, hl'⟩ key fun hA => hkey ((hmem _).2 (.inl hA))

theorem Midway.together (hmid : Midway s e io A) (h : e.Scheduled t s) {step : Step} (hco : step.coProcess = true)
    (hloops : ∀ b ∈ step.nodes, b.coProcessed = true) (hsplit : s.steps = A ++ step :: B) :
    Midway s e io (A ++ [step]) := by
  have hstep : step ∈ s.steps := by simp [hsplit]
  obtain ⟨b, hb⟩ := List.exists_mem_of_ne_nil _ (h.busy step hstep)
  -- no loop has run before
  have hnoLoop : ∀ key, .loop key ∉ nodesOf A := by
    intro key hkey
    have hhas := h.orders.mem_nodes.1 (h.mem_nodes.2 (h.has_of_mem hsplit (.inl hkey)))
    have hunit := Graph.unit_eq_iff.2 (.inr ⟨hloops b hb, rfl⟩ : Graph.SameUnit b (.loop key))
    exact h.orders.not_before hsplit ((h.orders.whole step hstep b hb _).2 ⟨hhas, hunit⟩) hkey
  obtain ⟨ports, hports⟩ := hmid.early hnoLoop
  have hconst := h.constant_walk io A
  have hadvanced : (walk s e io (A ++ [step])).1 = { advanced s e io.frames with ports } := by
    have hcontains : ∀ key, ports.contains key = e.ports.contains key := by
      intro key
      have hkey := contains_of_mount hconst.mount key
      rwa [hports] at hkey
    rw [walk_together s e io A hco, h.loops_of_step hsplit hloops, hports, hconst.frames]
    exact processLoops_withPorts s hcontains s.loops io.frames
  refine ⟨?_, fun hnone => ?_, fun _ key _ => ?_⟩
  · have hpool := hmid.pool
    rw [hports] at hpool
    rw [hadvanced, players_other s e io.frames A fun id hid => channelOf?_of_coProcessed (hloops id hid)]
    exact hpool
  · cases b with
    | loop key => exact absurd (by rw [nodesOf_concat]; exact List.mem_append_right _ hb) (hnone key)
    | _ => cases hloops _ hb
  · rw [hadvanced]
    rfl

/-- At any time of a cycle, loops, channels and the pool are where they should be. -/
theorem midway (h : e.Scheduled t s) (io : DriverCycle) (hsplit : s.steps = A ++ B) : Midway s e io A := by
  induction A using List.reverseRecOn generalizing B with
  | nil => exact ⟨rfl, fun _ => ⟨e.ports, rfl⟩, fun ⟨_, hnone⟩ => absurd hnone List.not_mem_nil⟩
  | append_singleton A step ih =>
    have hsplit' : s.steps = A ++ step :: B := hsplit.trans (List.append_cons ..).symm
    have hstep : step ∈ s.steps := by simp [hsplit]
    rcases h.orders.step_cases hstep (h.busy step hstep) with ⟨id, hsingle, rfl⟩ | ⟨hco, hloops⟩
    · exact (ih hsplit').single h hsingle hsplit'
    · exact (ih hsplit').together h hco hloops hsplit'

/-! ## Output ports -/

/-- A channel that plays into a port is known to do so. -/
theorem exists_of_player (h : e.Scheduled t s) {steps : List Step} (hhas : ∀ id ∈ nodesOf steps, t.Has id)
    {c : LoopChannel} (hc : c ∈ players s e io.frames steps) (hout : c.output = some port) :
    ∃ key info, .channel key ∈ nodesOf steps ∧ t.channels.get? key = some info ∧ info.output = some port := by
  obtain ⟨key, hkey, hc⟩ := List.mem_filterMap.1 hc
  obtain ⟨id, hid, hidkey⟩ := List.mem_filterMap.1 hkey
  obtain rfl := eq_of_channelOf? hidkey
  obtain ⟨info, c', hinfo, hc', -, hsame⟩ := h.exists_channel (hhas _ hid) io.frames
  cases hc.symm.trans hc'
  exact ⟨key, info, hid, hinfo, hsame.trans hout⟩

/-- What an output port carries after some steps before it is processed: it is silent
from its first node on, and has what the channels have brought so far. -/
def Mixing (s : Schedule) (e : Engine) (io : DriverCycle) (port : PortKey) (q : Port) (steps : List Step) : Prop :=
  (walk s e io steps).1.port? port = some (if .portPrepare port ∈ nodesOf steps then
    (walk s e io s.steps).1.mixed ((walk s e io s.steps).1.turns e.pool (players s e io.frames steps)) port
      (q.prepare io.frames) else q)

/-- The first node of the port. No channel was there before. -/
theorem Mixing.prepared {q : Port} (hmix : Mixing s e io port q A) (h : e.Scheduled t s)
    (hsplit : s.steps = A ++ ⟨[.portPrepare port], false⟩ :: B) :
    Mixing s e io port q (A ++ [⟨[.portPrepare port], false⟩]) := by
  have hself : NodeId.portPrepare port ∈ (⟨[.portPrepare port], false⟩ : Step).nodes := List.mem_singleton_self _
  have hhas : t.Has (.portPrepare port) := h.has_of_mem hsplit (.inr (by simp))
  have hfresh := h.orders.not_before hsplit hself
  have hnone : ∀ c ∈ players s e io.frames A, c.output ≠ some port := by
    intro c hc hout
    obtain ⟨key, info, hmem, hinfo, hout⟩ := h.exists_of_player (fun id hid => h.has_of_mem hsplit (.inl hid)) hc hout
    exact hfresh (h.done_of_flow (.mix hinfo hout) nofun hhas hsplit hmem)
  unfold Mixing at hmix ⊢
  rw [if_neg hfresh] at hmix
  rw [walk_single, processNode_portPrepare, port?_modifyPort_self, hmix, (h.constant_walk io A).frames,
    players_other s e io.frames A (by simp [channelOf?]), mixed_of_ne hnone]
  simp

/-- A channel adds what it brings. -/
theorem Mixing.channel {q : Port} (hmix : Mixing s e io port q A) (h : e.Scheduled t s)
    (hprepare : t.Has (.portPrepare port)) {key : ChannelKey} (hsplit : s.steps = A ++ ⟨[.channel key], false⟩ :: B) :
    Mixing s e io port q (A ++ [⟨[.channel key], false⟩]) := by
  have hmid := h.midway io hsplit
  obtain ⟨info, c, hinfo, hc, -, hout, rfl, hin, -, hdone⟩ := hmid.finishes h hsplit
  unfold Mixing at hmix ⊢
  rw [hdone.port, hmix, hin, hmid.pool, players_channel s A hc, turns_append, mixed_append, mixed_singleton,
    Option.map_some, nodesOf_concat]
  simp only [List.mem_append, List.mem_singleton, reduceCtorEq, or_false]
  by_cases hplays : c.output = some port
  · have hprepared : .portPrepare port ∈ nodesOf A :=
      h.flow_done (.mix hinfo (hout.trans hplays)) nofun hprepare hsplit (List.mem_singleton_self _)
    simp only [hplays, hprepared, if_true]
  · simp only [hplays, if_false]

/-- Other steps bring nothing. -/
theorem Mixing.spared {q : Port} (hmix : Mixing s e io port q A) (h : e.Scheduled t s) {step : Step}
    (hspared : ∀ id ∈ step.nodes, ¬Writes e.wiring port id ∧ channelOf? id = none) :
    Mixing s e io port q (A ++ [step]) := by
  have hnot : .portPrepare port ∉ step.nodes := fun hmem => (hspared _ hmem).1 .prepare
  unfold Mixing at hmix ⊢
  rw [h.port?_walk io A (by simpa using fun id hid => (hspared id hid).1), hmix,
    players_other s e io.frames A fun id hid => (hspared id hid).2, nodesOf_concat]
  simp only [List.mem_append, hnot, or_false]

/-- What writes to an output port is the port itself or a channel. -/
theorem writes_output (h : e.Scheduled t s) {p : EnginePort} (hp : e.ports.get? port = some p)
    (hdir : p.port.direction = .output) {id : NodeId} (hwrites : Writes e.wiring port id) :
    id = .portPrepare port ∨ id = .portProcess port ∨ ∃ key, id = .channel key := by
  obtain ⟨info, hinfo, -, hknown⟩ := h.known hp
  cases hwrites with
  | prepare => exact .inl rfl
  | process => exact .inr (.inl rfl)
  | @play key => exact .inr (.inr ⟨key, rfl⟩)
  | @result key sides hsides hmem =>
    obtain ⟨c, hc, rfl⟩ := h.chainKnown hsides
    cases (h.realizes.fitting.result key c port info hc hmem hinfo).symm.trans (hknown.trans hdir)

/-- An output port before it is processed. -/
theorem mixing (h : e.Scheduled t s) (io : DriverCycle) {p : EnginePort} (hp : e.ports.get? port = some p)
    (hdir : p.port.direction = .output) (hsplit : s.steps = A ++ B) (hlater : .portProcess port ∉ nodesOf A) :
    Mixing s e io port p.port A := by
  obtain ⟨info, hinfo, -, hknown⟩ := h.known hp
  induction A using List.reverseRecOn generalizing B with
  | nil => exact congrArg (Option.map EnginePort.port) hp
  | append_singleton A step ih =>
    have hsplit' : s.steps = A ++ step :: B := hsplit.trans (List.append_cons ..).symm
    have hstep : step ∈ s.steps := by simp [hsplit]
    rw [nodesOf_concat, List.mem_append, not_or] at hlater
    have hmix := ih hsplit' hlater.1
    rcases h.orders.step_cases hstep (h.busy step hstep) with ⟨id, hsingle, rfl⟩ | ⟨-, hloops⟩
    · by_cases hwrites : Writes e.wiring port id
      · rcases h.writes_output hp hdir hwrites with rfl | rfl | ⟨key, rfl⟩
        · exact hmix.prepared h hsplit'
        · exact absurd (List.mem_singleton_self _) hlater.2
        · exact hmix.channel h ⟨info, hinfo, hknown.trans hdir⟩ hsplit'
      · cases id with
        | channel key => exact hmix.channel h ⟨info, hinfo, hknown.trans hdir⟩ hsplit'
        | _ => exact hmix.spared h (by simpa [channelOf?] using hwrites)
    · refine hmix.spared h fun id hid => ⟨fun hwrites => ?_, channelOf?_of_coProcessed (hloops id hid)⟩
      have hloop := hloops id hid
      rcases h.writes_output hp hdir hwrites with rfl | rfl | ⟨key, rfl⟩ <;> cases hloop

/-- Channels that are behind a port in the schedule do not play into it. -/
theorem mixed_all (h : e.Scheduled t s) (io : DriverCycle) (hsplit : s.steps = A ++ ⟨[.portProcess port], false⟩ :: B) (f : Engine) (q : Port) :
    f.mixed (f.turns e.pool (players s e io.frames s.steps)) port q =
      f.mixed (f.turns e.pool (players s e io.frames A)) port q := by
  rw [hsplit, players_append, turns_append, mixed_append]
  refine mixed_of_ne (fun c hc hout => ?_) _
  obtain ⟨key, info, hmem, hinfo, hout⟩ := h.exists_of_player (fun id hid => h.has_of_mem hsplit (.inr hid)) hc hout
  have hbefore := h.flow_done (.play hinfo hout) nofun (Option.isSome_iff_exists.2 ⟨info, hinfo⟩) hsplit
    (List.mem_singleton_self _)
  exact h.orders.disjoint hsplit hbefore hmem

/-- A source of a port is another port of the engine. -/
theorem sourcePort (h : e.Scheduled t s) {p : EnginePort} (hp : e.ports.get? port = some p) {source : PortKey}
    (hsource : source ∈ p.sources) :
    t.ports.contains source = true ∧ source ≠ port ∧ t.Flow (.portProcess source) (.portProcess port) := by
  obtain ⟨info, hinfo, hsources, -⟩ := h.known hp
  rw [← hsources] at hsource
  refine ⟨h.realizes.linked.source port info source hinfo hsource, ?_, .source hinfo hsource⟩
  rintro rfl
  exact h.realizes.fitting.other source info hinfo hsource

/-- At its second node an output port has the playback of all channels that play into it. -/
theorem played_before (h : e.Scheduled t s) (io : DriverCycle) {p : EnginePort} (hp : e.ports.get? port = some p)
    (hdir : p.port.direction = .output) (hsplit : s.steps = A ++ ⟨[.portProcess port], false⟩ :: B) :
    (walk s e io A).1.port? port = some (played s e io port p.port) := by
  obtain ⟨info, hinfo, -, hknown⟩ := h.known hp
  have hprepared : .portPrepare port ∈ nodesOf A :=
    h.flow_done (.port hinfo) nofun ⟨info, hinfo, hknown.trans hdir⟩ hsplit (List.mem_singleton_self _)
  have hport := h.mixing io hp hdir hsplit (h.orders.not_before hsplit (List.mem_singleton_self _))
  rw [Mixing, if_pos hprepared, ← h.mixed_all io hsplit] at hport
  exact hport

/-- Its sources are final by then. -/
theorem mixSources_walk (h : e.Scheduled t s) (io : DriverCycle) {p : EnginePort} (hp : e.ports.get? port = some p)
    (hsplit : s.steps = A ++ ⟨[.portProcess port], false⟩ :: B) (q : Port) :
    (walk s e io A).1.mixSources s port { p with port := q } = p.sources.foldl (walk s e io s.steps).1.mixFrom q := by
  have hmount := (h.constant_walk io A).mount
  have hthere : (walk s e io A).1.ports.contains port = true :=
    (contains_of_mount hmount port).trans (Option.isSome_iff_exists.2 ⟨p, hp⟩)
  refine (mixSources_eq hthere fun source hsource => ?_).trans (List.foldl_ext _ _ _ fun q source hsource => ?_)
  · obtain ⟨hknown, hne, -⟩ := h.sourcePort hp hsource
    have hlive := h.live hknown
    exact ⟨by simpa only [Engine.live, contains_of_mount hmount] using hlive, hne⟩
  · obtain ⟨hknown, hne, hflow⟩ := h.sourcePort hp hsource
    have hfinal := h.final_when_read io hknown hflow (by simpa using hne.symm) hsplit (List.mem_singleton_self _)
    rw [mixFrom, mixFrom, hfinal]

/-- An output port at its second node. -/
theorem process_output (h : e.Scheduled t s) (io : DriverCycle) {p : EnginePort} (hp : e.ports.get? port = some p)
    (hdir : p.port.direction = .output) (hsplit : s.steps = A ++ ⟨[.portProcess port], false⟩ :: B) :
    processNode s (walk s e io A) (.portProcess port) =
      ((walk s e io A).1.modifyPort port fun _ => (mixdown s e io port p).finish,
        send (walk s e io A).2 p.origin (mixdown s e io port p).finish) := by
  have hdirection : (played s e io port p.port).direction = .output := by
    rw [played, direction_mixed, Port.direction_prepare, hdir]
  rw [processNode_portProcess, processPort_output (h.get?_walk io hp (h.played_before io hp hdir hsplit)) hdirection,
    h.mixSources_walk io hp hsplit]
  rfl

/-- An output port carries its mixdown. -/
theorem output (h : e.Scheduled t s) (io : DriverCycle) {p : EnginePort} (hp : e.ports.get? port = some p)
    (hdir : p.port.direction = .output) :
    (walk s e io s.steps).1.port? port = some (mixdown s e io port p).finish := by
  obtain ⟨A, B, hsplit⟩ := h.exists_process hp
  rw [h.final_of_process io hsplit, h.process_output io hp hdir hsplit, port?_modifyPort_self,
    h.played_before io hp hdir hsplit]
  rfl

/-! ## The end -/

/-- No loop is left when a channel is at its node. -/
theorem loops_done (h : e.Scheduled t s) {key : ChannelKey} (hsplit : s.steps = A ++ ⟨[.channel key], false⟩ :: B)
    {id : NodeId} (hid : id ∈ nodesOf B) : id.coProcessed = false := by
  obtain ⟨info, hinfo⟩ := Option.isSome_iff_exists.1
    (h.has_of_mem (a := .channel key) hsplit (.inr (Schedule.mem_nodesOf.2 ⟨_, List.mem_cons_self, List.mem_singleton_self _⟩)))
  obtain ⟨l, hl, -⟩ := h.realizes.rooted.wiring.owned key info.loop (congrArg (Option.map ChannelInfo.loop) hinfo)
  have hloop : .loop info.loop ∈ nodesOf A :=
    h.flow_done (.loop hinfo) nofun (Option.isSome_iff_exists.2 ⟨l, hl⟩) hsplit (List.mem_singleton_self _)
  by_contra hco
  rw [Bool.not_eq_false] at hco
  obtain ⟨step, hstep, hmem⟩ := Schedule.mem_nodesOf.1 hid
  have hunit := Graph.unit_eq_iff.2 (.inr ⟨hco, rfl⟩ : Graph.SameUnit id (.loop info.loop))
  have hthere : .loop info.loop ∈ step.nodes := (h.orders.whole step (by simp [hsplit, hstep]) id hmem _).2
    ⟨(Graph.contains_ofTopology t _).2 (Option.isSome_iff_exists.2 ⟨l, hl⟩), hunit⟩
  have hB : .loop info.loop ∈ nodesOf (⟨[.channel key], false⟩ :: B) :=
    Schedule.mem_nodesOf.2 ⟨step, List.mem_cons_of_mem _ hstep, hthere⟩
  exact h.orders.disjoint hsplit hloop hB

/-- A channel is at its end after its node. -/
theorem channel_settled (h : e.Scheduled t s) (io : DriverCycle) {key : ChannelKey}
    (hsplit : s.steps = A ++ ⟨[.channel key], false⟩ :: B) :
    (walk s e io s.steps).1.channel? key = (walk s e io (A ++ [⟨[.channel key], false⟩])).1.channel? key := by
  rw [hsplit, List.append_cons, walk_append]
  refine (keeps_steps (φ := fun state => state.1.channel? key) (h.served_walk io _) (fun step hstep hco => ?_)
    fun state hconst id hmem => ?_).2
  · have hmem : step ∈ s.steps := by simp [hsplit, hstep]
    obtain ⟨b, hb⟩ := List.exists_mem_of_ne_nil _ (h.busy step hmem)
    have hloop := h.loops_done hsplit (Schedule.mem_nodesOf.2 ⟨step, hstep, hb⟩)
    cases hloop.symm.trans ((h.orders.coProcess step hmem b hb).symm.trans hco)
  · have hloop := h.loops_done hsplit hmem
    refine channel?_processNode ((h.served_walk io _).of_constant hconst) (by cases id <;> first | rfl | cases hloop) ?_
    rintro rfl
    exact h.orders.not_after hsplit (List.mem_singleton_self _) hmem

/-- A channel finds in its output what the channels before it have brought there. -/
theorem output_found (h : e.Scheduled t s) (io : DriverCycle) {key : ChannelKey} {info : ChannelInfo}
    (hinfo : t.channels.get? key = some info) (hout : info.output = some port)
    (hsplit : s.steps = A ++ ⟨[.channel key], false⟩ :: B) :
    (walk s e io A).1.port? port = (e.port? port).map fun q => (walk s e io s.steps).1.mixed
      ((walk s e io s.steps).1.turns e.pool (players s e io.frames A)) port (q.prepare io.frames) := by
  have hself : NodeId.channel key ∈ (⟨[.channel key], false⟩ : Step).nodes := List.mem_singleton_self _
  have hid : t.Has (.channel key) := Option.isSome_iff_exists.2 ⟨info, hinfo⟩
  obtain ⟨p, hp⟩ := Option.isSome_iff_exists.1
    ((h.contains_iff port).2 (h.realizes.linked.output key info port hinfo hout))
  obtain ⟨known, hknown, -, hdir⟩ := h.known hp
  have houtput := h.realizes.fitting.output key info port known hinfo hout hknown
  have hprepared : .portPrepare port ∈ nodesOf A :=
    h.flow_done (.mix hinfo hout) nofun ⟨known, hknown, houtput⟩ hsplit hself
  have hlater : .portProcess port ∉ nodesOf A := fun hdone =>
    h.orders.not_before hsplit hself (h.done_of_flow (.play hinfo hout) nofun hid hsplit hdone)
  have hport := h.mixing io hp (hdir.symm.trans houtput) hsplit hlater
  rw [Mixing, if_pos hprepared] at hport
  rw [hport, port?, hp]
  rfl

/-- A channel meets in the end what its input carries, and what channels before it
have brought to its output. -/
theorem recorded (h : e.Scheduled t s) (io : DriverCycle) {key : ChannelKey} (hid : t.Has (.channel key)) :
    ∃ A B c, s.steps = A ++ ⟨[.channel key], false⟩ :: B ∧ (advanced s e io.frames).channel? key = some c ∧
      (walk s e io s.steps).1.channel? key = some (c.finished ((walk s e io s.steps).1.inputOf c)
        (c.output.bind fun port => (e.port? port).map fun q => (walk s e io s.steps).1.mixed
          ((walk s e io s.steps).1.turns e.pool (players s e io.frames A)) port (q.prepare io.frames))
        ((walk s e io s.steps).1.poolThrough (players s e io.frames A) e.pool)) := by
  obtain ⟨A, B, hsplit⟩ := h.exists_step hid rfl
  have hmid := h.midway io hsplit
  obtain ⟨info, c, hinfo, hc, -, hout, rfl, hin, ⟨l, hl⟩, hdone⟩ := hmid.finishes h hsplit
  have hbefore : (walk s e io A).1.channel? c.key = some c :=
    (hmid.late ⟨l, hl⟩ c.key (h.orders.not_before hsplit (List.mem_singleton_self _))).trans hc
  have houtput : c.output.bind (walk s e io A).1.port? = c.output.bind fun port => (e.port? port).map fun q =>
      (walk s e io s.steps).1.mixed ((walk s e io s.steps).1.turns e.pool (players s e io.frames A)) port
        (q.prepare io.frames) :=
    Option.bind_congr fun port hport => h.output_found io hinfo (hout.trans hport) hsplit
  refine ⟨A, B, c, hsplit, hc, ?_⟩
  rw [h.channel_settled io hsplit, hdone.channel, hbefore, hin, hmid.pool, houtput]
  simp

/-- Only at the node of its port the driver is sent anything under a number. -/
theorem driver_apart (h : e.Scheduled t s) (io : DriverCycle) {p : EnginePort} (hp : e.ports.get? port = some p) {number : Nat}
    (horigin : p.origin = .driver number) (hsplit : s.steps = A ++ ⟨[.portProcess port], false⟩ :: B) :
    (walk s e io A).2.port? number = io.port? number ∧ (walk s e io s.steps).2.port? number =
      (processNode s (walk s e io A) (.portProcess port)).2.port? number := by
  have honly : ∀ key sources, e.mount key = some (.driver number, sources) → key = port := by
    intro key sources hmount
    obtain ⟨p', hp', hsame⟩ := Option.map_eq_some_iff.1 hmount
    exact h.realizes.number hp' hp (congrArg Prod.fst hsame) horigin
  constructor
  · refine h.driver_walk io [] fun key sources hmem hmount => ?_
    rw [honly key sources hmount] at hmem
    exact h.orders.not_before hsplit (List.mem_singleton_self _) hmem
  · rw [← walk_single, hsplit, List.append_cons]
    refine h.driver_walk io _ fun key sources hmem hmount => ?_
    rw [honly key sources hmount] at hmem
    exact h.orders.not_after hsplit (List.mem_singleton_self _) hmem

/-- The driver takes what an output port carries in the end. -/
theorem sent (h : e.Scheduled t s) (io : DriverCycle) {p : EnginePort} (hp : e.ports.get? port = some p)
    (hdir : p.port.direction = .output) {number : Nat} (horigin : p.origin = .driver number) :
    (walk s e io s.steps).2.port? number =
      (io.port? number).map fun d => d.taking io (mixdown s e io port p).finish := by
  obtain ⟨A, B, hsplit⟩ := h.exists_process hp
  obtain ⟨hbefore, hafter⟩ := h.driver_apart io hp horigin hsplit
  rw [hafter, h.process_output io hp hdir hsplit, port?_send, hbefore]
  simp only [horigin, if_true, DriverPort.taking_congr (h.constant_walk io A).start]

/-- The driver takes nothing where there is no output port. -/
theorem unsent (h : e.Scheduled t s) (io : DriverCycle) {number : Nat} (hnone : ∀ key p, e.ports.get? key = some p →
    p.origin = .driver number → p.port.direction = .input) :
    (walk s e io s.steps).2.port? number = io.port? number := by
  by_cases hthere : ∃ key p, e.ports.get? key = some p ∧ p.origin = .driver number
  · obtain ⟨key, p, hp, horigin⟩ := hthere
    obtain ⟨A, B, hsplit⟩ := h.exists_process hp
    obtain ⟨hbefore, hafter⟩ := h.driver_apart io hp horigin hsplit
    rw [hafter, h.process_input io hp (hnone key p hp horigin) (by simp [horigin]) hsplit, hbefore]
  · refine h.driver_walk io [] fun key sources _ hmount => hthere ?_
    obtain ⟨p, hp, hsame⟩ := Option.map_eq_some_iff.1 hmount
    exact ⟨key, p, hp, congrArg Prod.fst hsame⟩

end Scheduled

end Overdub.Engine
