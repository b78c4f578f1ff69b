import Overdub.Proofs.Dataflow
/-!
# The buffers of a cycle

`Engine.cycle_dataflow`: one cycle along the schedule of a topology computes the data
flow of that topology. `Dataflow` says so port by port, and every field speaks of
what ports carry at the end of the cycle: a port that is read is read when it
carries that (`Orderly`), so the fields can be read as equations between the final
buffers. Samples are added in the order that the equations write down, from left
to right.
-/

namespace Overdub.Engine

open Schedule (nodesOf)

/-! ## Buffers -/

/-- The samples that an audio port carries. -/
def buffer? (e : Engine) (key : PortKey) : Option Audio.Buffer := (e.audioPort? key).map (·.buffer)

theorem buffer?_of_port? {e : Engine} {key : PortKey} {a : Audio.Port} (h : e.port? key = some (.audio a)) :
    e.buffer? key = some a.buffer := by
  rw [buffer?, audioPort?_eq, h]
  rfl

theorem port?_of_audioPort? {e : Engine} {key : PortKey} {a : Audio.Port} (h : e.audioPort? key = some a) :
    e.port? key = some (.audio a) := by
  rw [audioPort?_eq] at h
  obtain ⟨q, hq, ha⟩ := Option.bind_eq_some_iff.1 h
  cases q with
  | audio q => rw [hq, Option.some.inj ha]
  | midi q => cases ha

/-- The pieces that channels play into a port. -/
def pieces (f : Engine) (turns : List (LoopChannel × Audio.Pool)) (key : PortKey) (frames : Nat) :
    List (Nat × Audio.Buffer) :=
  turns.flatMap fun turn =>
    if turn.1.output = some key then turn.1.playback (f.inputOf turn.1) turn.2 frames else []

/-- A buffer with pieces added to it. -/
def addPieces (pieces : List (Nat × Audio.Buffer)) (b : Audio.Buffer) : Audio.Buffer :=
  pieces.foldl (fun b piece => b.add piece.1 piece.2) b

/-- A buffer with what other ports carry added to it. -/
def addSources (f : Engine) (sources : List PortKey) (b : Audio.Buffer) : Audio.Buffer :=
  sources.foldl (fun b source => b.add 0 ((f.buffer? source).getD [])) b

theorem length_addPieces (pieces : List (Nat × Audio.Buffer)) (b : Audio.Buffer) :
    (addPieces pieces b).length = b.length :=
  List.foldlRecOn (motive := fun b' : Audio.Buffer => b'.length = b.length) pieces _ rfl
    fun _ h _ _ => (Audio.Buffer.length_add ..).trans h

theorem length_addSources (f : Engine) (sources : List PortKey) (b : Audio.Buffer) :
    (f.addSources sources b).length = b.length :=
  List.foldlRecOn (motive := fun b' : Audio.Buffer => b'.length = b.length) sources _ rfl
    fun _ h _ _ => (Audio.Buffer.length_add ..).trans h

/-- Channels add their pieces to an audio port. -/
theorem mixed_audio (f : Engine) (turns : List (LoopChannel × Audio.Pool)) (key : PortKey) (a : Audio.Port) :
    f.mixed turns key (.audio a) =
      .audio { a with buffer := addPieces (f.pieces turns key a.buffer.length) a.buffer } := by
  induction turns generalizing a with
  | nil => rfl
  | cons turn turns ih =>
    rw [mixed, List.foldl_cons]
    by_cases hout : turn.1.output = some key
    · rw [if_pos hout, LoopChannel.playInto_audio]
      refine (ih _).trans ?_
      dsimp only
      have hlength := length_addPieces (turn.1.playback (f.inputOf turn.1) turn.2 a.buffer.length) a.buffer
      unfold addPieces at hlength ⊢
      rw [hlength, pieces, pieces, List.flatMap_cons, if_pos hout, List.foldl_append]
    · rw [if_neg hout]
      refine (ih a).trans ?_
      rw [pieces, pieces, List.flatMap_cons, if_neg hout, List.nil_append]

/-- Sources add their buffers to an audio port. -/
theorem foldl_mixFrom_audio (f : Engine) (sources : List PortKey) (a : Audio.Port) :
    sources.foldl f.mixFrom (.audio a) = .audio { a with buffer := f.addSources sources a.buffer } := by
  induction sources generalizing a with
  | nil => rfl
  | cons source sources ih =>
    have hone : f.mixFrom (.audio a) source =
        .audio { a with buffer := a.buffer.add 0 ((f.buffer? source).getD []) } := by
      rw [mixFrom, buffer?, audioPort?_eq]
      cases f.port? source with
      | none => simp [Audio.Buffer.add_nil]
      | some q =>
        cases q with
        | audio q => exact congrArg (fun b => Port.audio { a with buffer := b }) (a.mix_buffer q.buffer)
        | midi q => simp [Port.mix, Port.audio?, Audio.Buffer.add_nil]
    rw [List.foldl_cons, hone, ih]
    rfl

/-! ## Chains -/

theorem overwrite_silence (n : Nat) (b : Audio.Buffer) : Audio.Buffer.overwrite (Audio.silence n) 0 b = Audio.Buffer.fit n b := by
  simp [Audio.Buffer.overwrite, Audio.Buffer.fit, Audio.silence]

/-- Messages change no samples. -/
theorem pushMidi_keeps (b : Effect.Buffers) (i : Nat) (m : Midi.Message) :
    (b.pushMidi i m).1.audioIn = b.audioIn ∧ (b.pushMidi i m).1.audioOut = b.audioOut := by
  unfold Effect.Buffers.pushMidi
  split <;> exact ⟨rfl, rfl⟩

/-- The audio inputs of a chain, each as long as the port it comes from reaches. -/
theorem audioIn_setInputs (e : Engine) (ports : List PortKey) (k i : Nat) (b : Effect.Buffers) :
    ((ports.zipIdx k).foldl (fun b x => (e.audioPort? x.1).elim b fun p => b.setInput x.2 p.buffer) b).audioIn[i]? =
      b.audioIn[i]?.map fun old =>
        if k ≤ i then (ports[i - k]?.bind e.buffer?).elim old (Audio.Buffer.overwrite old 0) else old := by
  induction ports generalizing k b with
  | nil => simp
  | cons port ports ih =>
    have hone : ((e.audioPort? port).elim b fun p => b.setInput k p.buffer).audioIn[i]? = b.audioIn[i]?.map fun old =>
        if i = k then (e.buffer? port).elim old (Audio.Buffer.overwrite old 0) else old := by
      cases hport : e.audioPort? port with
      | none => simp [buffer?, hport]
      | some p =>
        simp only [buffer?, hport, Option.map_some, Option.elim_some, Effect.Buffers.setInput, List.getElem?_modify,
          @eq_comm _ k i, Option.map_eq_map]
    rw [List.zipIdx_cons, List.foldl_cons, ih, hone, Option.map_map]
    refine congrArg (Option.map · _) (funext fun old => ?_)
    simp only [Function.comp_apply]
    rcases Nat.lt_trichotomy i k with hlt | rfl | hgt
    · rw [if_neg (by omega), if_neg (by omega), if_neg (by omega)]
    · simp
    · obtain ⟨d, rfl⟩ : ∃ d, i = k + 1 + d := ⟨i - (k + 1), by omega⟩
      rw [if_pos (by omega), if_neg (by omega), if_pos (by omega), show k + 1 + d - k = d + 1 by omega,
        show k + 1 + d - (k + 1) = d by omega, List.getElem?_cons_succ]

/-- What a chain finds in its audio inputs and outputs. -/
theorem audio_chainInput (e : Engine) (c : EngineChain) {frames : Nat} (h : frames ≤ Audio.maxCycleFrames) :
    (∀ (i : Nat) port, i < c.effect.layout.audioInputs → c.audioInputs[i]? = some port →
      (e.chainInput c frames).audioIn[i]? = some (Audio.Buffer.fit frames ((e.buffer? port).getD []))) ∧
      ∀ b ∈ (e.chainInput c frames).audioOut, b = Audio.silence frames := by
  let fresh := (Effect.Buffers.new c.effect.layout c.midiCapacity).prepare frames
  let filled := c.audioInputs.zipIdx.foldl (fun b x => (e.audioPort? x.1).elim b fun p => b.setInput x.2 p.buffer) fresh
  have hfilled : filled.audioOut = fresh.audioOut := by
    refine List.foldlRecOn (motive := fun b : Effect.Buffers => b.audioOut = fresh.audioOut) _ _ rfl
      fun b hb x _ => ?_
    cases e.audioPort? x.1 <;> exact hb
  have hmidi : (e.chainInput c frames).audioIn = filled.audioIn ∧ (e.chainInput c frames).audioOut = filled.audioOut := by
    refine List.foldlRecOn (motive := fun b : Effect.Buffers =>
      b.audioIn = filled.audioIn ∧ b.audioOut = filled.audioOut) _ _ ⟨rfl, rfl⟩ fun b hb ⟨port, i⟩ _ => ?_
    refine List.foldlRecOn (motive := fun b : Effect.Buffers =>
      b.audioIn = filled.audioIn ∧ b.audioOut = filled.audioOut) _ _ hb fun b hb m _ => ?_
    obtain ⟨hin, hout⟩ := pushMidi_keeps b i m
    exact ⟨hin.trans hb.1, hout.trans hb.2⟩
  refine ⟨fun i port hi hport => ?_, ?_⟩
  · have hfresh : fresh.audioIn[i]? = some (Audio.silence frames) := by
      simp [fresh, Effect.Buffers.new, Effect.Buffers.prepare, hi, Audio.cycleSilence_of_le h]
    rw [hmidi.1, audioIn_setInputs, hfresh, Option.map_some, if_pos (Nat.zero_le i), Nat.sub_zero, hport, Option.bind_some]
    cases e.buffer? port with
    | none => simp [Audio.Buffer.fit_nil]
    | some b => simp [overwrite_silence]
  · rw [hmidi.2, hfilled]
    intro b hb
    obtain ⟨_, -, rfl⟩ := List.mem_map.1 hb
    exact Audio.cycleSilence_of_le h

/-! ## One cycle -/

/-- What ports of either kind carry when a cycle has led from `e` and `io` to `f` and
`out`, and what the driver takes of it. -/
structure Delivered (s : Schedule) (e : Engine) (io : DriverCycle) (f : Engine) (out : DriverCycle) : Prop where
  /-- An input port carries what comes in at it. -/
  received : ∀ key p, e.ports.get? key = some p → p.port.direction = .input → (∀ chain, p.origin ≠ .chain chain) →
    f.port? key = some (receive io.frames io p.origin p.port).finish
  /-- An output port carries what the channels bring that play into it, and then its
  sources. -/
  mixed : ∀ key p, e.ports.get? key = some p → p.port.direction = .output → f.port? key =
    some (p.sources.foldl f.mixFrom (f.mixed
      (f.turns e.pool (s.channels.filterMap (advanced s e io.frames).channel?)) key (p.port.prepare io.frames))).finish
  /-- An output of a chain carries what the chain makes of its inputs. -/
  result : ∀ chain c (i : Nat) key p, e.chains.get? chain = some c → c.audioOutputs[i]? = some key →
    e.ports.get? key = some p → f.port? key =
      some (effected (c.effect.run (f.chainInput c io.frames)).1 io.frames i p.port).finish
  /-- The driver takes what an output port carries, and nothing else. -/
  taken : ∀ key p id q, e.ports.get? key = some p → p.port.direction = .output → p.origin = .driver id →
    f.port? key = some q → out.port? id = (io.port? id).map (·.taking io q)
  untaken : ∀ id, (∀ key p, e.ports.get? key = some p → p.origin = .driver id → p.port.direction = .input) →
    out.port? id = io.port? id

/-- Along the steps of a cycle that ends in `f`, ports are read and written in order. -/
structure Orderly (t : Topology) (s : Schedule) (e : Engine) (io : DriverCycle) (f : Engine) : Prop where
  /-- A node that takes the data of a port finds what the port carries in the end. -/
  read : ∀ A step B, s.steps = A ++ step :: B → ∀ id ∈ step.nodes, ∀ port, t.Flow (.portProcess port) id →
    (walk s e io A).1.port? port = f.port? port
  /-- No port changes after it was processed. -/
  written : ∀ A B, s.steps = A ++ B → ∀ port, .portProcess port ∈ nodesOf A →
    (walk s e io A).1.port? port = f.port? port

/-- What a cycle makes of the samples that come in. Whatever is said of ports is said
of what they carry in the end. -/
structure Dataflow (t : Topology) (s : Schedule) (e : Engine) (io : DriverCycle) (f : Engine) (out : DriverCycle) : Prop
    extends Delivered s e io f out, Orderly t s e io f where
  /-- An input port of the driver carries its gain times what was captured, filled up
  with silence. -/
  captured : ∀ key a id sources, e.audioPort? key = some a → a.direction = .input →
    e.mount key = some (.driver id, sources) → f.buffer? key =
      some (Audio.scale a.level (Audio.Buffer.fit io.frames ((io.audioInput? id).getD [])))
  /-- One that the driver could not open carries its gain times silence. -/
  detached : ∀ key a sources, e.audioPort? key = some a → a.direction = .input →
    e.mount key = some (.detached, sources) → f.buffer? key = some (Audio.scale a.level (Audio.silence io.frames))
  /-- An output port carries its gain times a sum: silence, the playback of the
  channels that play into it, in the order of the schedule, and what its sources
  carry, in their order. -/
  summed : ∀ key a origin sources, e.audioPort? key = some a → a.direction = .output →
    e.mount key = some (origin, sources) → f.buffer? key =
      some (Audio.scale a.level (f.addSources sources (addPieces
        (f.pieces (f.turns e.pool (s.channels.filterMap (advanced s e io.frames).channel?)) key io.frames)
        (Audio.silence io.frames))))
  /-- No source is counted twice. -/
  single : ∀ key origin sources, e.mount key = some (origin, sources) → sources.Nodup
  /-- The channels that have a turn are those of the topology, with their ports. -/
  turn : ∀ key, key ∈ s.channels ↔ ∃ info c, t.channels.get? key = some info ∧
    (advanced s e io.frames).channel? key = some c ∧ c.key = key ∧ c.input = info.input ∧ c.output = info.output
  once : s.channels.Nodup
  /-- A channel ends the cycle with what its input carries, and with what the channels
  before it have brought to its output. -/
  channel : ∀ before key after c, s.channels = before ++ key :: after →
    (advanced s e io.frames).channel? key = some c → f.channel? key = some (c.finished (f.inputOf c)
      (c.output.bind fun port => (e.port? port).map fun q => f.mixed
        (f.turns e.pool (before.filterMap (advanced s e io.frames).channel?)) port (q.prepare io.frames))
      (f.poolThrough (before.filterMap (advanced s e io.frames).channel?) e.pool))
  /-- A chain finds in its inputs what the ports carry. -/
  heard : ∀ chain c (i : Nat) port, e.chains.get? chain = some c → i < c.effect.layout.audioInputs →
    c.audioInputs[i]? = some port → (f.chainInput c io.frames).audioIn[i]? =
      some (Audio.Buffer.fit io.frames ((f.buffer? port).getD []))
  /-- Its outputs carry their gain times what it makes of that. -/
  effect : ∀ chain c (i : Nat) key a, e.chains.get? chain = some c → c.audioOutputs[i]? = some key →
    e.audioPort? key = some a → f.buffer? key = some (Audio.scale a.level
      (Audio.Buffer.fit io.frames ((c.effect.run (f.chainInput c io.frames)).1.audioOut[i]?.getD [])))
  /-- Those of a chain that does not run carry silence. -/
  idle : ∀ chain c (i : Nat) key a, e.chains.get? chain = some c → (c.effect.ready && c.effect.active) = false →
    c.audioOutputs[i]? = some key → e.audioPort? key = some a →
    f.buffer? key = some (Audio.scale a.level (Audio.silence io.frames))
  /-- The driver plays what its output ports carry. -/
  played : ∀ key a id sources b, e.audioPort? key = some a → a.direction = .output →
    e.mount key = some (.driver id, sources) → io.audioOutput? id = some b → b.length = io.frames →
    out.audioOutput? id = f.buffer? key

namespace Scheduled

variable {t : Topology} {s : Schedule} {e : Engine} {io : DriverCycle} {key : PortKey} {a : Audio.Port}
  {origin : PortOrigin} {sources : List PortKey}

theorem delivered (h : e.Scheduled t s) : Delivered s e io (walk s e io s.steps).1 (walk s e io s.steps).2 where
  received _ _ := h.input io
  mixed _ _ := h.output io
  result _ _ _ _ _ := h.result io
  taken key p id q hp hdir horigin hq := by
    rw [h.output io hp hdir] at hq
    rw [h.sent io hp hdir horigin, Option.some.inj hq]
  untaken _ := h.unsent io
theorem orderly (h : e.Scheduled t s) : Orderly t s e io (walk s e io s.steps).1 where
  read A step B hsplit id hid port hflow := by
    have hlinked := h.realizes.linked
    cases hflow with
    | record hc hport => exact h.final_when_read io (hlinked.input _ _ _ hc hport) (.record hc hport) nofun hsplit hid
    | source hp ho =>
      refine h.final_when_read io (hlinked.source _ _ _ hp ho) (.source hp ho) ?_ hsplit hid
      intro heq
      cases heq
      exact h.realizes.fitting.other _ _ hp ho
    | effect hc hport =>
      obtain ⟨p, hp, -⟩ := hlinked.owned _ _ _ hc (List.mem_append_left _ hport)
      exact h.final_when_read io (Option.isSome_iff_exists.2 ⟨p, hp⟩) (.effect hc hport) nofun hsplit hid
  written A B hsplit port hdone := (h.settled io hsplit hdone).symm

theorem captured (h : e.Scheduled t s) (hmax : io.frames ≤ Audio.maxCycleFrames) (ha : e.audioPort? key = some a)
    (hdir : a.direction = .input) {id : Nat} (hmount : e.mount key = some (.driver id, sources)) :
    (walk s e io s.steps).1.buffer? key =
      some (Audio.scale a.level (Audio.Buffer.fit io.frames ((io.audioInput? id).getD []))) := by
  have hport := h.input io (get?_of_port? hmount (port?_of_audioPort? ha)) hdir nofun
  have hbuffer : ((io.audioInput? id).elim (a.prepare io.frames) (a.prepare io.frames).fill).buffer =
      Audio.Buffer.fit io.frames ((io.audioInput? id).getD []) := by
    have hprepared := a.prepare_buffer hmax
    cases io.audioInput? id with
    | none => rw [Option.elim_none, hprepared, Option.getD_none, Audio.Buffer.fit_nil]
    | some b => rw [Option.elim_some, Audio.Port.fill_buffer, hprepared, Audio.length_silence, Option.getD_some]
  refine (buffer?_of_port? hport).trans (congrArg some ?_)
  rw [Audio.Port.finish_buffer, hbuffer]
  cases io.audioInput? id <;> rfl

theorem detached (h : e.Scheduled t s) (hmax : io.frames ≤ Audio.maxCycleFrames) (ha : e.audioPort? key = some a)
    (hdir : a.direction = .input) (hmount : e.mount key = some (.detached, sources)) :
    (walk s e io s.steps).1.buffer? key = some (Audio.scale a.level (Audio.silence io.frames)) := by
  have hport := h.input io (get?_of_port? hmount (port?_of_audioPort? ha)) hdir nofun
  refine (buffer?_of_port? hport).trans (congrArg some ?_)
  exact congrArg (Audio.scale a.level) (a.prepare_buffer hmax)

theorem summed (h : e.Scheduled t s) (hmax : io.frames ≤ Audio.maxCycleFrames) (ha : e.audioPort? key = some a)
    (hdir : a.direction = .output) (hmount : e.mount key = some (origin, sources)) :
    (walk s e io s.steps).1.buffer? key = some (Audio.scale a.level ((walk s e io s.steps).1.addSources sources
      (addPieces ((walk s e io s.steps).1.pieces ((walk s e io s.steps).1.turns e.pool
        (s.channels.filterMap (advanced s e io.frames).channel?)) key io.frames) (Audio.silence io.frames)))) := by
  have hport := h.output io (get?_of_port? hmount (port?_of_audioPort? ha)) hdir
  have hmixdown : mixdown s e io key ⟨origin, .audio a, sources⟩ = .audio { a.prepare io.frames with
      buffer := (walk s e io s.steps).1.addSources sources (addPieces ((walk s e io s.steps).1.pieces
        ((walk s e io s.steps).1.turns e.pool (s.channels.filterMap (advanced s e io.frames).channel?)) key io.frames)
        (Audio.silence io.frames)) } := by
    have hplayed := mixed_audio (walk s e io s.steps).1
      ((walk s e io s.steps).1.turns e.pool (s.channels.filterMap (advanced s e io.frames).channel?)) key
      (a.prepare io.frames)
    rw [a.prepare_buffer hmax, Audio.length_silence] at hplayed
    exact (congrArg (sources.foldl (walk s e io s.steps).1.mixFrom) hplayed).trans (foldl_mixFrom_audio ..)
  rw [hmixdown] at hport
  exact buffer?_of_port? hport

theorem single (h : e.Scheduled t s) (hmount : e.mount key = some (origin, sources)) : sources.Nodup := by
  refine h.realizes.single key sources ?_
  rw [h.realizes.alike]
  obtain ⟨p, hp, hsame⟩ := Option.map_eq_some_iff.1 hmount
  exact (congrArg (Option.map EnginePort.sources) hp).trans (congrArg some (congrArg Prod.snd hsame))

theorem effect (h : e.Scheduled t s) (hmax : io.frames ≤ Audio.maxCycleFrames) {chain : ChainKey} {c : EngineChain}
    {i : Nat} (hc : e.chains.get? chain = some c) (hi : c.audioOutputs[i]? = some key) (ha : e.audioPort? key = some a) :
    (walk s e io s.steps).1.buffer? key = some (Audio.scale a.level (Audio.Buffer.fit io.frames
      ((c.effect.run ((walk s e io s.steps).1.chainInput c io.frames)).1.audioOut[i]?.getD []))) := by
  obtain ⟨p, hp, hpa⟩ := Option.map_eq_some_iff.1 (port?_of_audioPort? ha)
  have hport := h.result io hc hi hp
  rw [hpa] at hport
  refine (buffer?_of_port? hport).trans (congrArg some ?_)
  have hprepared := a.prepare_buffer hmax
  cases (c.effect.run ((walk s e io s.steps).1.chainInput c io.frames)).1.audioOut[i]? with
  | none =>
    rw [Option.getD_none, Audio.Buffer.fit_nil]
    exact congrArg (Audio.scale a.level) hprepared
  | some b =>
    have hfilled := (a.prepare io.frames).fill_buffer b
    rw [hprepared, Audio.length_silence] at hfilled
    exact congrArg (Audio.scale a.level) hfilled

theorem idle (h : e.Scheduled t s) (hmax : io.frames ≤ Audio.maxCycleFrames) {chain : ChainKey} {c : EngineChain}
    {i : Nat} (hc : e.chains.get? chain = some c) (hidle : (c.effect.ready && c.effect.active) = false)
    (hi : c.audioOutputs[i]? = some key) (ha : e.audioPort? key = some a) :
    (walk s e io s.steps).1.buffer? key = some (Audio.scale a.level (Audio.silence io.frames)) := by
  rw [h.effect hmax hc hi ha]
  refine congrArg (fun b => some (Audio.scale a.level b)) ?_
  have hrun : (c.effect.run ((walk s e io s.steps).1.chainInput c io.frames)).1 =
      (walk s e io s.steps).1.chainInput c io.frames := by
    rw [Effect.Chain.run, hidle]
    rfl
  rw [hrun]
  cases hb : ((walk s e io s.steps).1.chainInput c io.frames).audioOut[i]? with
  | none => rw [Option.getD_none, Audio.Buffer.fit_nil]
  | some b =>
    rw [Option.getD_some, (audio_chainInput _ c hmax).2 b (List.mem_of_getElem? hb),
      Audio.Buffer.fit_of_length (Audio.length_silence _)]

/-- The driver plays what an output port carries, when its buffer is as long as the cycle. -/
theorem driver_plays (h : e.Scheduled t s) (hmax : io.frames ≤ Audio.maxCycleFrames) (ha : e.audioPort? key = some a)
    (hdir : a.direction = .output) {id : Nat} (hmount : e.mount key = some (.driver id, sources)) {b : Audio.Buffer}
    (hb : io.audioOutput? id = some b) (hlength : b.length = io.frames) :
    (walk s e io s.steps).2.audioOutput? id = (walk s e io s.steps).1.buffer? key := by
  have hget := get?_of_port? hmount (port?_of_audioPort? ha)
  have hsummed := h.summed hmax ha hdir hmount
  obtain ⟨q, hq, hbuffer⟩ := Option.map_eq_some_iff.1 hsummed
  have hframes : q.buffer.length = io.frames := by
    rw [hbuffer, Audio.length_scale, length_addSources, length_addPieces, Audio.length_silence]
  have hsent := h.delivered.taken key _ id _ hget hdir rfl (port?_of_audioPort? hq)
  obtain ⟨d, hd, rfl⟩ := Option.map_eq_some_iff.1 hb
  obtain ⟨hd, hkind⟩ := Option.filter_eq_some_iff.1 hd
  have hkind := of_decide_eq_true hkind
  have htaking : d.taking io (.audio q) = { d with buffer := q.buffer } := by
    rw [DriverPort.taking, if_pos hkind, Audio.Buffer.fit_of_length (hframes.trans hlength.symm)]
  rw [DriverCycle.audioOutput?, hsent, hd, Option.map_some, htaking, buffer?, hq]
  simp [Option.filter, hkind]

/-- A channel of the topology has a turn. -/
theorem mem_channels (h : e.Scheduled t s) {key : ChannelKey} : key ∈ s.channels ↔ t.channels.contains key = true := by
  have hhas : NodeId.channel key ∈ s.nodes ↔ t.channels.contains key = true := h.mem_nodes
  rw [← hhas, Schedule.channels, List.mem_filterMap]
  constructor
  · rintro ⟨id, hid, hkey⟩
    rwa [← eq_of_channelOf? hkey]
  · exact fun hmem => ⟨_, hmem, rfl⟩

theorem nodup_channels (h : e.Scheduled t s) : s.channels.Nodup := by
  refine List.Nodup.filterMap (fun id id' key hid hid' => ?_) h.orders.once
  rw [eq_of_channelOf? hid, eq_of_channelOf? hid']

theorem channel (h : e.Scheduled t s) {before after : List ChannelKey} {key : ChannelKey} {c : LoopChannel}
    (hsplit : s.channels = before ++ key :: after) (hc : (advanced s e io.frames).channel? key = some c) :
    (walk s e io s.steps).1.channel? key = some (c.finished ((walk s e io s.steps).1.inputOf c)
      (c.output.bind fun port => (e.port? port).map fun q => (walk s e io s.steps).1.mixed
        ((walk s e io s.steps).1.turns e.pool (before.filterMap (advanced s e io.frames).channel?)) port
        (q.prepare io.frames))
      ((walk s e io s.steps).1.poolThrough (before.filterMap (advanced s e io.frames).channel?) e.pool)) := by
  have hid : t.Has (.channel key) := h.mem_channels.1 (by simp [hsplit])
  obtain ⟨A, B, c', hsteps, hc', hdone⟩ := h.recorded io hid
  cases hc.symm.trans hc'
  have hchannels : s.channels = (nodesOf A).filterMap channelOf? ++ key :: (nodesOf B).filterMap channelOf? := by
    rw [Schedule.channels, Schedule.nodes_split hsteps, List.filterMap_append]
    rfl
  have hnodup := h.nodup_channels
  have hbefore : key ∉ before := by
    rw [hsplit] at hnodup
    exact fun hkey => (List.nodup_append.1 hnodup).2.2 key hkey key List.mem_cons_self rfl
  have hafter : key ∉ after := by
    rw [hsplit] at hnodup
    exact (List.nodup_cons.1 (List.nodup_append.1 hnodup).2.1).1
  obtain ⟨rfl, -, -⟩ := (List.append_cons_inj_of_notMem hbefore hafter).1 (hsplit.symm.trans hchannels)
  exact hdone

theorem turn (h : e.Scheduled t s) {key : ChannelKey} : key ∈ s.channels ↔ ∃ info c,
    t.channels.get? key = some info ∧ (advanced s e io.frames).channel? key = some c ∧ c.key = key ∧
      c.input = info.input ∧ c.output = info.output := by
  rw [h.mem_channels]
  constructor
  · intro hkey
    obtain ⟨info, c, hinfo, hc, hin, hout⟩ := h.exists_channel hkey io.frames
    exact ⟨info, c, hinfo, hc, channel?_key hc, hin.symm, hout.symm⟩
  · rintro ⟨info, -, hinfo, -⟩
    exact Option.isSome_iff_exists.2 ⟨info, hinfo⟩

end Scheduled

/-- One cycle of at most 8192 frames, along the schedule of a topology that the engine
realizes, computes the data flow of the topology. -/
theorem cycle_dataflow {t : Topology} {e : Engine} {s : Schedule} {generation : Nat} {io : DriverCycle}
    (hrealizes : e.Realizes t) (hs : t.schedule generation = .ok s) (hsome : 0 < io.frames)
    (hmax : io.frames ≤ Audio.maxCycleFrames) : Dataflow t s e io (e.cycle s io).1 (e.cycle s io).2 := by
  obtain ⟨horders, hbusy⟩ := Graph.orders_of_schedule hs
  have h : e.Scheduled t s := ⟨hrealizes, horders, hbusy⟩
  have hcycle : e.cycle s io = walk s e io s.steps := if_neg (Nat.pos_iff_ne_zero.1 hsome)
  rw [hcycle]
  exact {
    toDelivered := h.delivered
    toOrderly := h.orderly
    captured := fun _ _ _ _ ha hdir hmount => h.captured hmax ha hdir hmount
    detached := fun _ _ _ ha hdir hmount => h.detached hmax ha hdir hmount
    summed := fun _ _ _ _ => h.summed hmax
    single := fun _ _ _ => h.single
    turn := fun _ => h.turn
    once := h.nodup_channels
    channel := fun _ _ _ _ => h.channel
    heard := fun _ c i port _ hi hport => (audio_chainInput _ c hmax).1 i port hi hport
    effect := fun _ _ _ _ _ => h.effect hmax
    idle := fun _ _ _ _ _ => h.idle hmax
    played := fun _ _ _ _ _ ha hdir hmount hb => h.driver_plays hmax ha hdir hmount hb }

/-- A loop with a channel that records from an input port and plays into an output
port, which a chain plays into as well. -/
def duet : List Session.Action :=
  [.setDriver (.new { bufferSize := 1 }), .openPort "in" .audio .input, .openPort "out" .audio .output,
    .addLoop, .addChannel ⟨0, 0⟩ .audio .direct, .connectChannel ⟨0, 0⟩ ⟨0, 0⟩ .input,
    .connectChannel ⟨0, 0⟩ ⟨1, 0⟩ .output,
    .addChain "fx" { layout := { audioInputs := 1, audioOutputs := 1 }, process := fun b => (b, .ok ()) },
    .connectPorts ⟨0, 0⟩ ⟨2, 0⟩, .connectPorts ⟨3, 0⟩ ⟨1, 0⟩, .settle]

def duetSession : Session := (Session.new { bufferSize := 1, poolBuffers := 0, reservedSamples := 1 }).after duet

theorem cycle_dataflow_duet :
    let s := duetSession
    let io : DriverCycle := ⟨2, 0, [some { name := "in", dataType := .audio, direction := .input, buffer := [1, 2] },
      some { name := "out", dataType := .audio, direction := .output, buffer := [0, 0] }]⟩
    s.engine.Realizes s.topology ∧ 0 < io.frames ∧ io.frames ≤ Audio.maxCycleFrames ∧
      ∃ schedule, s.topology.schedule 0 = .ok schedule ∧
        Dataflow s.topology schedule s.engine io (s.engine.cycle schedule io).1 (s.engine.cycle schedule io).2 := by
  intro s io
  have hspares : ∀ a ∈ duet, a.SparesPorts := by simp [duet, Session.Action.SparesPorts]
  have hrealizes : s.engine.Realizes s.topology := Session.realizes_after _ hspares (by decide +kernel)
  have hok : (s.topology.schedule 0).isOk = true := by decide +kernel
  obtain ⟨schedule, hs⟩ : ∃ schedule, s.topology.schedule 0 = .ok schedule := by
    cases h : s.topology.schedule 0 with
    | error e => rw [h] at hok; cases hok
    | ok schedule => exact ⟨schedule, rfl⟩
  refine ⟨hrealizes, by decide, by decide, schedule, hs, ?_⟩
  exact cycle_dataflow hrealizes hs (by decide) (by decide)

end Overdub.Engine
