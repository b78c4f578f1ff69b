import Overdub.Proofs.Signals
import Overdub.Proofs.Steady
/-!
# What a node of a cycle touches

Each node of a cycle changes one object and the ports that its object writes to
(`Engine.Writes`); whatever else there is stays as it was. Where all that a node
needs is there, one equation says what it does: `finishChannel_spec` for a
channel, `port?_processChain` for a chain and `processPort_input` and
`processPort_output` for a port.
-/

namespace Overdub

theorem Arena.eq_of_index {kind : ObjectKind} {α : Type} {a : Arena kind α} {k k' : Key kind}
    (h : a.contains k = true) (h' : a.contains k' = true) (hindex : k.index = k'.index) : k = k' := by
  obtain ⟨v, hv⟩ := Option.isSome_iff_exists.1 h
  obtain ⟨v', hv'⟩ := Option.isSome_iff_exists.1 h'
  have hslot := (slot_of_get? hv).symm.trans (hindex ▸ slot_of_get? hv')
  cases k
  cases k'
  simp_all

/-- One pass over some keys leaves the values under others alone. -/
theorem Arena.get?_modifyOthers {kind : ObjectKind} {α β : Type} (f : β → α → α) (a : Arena kind α)
    {xs : List (Key kind × β)} {key : Key kind} (h : key ∉ xs.map (·.1)) :
    (xs.foldl (fun a x => a.modify x.1 (f x.2)) a).get? key = a.get? key := by
  induction xs generalizing a with
  | nil => rfl
  | cons x xs ih =>
    rw [List.map_cons, List.mem_cons, not_or] at h
    exact (ih _ h.2).trans (a.get?_modify_ne _ h.1)

/-- The value under each of the keys meets its own function. -/
theorem Arena.get?_modifyAll {kind : ObjectKind} {α β : Type} (f : β → α → α) (a : Arena kind α)
    {xs : List (Key kind × β)} (hnodup : (xs.map (·.1)).Nodup) {key : Key kind} {b : β} (hmem : (key, b) ∈ xs) :
    (xs.foldl (fun a x => a.modify x.1 (f x.2)) a).get? key = (a.get? key).map (f b) := by
  induction xs generalizing a with
  | nil => cases hmem
  | cons x xs ih =>
    rw [List.map_cons, List.nodup_cons] at hnodup
    rcases List.mem_cons.1 hmem with rfl | hmem
    · exact (get?_modifyOthers f _ hnodup.1).trans (a.get?_modify_self key _)
    · have hne : key ≠ x.1 := fun heq => hnodup.1 (heq ▸ List.mem_map_of_mem hmem)
      rw [List.foldl_cons, ih _ hnodup.2 hmem, a.get?_modify_ne _ hne]

theorem Loop.channel?_setChannel (l : Loop) (c : LoopChannel) (key : ChannelKey) :
    (l.setChannel c).channel? key = (l.channel? key).map fun old => if key = c.key then c else old := by
  have hkey : ∀ old : LoopChannel, (if old.key = c.key then c else old).key = old.key := by
    intro old
    split_ifs with h
    · exact h.symm
    · rfl
  unfold channel? setChannel
  rw [List.find?_map]
  simp only [Function.comp_def, hkey]
  cases hfound : l.channels.find? (·.key = key) with
  | none => rfl
  | some old =>
    have hold : old.key = key := by simpa using List.find?_some hfound
    simp only [Option.map_some, hold]

namespace Engine

/-! ## Ports -/

/-- What a port is connected to. -/
def mount (e : Engine) (key : PortKey) : Option (PortOrigin × List PortKey) :=
  (e.ports.get? key).map fun p => (p.origin, p.sources)

theorem get?_of_port? {e : Engine} {key : PortKey} {origin : PortOrigin} {sources : List PortKey} {q : Port}
    (hmount : e.mount key = some (origin, sources)) (hport : e.port? key = some q) :
    e.ports.get? key = some ⟨origin, q, sources⟩ := by
  obtain ⟨p, hp, rfl⟩ := Option.map_eq_some_iff.1 hport
  obtain ⟨p', hp', hsame⟩ := Option.map_eq_some_iff.1 hmount
  cases hp.symm.trans hp'
  obtain ⟨rfl, rfl⟩ := Prod.mk.inj hsame
  exact hp

theorem audioPort?_eq (e : Engine) (key : PortKey) : e.audioPort? key = (e.port? key).bind Port.audio? := by
  rw [port?, Option.bind_map]
  rfl

theorem midiPort?_eq (e : Engine) (key : PortKey) : e.midiPort? key = (e.port? key).bind Port.midi? := by
  rw [port?, Option.bind_map]
  rfl

theorem port?_modifyPort (e : Engine) (key k : PortKey) (f : Port → Port) :
    (e.modifyPort key f).port? k = (e.port? k).map fun q => if k = key then f q else q := by
  simp only [port?, modifyPort, Arena.get?_modify_eq_map, Option.map_map]
  refine congrArg (Option.map · _) (funext fun p => ?_)
  simp only [Function.comp_apply]
  split_ifs <;> rfl

theorem port?_modifyPort_ne (e : Engine) {key k : PortKey} (f : Port → Port) (h : k ≠ key) :
    (e.modifyPort key f).port? k = e.port? k := by
  rw [port?_modifyPort]
  simp [h]

theorem port?_modifyPort_self (e : Engine) (key : PortKey) (f : Port → Port) :
    (e.modifyPort key f).port? key = (e.port? key).map f := by
  rw [port?_modifyPort]
  simp

@[simp] theorem mount_modifyPort (e : Engine) (key : PortKey) (f : Port → Port) : (e.modifyPort key f).mount = e.mount := by
  funext k
  simp only [mount, modifyPort, Arena.get?_modify_eq_map, Option.map_map]
  refine congrArg (Option.map · _) (funext fun p => ?_)
  simp only [Function.comp_apply]
  split_ifs <;> rfl

/-- Changes a port where there is one, and something to do with it. -/
def modifyPort? (e : Engine) : Option PortKey → Option (Port → Port) → Engine
  | some key, some f => e.modifyPort key f
  | _, _ => e

theorem port?_modifyPort? (e : Engine) (key : Option PortKey) (f : Option (Port → Port)) (k : PortKey) :
    (e.modifyPort? key f).port? k = (e.port? k).map fun q => if key = some k then f.elim q (· q) else q := by
  cases key with
  | none => simp [modifyPort?]
  | some key =>
    cases f with
    | none => simp [modifyPort?]
    | some f => simp only [modifyPort?, port?_modifyPort, Option.some.injEq, @eq_comm _ key k, Option.elim_some]

theorem modifyPort?_touches (e : Engine) (key : Option PortKey) (f : Option (Port → Port)) :
    (e.modifyPort? key f).mount = e.mount ∧ ∃ ports, e.modifyPort? key f = { e with ports } := by
  unfold modifyPort?
  split
  · exact ⟨e.mount_modifyPort _ _, _, rfl⟩
  · exact ⟨rfl, _, rfl⟩

/-- One pass over some ports, in which each meets its own function. -/
theorem port?_modifyAll {α : Type} (f : α → Port → Port) (e : Engine) {xs : List (PortKey × α)}
    (hnodup : (xs.map (·.1)).Nodup) {key : PortKey} {a : α} (hmem : (key, a) ∈ xs) :
    (xs.foldl (fun e x => e.modifyPort x.1 (f x.2)) e).port? key = (e.port? key).map (f a) := by
  have hports : (xs.foldl (fun e x => e.modifyPort x.1 (f x.2)) e).ports =
      xs.foldl (fun ports x => ports.modify x.1 fun p => { p with port := f x.2 p.port }) e.ports :=
    (List.foldl_hom Engine.ports fun _ _ => rfl).symm
  rw [port?, hports, Arena.get?_modifyAll (fun a p => { p with port := f a p.port }) e.ports hnodup hmem, port?,
    Option.map_map, Option.map_map]
  rfl

/-! ## Channels -/

theorem channel?_setChannel (e : Engine) (c : LoopChannel) (key : ChannelKey) :
    (e.setChannel c).channel? key = (e.channel? key).map fun old => if key = c.key then c else old := by
  unfold setChannel
  split
  · next hnone =>
    by_cases hkey : key = c.key
    · simp [channel?, hkey, hnone]
    · simp [hkey]
  · next owner howner =>
    simp only [channel?, Arena.get?_modify_eq_map, Option.map_bind]
    refine Option.bind_congr fun l hl => ?_
    rw [Option.bind_map, Function.comp_apply, Option.map_bind]
    refine Option.bind_congr fun loop _ => ?_
    simp only [Function.comp_apply]
    by_cases heq : l = owner
    · rw [if_pos heq]
      exact loop.channel?_setChannel c key
    · have hkey : key ≠ c.key := by
        rintro rfl
        exact heq (Option.some.inj (hl.symm.trans howner))
      simp [heq, hkey]

theorem ports_setChannel (e : Engine) (c : LoopChannel) : (e.setChannel c).ports = e.ports := by
  unfold setChannel
  split <;> rfl

theorem chains_setChannel (e : Engine) (c : LoopChannel) : (e.setChannel c).chains = e.chains := by
  unfold setChannel
  split <;> rfl

theorem pool_setChannel (e : Engine) (c : LoopChannel) : (e.setChannel c).pool = e.pool := by
  unfold setChannel
  split <;> rfl

/-- What the end of a cycle of a channel comes to, where its ports are live: the
channel is at its end, its output has the playback, and the pool gave what it
needed. -/
structure Finished (e : Engine) (c : LoopChannel) (e' : Engine) : Prop where
  port : ∀ key, e'.port? key =
    (e.port? key).map fun q => if c.output = some key then c.playInto (e.inputOf c) e.pool q else q
  mount : e'.mount = e.mount
  chains : e'.chains = e.chains
  pool : e'.pool = c.poolAfter (e.inputOf c) e.pool
  channel : ∀ key, e'.channel? key =
    (e.channel? key).map fun old => if key = c.key then c.finished (e.inputOf c) (c.output.bind e.port?) e.pool else old

/-- A channel is put back at its end, the pool is what it left of it, and what was
played meets the output. -/
theorem Finished.of_played {e : Engine} {c : LoopChannel} {body : ChannelBody} {pool : Audio.Pool}
    {played : Option (Port → Port)} (hpool : c.poolAfter (e.inputOf c) e.pool = pool)
    (hbody : c.finished (e.inputOf c) (c.output.bind e.port?) e.pool = { c with body })
    (hplay : ∀ key q, c.output = some key → e.port? key = some q →
      c.playInto (e.inputOf c) e.pool q = played.elim q (· q)) :
    Finished e c (({ e with pool }.setChannel { c with body }).modifyPort? c.output played) := by
  have hports : ({ e with pool }.setChannel { c with body }).ports = e.ports := ports_setChannel ..
  have hchains := chains_setChannel { e with pool } { c with body }
  have hkept := pool_setChannel { e with pool } { c with body }
  have hchannel := channel?_setChannel { e with pool } { c with body }
  rw [← hbody] at hports hchains hkept hchannel ⊢
  generalize { e with pool }.setChannel _ = e' at hports hchains hkept hchannel ⊢
  obtain ⟨hmount, ports, htouches⟩ := e'.modifyPort?_touches c.output played
  refine ⟨fun key => ?_, hmount.trans ?_, ?_, ?_, ?_⟩
  · have hport : e'.port? key = e.port? key := by simp only [port?, hports]
    rw [port?_modifyPort?, hport]
    refine Option.map_congr fun q hq => ?_
    split_ifs with hout
    · exact (hplay key q hout hq).symm
    · rfl
  · funext key
    simp only [Engine.mount, hports]
  · rw [htouches]
    exact hchains
  · rw [htouches, hpool]
    exact hkept
  · rw [htouches]
    exact hchannel

theorem filter_live {e : Engine} {s : Schedule} {port : Option PortKey} (h : ∀ key, port = some key → e.live s key = true) :
    port.filter (e.live s) = port := by
  cases port with
  | none => rfl
  | some key => exact Option.filter_some_pos (h key rfl)

theorem bind_audioPort? (e : Engine) (port : Option PortKey) :
    port.bind e.audioPort? = (port.bind e.port?).bind Port.audio? := by
  rw [Option.bind_assoc]
  exact Option.bind_congr fun key _ => e.audioPort?_eq key

theorem bind_midiPort? (e : Engine) (port : Option PortKey) :
    port.bind e.midiPort? = (port.bind e.port?).bind Port.midi? := by
  rw [Option.bind_assoc]
  exact Option.bind_congr fun key _ => e.midiPort?_eq key

theorem finishChannel_audio {e : Engine} {s : Schedule} {key : ChannelKey} {c : LoopChannel} {a : Audio.Channel}
    (hc : e.channel? key = some c) (hbody : c.body = .audio a) (hinput : c.input.filter (e.live s) = c.input)
    (houtput : c.output.filter (e.live s) = c.output) :
    e.finishChannel s key =
      let r := a.finalize (((e.inputOf c).bind Port.audio?).map (·.buffer))
        (((c.output.bind e.port?).bind Port.audio?).map (·.buffer)) e.pool
      ({ e with pool := r.2.2.1 }.setChannel { c with body := .audio r.1 }).modifyPort? c.output
        (r.2.1.map fun buffer q => q.mapAudio ({ · with buffer })) := by
  simp only [finishChannel, hc, hbody, hinput, houtput, bind_audioPort?, inputOf]
  generalize a.finalize _ _ e.pool = r
  obtain ⟨a', played, pool, result⟩ := r
  cases c.output <;> cases played <;> rfl

theorem finishChannel_midi {e : Engine} {s : Schedule} {key : ChannelKey} {c : LoopChannel} {m : Midi.Channel}
    (hc : e.channel? key = some c) (hbody : c.body = .midi m) (hinput : c.input.filter (e.live s) = c.input)
    (houtput : c.output.filter (e.live s) = c.output) :
    e.finishChannel s key =
      let r := m.finalize (((e.inputOf c).bind Port.midi?).map (·.messages))
        (((c.output.bind e.port?).bind Port.midi?).map (·.pending))
      ({ e with pool := e.pool }.setChannel { c with body := .midi r.1 }).modifyPort? c.output
        (r.2.1.map fun pending q => q.mapMidi ({ · with pending })) := by
  simp only [finishChannel, hc, hbody, hinput, houtput, bind_midiPort?, inputOf]
  generalize m.finalize _ _ = r
  obtain ⟨m', played, result⟩ := r
  cases c.output <;> cases played <;> rfl

/-- The end of a cycle of a channel whose ports are live. -/
theorem finishChannel_spec {e : Engine} {s : Schedule} {key : ChannelKey} {c : LoopChannel} (hc : e.channel? key = some c)
    (hlive : ∀ port, c.input = some port ∨ c.output = some port → e.live s port = true) :
    Finished e c (e.finishChannel s key) := by
  have hinput := filter_live fun port hport => hlive port (.inl hport)
  have houtput := filter_live fun port hport => hlive port (.inr hport)
  cases hbody : c.body with
  | audio a =>
    rw [finishChannel_audio hc hbody hinput houtput]
    refine .of_played ?_ ?_ fun key q hout hq => ?_
    · rw [LoopChannel.poolAfter, hbody]
      exact Audio.Channel.pool_finalize ..
    · rw [LoopChannel.finished, hbody]
    · rw [hout, Option.bind_some, hq]
      cases q with
      | audio q =>
        simp only [LoopChannel.playInto, hbody, Option.bind_some, Port.audio?, Option.map_some]
        cases (a.finalize _ (some q.buffer) e.pool).2.1 <;> rfl
      | midi q =>
        simp only [LoopChannel.playInto, hbody]
        cases (a.finalize _ _ e.pool).2.1 <;> rfl
  | midi m =>
    rw [finishChannel_midi hc hbody hinput houtput]
    refine .of_played ?_ ?_ fun key q hout hq => ?_
    · simp only [LoopChannel.poolAfter, hbody]
    · rw [LoopChannel.finished, hbody]
    · rw [hout, Option.bind_some, hq]
      cases q with
      | audio q =>
        simp only [LoopChannel.playInto, hbody]
        cases (m.finalize _ _).2.1 <;> rfl
      | midi q =>
        simp only [LoopChannel.playInto, hbody, Option.bind_some, Port.midi?, Option.map_some]
        cases (m.finalize _ (some q.pending)).2.1 <;> rfl

/-! ## Chains -/

/-- What a chain leaves in the port that is its output of a number. -/
def effected (b : Effect.Buffers) (frames i : Nat) (q : Port) : Port :=
  q.mapAudio fun p => b.audioOut[i]?.elim (p.prepare frames) (p.prepare frames).fill

theorem direction_effected (b : Effect.Buffers) (frames i : Nat) (q : Port) :
    (effected b frames i q).direction = q.direction := by
  cases q with
  | audio p =>
    unfold effected
    dsimp only [Port.mapAudio, Port.direction]
    cases b.audioOut[i]? <;> rfl
  | midi p => rfl

theorem processChain_eq {e : Engine} {key : ChainKey} {c : EngineChain} (hc : e.chains.get? key = some c) (frames : Nat) :
    e.processChain key frames = c.audioOutputs.zipIdx.foldl (fun e' x =>
      e'.modifyPort x.1 (effected (c.effect.run (e.chainInput c frames)).1 frames x.2)) e := by
  simp only [processChain, hc]
  rfl

/-- A chain finds in its inputs what they carry. -/
theorem chainInput_congr {e e' : Engine} {c : EngineChain}
    (h : ∀ port ∈ c.audioInputs ++ c.midiInputs, e'.port? port = e.port? port) (frames : Nat) :
    e'.chainInput c frames = e.chainInput c frames := by
  have haudio : ∀ b : Effect.Buffers,
      c.audioInputs.zipIdx.foldl (fun b x => (e'.audioPort? x.1).elim b fun p => b.setInput x.2 p.buffer) b =
        c.audioInputs.zipIdx.foldl (fun b x => (e.audioPort? x.1).elim b fun p => b.setInput x.2 p.buffer) b := by
    intro b
    refine List.foldl_ext _ _ _ fun b x hx => ?_
    rw [audioPort?_eq, audioPort?_eq, h x.1 (List.mem_append_left _ (List.fst_mem_of_mem_zipIdx hx))]
  have hmidi : ∀ b : Effect.Buffers,
      c.midiInputs.zipIdx.foldl (fun b x =>
        ((e'.midiPort? x.1).elim [] (·.messages)).foldl (fun b m => (b.pushMidi x.2 m).1) b) b =
        c.midiInputs.zipIdx.foldl (fun b x =>
          ((e.midiPort? x.1).elim [] (·.messages)).foldl (fun b m => (b.pushMidi x.2 m).1) b) b := by
    intro b
    refine List.foldl_ext _ _ _ fun b x hx => ?_
    rw [midiPort?_eq, midiPort?_eq, h x.1 (List.mem_append_right _ (List.fst_mem_of_mem_zipIdx hx))]
  unfold chainInput
  refine (hmidi _).trans (congrArg (List.foldl _ · c.midiInputs.zipIdx) ?_)
  exact haudio _

theorem processChain_touches (e : Engine) (key : ChainKey) (frames : Nat) :
    (e.processChain key frames).mount = e.mount ∧ ∃ ports, e.processChain key frames = { e with ports } := by
  unfold processChain
  split
  · exact ⟨rfl, e.ports, rfl⟩
  · refine List.foldlRecOn (motive := fun e' : Engine => e'.mount = e.mount ∧ ∃ ports, e' = { e with ports }) _ _
      ⟨rfl, e.ports, rfl⟩ fun e' h x _ => ?_
    obtain ⟨hmount, ports, rfl⟩ := h
    exact ⟨(mount_modifyPort ..).trans hmount, _, rfl⟩

theorem port?_processChain_ne {e : Engine} {key : ChainKey} {port : PortKey}
    (h : ∀ c, e.chains.get? key = some c → port ∉ c.audioOutputs) (frames : Nat) :
    (e.processChain key frames).port? port = e.port? port := by
  unfold processChain
  split
  · rfl
  · next c hc =>
    refine List.foldlRecOn (motive := fun e' : Engine => e'.port? port = e.port? port) _ _ rfl fun e' he x hx => ?_
    refine (e'.port?_modifyPort_ne _ ?_).trans he
    rintro rfl
    exact h c hc (List.fst_mem_of_mem_zipIdx hx)

theorem port?_processChain {e : Engine} {key : ChainKey} {c : EngineChain} (hc : e.chains.get? key = some c)
    (hnodup : c.audioOutputs.Nodup) {i : Nat} {port : PortKey} (hi : c.audioOutputs[i]? = some port) (frames : Nat) :
    (e.processChain key frames).port? port =
      (e.port? port).map (effected (c.effect.run (e.chainInput c frames)).1 frames i) := by
  rw [processChain_eq hc]
  refine port?_modifyAll (effected (c.effect.run (e.chainInput c frames)).1 frames) e ?_
    (List.mk_mem_zipIdx_iff_getElem?.2 hi)
  rw [List.zipIdx_map_fst]
  exact hnodup

/-! ## Ports -/

theorem processPort_input {e : Engine} {s : Schedule} {io : DriverCycle} {key : PortKey} {p : EnginePort}
    (hp : e.ports.get? key = some p) (hdir : p.port.direction = .input) :
    e.processPort s io key = (e.modifyPort key fun q => (receive io.frames io p.origin q).finish, io) := by
  simp only [processPort, hp, hdir]

theorem processPort_output {e : Engine} {s : Schedule} {io : DriverCycle} {key : PortKey} {p : EnginePort}
    (hp : e.ports.get? key = some p) (hdir : p.port.direction = .output) :
    e.processPort s io key = (e.modifyPort key fun _ => (e.mixSources s key p).finish,
      send io p.origin (e.mixSources s key p).finish) := by
  simp only [processPort, hp, hdir]

/-- Every source that is another port and live is mixed in. -/
theorem mixSources_eq {e : Engine} {s : Schedule} {key : PortKey} {p : EnginePort} (hkey : e.ports.contains key = true)
    (hlive : ∀ source ∈ p.sources, e.live s source = true ∧ source ≠ key) :
    e.mixSources s key p = p.sources.foldl e.mixFrom p.port := by
  unfold mixSources
  refine List.foldl_ext _ _ _ fun q source hsource => ?_
  obtain ⟨hsource, hne⟩ := hlive source hsource
  obtain ⟨other, hother⟩ := Option.isSome_iff_exists.1 (Bool.and_eq_true_iff.1 hsource).1
  have hindex : source.index ≠ key.index := fun heq =>
    hne (Arena.eq_of_index (Option.isSome_iff_exists.2 ⟨other, hother⟩) hkey heq)
  simp [mixFrom, port?, hother, hsource, hindex, Option.filter]

theorem port?_processPort_ne (e : Engine) (s : Schedule) (io : DriverCycle) {key k : PortKey} (h : k ≠ key) :
    (e.processPort s io key).1.port? k = e.port? k := by
  unfold processPort
  split
  · rfl
  · split <;> exact e.port?_modifyPort_ne _ h

end Engine

/-! ## The driver -/

namespace DriverCycle

theorem port?_modifyPort (c : DriverCycle) (id k : Nat) (f : DriverPort → DriverPort) :
    (c.modifyPort id f).port? k = (c.port? k).map fun d => if k = id then f d else d := by
  simp only [port?, modifyPort, List.getElem?_modify]
  cases c.ports[k]? with
  | none => rfl
  | some d =>
    by_cases hk : k = id
    · simp [hk]
    · simp [hk, Ne.symm hk]

/-- Samples reach an audio output of the driver only. -/
theorem port?_playAudio (c : DriverCycle) (id k : Nat) (b : Audio.Buffer) :
    (c.playAudio id b).port? k = (c.port? k).map fun d =>
      if k = id ∧ d.dataType = .audio ∧ d.direction = .output then { d with buffer := Audio.Buffer.fit d.buffer.length b }
      else d := by
  unfold playAudio
  by_cases hk : k = id
  · subst hk
    cases hd : c.port? k with
    | none => simp [audioOutput?, hd]
    | some d =>
      by_cases hout : d.dataType = .audio ∧ d.direction = .output
      · have hthere : (c.audioOutput? k).isSome = true := by simp [audioOutput?, hd, Option.filter, hout]
        rw [if_pos hthere, port?_modifyPort, hd]
        simp [hout]
      · have hnone : c.audioOutput? k = none := by simp [audioOutput?, hd, Option.filter, hout]
        simp [hnone, hd, hout]
  · split_ifs
    · simp [port?_modifyPort, hk]
    · simp [hk]

end DriverCycle

/-- A port of the driver when it is handed what a port of the engine carries. -/
def DriverPort.taking (d : DriverPort) (c : DriverCycle) : Port → DriverPort
  | .audio p =>
    if d.dataType = .audio ∧ d.direction = .output then { d with buffer := Audio.Buffer.fit d.buffer.length p.buffer }
    else d
  | .midi p => if d.direction = .output then { d with playedMidi := d.playedMidi ++ p.messages.map c.stamp } else d

theorem DriverPort.taking_congr {c c' : DriverCycle} (h : c'.start = c.start) (d : DriverPort) (p : Port) :
    d.taking c' p = d.taking c p := by
  have hstamp : c'.stamp = c.stamp := by
    funext m
    rw [DriverCycle.stamp, DriverCycle.stamp, h]
  cases p <;> simp only [taking, hstamp]

theorem DriverPort.taking_input {d : DriverPort} (h : d.direction = .input) (c : DriverCycle) (p : Port) :
    d.taking c p = d := by
  cases p <;> simp [taking, h]

theorem DriverPort.cycleMidi_taking (d : DriverPort) (c : DriverCycle) (p : Port) : (d.taking c p).cycleMidi = d.cycleMidi := by
  cases p <;> (simp only [taking]; split_ifs <;> rfl)

theorem DriverPort.direction_taking (d : DriverPort) (c : DriverCycle) (p : Port) : (d.taking c p).direction = d.direction := by
  cases p <;> (simp only [taking]; split_ifs <;> rfl)

namespace Engine

theorem port?_send (c : DriverCycle) (origin : PortOrigin) (p : Port) (id : Nat) :
    (send c origin p).port? id = (c.port? id).map fun d => if origin = .driver id then d.taking c p else d := by
  cases origin with
  | driver k =>
    simp only [PortOrigin.driver.injEq, @eq_comm _ k id]
    cases p with
    | audio p =>
      refine (c.port?_playAudio k id p.buffer).trans (congrArg (Option.map · _) (funext fun d => ?_))
      simp only [DriverPort.taking, ite_and]
    | midi p => exact c.port?_modifyPort k id _
  | detached => simp [send]
  | chain key => simp [send]

/-- What comes in is not changed by what goes out. -/
theorem input_send (c : DriverCycle) (origin : PortOrigin) (p : Port) :
    (send c origin p).audioInput? = c.audioInput? ∧ (send c origin p).midiInput = c.midiInput := by
  constructor <;> funext id
  · simp only [DriverCycle.audioInput?, port?_send]
    cases c.port? id with
    | none => rfl
    | some d =>
      cases hdir : d.direction with
      | input => simp [DriverPort.taking_input hdir]
      | output =>
        have hout : ∀ d' : DriverPort, d'.direction = .output →
            (some d').filter (fun p => p.dataType = .audio ∧ p.direction = .input) = none := by
          intro d' hd'
          simp [Option.filter, hd']
        rw [Option.map_some, hout d hdir, hout]
        split_ifs
        · rw [d.direction_taking, hdir]
        · exact hdir
  · simp only [DriverCycle.midiInput, port?_send]
    cases c.port? id with
    | none => rfl
    | some d =>
      simp only [Option.map_some, Option.elim_some]
      split_ifs
      · exact d.cycleMidi_taking c p
      · rfl

theorem frames_send (c : DriverCycle) (origin : PortOrigin) (p : Port) :
    (send c origin p).frames = c.frames ∧ (send c origin p).start = c.start := by
  unfold send
  split
  · unfold DriverCycle.playAudio
    split <;> exact ⟨rfl, rfl⟩
  · exact ⟨rfl, rfl⟩
  · exact ⟨rfl, rfl⟩

theorem receive_congr {frames : Nat} {io io' : DriverCycle} (haudio : io'.audioInput? = io.audioInput?)
    (hmidi : io'.midiInput = io.midiInput) (origin : PortOrigin) (p : Port) :
    receive frames io' origin p = receive frames io origin p := by
  unfold receive
  rw [haudio, hmidi]

/-! ## Nodes and steps -/

/-- Every port that a channel names is live. -/
def Served (e : Engine) (s : Schedule) : Prop :=
  ∀ key c port, e.channel? key = some c → c.input = some port ∨ c.output = some port → e.live s port = true

/-- What no node of a cycle changes. -/
structure Constant (state state' : Engine × DriverCycle) : Prop where
  wiring : state'.1.wiring = state.1.wiring
  mount : state'.1.mount = state.1.mount
  chains : state'.1.chains = state.1.chains
  frames : state'.2.frames = state.2.frames
  start : state'.2.start = state.2.start
  audioInput? : state'.2.audioInput? = state.2.audioInput?
  midiInput : state'.2.midiInput = state.2.midiInput

theorem Constant.refl (state : Engine × DriverCycle) : Constant state state := ⟨rfl, rfl, rfl, rfl, rfl, rfl, rfl⟩

theorem Constant.trans {state state' state'' : Engine × DriverCycle} (h : Constant state state')
    (h' : Constant state' state'') : Constant state state'' :=
  ⟨h'.wiring.trans h.wiring, h'.mount.trans h.mount, h'.chains.trans h.chains, h'.frames.trans h.frames,
    h'.start.trans h.start, h'.audioInput?.trans h.audioInput?, h'.midiInput.trans h.midiInput⟩

theorem contains_of_mount {e e' : Engine} (h : e'.mount = e.mount) (key : PortKey) :
    e'.ports.contains key = e.ports.contains key := by
  have hkey := congrArg Option.isSome (congrFun h key)
  simpa only [mount, Option.isSome_map, Arena.contains] using hkey

theorem Served.of_constant {s : Schedule} {state state' : Engine × DriverCycle} (h : state.1.Served s)
    (hconst : Constant state state') : state'.1.Served s := by
  intro key c port hc hport
  have hends := congrFun (congrArg Wiring.ends hconst.wiring) key
  simp only [wiring, hc, Option.map_some] at hends
  obtain ⟨c', hc', hsame⟩ := Option.map_eq_some_iff.1 hends.symm
  obtain ⟨hin, hout⟩ := Prod.mk.inj hsame
  have hlive := h key c' port hc' (by rwa [hin, hout])
  simp only [live, contains_of_mount hconst.mount]
  exact hlive

theorem constant_modifyPort (e : Engine) (io : DriverCycle) (key : PortKey) (f : Port → Port) :
    Constant (e, io) (e.modifyPort key f, io) :=
  ⟨wiring_modifyPort .., mount_modifyPort .., rfl, rfl, rfl, rfl, rfl⟩

theorem constant_send {state state' : Engine × DriverCycle} (h : Constant state state') (origin : PortOrigin) (p : Port) :
    Constant state (state'.1, send state'.2 origin p) := by
  obtain ⟨haudio, hmidi⟩ := input_send state'.2 origin p
  obtain ⟨hframes, hstart⟩ := frames_send state'.2 origin p
  exact ⟨h.wiring, h.mount, h.chains, hframes.trans h.frames, hstart.trans h.start, haudio.trans h.audioInput?,
    hmidi.trans h.midiInput⟩

theorem constant_processNode {s : Schedule} {state : Engine × DriverCycle} (hserved : state.1.Served s) (id : NodeId) :
    Constant state (processNode s state id) := by
  have hwiring := wiring_processNode s state id
  obtain ⟨e, io⟩ := state
  cases id with
  | portPrepare key => exact constant_modifyPort ..
  | portProcess key =>
    show Constant (e, io) (e.processPort s io key)
    unfold processPort
    split
    · exact .refl _
    · next p _ =>
      split
      · exact constant_modifyPort ..
      · exact constant_send (constant_modifyPort e io key fun _ => (e.mixSources s key p).finish) _ _
  | loop key => exact ⟨hwiring, rfl, rfl, rfl, rfl, rfl, rfl⟩
  | channel key =>
    show Constant (e, io) (e.finishChannel s key, io)
    cases hc : e.channel? key with
    | none =>
      simp only [finishChannel, hc]
      exact .refl _
    | some c =>
      have hdone := finishChannel_spec hc (hserved key c · hc)
      exact ⟨hwiring, hdone.mount, hdone.chains, rfl, rfl, rfl, rfl⟩
  | chain key =>
    obtain ⟨hmount, ports, hports⟩ := e.processChain_touches key io.frames
    have hchains : (e.processChain key io.frames).chains = e.chains := by rw [hports]
    exact ⟨hwiring, hmount, hchains, rfl, rfl, rfl, rfl⟩

/-- The nodes that write to a port. -/
inductive Writes (w : Wiring) (port : PortKey) : NodeId → Prop
  | prepare : Writes w port (.portPrepare port)
  | process : Writes w port (.portProcess port)
  | play {key ends} : w.ends key = some ends → ends.2 = some port → Writes w port (.channel key)
  | result {key sides} : w.chains key = some sides → port ∈ sides.audioOutputs → Writes w port (.chain key)

/-- A node leaves the ports alone that it does not write to. -/
theorem port?_processNode {s : Schedule} {state : Engine × DriverCycle} (hserved : state.1.Served s) {id : NodeId}
    {port : PortKey} (h : ¬Writes state.1.wiring port id) : (processNode s state id).1.port? port = state.1.port? port := by
  obtain ⟨e, io⟩ := state
  cases id with
  | portPrepare key =>
    refine e.port?_modifyPort_ne _ ?_
    rintro rfl
    exact h .prepare
  | portProcess key =>
    refine e.port?_processPort_ne s io ?_
    rintro rfl
    exact h .process
  | loop key => rfl
  | channel key =>
    show (e.finishChannel s key).port? port = e.port? port
    cases hc : e.channel? key with
    | none => simp only [finishChannel, hc]
    | some c =>
      have hout : c.output ≠ some port := fun hout =>
        h (.play (congrArg (Option.map fun c : LoopChannel => (c.input, c.output)) hc) hout)
      rw [(finishChannel_spec hc (hserved key c · hc)).port]
      simp [hout]
  | chain key =>
    refine port?_processChain_ne (fun c hc hmem => h ?_) io.frames
    exact .result (congrArg (Option.map fun c : EngineChain => Sides.mk c.audioInputs c.audioOutputs c.midiInputs) hc) hmem

/-- Other nodes than those of loops and channels touch the ports only. -/
theorem processNode_touches {s : Schedule} (state : Engine × DriverCycle) {id : NodeId} (hloop : loopOf? id = none)
    (hchannel : channelOf? id = none) : ∃ ports, (processNode s state id).1 = { state.1 with ports } := by
  obtain ⟨e, io⟩ := state
  cases id with
  | portPrepare key => exact ⟨_, rfl⟩
  | portProcess key =>
    simp only [processNode, processPort]
    split
    · exact ⟨_, rfl⟩
    · split <;> exact ⟨_, rfl⟩
  | loop key => cases hloop
  | channel key => cases hchannel
  | chain key => exact (e.processChain_touches key io.frames).2

/-- A node changes no channel but its own. -/
theorem channel?_processNode {s : Schedule} {state : Engine × DriverCycle} (hserved : state.1.Served s) {id : NodeId}
    (hloop : loopOf? id = none) {key : ChannelKey} (hne : id ≠ .channel key) :
    (processNode s state id).1.channel? key = state.1.channel? key := by
  cases hchannel : channelOf? id with
  | none =>
    obtain ⟨ports, hports⟩ := processNode_touches (s := s) state hloop hchannel
    rw [hports]
    rfl
  | some k =>
    obtain rfl := eq_of_channelOf? hchannel
    show (state.1.finishChannel s k).channel? key = _
    cases hc : state.1.channel? k with
    | none => simp only [finishChannel, hc]
    | some c =>
      obtain rfl := channel?_key hc
      have hkey : key ≠ c.key := by
        rintro rfl
        exact hne rfl
      rw [(finishChannel_spec hc (hserved c.key c · hc)).channel]
      simp [hkey]

/-- What loops do in a cycle does not depend on what the ports carry. -/
theorem processLoops_withPorts {e : Engine} {ports : Arena .port EnginePort} (s : Schedule)
    (hports : ∀ key, ports.contains key = e.ports.contains key) (keys : List LoopKey) (frames : Nat) :
    { e with ports }.processLoops s keys frames = { e.processLoops s keys frames with ports } := by
  have hlive : { e with ports }.live s = e.live s := by
    funext key
    simp only [live, hports]
  simp only [processLoops, hlive]

/-- Nothing else than a port with a number is sent to the driver under it. -/
theorem driver_processNode {s : Schedule} (state : Engine × DriverCycle) {id : NodeId} {number : Nat}
    (h : ∀ key sources, id = .portProcess key → state.1.mount key ≠ some (.driver number, sources)) :
    (processNode s state id).2.port? number = state.2.port? number := by
  obtain ⟨e, io⟩ := state
  cases id with
  | portProcess key =>
    simp only [processNode, processPort]
    split
    · rfl
    · next p hp =>
      split
      · rfl
      · have horigin : p.origin ≠ .driver number := fun horigin =>
          h key p.sources rfl (by simp only [mount, hp, Option.map_some, horigin])
        simp [port?_send, horigin]
  | _ => rfl

end Engine

end Overdub
