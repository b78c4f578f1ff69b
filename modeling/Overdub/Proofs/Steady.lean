import Mathlib
import Overdub.Proofs.Wiring
import Overdub.Session.Cycle
import Overdub.Session.Driver
/-!
# What changes no connection

Loops advance, channels record and play, ports pass data on, and the driver is
replaced: all of that leaves the wiring of an engine alone. A loop shows of itself
no more than its `Loop.view` in it, and the scheduler changes no view.
-/

namespace Overdub

/-! ## Loops -/

/-- What a channel shows in the wiring. -/
def LoopChannel.plug (c : LoopChannel) : ChannelKey × Option PortKey × Option PortKey := (c.key, c.input, c.output)

theorem LoopChannel.plug_processAll (context : ChunkContext) (channels : List LoopChannel) :
    (processAll context channels).1.map (·.plug) = channels.map (·.plug) := by
  induction channels with
  | nil => rfl
  | cons c rest ih =>
    simp only [processAll, List.map_cons, ih]
    rfl

theorem Adoption.plug_channel (rings : CaptureRings) (reverseStart keepBefore : Option Nat) (a : Adoption)
    (c : LoopChannel) : (channel rings reverseStart keepBefore a c).1.plug = c.plug := by
  unfold channel
  split
  · rfl
  · split <;> rfl
  · split <;> rfl

theorem Adoption.plug_channels (rings : CaptureRings) (reverseStart keepBefore : Option Nat) (a : Adoption)
    (cs : List LoopChannel) : (channels rings reverseStart keepBefore a cs).1.map (·.plug) = cs.map (·.plug) := by
  induction cs generalizing a with
  | nil => rfl
  | cons c rest ih =>
    simp only [channels, List.map_cons, plug_channel, ih]

namespace Loop

/-- What a loop shows in the wiring. -/
def view (l : Loop) : LoopInfo × (ChannelKey → Option (Option PortKey × Option PortKey)) := (l.info, l.ends)

theorem view_congr {l l' : Loop} (hchannels : l'.channels.map (·.plug) = l.channels.map (·.plug))
    (hsource : l'.syncSource = l.syncSource) : l'.view = l.view := by
  have hinfo : ∀ l : Loop, l.info = ⟨(l.channels.map (·.plug)).map (·.1), l.syncSource⟩ := by
    intro l
    simp [info, LoopChannel.plug, Function.comp_def]
  have hends : ∀ l : Loop, l.ends = fun key => ((l.channels.map (·.plug)).find? (·.1 = key)).map (·.2) := by
    intro l
    funext key
    simp [ends, channel?, List.find?_map, LoopChannel.plug, Function.comp_def]
  unfold view
  rw [hinfo, hinfo, hends, hends, hchannels, hsource]

theorem view_process (l : Loop) (frames : Nat) (sync : Option SyncView) : (l.process frames sync).1.view = l.view := by
  refine view_congr ?_ rfl
  have hacted := LoopChannel.plug_processAll (l.transport.beginChunk.chunkContext frames) l.channels
  unfold process Transport.process
  split_ifs
  · rfl
  · rfl
  · dsimp only
    generalize LoopChannel.processAll _ l.channels = acted at hacted ⊢
    obtain ⟨channels, _ | _⟩ := acted <;> exact hacted

theorem view_prepare (l : Loop) (frames : Nat) (live : PortKey → Bool) : (l.prepare frames live).view = l.view := by
  refine view_congr ?_ rfl
  simp [prepare, LoopChannel.prepare, LoopChannel.plug, Function.comp_def]

theorem view_adopt (l : Loop) (sync : Option SyncView) (request : AdoptRequest) (rings : CaptureRings)
    (pool : Audio.Pool) : (l.adopt sync request rings pool).1.view = l.view :=
  view_congr (Adoption.plug_channels rings _ _ _ _) rfl

end Loop

namespace Scheduler

/-- What loops show in the wiring. -/
def views (loops : Loops) (key : LoopKey) :
    Option (LoopInfo × (ChannelKey → Option (Option PortKey × Option PortKey))) := (loops.get? key).map (·.view)

theorem views_modify (loops : Loops) (key : LoopKey) (f : Loop → Loop) (hf : ∀ l, (f l).view = l.view) :
    views (loops.modify key f) = views loops := by
  funext k
  simp only [views, Arena.get?_modify_eq_map, Option.map_map]
  refine congrArg (Option.map · _) (funext fun l => ?_)
  simp only [Function.comp_apply]
  split_ifs
  · exact hf l
  · rfl

theorem views_set {loops : Loops} {key : LoopKey} {l l' : Loop} (hl : loops.get? key = some l) (h : l'.view = l.view) :
    views (loops.set key l') = views loops := by
  funext k
  simp only [views, Arena.get?_set]
  split_ifs with hk
  · simp [hk, hl, h]
  · rfl

theorem views_foldl {α : Type} {f : Loops → α → Loops} (hf : ∀ loops x, views (f loops x) = views loops)
    (loops : Loops) (xs : List α) : views (xs.foldl f loops) = views loops := by
  induction xs generalizing loops with
  | nil => rfl
  | cons x xs ih => exact (ih _).trans (hf loops x)

theorem views_refreshAfter {visit : Loops → LoopKey → Loops}
    (hvisit : ∀ loops source, views (visit loops source) = views loops) (loops : Loops) (key : LoopKey) (round : Nat) :
    views (refreshAfter visit loops key round) = views loops := by
  unfold refreshAfter
  split
  · rfl
  · next l hl =>
    split_ifs
    · rfl
    · have hstamp : views (loops.set key (l.modifyTransport ({ · with round }))) = views loops := views_set hl rfl
      dsimp only
      split
      · rw [views_modify _ key (·.refresh none) fun _ => rfl, hstamp]
      · rw [views_modify _ key (·.refresh _) fun _ => rfl, hvisit, hstamp]

theorem views_refresh (loops : Loops) (key : LoopKey) (round hops : Nat) :
    views (refresh loops key round hops) = views loops := by
  induction hops generalizing loops key with
  | zero => exact views_refreshAfter (fun _ _ => rfl) loops key round
  | succ hops ih => exact views_refreshAfter (fun loops source => ih loops source) loops key round

theorem views_passTriggerAfter {visit : Loops → LoopKey → Loops}
    (hvisit : ∀ loops source, views (visit loops source) = views loops) (loops : Loops) (key : LoopKey) :
    views (passTriggerAfter visit loops key) = views loops := by
  unfold passTriggerAfter
  split
  · rfl
  · dsimp only
    split_ifs
    · rw [views_modify _ key (·.modifyTransport (·.trigger)) fun _ => rfl, hvisit]
    · rw [hvisit]

theorem views_passTrigger (loops : Loops) (key : LoopKey) (hops : Nat) :
    views (passTrigger loops key hops) = views loops := by
  induction hops generalizing loops key with
  | zero => exact views_passTriggerAfter (fun _ _ => rfl) loops key
  | succ hops ih => exact views_passTriggerAfter ih loops key

theorem views_advanceOne (frames : Nat) (state : Loops × Except Error Unit) (view : LoopKey × Option SyncView) :
    views (advanceOne frames state view).1 = views state.1 := by
  unfold advanceOne
  split
  · rfl
  · next l hl => exact views_set hl (l.view_process frames view.2)

theorem views_chunk (loops : Loops) (keys : List LoopKey) (frames : Nat) :
    views (chunk loops keys frames).1 = views loops := by
  have hadvance : views (advance loops keys frames).1 = views loops := by
    unfold advance
    refine List.foldlRecOn (motive := fun state : Loops × Except Error Unit => views state.1 = views loops)
      _ _ rfl fun state hstate view _ => ?_
    exact (views_advanceOne frames state view).trans hstate
  exact (views_foldl (fun loops key => views_passTrigger loops key maxHops) _ keys).trans hadvance

/-- The loops of a cycle are connected in the end as in the beginning. -/
theorem views_processFrom (s : Scheduler) (loops : Loops) (keys : List LoopKey) (remaining idle : Nat)
    (result : Except Error Unit) :
    views (s.processFrom loops keys remaining idle result).2.1 = views loops := by
  have hrefresh : ∀ loops round, views (refreshAll loops keys round) = views loops := fun loops round =>
    views_foldl (fun loops key => views_refresh loops key round maxHops) loops keys
  have hpois : ∀ loops, views (handlePois loops keys) = views loops := fun loops =>
    views_foldl (fun loops key =>
      views_modify loops key (·.modifyTransport (·.handlePoi (syncView loops key))) fun _ => rfl) loops keys
  fun_induction processFrom s loops keys remaining idle result with
  | case1 => rfl
  | case2 => exact hrefresh _ _
  | case3 s loops remaining idle result hrest round refreshed frames hstill hgo ih =>
    exact ih.trans ((hpois _).trans (hrefresh _ _))
  | case4 s loops remaining idle result hrest round refreshed frames hmove chunked r hchunk ih =>
    have hviews := views_chunk refreshed keys frames
    rw [hchunk] at hviews
    exact ih.trans (hviews.trans (hrefresh _ _))

end Scheduler

/-! ## Engines -/

namespace Engine

theorem wiring_withLoops {e e' : Engine} (hports : e'.ports = e.ports) (hchannels : e'.channelLoops = e.channelLoops)
    (hchains : e'.chains = e.chains) (hviews : Scheduler.views e'.loops = Scheduler.views e.loops) :
    e'.wiring = e.wiring := by
  have hloops : ∀ e : Engine, e.wiring.loops = fun key => (Scheduler.views e.loops key).map (·.1) := by
    intro e
    funext key
    simp only [wiring, Scheduler.views, Option.map_map]
    rfl
  have hends : ∀ e : Engine, e.wiring.ends =
      fun key => (e.channelLoops.get? key).bind fun l => (Scheduler.views e.loops l).bind (·.2 key) := by
    intro e
    funext key
    simp only [wiring_ends, Scheduler.views, Option.bind_map]
    rfl
  refine Wiring.ext ?_ ?_ ?_ ?_ ?_
  · simp only [wiring, hports]
  · rw [hloops, hloops, hviews]
  · simp only [wiring, hchannels]
  · rw [hends, hends, hchannels, hviews]
  · simp only [wiring, hchains]

theorem wiring_keepSources (e : Engine) (key : PortKey) {f : EnginePort → EnginePort}
    (hf : ∀ p, (f p).sources = p.sources) : { e with ports := e.ports.modify key f }.wiring = e.wiring := by
  refine Wiring.ext (funext fun k => ?_) rfl rfl rfl rfl
  simp only [wiring, Arena.get?_modify_eq_map, Option.map_map]
  refine congrArg (Option.map · _) (funext fun p => ?_)
  simp only [Function.comp_apply]
  split_ifs
  · exact hf p
  · rfl

theorem wiring_modifyPort (e : Engine) (key : PortKey) (f : Port → Port) : (e.modifyPort key f).wiring = e.wiring :=
  e.wiring_keepSources key fun _ => rfl

theorem wiring_keepSides {e : Engine} {key : ChainKey} {c c' : EngineChain} (hc : e.chains.get? key = some c)
    (haudioIn : c'.audioInputs = c.audioInputs) (haudioOut : c'.audioOutputs = c.audioOutputs)
    (hmidi : c'.midiInputs = c.midiInputs) : { e with chains := e.chains.set key c' }.wiring = e.wiring := by
  refine Wiring.ext rfl rfl rfl rfl (funext fun k => ?_)
  simp only [wiring, Arena.get?_set]
  split_ifs with hk
  · simp [hk, hc, haudioIn, haudioOut, hmidi]
  · rfl

/-- A channel that keeps its connections. -/
theorem wiring_keepEnds {e : Engine} {key : ChannelKey} {c c' : LoopChannel} (h : e.channel? key = some c)
    (hplug : c'.plug = c.plug) : (e.setChannel c').wiring = e.wiring := by
  have hkey' : c'.key = key := (congrArg Prod.fst hplug).trans (channel?_key h)
  rw [wiring_setChannel (c := c) (g := id) (hkey' ▸ h) (congrArg Prod.snd hplug)]
  simp [Wiring.mapEnds]

theorem wiring_foldl {α : Type} {f : Engine → α → Engine} (hf : ∀ e x, (f e x).wiring = e.wiring) (e : Engine)
    (xs : List α) : (xs.foldl f e).wiring = e.wiring := by
  induction xs generalizing e with
  | nil => rfl
  | cons x xs ih => exact (ih _).trans (hf e x)

theorem wiring_adoptAll (e : Engine) (request : AdoptRequest) (keys : List LoopKey) :
    (e.adoptAll request keys).1.wiring = e.wiring := by
  have hadopt : ∀ (e : Engine) key, (e.adopt request key).1.wiring = e.wiring := by
    intro e key
    unfold adopt
    split
    · rfl
    · next l hl => exact wiring_withLoops rfl rfl rfl (Scheduler.views_set hl (l.view_adopt _ request _ _))
  induction keys generalizing e with
  | nil => rfl
  | cons key keys ih => exact (ih _).trans (hadopt e key)

/-! ## Cycles -/

theorem wiring_processLoops (e : Engine) (s : Schedule) (keys : List LoopKey) (frames : Nat) :
    (e.processLoops s keys frames).wiring = e.wiring := by
  refine wiring_withLoops rfl rfl rfl ((Scheduler.views_processFrom _ _ _ _ _ _).trans ?_)
  exact Scheduler.views_foldl
    (fun loops key => Scheduler.views_modify loops key (·.prepare frames (e.live s)) fun l => l.view_prepare ..) _ keys

theorem wiring_processPort (e : Engine) (s : Schedule) (io : DriverCycle) (key : PortKey) :
    (e.processPort s io key).1.wiring = e.wiring := by
  unfold processPort
  split
  · rfl
  · split <;> exact wiring_modifyPort ..

theorem wiring_finishChannel (e : Engine) (s : Schedule) (key : ChannelKey) :
    (e.finishChannel s key).wiring = e.wiring := by
  unfold finishChannel
  split
  · rfl
  · next c hc =>
    dsimp only
    split
    · next a ha =>
      have hset : ∀ pool body, (({ e with pool } : Engine).setChannel { c with body }).wiring = e.wiring :=
        fun pool body => wiring_keepEnds (e := { e with pool }) hc rfl
      split
      · exact (wiring_modifyPort ..).trans (hset _ _)
      · exact hset _ _
    · next m hm =>
      have hset : ∀ body, (e.setChannel { c with body }).wiring = e.wiring := fun body => wiring_keepEnds hc rfl
      split
      · exact (wiring_modifyPort ..).trans (hset _)
      · exact hset _

theorem wiring_processChain (e : Engine) (key : ChainKey) (frames : Nat) :
    (e.processChain key frames).wiring = e.wiring := by
  unfold processChain
  split
  · rfl
  · exact wiring_foldl (fun e _ => wiring_modifyPort ..) _ _

theorem wiring_processNode (s : Schedule) (state : Engine × DriverCycle) (id : NodeId) :
    (processNode s state id).1.wiring = state.1.wiring := by
  obtain ⟨e, io⟩ := state
  cases id with
  | portPrepare key => exact wiring_modifyPort ..
  | portProcess key => exact wiring_processPort ..
  | loop key => exact wiring_processLoops ..
  | channel key => exact wiring_finishChannel ..
  | chain key => exact wiring_processChain ..

/-- What neither loops together nor any node changes, the steps of a cycle do not change. -/
theorem steps_keep {β : Type} {φ : Engine × DriverCycle → β} (s : Schedule)
    (hloops : ∀ state keys frames, φ (state.1.processLoops s keys frames, state.2) = φ state)
    (hnode : ∀ state id, φ (processNode s state id) = φ state) (steps : List Step) (state : Engine × DriverCycle) :
    φ (steps.foldl (processStep s) state) = φ state := by
  refine List.foldlRecOn (motive := fun after => φ after = φ state) steps _ rfl fun after hafter step _ => ?_
  refine Eq.trans ?_ hafter
  unfold processStep
  split_ifs
  · exact hloops ..
  · exact List.foldlRecOn (motive := fun later => φ later = φ after) step.nodes _ rfl
      fun later hlater id _ => (hnode later id).trans hlater

/-- Nor does the cycle as a whole. -/
theorem cycle_keeps {β : Type} {φ : Engine × DriverCycle → β} (s : Schedule)
    (hloops : ∀ state keys frames, φ (state.1.processLoops s keys frames, state.2) = φ state)
    (hnode : ∀ state id, φ (processNode s state id) = φ state) (e : Engine) (io : DriverCycle) :
    φ (e.cycle s io) = φ (e, io) := by
  unfold cycle
  split_ifs
  · rfl
  · exact steps_keep s hloops hnode s.steps (e, io)

theorem wiring_steps (s : Schedule) (steps : List Step) (state : Engine × DriverCycle) :
    (steps.foldl (processStep s) state).1.wiring = state.1.wiring :=
  steps_keep (φ := fun state => state.1.wiring) s (fun _ _ _ => wiring_processLoops ..) (wiring_processNode s) steps state

/-- A cycle changes no connection. -/
theorem wiring_cycle (s : Schedule) (e : Engine) (io : DriverCycle) : (e.cycle s io).1.wiring = e.wiring :=
  cycle_keeps (φ := fun state => state.1.wiring) s (fun _ _ _ => wiring_processLoops ..) (wiring_processNode s) e io

end Engine

/-- What every cycle keeps, a run of the driver keeps. -/
theorem DummyDriver.run_keeps {σ β : Type} {process : σ → DriverCycle → σ × DriverCycle} {view : σ → β}
    (h : ∀ state io, view (process state io).1 = view state) (d : DummyDriver) (state : σ) (frames : Nat) :
    view (d.run process state frames).2.1 = view state := by
  have hcycles : ∀ state d, view (DummyDriver.cycles process state d).1 = view state := by
    intro state d
    fun_induction DummyDriver.cycles process state d with
    | case1 => rfl
    | case2 state d hd next ih => exact ih.trans (h state _)
  unfold run
  dsimp only
  split_ifs
  · exact hcycles _ _
  · rfl

end Overdub
