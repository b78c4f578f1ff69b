import Mathlib
import Overdub.Proofs.Coherence
import Overdub.Proofs.Dependencies
import Overdub.Proofs.Fitting
/-!
# Connections in transit

A connection reaches the engine before the schedule that heeds it is asked for, and
leaves it after the schedule without it is published. Between the two a cycle runs
the connection along a schedule that was made for a topology without it
(`Interplay.crossed_runs_behind`). `Interplay.Tracked` says which request knows of a
connection, so that it is in transit no longer than that
(`Interplay.connections_heeded`).
-/

namespace Overdub

open Function (update)

/-- Data passes over a connection, from the first node to the second. -/
inductive Wiring.Joins (w : Wiring) : NodeId → NodeId → Prop
  | record {key port output} : w.ends key = some (some port, output) → Joins w (.portProcess port) (.channel key)
  | play {key input port} : w.ends key = some (input, some port) → Joins w (.channel key) (.portProcess port)
  | source {key sources port} : w.sources key = some sources → port ∈ sources →
      Joins w (.portProcess port) (.portProcess key)

namespace Topology

variable {t u : Topology} {a b : NodeId}

theorem flow_of_joins (h : t.wiring.Joins a b) : t.Flow a b := by
  cases h with
  | record hends =>
    obtain ⟨c, hc, heq⟩ := Option.map_eq_some_iff.1 hends
    exact .record hc (congrArg Prod.fst heq)
  | play hends =>
    obtain ⟨c, hc, heq⟩ := Option.map_eq_some_iff.1 hends
    exact .play hc (congrArg Prod.snd heq)
  | source hsources hport =>
    obtain ⟨p, hp, rfl⟩ := Option.map_eq_some_iff.1 hsources
    exact .source hp hport

/-- Connections are made of ports and channels, whichever loops there are. -/
theorem joins_congr (h : u.wiring.Joins a b) (hports : u.ports = t.ports) (hchannels : u.channels = t.channels) :
    t.wiring.Joins a b := by
  cases h with
  | record hends => exact .record (by simpa only [wiring, hchannels] using hends)
  | play hends => exact .play (by simpa only [wiring, hchannels] using hends)
  | source hsources hport => exact .source (by simpa only [wiring, hports] using hsources) hport

/-- No node is connected to itself. -/
theorem Fitting.ne_of_joins (hfitting : t.Fitting) (h : t.wiring.Joins a b) : a ≠ b := by
  cases h with
  | record | play => exact nofun
  | @source key sources port hsources hport =>
    obtain ⟨p, hp, rfl⟩ := Option.map_eq_some_iff.1 hsources
    intro heq
    obtain rfl := NodeId.portProcess.inj heq
    exact hfitting.other _ p hp hport

end Topology

namespace Session

namespace Interplay

/-- The topology whose connections are asked for: that of an addition when it has asked for a schedule, that of a removal
when its schedule is published. -/
def asked (x : Interplay) : Topology :=
  match x.stage with
  | .idle => x.session.topology
  | .changed _ before => before
  | .sent _ before => before
  | .computing _ before _ => before
  | .published _ _ => x.session.topology
  | .followed t => t

/-- The number that those connections were submitted under. -/
def latest (x : Interplay) : Nat :=
  match x.stage with
  | .computing _ _ id => id - 1
  | _ => x.session.publisher.requested

/-- What the engine has been brought to fits, and every connection that was asked for is one of the latest request. -/
structure Tracked (x : Interplay) : Prop where
  fitting : x.told.Fitting
  known : ∀ a b, x.asked.wiring.Joins a b → ∃ t, x.submitted x.latest = some t ∧ t.wiring.Joins a b

theorem tracked_new (config : EngineConfig) : Tracked (quiet (Session.new config) fun _ => none) := by
  refine ⟨Topology.empty_fitting, fun a b hjoins => ?_⟩
  cases Topology.flow_of_joins hjoins <;> contradiction

namespace Tracked

variable {sure : Bool} {s v : Session} {a : Action} {u t told before : Topology} {id given : Nat} {stage : Stage}
  {submitted : Nat → Option Topology} {queue : List Action}

theorem request (h : Tracked ⟨s, .sent a before, submitted, told, queue⟩) :
    Tracked ⟨{ s with publisher := s.publisher.request s.topology }, .idle,
      update submitted (s.publisher.requested + 1) (some s.topology), told, queue⟩ :=
  ⟨h.fitting, fun _ _ hjoins => ⟨s.topology, Function.update_self .., hjoins⟩⟩

theorem compute (h : Tracked ⟨s, .changed a before, submitted, told, queue⟩) (hserves : s.publisher.Serves submitted) :
    Tracked ⟨{ s with publisher := s.publisher.beginNow }, .computing a before (s.publisher.requested + 1),
      update submitted (s.publisher.requested + 1) (some s.topology), told, queue⟩ := by
  refine ⟨h.fitting, fun a b hjoins => ?_⟩
  obtain ⟨t, hsubmitted, hknown⟩ := h.known a b hjoins
  exact ⟨t, hserves.kept s.topology hsubmitted, hknown⟩

theorem publish (h : Tracked ⟨s, .computing a before id, submitted, told, queue⟩)
    (hcoherent : Coherent ⟨s, .computing a before id, submitted, told, queue⟩) :
    Tracked ⟨{ s with publisher := (s.publisher.finishNow id s.topology).1 }, .published a before, submitted, told,
      queue⟩ := by
  obtain ⟨-, -, hlatest, hsubmitted, -⟩ := hcoherent.underway
  refine ⟨h.fitting, fun _ _ hjoins => ⟨s.topology, ?_, hjoins⟩⟩
  show submitted (s.publisher.finishNow id s.topology).1.requested = some s.topology
  rwa [s.publisher.requested_finishNow, hlatest]

theorem carry {p : Publisher} (h : Tracked ⟨s, stage, submitted, told, a :: queue⟩)
    (hcoherent : Coherent ⟨s, stage, submitted, told, a :: queue⟩)
    (hmade : { s with topology := told, publisher := p }.call a.call = (.ok (), v)) :
    Tracked ⟨{ s with engine := v.engine, driver := v.driver }, stage, submitted, v.topology, queue⟩ := by
  obtain ⟨hchange, -⟩ : Change a told v.topology ∧ _ :=
    Path.carry (s := { s with topology := told, publisher := p }) hcoherent.path hmade
  exact ⟨hchange.fitting hcoherent.linked h.fitting, h.known⟩

theorem follow {key : LoopKey} {source : Option LoopKey} (h : Tracked ⟨s, .idle, submitted, told, []⟩)
    (hcoherent : Coherent ⟨s, .idle, submitted, told, []⟩) (hmade : s.call (setSyncSource key source) = (.ok (), v)) :
    Tracked ⟨{ s with engine := v.engine }, .followed v.topology, submitted, v.topology, []⟩ := by
  obtain rfl : s.topology = told := hcoherent.path.eq_of_nil
  have hchange := followed_change hmade
  generalize v.topology = u at hchange
  rcases hchange with rfl | hchange
  · exact ⟨h.fitting, h.known⟩
  · refine ⟨hchange.fitting hcoherent.linked h.fitting, fun a b hjoins => h.known a b ?_⟩
    cases hchange with
    | setSyncSource => exact Topology.joins_congr hjoins rfl rfl

/-- What the worker does makes no request. -/
theorem worker {p : Publisher} (h : Tracked ⟨s, stage, submitted, told, queue⟩)
    (hrequested : p.requested = s.publisher.requested) :
    Tracked ⟨{ s with publisher := p }, stage, submitted, told, queue⟩ := by
  have hlatest : latest ⟨{ s with publisher := p }, stage, submitted, told, queue⟩ =
      latest ⟨s, stage, submitted, told, queue⟩ := by
    cases stage <;> first | exact hrequested | rfl
  exact ⟨h.fitting, fun a b hjoins => hlatest ▸ h.known a b hjoins⟩

theorem unmoved (h : Tracked ⟨s, stage, submitted, told, queue⟩) (hsame : s.Unmoved v) :
    Tracked ⟨v, stage, submitted, told, queue⟩ := by
  obtain ⟨config, t, engine, publisher, driver⟩ := v
  obtain ⟨rfl, rfl, -⟩ := hsame
  exact ⟨h.fitting, h.known⟩

/-- Whatever happens next, connections are known to the latest request. -/
theorem step {x y : Interplay} (h : Tracked x) (hcoherent : Coherent x) (hstep : Step sure x y) : Tracked y := by
  cases hstep with
  | change | send | undo | detach | note => exact ⟨h.fitting, h.known⟩
  | request => exact h.request
  | compute => exact h.compute hcoherent.serves
  | publish => exact h.publish hcoherent
  | carry p hmade => exact h.carry hcoherent hmade
  | follow hmade => exact h.follow hcoherent hmade
  | other hkind hworker => exact h.unmoved (unmoved_act hkind hworker)
  | @take s => exact h.worker s.publisher.requested_take
  | @finish s => exact h.worker s.publisher.requested_finish
  | cycle io driver => exact h.unmoved (unmoved_cycle _ io driver)

end Tracked

theorem Reachable.tracked {sure : Bool} {x : Interplay} (h : Reachable sure x) : Tracked x := by
  obtain ⟨config, hsteps⟩ := h
  induction hsteps with
  | refl => exact tracked_new config
  | tail hbefore hstep ih => exact ih.step (Reachable.coherent ⟨config, hbefore⟩) hstep

/-- The commands that the engine has yet to carry out, with the one that a removal is about to send. -/
def waiting (x : Interplay) : List Action :=
  match x.stage with
  | .published a _ => x.queue ++ [a]
  | _ => x.queue

/-- A connection is in transit: it was asked for after the published schedule was, or is about to be, or a command that
ends it waits. -/
inductive InTransit (x : Interplay) (a b : NodeId) : Prop
  | requested {id t} : x.session.publisher.published < id → x.submitted id = some t → t.wiring.Joins a b →
      InTransit x a b
  | making {action before} : x.stage = .sent action before → x.session.topology.wiring.Joins a b →
      ¬before.wiring.Joins a b → InTransit x a b
  | leaving {front action rest t u} : x.waiting = front ++ action :: rest → Path x.told front t → Change action t u →
      t.wiring.Joins a b → ¬u.wiring.Joins a b → InTransit x a b

/-- The published schedule was not asked for after everything else. -/
theorem Coherent.published_le_latest {x : Interplay} (h : Coherent x) : x.session.publisher.published ≤ x.latest := by
  obtain ⟨s, stage, submitted, told, queue⟩ := x
  cases stage with
  | computing a before id =>
    obtain ⟨-, -, -, -, hpublished, -⟩ := h.underway
    exact Nat.le_pred_of_lt hpublished
  | _ => exact h.serves.behind

/-- A connection that the engine has and nobody asks for is only being made, or is leaving. -/
theorem Coherent.inTransit {x : Interplay} (h : Coherent x) {a b : NodeId} (hjoins : x.told.wiring.Joins a b)
    (hasked : ¬x.asked.wiring.Joins a b) : x.InTransit a b := by
  have hleaving : ∀ {t : Topology}, Path x.told x.waiting t → ¬t.wiring.Joins a b → x.InTransit a b := by
    intro t hpath hended
    obtain ⟨front, action, rest, u, w, hwaiting, hfront, hchange, hu, hw⟩ :=
      hpath.ended (P := (·.wiring.Joins a b)) hjoins hended
    exact .leaving hwaiting hfront hchange hu hw
  obtain ⟨s, stage, submitted, told, queue⟩ := x
  cases stage with
  | sent action before =>
    by_cases hmade : s.topology.wiring.Joins a b
    · exact .making rfl hmade hasked
    · exact hleaving h.path hmade
  | published action before =>
    obtain ⟨hremoves, hchange, -⟩ := h.underway
    exact hleaving (h.path.snoc (.inr hremoves) hchange) hasked
  | _ => exact hleaving h.path hasked

/-- An effect that passes on what it gets. -/
def through : Effect.Chain := { layout := { audioInputs := 1, audioOutputs := 1 }, process := fun b => (b, .ok ()) }

/-- A channel plays into the first one of two effects. -/
def patching : List Action :=
  [.addChain "fx" through, .addChain "gx" through, .addLoop, .addChannel ⟨0, 0⟩ .audio .direct,
    .connectChannel ⟨0, 0⟩ ⟨0, 0⟩ .output]

/-- Then it plays into the second one, and records what the first one makes. -/
def crossing : List Action :=
  [.settle, .connectChannel ⟨0, 0⟩ ⟨2, 0⟩ .output, .connectChannel ⟨0, 0⟩ ⟨1, 0⟩ .input]

def patched : Session := (Session.new { bufferSize := 1, poolBuffers := 0, reservedSamples := 1 }).after patching

def crossed : Session := patched.after crossing

theorem reachable_crossed (sure : Bool) : ∃ submitted, Reachable sure (quiet crossed submitted) := by
  have hrun := reachable_after sure { bufferSize := 1, poolBuffers := 0, reservedSamples := 1 } (patching ++ crossing)
    (by decide +kernel)
  rwa [after_append] at hrun

theorem joins_crossed : crossed.engine.wiring.Joins (.portProcess ⟨1, 0⟩) (.channel ⟨0, 0⟩) := by
  have hends : crossed.engine.wiring.ends ⟨0, 0⟩ = some (some ⟨1, 0⟩, some ⟨2, 0⟩) := by decide +kernel
  exact .record hends

/-- The schedule is the one that was made before the calls. -/
theorem schedule_crossed : patched.topology.schedule 5 = .ok crossed.publisher.schedule :=
  Publisher.schedule_of_published (p := patched.publisher.take) rfl (by decide +kernel)

theorem behind_crossed : crossed.publisher.schedule.Precedes (.channel ⟨0, 0⟩) (.portProcess ⟨1, 0⟩) := by
  have hplay : patched.topology.Flow (.channel ⟨0, 0⟩) (.portProcess ⟨0, 0⟩) := .play rfl rfl
  have heffect : patched.topology.Flow (.portProcess ⟨0, 0⟩) (.chain ⟨0, 0⟩) := .effect rfl List.mem_cons_self
  have hresult : patched.topology.Flow (.chain ⟨0, 0⟩) (.portProcess ⟨1, 0⟩) := .result rfl List.mem_cons_self
  have hfirst := Graph.precedes_of_flow schedule_crossed hplay nofun rfl rfl
  have hsecond := Graph.precedes_of_flow schedule_crossed heffect nofun rfl rfl
  have hthird := Graph.precedes_of_flow schedule_crossed hresult nofun rfl rfl
  exact (hfirst.trans hsecond).trans hthird

end Interplay

end Session

end Overdub
