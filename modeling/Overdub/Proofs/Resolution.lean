import Mathlib
import Overdub.Proofs.Coherence
import Overdub.Proofs.Dependencies
/-!
# Every scheduled object exists

An addition has the engine hold an object before it asks for a schedule with it, a
removal publishes the schedule without an object before it has the engine drop it.
If every call waits until its command is carried out, the engine has every object
of the published schedule and of those that may follow it
(`Interplay.Provided.step`), so no cycle finds a node whose object is gone
(`Interplay.schedule_resolves`).
-/

namespace Overdub

/-- The object that a node is of is there. -/
def Engine.resolves (e : Engine) : NodeId → Bool
  | .portPrepare key => e.ports.contains key
  | .portProcess key => e.ports.contains key
  | .loop key => e.loops.contains key
  | .channel key => (e.channel? key).isSome
  | .chain key => e.chains.contains key

theorem Engine.resolves_iff (e : Engine) (id : NodeId) : e.resolves id = true ↔ e.wiring.Has id := by
  cases id <;> simp [resolves, wiring, Wiring.Has, Arena.contains]

namespace Session

open Function (update)

namespace Interplay

/-- While every call waits for its command, at most one is not carried out: that of the addition that is being made, or
of a removal whose schedule is published and up to date. -/
def Prompt (x : Interplay) : Prop :=
  match x.stage with
  | .idle => x.queue = [] ∨ (∃ a, x.queue = [a]) ∧
      x.session.publisher.published = x.session.publisher.requested ∧
      x.submitted x.session.publisher.requested = some x.session.topology
  | .sent a _ => x.queue = [] ∨ x.queue = [a]
  | _ => x.queue = []

/-- The engine has every object that the published schedule, or one that may follow it, is made for. -/
structure Provided (x : Interplay) : Prop where
  within : ∀ id t, x.submitted id = some t → x.session.publisher.published ≤ id → t.wiring.Within x.told.wiring
  prompt : x.Prompt

theorem provided_new (config : EngineConfig) : Provided (quiet (Session.new config) fun _ => none) := ⟨nofun, .inl rfl⟩

namespace Provided

variable {s v : Session} {a : Action} {u t told before : Topology} {id given : Nat} {stage : Stage}
  {submitted : Nat → Option Topology} {queue : List Action}

theorem send (h : Provided ⟨s, .changed a before, submitted, told, queue⟩) :
    Provided ⟨s, .sent a before, submitted, told, queue ++ [a]⟩ := by
  obtain rfl : queue = [] := h.prompt
  exact ⟨h.within, .inr rfl⟩

/-- What is asked for besides is there as well. -/
theorem within_update (h : Provided ⟨s, stage, submitted, told, queue⟩) (hnew : t.wiring.Within told.wiring)
    {next : Nat} (hid : update submitted next (some t) id = some u) (hlater : s.publisher.published ≤ id) :
    u.wiring.Within told.wiring := by
  rw [Function.update_apply] at hid
  split_ifs at hid with hlatest
  · exact Option.some.inj hid ▸ hnew
  · exact h.within id u hid hlater

theorem request (h : Provided ⟨s, .sent a before, submitted, told, []⟩)
    (hcoherent : Coherent ⟨s, .sent a before, submitted, told, []⟩) :
    Provided ⟨{ s with publisher := s.publisher.request s.topology }, .idle,
      update submitted (s.publisher.requested + 1) (some s.topology), told, []⟩ := by
  obtain rfl : s.topology = told := hcoherent.path.eq_of_nil
  exact ⟨fun id u hid hlater => h.within_update (.refl _) hid hlater, .inl rfl⟩

theorem compute (h : Provided ⟨s, .changed a before, submitted, told, queue⟩)
    (hcoherent : Coherent ⟨s, .changed a before, submitted, told, queue⟩) (hremoves : a.removes = true) :
    Provided ⟨{ s with publisher := s.publisher.beginNow }, .computing a before (s.publisher.requested + 1),
      update submitted (s.publisher.requested + 1) (some s.topology), told, queue⟩ := by
  obtain rfl : queue = [] := h.prompt
  obtain rfl : before = told := hcoherent.path.eq_of_nil
  have hchange : Change a before s.topology := hcoherent.underway
  exact ⟨fun id u hid hlater => h.within_update (hchange.shrinks hremoves) hid hlater, rfl⟩

theorem detach (h : Provided ⟨s, .published a before, submitted, told, queue⟩)
    (hcoherent : Coherent ⟨s, .published a before, submitted, told, queue⟩) :
    Provided ⟨s, .idle, submitted, told, queue ++ [a]⟩ := by
  obtain rfl : queue = [] := h.prompt
  obtain ⟨-, -, hlatest, hpublished⟩ := hcoherent.underway
  exact ⟨h.within, .inr ⟨⟨a, rfl⟩, hpublished, hlatest⟩⟩

theorem carry {p : Publisher} (h : Provided ⟨s, stage, submitted, told, a :: queue⟩)
    (hcoherent : Coherent ⟨s, stage, submitted, told, a :: queue⟩)
    (hmade : { s with topology := told, publisher := p }.call a.call = (.ok (), v)) :
    Provided ⟨{ s with engine := v.engine, driver := v.driver }, stage, submitted, v.topology, queue⟩ := by
  obtain ⟨hchange, hpath⟩ : Change a told v.topology ∧ Path v.topology queue _ :=
    Path.carry (s := { s with topology := told, publisher := p }) hcoherent.path hmade
  have hprompt := h.prompt
  cases stage with
  | idle =>
    obtain hnone | ⟨⟨b, hone⟩, hpublished, hlatest⟩ := hprompt
    · cases hnone
    obtain ⟨rfl, rfl⟩ := List.cons.inj hone
    obtain htopology : s.topology = v.topology := hpath.eq_of_nil
    -- nothing was submitted after the schedule that is published, which knows of the removal
    refine ⟨fun id t hid hlater => ?_, .inl rfl⟩
    obtain rfl : id = s.publisher.requested :=
      le_antisymm (hcoherent.serves.range hid).2 (hpublished.symm.trans_le hlater)
    obtain rfl := Option.some.inj (hid.symm.trans hlatest)
    exact htopology ▸ .refl _
  | sent b before =>
    obtain hnone | hone := hprompt
    · cases hnone
    obtain ⟨rfl, rfl⟩ := List.cons.inj hone
    have hgrows := hchange.grows hcoherent.underway hcoherent.linked hcoherent.rooted
    exact ⟨fun id t hid hlater => (h.within id t hid hlater).trans hgrows, .inl rfl⟩
  | changed | computing | published | followed => cases hprompt

theorem follow {key : LoopKey} {source : Option LoopKey} (h : Provided ⟨s, .idle, submitted, told, []⟩)
    (hcoherent : Coherent ⟨s, .idle, submitted, told, []⟩) (hmade : s.call (setSyncSource key source) = (.ok (), v)) :
    Provided ⟨{ s with engine := v.engine }, .followed v.topology, submitted, v.topology, []⟩ := by
  obtain rfl : s.topology = told := hcoherent.path.eq_of_nil
  have hgrows : s.topology.wiring.Within v.topology.wiring := by
    rcases followed_change hmade with hsame | hchange
    · rw [hsame]
      exact .refl _
    · exact hchange.follows
  exact ⟨fun id t hid hlater => (h.within id t hid hlater).trans hgrows, rfl⟩

/-- Publishing goes forward, and not beyond what is asked for. -/
theorem worker {q : Publisher} (h : Provided ⟨s, stage, submitted, told, queue⟩)
    (hrequested : q.requested = s.publisher.requested) (hforward : s.publisher.published ≤ q.published)
    (hbehind : q.published ≤ q.requested) : Provided ⟨{ s with publisher := q }, stage, submitted, told, queue⟩ := by
  refine ⟨fun id t hid hlater => h.within id t hid (hforward.trans hlater), ?_⟩
  have hprompt := h.prompt
  cases stage with
  | idle =>
    refine hprompt.imp_right fun ⟨hone, hpublished, hlatest⟩ => ⟨hone, le_antisymm hbehind ?_, ?_⟩
    · show q.requested ≤ q.published
      rw [hrequested]
      exact hpublished.ge.trans hforward
    · show submitted q.requested = some s.topology
      rwa [hrequested]
  | _ => exact hprompt

theorem unmoved (h : Provided ⟨s, stage, submitted, told, queue⟩) (hsame : s.Unmoved v) :
    Provided ⟨v, stage, submitted, told, queue⟩ := by
  obtain ⟨config, t, engine, publisher, driver⟩ := v
  obtain ⟨rfl, rfl, -⟩ := hsame
  exact ⟨h.within, h.prompt⟩

/-- Whatever happens next, the engine has what the schedules are made for. -/
theorem step {x y : Interplay} (h : Provided x) (hcoherent : Coherent x) (hstep : Step true x y) : Provided y := by
  cases hstep with
  | change _ _ hquiet => exact ⟨h.within, hquiet rfl⟩
  | send => exact h.send
  | undo _ hsure => cases hsure
  | request hquiet =>
    obtain rfl := hquiet rfl
    exact h.request hcoherent
  | compute hremoves => exact h.compute hcoherent hremoves
  | @publish s a before id given submitted told queue =>
    have hforward := s.publisher.published_le_finishNow id s.topology
    exact ⟨fun id' t hid hlater => h.within id' t hid (hforward.trans hlater), h.prompt⟩
  | detach => exact h.detach hcoherent
  | carry p hmade => exact h.carry hcoherent hmade
  | follow hmade => exact h.follow hcoherent hmade
  | note => exact ⟨h.within, .inl h.prompt⟩
  | other hkind hworker => exact h.unmoved (unmoved_act hkind hworker)
  | @take s =>
    exact h.worker s.publisher.requested_take s.publisher.published_take.ge hcoherent.serves.take.behind
  | @finish s =>
    exact h.worker s.publisher.requested_finish s.publisher.published_le_finish hcoherent.serves.finish.behind
  | cycle io driver => exact h.unmoved (unmoved_cycle _ io driver)

/-- The published schedule names objects that the engine has. -/
theorem resolves {x : Interplay} (h : Provided x) (hcoherent : Coherent x) {id : NodeId}
    (hid : x.session.publisher.schedule.contains id = true) : x.session.engine.wiring.Has id := by
  rcases Nat.eq_zero_or_pos x.session.publisher.published with hzero | hpos
  · rw [hcoherent.serves.empty_of_unpublished hzero] at hid
    cases hid
  · obtain ⟨t, hsubmitted, hschedule⟩ := hcoherent.serves.exact hpos
    have hnode : t.Has id := (Graph.contains_schedule hschedule id).1 hid
    rw [← hcoherent.alike]
    exact (h.within _ t hsubmitted le_rfl).has (has_of_node hnode)

end Provided

theorem Reachable.provided {x : Interplay} (h : Reachable true x) : Provided x := by
  obtain ⟨config, hsteps⟩ := h
  induction hsteps with
  | refl => exact provided_new config
  | tail hbefore hstep ih => exact ih.step (Reachable.coherent ⟨config, hbefore⟩) hstep

/-- Calls that all succeed, cycles and the worker take their steps in any order. Then the schedule that a cycle loads
names only objects that the engine has when the cycle begins, and still has when the turn of each node comes. -/
theorem schedule_resolves {x : Interplay} (h : Reachable true x) :
    let s := x.session
    (∀ id, s.publisher.schedule.contains id = true → s.engine.resolves id = true) ∧
    ∀ io done step later, s.publisher.schedule.steps = done ++ step :: later → ∀ id ∈ step.nodes,
      (done.foldl (Engine.processStep s.publisher.schedule) (s.engine, io)).1.resolves id = true := by
  intro s
  have hresolves : ∀ id, s.publisher.schedule.contains id = true → s.engine.wiring.Has id :=
    fun id hid => h.provided.resolves h.coherent hid
  refine ⟨fun id hid => (s.engine.resolves_iff id).2 (hresolves id hid), fun io done step later hsplit id hid => ?_⟩
  rw [Engine.resolves_iff, Engine.wiring_steps]
  refine hresolves id (List.any_eq_true.2 ⟨step, ?_, List.contains_iff_mem.2 hid⟩)
  rw [hsplit]
  exact List.mem_append_right _ List.mem_cons_self

/-- Two loops, the first one in the place of a deleted one. -/
def reuse : Session :=
  (new { bufferSize := 1, poolBuffers := 0, reservedSamples := 1 }).after
    [.addLoop, .settle, .deleteLoop ⟨0, 0⟩, .addLoop, .addLoop, .settle]

/-- The second loop is about to be deleted: the topology does not have it any more. -/
def deleting : Session := { reuse with topology := reuse.topology.removeLoop ⟨1, 0⟩ {} }

theorem schedule_resolves_deleting : ∃ stage submitted told queue,
    Reachable true ⟨deleting, stage, submitted, told, queue⟩ ∧ deleting.topology.loops.contains ⟨1, 0⟩ = false ∧
    deleting.publisher.schedule.contains (.loop ⟨1, 0⟩) = true ∧ deleting.engine.resolves (.loop ⟨1, 0⟩) = true ∧
    deleting.publisher.schedule.contains (.loop ⟨0, 1⟩) = true ∧ deleting.engine.resolves (.loop ⟨0, 1⟩) = true ∧
    deleting.engine.resolves (.loop ⟨0, 0⟩) = false := by
  obtain ⟨submitted, config, hsteps⟩ := reachable_after true { bufferSize := 1, poolBuffers := 0, reservedSamples := 1 }
    [.addLoop, .settle, .deleteLoop ⟨0, 0⟩, .addLoop, .addLoop, .settle] (by decide +kernel)
  have hreachable : Reachable true
      ⟨deleting, .changed (.deleteLoop ⟨1, 0⟩) reuse.topology, submitted, reuse.topology, []⟩ :=
    ⟨config, hsteps.tail (.change (.inr rfl) (.deleteLoop (by decide +kernel)) fun _ => rfl)⟩
  have hfirst : deleting.publisher.schedule.contains (.loop ⟨0, 1⟩) = true := by decide +kernel
  have hsecond : deleting.publisher.schedule.contains (.loop ⟨1, 0⟩) = true := by decide +kernel
  obtain ⟨hresolves, -⟩ := schedule_resolves hreachable
  exact ⟨_, submitted, _, _, hreachable, by decide +kernel, hsecond, hresolves _ hsecond, hfirst, hresolves _ hfirst,
    by decide +kernel⟩

end Interplay

end Session

end Overdub
