import Mathlib
import Overdub.Proofs.Interplay
/-!
# What the two sides have in common during a call

While a call is being made the topology is ahead of the engine. `Interplay.Coherent`
says by how much: the commands that are not carried out yet lead the engine to a
topology that the stage of the call tells (`Interplay.base`), and a removal is the
latest of all requests until its schedule is published. Each kind of step keeps it
(`Interplay.Coherent.step`), whether calls wait for their commands or not.
-/

namespace Overdub

namespace Session

open Function (update)

/-- A call of the session succeeds, if it succeeds, as one of a session that is wired alike on both sides. -/
theorem Agrees.made {s v : Session} (h : s.Agrees) {a : Action} (hmade : s.call a.call = (.ok (), v)) : v.Agrees := by
  have hok : (s.call a.call).1.isOk = true := by rw [hmade]; rfl
  have hact := h.act hok
  rwa [Session.act, hmade] at hact

namespace Interplay

/-- Additions and removals that lead from one topology to another. -/
inductive Path : Topology → List Action → Topology → Prop
  | nil {t} : Path t [] t
  | cons {a rest t u v} : a.adds = true ∨ a.removes = true → Change a t u → Path u rest v → Path t (a :: rest) v

namespace Path

variable {a : Action} {queue : List Action} {t u v : Topology}

theorem snoc (h : Path t queue u) (hkind : a.adds = true ∨ a.removes = true) (hchange : Change a u v) :
    Path t (queue ++ [a]) v := by
  induction h with
  | nil => exact .cons hkind hchange .nil
  | cons hfirst hstep _ ih => exact .cons hfirst hstep (ih hchange)

theorem eq_of_nil (h : Path t [] u) : u = t := by
  cases h
  rfl

/-- What a call that succeeds makes of a topology is the next one on the path. -/
theorem carry {s w : Session} (h : Path s.topology (a :: queue) v) (hmade : s.call a.call = (.ok (), w)) :
    Change a s.topology w.topology ∧ Path w.topology queue v := by
  cases h with
  | cons hkind hchange hrest =>
    rcases hkind with hadds | hremoves
    · rcases added_of_ok hadds hmade with hadded | ⟨hredundant, -⟩
      · exact ⟨hadded.change, hadded.change.unique hchange ▸ hrest⟩
      · exact absurd hredundant hchange.not_redundant
    · have hremoved := (removed_of_ok hremoves hmade).change
      exact ⟨hremoved, hremoved.unique hchange ▸ hrest⟩

/-- What holds at the beginning of a path and not at its end, some command ends. -/
theorem ended {P : Topology → Prop} (h : Path t queue v) (hfirst : P t) (hlast : ¬P v) :
    ∃ front a rest u w, queue = front ++ a :: rest ∧ Path t front u ∧ Change a u w ∧ P u ∧ ¬P w := by
  induction h with
  | nil => exact absurd hfirst hlast
  | @cons a rest t u v hkind hchange _ ih =>
    by_cases hnext : P u
    · obtain ⟨front, b, later, x, y, rfl, hpath, hends⟩ := ih hnext hlast
      exact ⟨a :: front, b, later, x, y, rfl, .cons hkind hchange hpath, hends⟩
    · exact ⟨[], a, rest, t, u, rfl, .nil, hchange, hfirst, hnext⟩

end Path

/-- The topology that the engine comes to when it has carried out what was sent. -/
def base (x : Interplay) : Topology :=
  match x.stage with
  | .idle => x.session.topology
  | .changed _ before => before
  | .sent _ _ => x.session.topology
  | .computing _ before _ => before
  | .published _ before => before
  | .followed t => t

/-- What is known at each stage of a call. -/
def Underway (x : Interplay) : Prop :=
  match x.stage with
  | .idle => True
  | .changed a before => Change a before x.session.topology
  | .sent a _ => a.adds = true
  | .computing a before id =>
    a.removes = true ∧ Change a before x.session.topology ∧ x.session.publisher.requested = id ∧
      x.submitted id = some x.session.topology ∧ x.session.publisher.published < id ∧
      x.session.publisher.pending = none ∧ ∀ t, x.session.publisher.working ≠ some (id, t)
  | .published a before =>
    a.removes = true ∧ Change a before x.session.topology ∧
      x.submitted x.session.publisher.requested = some x.session.topology ∧
      x.session.publisher.published = x.session.publisher.requested
  | .followed _ => True

/-- Both sides and the publisher fit together, as far as the call has come and the queue is carried out. -/
structure Coherent (x : Interplay) : Prop where
  serves : x.session.publisher.Serves x.submitted
  linked : x.told.Linked
  rooted : x.told.Rooted
  alike : x.told.wiring = x.session.engine.wiring
  path : Path x.told x.queue x.base
  underway : x.Underway

theorem coherent_new (config : EngineConfig) : Coherent (quiet (Session.new config) fun _ => none) :=
  ⟨Publisher.serves_new, Topology.empty_linked, Topology.empty_rooted, rfl, .nil, trivial⟩

namespace Coherent

variable {sure : Bool} {s v : Session} {a : Action} {u t told before : Topology} {id given : Nat} {stage : Stage}
  {submitted : Nat → Option Topology} {queue : List Action}

/-- The worker disturbs no removal: its request is the latest, and it computes the schedule itself. -/
theorem underway_worker {q : Publisher} (h : Underway ⟨s, stage, submitted, told, queue⟩)
    (hrequested : q.requested = s.publisher.requested) (hforward : s.publisher.published ≤ q.published)
    (hbehind : q.published ≤ q.requested)
    (hquiet : s.publisher.pending = none → (∀ t, s.publisher.working ≠ some (s.publisher.requested, t)) →
      q.pending = none ∧ (∀ t, q.working ≠ some (s.publisher.requested, t)) ∧ q.published = s.publisher.published) :
    Underway ⟨{ s with publisher := q }, stage, submitted, told, queue⟩ := by
  cases stage with
  | idle => trivial
  | changed a before => exact h
  | sent a before => exact h
  | computing a before id =>
    obtain ⟨hremoves, hchange, hlatest, hsubmitted, hpublished, hpending, hworking⟩ := h
    dsimp only at hlatest hpublished hpending hworking
    subst hlatest
    obtain ⟨hpending', hworking', hsame⟩ := hquiet hpending hworking
    exact ⟨hremoves, hchange, hrequested, hsubmitted, hsame.trans_lt hpublished, hpending', hworking'⟩
  | published a before =>
    obtain ⟨hremoves, hchange, hsubmitted, hpublished⟩ := h
    refine ⟨hremoves, hchange, ?_, le_antisymm hbehind ?_⟩
    · show submitted q.requested = some s.topology
      rwa [hrequested]
    · show q.requested ≤ q.published
      rw [hrequested]
      exact hpublished.ge.trans hforward
  | followed t => trivial

theorem change (h : Coherent ⟨s, .idle, submitted, told, queue⟩) (hchange : Change a s.topology u) :
    Coherent ⟨{ s with topology := u }, .changed a s.topology, submitted, told, queue⟩ :=
  ⟨h.serves, h.linked, h.rooted, h.alike, h.path, hchange⟩

theorem send (h : Coherent ⟨s, .changed a before, submitted, told, queue⟩) (hadds : a.adds = true) :
    Coherent ⟨s, .sent a before, submitted, told, queue ++ [a]⟩ :=
  ⟨h.serves, h.linked, h.rooted, h.alike, h.path.snoc (.inl hadds) h.underway, hadds⟩

theorem undo (h : Coherent ⟨s, .changed a before, submitted, told, queue⟩) :
    Coherent ⟨{ s with topology := before }, .idle, submitted, told, queue⟩ :=
  ⟨h.serves, h.linked, h.rooted, h.alike, h.path, trivial⟩

theorem request (h : Coherent ⟨s, .sent a before, submitted, told, queue⟩) :
    Coherent ⟨{ s with publisher := s.publisher.request s.topology }, .idle,
      update submitted (s.publisher.requested + 1) (some s.topology), told, queue⟩ :=
  ⟨h.serves.request s.topology, h.linked, h.rooted, h.alike, h.path, trivial⟩

theorem compute (h : Coherent ⟨s, .changed a before, submitted, told, queue⟩) (hremoves : a.removes = true) :
    Coherent ⟨{ s with publisher := s.publisher.beginNow }, .computing a before (s.publisher.requested + 1),
      update submitted (s.publisher.requested + 1) (some s.topology), told, queue⟩ := by
  have hchange : Change a before s.topology := h.underway
  refine ⟨h.serves.number s.topology, h.linked, h.rooted, h.alike, h.path, hremoves, hchange, rfl,
    Function.update_self .., Nat.lt_succ_of_le h.serves.behind, rfl, fun t hworking => ?_⟩
  -- the number is new, whatever the worker has in hand was submitted under an older one
  exact Nat.not_succ_le_self _ (h.serves.range (h.serves.working _ t hworking)).2

theorem publish (h : Coherent ⟨s, .computing a before id, submitted, told, queue⟩)
    (hgiven : (s.publisher.finishNow id s.topology).2 = .ok given) :
    Coherent ⟨{ s with publisher := (s.publisher.finishNow id s.topology).1 }, .published a before, submitted, told,
      queue⟩ := by
  obtain ⟨hremoves, hchange, hlatest, hsubmitted, -, -, -⟩ := h.underway
  have hserves := h.serves.finishNow hsubmitted
  have hrequested := s.publisher.requested_finishNow id s.topology
  refine ⟨hserves, h.linked, h.rooted, h.alike, h.path, hremoves, hchange, ?_, le_antisymm hserves.behind ?_⟩
  · show submitted (s.publisher.finishNow id s.topology).1.requested = some s.topology
    rwa [hrequested, hlatest]
  · show (s.publisher.finishNow id s.topology).1.requested ≤ (s.publisher.finishNow id s.topology).1.published
    rw [hrequested, hlatest]
    exact (Publisher.le_published_finishNow hgiven).2

theorem detach (h : Coherent ⟨s, .published a before, submitted, told, queue⟩) :
    Coherent ⟨s, .idle, submitted, told, queue ++ [a]⟩ := by
  obtain ⟨hremoves, hchange, -⟩ := h.underway
  exact ⟨h.serves, h.linked, h.rooted, h.alike, h.path.snoc (.inr hremoves) hchange, trivial⟩

theorem carry {p : Publisher} (h : Coherent ⟨s, stage, submitted, told, a :: queue⟩)
    (hmade : { s with topology := told, publisher := p }.call a.call = (.ok (), v)) :
    Coherent ⟨{ s with engine := v.engine, driver := v.driver }, stage, submitted, v.topology, queue⟩ := by
  have hagrees : Agrees { s with topology := told, publisher := p } := ⟨h.linked, h.rooted, h.alike⟩
  obtain ⟨hlinked, hrooted, halike⟩ := hagrees.made hmade
  have hpath : Path v.topology queue _ := (Path.carry (s := { s with topology := told, publisher := p }) h.path hmade).2
  exact ⟨h.serves, hlinked, hrooted, halike, hpath, h.underway⟩

theorem follow {key : LoopKey} {source : Option LoopKey} (h : Coherent ⟨s, .idle, submitted, told, []⟩)
    (hmade : s.call (setSyncSource key source) = (.ok (), v)) :
    Coherent ⟨{ s with engine := v.engine }, .followed v.topology, submitted, v.topology, []⟩ := by
  obtain rfl : s.topology = told := h.path.eq_of_nil
  have hagrees : s.Agrees := ⟨h.linked, h.rooted, h.alike⟩
  obtain ⟨hlinked, hrooted, halike⟩ := hagrees.made (a := .setSyncSource key source) hmade
  exact ⟨h.serves, hlinked, hrooted, halike, .nil, trivial⟩

theorem note (h : Coherent ⟨s, .followed t, submitted, told, queue⟩) :
    Coherent ⟨{ s with topology := t }, .idle, submitted, told, queue⟩ :=
  ⟨h.serves, h.linked, h.rooted, h.alike, h.path, trivial⟩

theorem take (h : Coherent ⟨s, stage, submitted, told, queue⟩) :
    Coherent ⟨{ s with publisher := s.publisher.take }, stage, submitted, told, queue⟩ := by
  refine ⟨h.serves.take, h.linked, h.rooted, h.alike, h.path,
    underway_worker h.underway s.publisher.requested_take s.publisher.published_take.ge h.serves.take.behind
      fun hpending hworking => ?_⟩
  rw [Publisher.take_of_none hpending]
  exact ⟨hpending, hworking, rfl⟩

theorem finish (h : Coherent ⟨s, stage, submitted, told, queue⟩) :
    Coherent ⟨{ s with publisher := s.publisher.finish }, stage, submitted, told, queue⟩ := by
  refine ⟨h.serves.finish, h.linked, h.rooted, h.alike, h.path,
    underway_worker h.underway s.publisher.requested_finish s.publisher.published_le_finish h.serves.finish.behind
      fun hpending hworking => ?_⟩
  refine ⟨s.publisher.pending_finish.trans hpending, fun t => ?_, Publisher.published_finish_of_ne hworking⟩
  rw [Publisher.working_finish]
  exact nofun

theorem unmoved (h : Coherent ⟨s, stage, submitted, told, queue⟩) (hsame : s.Unmoved v) :
    Coherent ⟨v, stage, submitted, told, queue⟩ := by
  obtain ⟨config, t, engine, publisher, driver⟩ := v
  obtain ⟨rfl, rfl, hwiring⟩ := hsame
  exact ⟨h.serves, h.linked, h.rooted, h.alike.trans hwiring.symm, h.path, h.underway⟩

/-- Whatever happens next, both sides and the publisher fit together. -/
theorem step {x y : Interplay} (h : Coherent x) (hstep : Step sure x y) : Coherent y := by
  cases hstep with
  | change _ hchange => exact h.change hchange
  | send hadds => exact h.send hadds
  | undo => exact h.undo
  | request => exact h.request
  | compute hremoves => exact h.compute hremoves
  | publish hgiven => exact h.publish hgiven
  | detach => exact h.detach
  | carry p hmade => exact h.carry hmade
  | follow hmade => exact h.follow hmade
  | note => exact h.note
  | other hkind hworker => exact h.unmoved (unmoved_act hkind hworker)
  | take => exact h.take
  | finish => exact h.finish
  | cycle io driver => exact h.unmoved (unmoved_cycle _ io driver)

end Coherent

theorem Reachable.coherent {sure : Bool} {x : Interplay} (h : Reachable sure x) : Coherent x := by
  obtain ⟨config, hsteps⟩ := h
  induction hsteps with
  | refl => exact coherent_new config
  | tail _ hstep ih => exact ih.step hstep

end Interplay

end Session

end Overdub
