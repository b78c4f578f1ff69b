import Mathlib
import Overdub.Proofs.Growth
import Overdub.Proofs.Mirror
import Overdub.Proofs.Publication
/-!
# Calls while the process side runs

A call takes several steps. An addition changes the topology, sends the engine a
command and asks the worker for a schedule; a removal changes the topology,
publishes the schedule of that and then sends its command. `Interplay` is a session
in the middle of a call, with the commands that the engine has not carried out yet,
and `Interplay.Step` is one such step, or one of the others: the engine carries out
a command, the worker takes a request or finishes one, and the process side runs a
cycle. A call that nothing comes between goes through its steps to what it makes of
the session (`Interplay.undisturbed`).
-/

namespace Overdub.Session

open Function (update)
open Relation (ReflTransGen)

/-! ## What a call that succeeds has made -/

theorem call_of_succeeds {s : Session} {a : Action} (h : (s.call a.call).1.isOk = true) :
    s.call a.call = (.ok (), s.act a) := by
  unfold act
  generalize s.call a.call = made at h ⊢
  obtain ⟨e | u, v⟩ := made
  · cases h
  · rfl

/-- What an addition makes of a session. -/
structure Added (a : Action) (s v : Session) : Prop where
  change : Change a s.topology v.topology
  config : v.config = s.config
  publisher : v.publisher = s.publisher.request v.topology

/-- What a removal makes of a session. -/
structure Removed (a : Action) (s v : Session) : Prop where
  change : Change a s.topology v.topology
  config : v.config = s.config
  publisher : v.publisher = (s.publisher.publishNow v.topology).1
  published : ∃ id, (s.publisher.publishNow v.topology).2 = .ok id

/-- The addition is made, or what it asks for was there. -/
def AddedOnce (a : Action) (s v : Session) : Prop := Added a s v ∨ Redundant a s.topology ∧ v = s

/-- An addition that succeeds is made, unless it asks for what is there. -/
theorem added_of_ok {s v : Session} {a : Action} (hadds : a.adds = true) (h : s.call a.call = (.ok (), v)) :
    AddedOnce a s v := by
  suffices hmakes : Makes (AddedOnce a s) a.call s from hmakes () v h
  cases a with
  | openPort name dataType direction =>
    refine .discard (.get ?_)
    split
    · split
      · exact .throw _
      · refine .bind fun _ u hmade => ?_
        rw [call_modify] at hmade
        obtain ⟨-, rfl⟩ := Prod.mk.inj hmade
        exact Makes.then (.commit fun e _ => .inl ⟨.openPort, rfl, rfl⟩) fun _ _ => .pure
    · exact .throw _
  | connectPorts source target =>
    refine .lookup fun src hsrc => .lookup fun dst hdst => .require fun hne => .require fun hdirection =>
      .require fun htype => ?_
    split
    · next hthere => exact .pure (.inr ⟨⟨source, target, dst, rfl, hdst, List.contains_iff_mem.1 hthere⟩, rfl⟩)
    · next hnew =>
      refine .get (.lift fun order horder => .commit fun e _ => .inl ⟨?_, rfl, rfl⟩)
      exact .connectPorts hsrc hdst (of_decide_eq_true hne) (of_decide_eq_true hdirection) (of_decide_eq_true htype)
        (fun hmem => hnew (List.contains_iff_mem.2 hmem)) horder
  | addLoop => exact .discard (.get (Makes.then (.commit fun e _ => .inl ⟨.addLoop, rfl, rfl⟩) fun _ _ => .pure))
  | addChannel loop dataType mode =>
    refine .discard (.lookup fun info hinfo => .get ?_)
    refine Makes.then (.commit fun e _ => .inl ⟨.addChannel ?_, rfl, rfl⟩) fun _ _ => .pure
    exact Option.isSome_iff_exists.2 ⟨info, hinfo⟩
  | connectChannel key port direction =>
    refine .lookup fun p hp => .lookup fun c hc => .require fun hdirection => .require fun htype => .get ?_
    refine .commit fun e _ => .inl ⟨?_, rfl, rfl⟩
    exact .connectChannel hp hc (of_decide_eq_true hdirection) (of_decide_eq_true htype)
  | addChain name effect =>
    refine .discard (.get ?_)
    split
    next key chains hkey =>
    dsimp only
    refine Makes.then (.commit fun e _ => .inl ⟨?_, rfl, rfl⟩) fun _ _ => .pure
    simp only [addChainPorts_keys, addChainPorts_topology]
    have hchange := @Change.addChain s.topology name effect
    unfold withChain at hchange
    rwa [hkey] at hchange
  | _ => cases hadds

/-- A removal that succeeds is made. -/
theorem removed_of_ok {s v : Session} {a : Action} (hremoves : a.removes = true) (h : s.call a.call = (.ok (), v)) :
    Removed a s v := by
  suffices hmakes : Makes (Removed a s) a.call s from hmakes () v h
  cases a with
  | closePort key =>
    refine .lookup fun info hinfo => .require fun howner => .get ?_
    refine Makes.then (P := Removed (.closePort key) s)
      (.retract fun id _ _ hid _ => ⟨.closePort hinfo (of_decide_eq_true howner), rfl, rfl, id, hid⟩)
      fun removed u hu => ?_
    split
    · exact .modify ⟨hu.change, hu.config, hu.publisher, hu.published⟩
    · exact .pure hu
  | disconnectPorts source target =>
    refine .lookup fun dst hdst => .require fun hsource => .get (.retract fun id _ _ hid _ => ⟨?_, rfl, rfl, id, hid⟩)
    exact .disconnectPorts hdst (List.contains_iff_mem.1 hsource)
  | deleteLoop key =>
    exact .lookup fun info hinfo => .get (.retract fun id _ _ hid _ => ⟨.deleteLoop hinfo, rfl, rfl, id, hid⟩)
  | deleteChannel key =>
    exact .lookup fun info hinfo => .get (.retract fun id _ _ hid _ => ⟨.deleteChannel hinfo, rfl, rfl, id, hid⟩)
  | disconnectChannel key port =>
    refine .lookup fun c hc => .require fun hport => .get (.retract fun id _ _ hid _ => ⟨?_, rfl, rfl, id, hid⟩)
    exact .disconnectChannel hc (by simpa using hport)
  | deleteChain key =>
    exact .discard (.lookup fun info hinfo => .get
      (.retract fun id _ _ hid _ => ⟨.deleteChain hinfo, rfl, rfl, id, hid⟩))
  | _ => cases hremoves

/-- A loop that follows another one asks for no schedule. -/
theorem followed_of_ok {s v : Session} {key : LoopKey} {source : Option LoopKey}
    (h : s.call (setSyncSource key source) = (.ok (), v)) :
    v = { s with topology := v.topology, engine := v.engine } := by
  suffices hmakes : Makes (fun v => v = { s with topology := v.topology, engine := v.engine })
    (setSyncSource key source) s from hmakes () v h
  refine .reads (.checkLoops _) fun _ => .get (.require fun _ => .bind fun _ u hmade => ?_)
  obtain ⟨l, -, rfl⟩ := changeLoops_made hmade
  exact .modify rfl

/-- Nor does it change anything but the loops. -/
theorem followed_change {s v : Session} {key : LoopKey} {source : Option LoopKey}
    (h : s.call (setSyncSource key source) = (.ok (), v)) :
    v.topology = s.topology ∨ Change (.setSyncSource key source) s.topology v.topology := by
  have hchange := change_act s (.setSyncSource key source)
  rwa [act, show s.call (Action.setSyncSource key source).call = _ from h] at hchange

/-- Nothing is connected differently, and no schedule is asked for. -/
structure Unmoved (s v : Session) : Prop where
  topology : v.topology = s.topology
  publisher : v.publisher = s.publisher
  wiring : v.engine.wiring = s.engine.wiring

theorem unmoved_act {s : Session} {a : Action} (hkind : a.restructures = false) (hworker : a ≠ .settle) :
    s.Unmoved (s.act a) where
  topology := keeps_of_not_restructures hkind s
  publisher := fixes_of_not_restructures (φ := (·.publisher)) (fun _ _ _ => rfl) hkind hworker s
  wiring := steady_of_not_restructures hkind s

theorem unmoved_cycle (s : Session) (io : DriverCycle) (driver : Option DummyDriver) :
    s.Unmoved { s with engine := (Engine.cycle s.publisher.schedule s.engine io).1, driver } :=
  ⟨rfl, rfl, Engine.wiring_cycle _ _ io⟩

/-! ## The steps of a call -/

/-- How far a call has come. -/
inductive Stage where
  /-- No call is being made. -/
  | idle
  /-- The topology has changed, and nothing else. -/
  | changed (a : Action) (before : Topology)
  /-- The command of an addition is sent, no schedule is asked for yet. -/
  | sent (a : Action) (before : Topology)
  /-- The schedule of a removal is being computed, under a number. -/
  | computing (a : Action) (before : Topology) (id : Nat)
  /-- The schedule of a removal is published, the command is not sent yet. -/
  | published (a : Action) (before : Topology)
  /-- The engine lets one loop follow another, the topology is yet to say so. -/
  | followed (t : Topology)

/-- A session that is being called while its other side runs. -/
structure Interplay where
  session : Session
  stage : Stage
  /-- The topologies that schedules were asked for, by the numbers of the requests. -/
  submitted : Nat → Option Topology
  /-- The topology that the engine has been brought to. -/
  told : Topology
  /-- The calls whose commands the engine has yet to carry out, in the order that they were sent. -/
  queue : List Action

namespace Interplay

/-- No call is being made, and every command is carried out. -/
def quiet (s : Session) (submitted : Nat → Option Topology) : Interplay := ⟨s, .idle, submitted, s.topology, []⟩

/-- One step of a call, of the worker or of the process side. A call that its checks refuse takes none. If the calls are
`sure` all of them succeed, and a call returns when its command is carried out. Otherwise an addition may find no room in
the queue, which undoes it, and any call may stop waiting, which leaves its command where it is. -/
inductive Step (sure : Bool) : Interplay → Interplay → Prop
  /-- An addition or a removal has passed its checks. -/
  | change {s a u submitted told queue} : a.adds = true ∨ a.removes = true → Change a s.topology u →
      (sure = true → queue = []) → Step sure ⟨s, .idle, submitted, told, queue⟩
        ⟨{ s with topology := u }, .changed a s.topology, submitted, told, queue⟩
  /-- An addition sends its command. -/
  | send {s a before submitted told queue} : a.adds = true → Step sure ⟨s, .changed a before, submitted, told, queue⟩
      ⟨s, .sent a before, submitted, told, queue ++ [a]⟩
  /-- An addition fails, the queue is full. -/
  | undo {s a before submitted told queue} : a.adds = true → sure = false →
      Step sure ⟨s, .changed a before, submitted, told, queue⟩
        ⟨{ s with topology := before }, .idle, submitted, told, queue⟩
  /-- An addition ends. -/
  | request {s a before submitted told queue} : (sure = true → queue = []) →
      Step sure ⟨s, .sent a before, submitted, told, queue⟩
        ⟨{ s with publisher := s.publisher.request s.topology }, .idle,
          update submitted (s.publisher.requested + 1) (some s.topology), told, queue⟩
  /-- A removal begins to compute its schedule. -/
  | compute {s a before submitted told queue} : a.removes = true →
      Step sure ⟨s, .changed a before, submitted, told, queue⟩
        ⟨{ s with publisher := s.publisher.beginNow }, .computing a before (s.publisher.requested + 1),
          update submitted (s.publisher.requested + 1) (some s.topology), told, queue⟩
  /-- The schedule of a removal is published. -/
  | publish {s a before id given submitted told queue} : (s.publisher.finishNow id s.topology).2 = .ok given →
      Step sure ⟨s, .computing a before id, submitted, told, queue⟩
        ⟨{ s with publisher := (s.publisher.finishNow id s.topology).1 }, .published a before, submitted, told, queue⟩
  /-- A removal sends its command. -/
  | detach {s a before submitted told queue} : Step sure ⟨s, .published a before, submitted, told, queue⟩
      ⟨s, .idle, submitted, told, queue ++ [a]⟩
  /-- The engine carries out the command that was sent first, as in a call that nothing comes between. -/
  | carry {s v a stage submitted told queue} (p : Publisher) :
      { s with topology := told, publisher := p }.call a.call = (.ok (), v) →
      Step sure ⟨s, stage, submitted, told, a :: queue⟩
        ⟨{ s with engine := v.engine, driver := v.driver }, stage, submitted, v.topology, queue⟩
  /-- The engine lets a loop follow another one. -/
  | follow {s v key source submitted told} : s.call (setSyncSource key source) = (.ok (), v) →
      Step sure ⟨s, .idle, submitted, told, []⟩
        ⟨{ s with engine := v.engine }, .followed v.topology, submitted, v.topology, []⟩
  /-- And then the topology says so. -/
  | note {s t submitted told queue} : Step sure ⟨s, .followed t, submitted, told, queue⟩
      ⟨{ s with topology := t }, .idle, submitted, told, queue⟩
  /-- A call that neither adds nor removes nor connects anything. -/
  | other {s a stage submitted told queue} : a.restructures = false → a ≠ .settle →
      Step sure ⟨s, stage, submitted, told, queue⟩ ⟨s.act a, stage, submitted, told, queue⟩
  /-- The worker takes the waiting request. -/
  | take {s stage submitted told queue} : Step sure ⟨s, stage, submitted, told, queue⟩
      ⟨{ s with publisher := s.publisher.take }, stage, submitted, told, queue⟩
  /-- The worker finishes what it took. -/
  | finish {s stage submitted told queue} : Step sure ⟨s, stage, submitted, told, queue⟩
      ⟨{ s with publisher := s.publisher.finish }, stage, submitted, told, queue⟩
  /-- The process side runs a cycle along the schedule that is published. -/
  | cycle {s stage submitted told queue} (io : DriverCycle) (driver : Option DummyDriver) :
      Step sure ⟨s, stage, submitted, told, queue⟩
        ⟨{ s with engine := (Engine.cycle s.publisher.schedule s.engine io).1, driver }, stage, submitted, told, queue⟩

/-- What steps lead to, in whichever order they come. -/
def Reachable (sure : Bool) (x : Interplay) : Prop :=
  ∃ config, ReflTransGen (Step sure) (quiet (Session.new config) fun _ => none) x

/-! ## A call that nothing comes between -/

variable {sure : Bool} {s v : Session} {a : Action} {submitted : Nat → Option Topology}

theorem addition_undisturbed (hadds : a.adds = true) (h : s.call a.call = (.ok (), v)) (hadded : Added a s v) :
    ∃ later, ReflTransGen (Step sure) (quiet s submitted) (quiet v later) := by
  obtain ⟨hchange, hconfig, hpublisher⟩ := hadded
  obtain ⟨config, t, engine, publisher, driver⟩ := v
  obtain rfl : config = s.config := hconfig
  obtain rfl : publisher = s.publisher.request t := hpublisher
  exact ⟨_, .tail (.tail (.tail (.single (.change (.inl hadds) hchange fun _ => rfl)) (.send hadds)) (.carry s.publisher h))
    (.request fun _ => rfl)⟩

theorem removal_undisturbed (hremoves : a.removes = true) (h : s.call a.call = (.ok (), v)) :
    ∃ later, ReflTransGen (Step sure) (quiet s submitted) (quiet v later) := by
  obtain ⟨hchange, hconfig, hpublisher, id, hid⟩ := removed_of_ok hremoves h
  obtain ⟨config, t, engine, publisher, driver⟩ := v
  obtain rfl : config = s.config := hconfig
  obtain rfl : publisher = (s.publisher.publishNow t).1 := hpublisher
  refine ⟨update submitted (s.publisher.requested + 1) (some t),
    .tail (.tail (.tail (.tail (.single (.change (.inr hremoves) hchange fun _ => rfl)) (.compute hremoves)) (.publish hid))
      .detach) ?_⟩
  exact .carry (s := { s with topology := t, publisher := (s.publisher.publishNow t).1 }) s.publisher h

/-- Every call that succeeds can be made in steps, with nothing in between. -/
theorem undisturbed (h : s.call a.call = (.ok (), v)) :
    ∃ later, ReflTransGen (Step sure) (quiet s submitted) (quiet v later) := by
  obtain rfl : s.act a = v := congrArg Prod.snd h
  by_cases hadds : a.adds = true
  · rcases added_of_ok hadds h with hadded | ⟨-, hsame⟩
    · exact addition_undisturbed hadds h hadded
    · rw [hsame]
      exact ⟨submitted, .refl⟩
  by_cases hremoves : a.removes = true
  · exact removal_undisturbed hremoves h
  by_cases hworker : a = .settle
  · subst hworker
    exact ⟨submitted, .tail (.single .take) .finish⟩
  by_cases hother : a.restructures = false
  · refine ⟨submitted, .single ?_⟩
    show Step sure (quiet s submitted) ⟨s.act a, .idle, submitted, (s.act a).topology, []⟩
    rw [(unmoved_act hother hworker).topology]
    exact .other hother hworker
  · cases a with
    | setSyncSource key source =>
      have hfollowed := followed_of_ok h
      refine ⟨submitted, .tail (.single (.follow h)) ?_⟩
      have hnote := @Step.note sure { s with engine := (s.act (.setSyncSource key source)).engine }
        (s.act (.setSyncSource key source)).topology submitted (s.act (.setSyncSource key source)).topology []
      rw [quiet, hfollowed]
      exact hnote
    | _ => simp_all [Action.adds, Action.removes, Action.restructures]

/-- A session that calls have led to, one after the other, is one that their steps lead to. -/
theorem reachable_after (sure : Bool) (config : EngineConfig) (actions : List Action)
    (h : (new config).succeeds actions = true) :
    ∃ submitted, Reachable sure (quiet ((new config).after actions) submitted) := by
  suffices hrun : ∀ s submitted, s.succeeds actions = true →
      ∃ later, ReflTransGen (Step sure) (quiet s submitted) (quiet (s.after actions) later) by
    obtain ⟨later, hlater⟩ := hrun _ _ h
    exact ⟨later, config, hlater⟩
  clear h
  induction actions with
  | nil => exact fun s submitted _ => ⟨submitted, .refl⟩
  | cons a rest ih =>
    intro s submitted hok
    obtain ⟨hfirst, hrest⟩ := Bool.and_eq_true_iff.1 hok
    obtain ⟨middle, hmiddle⟩ := undisturbed (call_of_succeeds hfirst)
    obtain ⟨later, hlater⟩ := ih (s.act a) middle hrest
    exact ⟨later, hmiddle.trans hlater⟩

end Interplay

end Overdub.Session
