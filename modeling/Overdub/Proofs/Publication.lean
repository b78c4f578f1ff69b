import Mathlib
import Overdub.Graph.Publisher
import Overdub.Proofs.Order
/-!
# Who publishes what

Any number of callers and one worker share a publisher, and take its steps in any
order. `Publisher.Serves` is the invariant of that: whatever waits, is computed or
is published is what was submitted under its number, and numbers are issued in
turn. A `Desk` keeps the record next to the publisher, `Desk.step` is one step of
somebody, and `Desk.latest_is_published` is what any sequence of such steps comes
to.
-/

namespace Overdub

open Function (update)

namespace Publisher

variable {p q : Publisher} {submitted : Nat → Option Topology} {id : Nat} {t : Topology}

/-! ## What is published -/

theorem published_le_offer (p : Publisher) (s : Schedule) : p.published ≤ (p.offer s).published := by
  unfold offer
  split_ifs with hnew
  · exact hnew.le
  · exact le_rfl

/-- Whether a schedule is taken or thrown away, one at least as new is there. -/
theorem generation_le_offer (p : Publisher) (s : Schedule) : s.generation ≤ (p.offer s).published := by
  unfold offer
  split_ifs with hnew
  · exact le_rfl
  · exact Nat.le_of_not_lt hnew

theorem schedule_offer (p : Publisher) (s : Schedule) : (p.offer s).schedule = p.schedule ∨ (p.offer s).schedule = s := by
  unfold offer
  split_ifs
  · exact .inr rfl
  · exact .inl rfl

@[simp] theorem requested_offer (p : Publisher) (s : Schedule) : (p.offer s).requested = p.requested := by
  unfold offer
  split_ifs <;> rfl

@[simp] theorem pending_offer (p : Publisher) (s : Schedule) : (p.offer s).pending = p.pending := by
  unfold offer
  split_ifs <;> rfl

@[simp] theorem working_offer (p : Publisher) (s : Schedule) : (p.offer s).working = p.working := by
  unfold offer
  split_ifs <;> rfl

@[simp] theorem lastError_offer (p : Publisher) (s : Schedule) : (p.offer s).lastError = p.lastError := by
  unfold offer
  split_ifs <;> rfl

/-! ## The worker -/

/-- The worker takes what waits, unless it is busy. -/
theorem take_cases (p : Publisher) : p.take = p ∨
    ∃ t, p.working = none ∧ p.pending = some t ∧ p.take = { p with pending := none, working := some (p.requested, t) } := by
  unfold take
  split
  · next t hworking hpending => exact .inr ⟨t, hworking, hpending, rfl⟩
  · exact .inl rfl

/-- Finishing leaves nothing in work. A result is offered if it is the latest, an error is kept. -/
theorem finish_cases (p : Publisher) : p.working = none ∧ p.finish = p ∨
    ∃ id t, p.working = some (id, t) ∧
      ((∃ s, t.schedule id = .ok s ∧ id = p.requested ∧
          p.finish = { p with working := none, computed := p.computed + 1 }.offer s) ∨
        (∃ s, t.schedule id = .ok s ∧ id ≠ p.requested ∧
          p.finish = { p with working := none, computed := p.computed + 1, discarded := p.discarded + 1 }) ∨
        ∃ e, t.schedule id = .error e ∧
          p.finish = { p with working := none, computed := p.computed + 1, lastError := some (id, e) }) := by
  unfold finish
  cases hworking : p.working with
  | none => exact .inl ⟨rfl, rfl⟩
  | some work =>
    obtain ⟨id, t⟩ := work
    refine .inr ⟨id, t, rfl, ?_⟩
    dsimp only
    cases hs : t.schedule id with
    | error e => exact .inr (.inr ⟨e, rfl, rfl⟩)
    | ok s =>
      by_cases hlatest : id = p.requested
      · exact .inl ⟨s, rfl, hlatest, if_pos hlatest⟩
      · exact .inr (.inl ⟨s, rfl, hlatest, if_neg hlatest⟩)

theorem take_of_none (h : p.pending = none) : p.take = p := by
  rcases p.take_cases with htake | ⟨t, -, hpending, -⟩
  · exact htake
  · cases h.symm.trans hpending

theorem working_take (hworking : p.working = none) (hpending : p.pending = some t) :
    p.take.working = some (p.requested, t) := by
  simp only [take, hworking, hpending]

@[simp] theorem published_take (p : Publisher) : p.take.published = p.published := by
  rcases p.take_cases with htake | ⟨t, -, -, htake⟩ <;> rw [htake]
  rfl

@[simp] theorem requested_take (p : Publisher) : p.take.requested = p.requested := by
  rcases p.take_cases with htake | ⟨t, -, -, htake⟩ <;> rw [htake]

@[simp] theorem requested_finish (p : Publisher) : p.finish.requested = p.requested := by
  rcases p.finish_cases with ⟨-, h⟩ | ⟨id, t, -, ⟨s, -, -, h⟩ | ⟨s, -, -, h⟩ | ⟨e, -, h⟩⟩ <;> simp [h]

@[simp] theorem pending_finish (p : Publisher) : p.finish.pending = p.pending := by
  rcases p.finish_cases with ⟨-, h⟩ | ⟨id, t, -, ⟨s, -, -, h⟩ | ⟨s, -, -, h⟩ | ⟨e, -, h⟩⟩ <;> simp [h]

@[simp] theorem working_finish (p : Publisher) : p.finish.working = none := by
  rcases p.finish_cases with ⟨hnone, h⟩ | ⟨id, t, -, ⟨s, -, -, h⟩ | ⟨s, -, -, h⟩ | ⟨e, -, h⟩⟩ <;> rw [h]
  · exact hnone
  · rw [working_offer]

theorem published_le_finish (p : Publisher) : p.published ≤ p.finish.published := by
  rcases p.finish_cases with ⟨-, h⟩ | ⟨id, t, -, ⟨s, -, -, h⟩ | ⟨s, -, -, h⟩ | ⟨e, -, h⟩⟩ <;> rw [h]
  · exact published_le_offer { p with working := none, computed := p.computed + 1 } s
  · exact le_rfl
  · exact le_rfl

/-- The worker publishes what it has taken for the latest request, or nothing. -/
theorem schedule_finish (p : Publisher) : p.finish.schedule = p.schedule ∨
    ∃ t, p.working = some (p.requested, t) ∧ t.schedule p.requested = .ok p.finish.schedule := by
  rcases p.finish_cases with ⟨-, h⟩ | ⟨id, t, hworking, ⟨s, hs, rfl, h⟩ | ⟨s, -, -, h⟩ | ⟨e, -, h⟩⟩ <;> rw [h]
  · exact .inl rfl
  · rcases schedule_offer { p with working := none, computed := p.computed + 1 } s with hold | hnew
    · exact .inl hold
    · exact .inr ⟨t, hworking, by rw [hnew, hs]⟩
  · exact .inl rfl
  · exact .inl rfl

/-- What the worker publishes is the schedule of what it has taken. -/
theorem schedule_of_published (hworking : p.working = some (id, t)) (hnew : p.published < p.finish.published) :
    t.schedule id = .ok p.finish.schedule := by
  rcases p.schedule_finish with hold | ⟨u, hlatest, hs⟩
  · exact absurd (congrArg Schedule.generation hold) hnew.ne'
  · cases hworking.symm.trans hlatest
    exact hs

/-- While the worker is not at the latest request it publishes nothing. -/
theorem published_finish_of_ne (h : ∀ t, p.working ≠ some (p.requested, t)) : p.finish.published = p.published := by
  rcases p.schedule_finish with hold | ⟨t, hworking, -⟩
  · exact congrArg Schedule.generation hold
  · exact absurd hworking (h t)

/-- The latest request is settled when it is finished: it is published, or has failed. -/
theorem finish_latest (hworking : p.working = some (p.requested, t)) :
    p.requested ≤ p.finish.published ∨ p.finish.lastError ≠ none := by
  rcases p.finish_cases with ⟨hnone, -⟩ | ⟨id, u, hsome, hdone⟩
  · cases hnone.symm.trans hworking
  cases hsome.symm.trans hworking
  rcases hdone with ⟨s, hs, -, h⟩ | ⟨s, -, hlatest, -⟩ | ⟨e, -, h⟩
  · left
    rw [h, ← Graph.generation_of_schedule hs]
    exact generation_le_offer _ s
  · exact absurd rfl hlatest
  · right
    rw [h]
    exact Option.some_ne_none _

theorem lastError_finish (h : p.lastError ≠ none) : p.finish.lastError ≠ none := by
  rcases p.finish_cases with ⟨-, hf⟩ | ⟨id, t, -, ⟨s, -, -, hf⟩ | ⟨s, -, -, hf⟩ | ⟨e, -, hf⟩⟩ <;> rw [hf]
  · exact h
  · rwa [lastError_offer]
  · exact h
  · exact Option.some_ne_none _

/-! ## Callers that compute a schedule themselves -/

/-- A caller offers its result, or is told the error. -/
theorem finishNow_cases (p : Publisher) (id : Nat) (t : Topology) :
    (∃ s, t.schedule id = .ok s ∧ p.finishNow id t = ({ p with computed := p.computed + 1 }.offer s, .ok id)) ∨
      ∃ e, t.schedule id = .error e ∧ p.finishNow id t = (p, .error e) := by
  unfold finishNow
  cases hs : t.schedule id with
  | ok s => exact .inl ⟨s, rfl, rfl⟩
  | error e => exact .inr ⟨e, rfl, rfl⟩

@[simp] theorem requested_finishNow (p : Publisher) (id : Nat) (t : Topology) :
    (p.finishNow id t).1.requested = p.requested := by
  rcases p.finishNow_cases id t with ⟨s, -, h⟩ | ⟨e, -, h⟩ <;> simp [h]

@[simp] theorem pending_finishNow (p : Publisher) (id : Nat) (t : Topology) :
    (p.finishNow id t).1.pending = p.pending := by
  rcases p.finishNow_cases id t with ⟨s, -, h⟩ | ⟨e, -, h⟩ <;> simp [h]

@[simp] theorem working_finishNow (p : Publisher) (id : Nat) (t : Topology) :
    (p.finishNow id t).1.working = p.working := by
  rcases p.finishNow_cases id t with ⟨s, -, h⟩ | ⟨e, -, h⟩ <;> simp [h]

@[simp] theorem lastError_finishNow (p : Publisher) (id : Nat) (t : Topology) :
    (p.finishNow id t).1.lastError = p.lastError := by
  rcases p.finishNow_cases id t with ⟨s, -, h⟩ | ⟨e, -, h⟩ <;> simp [h]

theorem published_le_finishNow (p : Publisher) (id : Nat) (t : Topology) :
    p.published ≤ (p.finishNow id t).1.published := by
  rcases p.finishNow_cases id t with ⟨s, -, h⟩ | ⟨e, -, h⟩ <;> rw [h]
  exact published_le_offer { p with computed := p.computed + 1 } s

theorem schedule_finishNow (p : Publisher) (id : Nat) (t : Topology) :
    (p.finishNow id t).1.schedule = p.schedule ∨ t.schedule id = .ok (p.finishNow id t).1.schedule := by
  rcases p.finishNow_cases id t with ⟨s, hs, h⟩ | ⟨e, -, h⟩ <;> rw [h]
  · rcases schedule_offer { p with computed := p.computed + 1 } s with hold | hnew
    · exact .inl hold
    · exact .inr (by rw [hnew, hs])
  · exact .inl rfl

/-- Who is told that a schedule was published finds it, or a newer one. -/
theorem le_published_finishNow {given : Nat} (h : (p.finishNow id t).2 = .ok given) :
    given = id ∧ id ≤ (p.finishNow id t).1.published := by
  rcases p.finishNow_cases id t with ⟨s, hs, hfinish⟩ | ⟨e, -, hfinish⟩ <;> rw [hfinish] at h ⊢
  · obtain rfl := Except.ok.inj h
    refine ⟨rfl, ?_⟩
    conv_lhs => rw [← Graph.generation_of_schedule hs]
    exact generation_le_offer _ s
  · cases h

/-! ## What was submitted -/

/-- Numbers are issued in turn, and whatever the publisher has is what was submitted under its number. -/
structure Serves (p : Publisher) (submitted : Nat → Option Topology) : Prop where
  issued : ∀ id, (submitted id).isSome = true ↔ 0 < id ∧ id ≤ p.requested
  pending : ∀ t, p.pending = some t → submitted p.requested = some t
  working : ∀ id t, p.working = some (id, t) → submitted id = some t
  schedule : p.schedule = .empty ∨ ∃ id t, submitted id = some t ∧ t.schedule id = .ok p.schedule

theorem serves_new : new.Serves fun _ => none := by
  refine ⟨fun id => ?_, nofun, nofun, .inl rfl⟩
  simp [new]
  omega

namespace Serves

theorem range (h : p.Serves submitted) (hid : submitted id = some t) : 0 < id ∧ id ≤ p.requested :=
  (h.issued id).1 (Option.isSome_iff_exists.2 ⟨t, hid⟩)

/-- What is published was computed from what was submitted under its number. -/
theorem exact (h : p.Serves submitted) (hpos : 0 < p.published) :
    ∃ t, submitted p.published = some t ∧ t.schedule p.published = .ok p.schedule := by
  rcases h.schedule with hempty | ⟨id, t, hid, hs⟩
  · rw [published, hempty] at hpos
    cases hpos
  · obtain rfl : p.published = id := Graph.generation_of_schedule hs
    exact ⟨t, hid, hs⟩

/-- Nothing is published that was not asked for. -/
theorem behind (h : p.Serves submitted) : p.published ≤ p.requested := by
  rcases Nat.eq_zero_or_pos p.published with hzero | hpos
  · exact hzero ▸ Nat.zero_le _
  · obtain ⟨t, ht, -⟩ := h.exact hpos
    exact (h.range ht).2

theorem empty_of_unpublished (h : p.Serves submitted) (hzero : p.published = 0) : p.schedule = .empty := by
  rcases h.schedule with hempty | ⟨id, t, hid, hs⟩
  · exact hempty
  · have hpos := (h.range hid).1
    obtain rfl : p.published = id := Graph.generation_of_schedule hs
    omega

/-- A new number is one that nothing was submitted under. -/
theorem kept (h : p.Serves submitted) (t : Topology) {u : Topology} (hid : submitted id = some u) :
    update submitted (p.requested + 1) (some t) id = some u := by
  have hle := (h.range hid).2
  rwa [Function.update_of_ne (by omega)]

theorem number (h : p.Serves submitted) (t : Topology) :
    p.number.Serves (update submitted (p.requested + 1) (some t)) := by
  refine ⟨fun id => ?_, nofun, fun id u hworking => h.kept t (h.working id u hworking), ?_⟩
  · rcases eq_or_ne id (p.requested + 1) with rfl | hne
    · simp [Publisher.number]
    · rw [Function.update_of_ne hne, h.issued]
      simp only [Publisher.number]
      omega
  · rcases h.schedule with hempty | ⟨id, u, hid, hs⟩
    · exact .inl hempty
    · exact .inr ⟨id, u, h.kept t hid, hs⟩

theorem request (h : p.Serves submitted) (t : Topology) :
    (p.request t).Serves (update submitted (p.requested + 1) (some t)) where
  issued := (h.number t).issued
  pending u hu := by
    obtain rfl := Option.some.inj hu
    exact Function.update_self ..
  working := (h.number t).working
  schedule := (h.number t).schedule

theorem take (h : p.Serves submitted) : p.take.Serves submitted := by
  rcases p.take_cases with htake | ⟨t, -, hpending, htake⟩ <;> rw [htake]
  · exact h
  · refine ⟨h.issued, nofun, fun id u hworking => ?_, h.schedule⟩
    cases hworking
    exact h.pending t hpending

/-- A schedule of what was submitted may be published. -/
theorem publish (h : p.Serves submitted) (hrequested : q.requested = p.requested) (hpending : q.pending = p.pending)
    (hworking : ∀ id t, q.working = some (id, t) → p.working = some (id, t))
    (hschedule : q.schedule = p.schedule ∨ ∃ id t, submitted id = some t ∧ t.schedule id = .ok q.schedule) :
    q.Serves submitted := by
  refine ⟨fun id => ?_, fun t ht => ?_, fun id t ht => h.working id t (hworking id t ht), ?_⟩
  · rw [hrequested, h.issued]
  · rw [hpending] at ht
    rw [hrequested, h.pending t ht]
  · rcases hschedule with hold | hnew
    · rw [hold]
      exact h.schedule
    · exact .inr hnew

theorem finish (h : p.Serves submitted) : p.finish.Serves submitted := by
  refine h.publish p.requested_finish p.pending_finish (fun id t hworking => ?_) ?_
  · rw [working_finish] at hworking
    cases hworking
  · rcases p.schedule_finish with hold | ⟨t, hworking, hs⟩
    · exact .inl hold
    · exact .inr ⟨p.requested, t, h.working _ t hworking, hs⟩

theorem finishNow (h : p.Serves submitted) (hid : submitted id = some t) : (p.finishNow id t).1.Serves submitted := by
  refine h.publish (p.requested_finishNow id t) (p.pending_finishNow id t) (fun id' t' hworking => ?_) ?_
  · rwa [working_finishNow] at hworking
  · rcases p.schedule_finishNow id t with hold | hs
    · exact .inl hold
    · exact .inr ⟨id, t, hid, hs⟩

end Serves

end Publisher

/-! ## Any number of callers -/

/-- A publisher that callers and the worker share, and what has passed between them. -/
structure Desk where
  publisher : Publisher := .new
  /-- What was submitted under which number. -/
  submitted : Nat → Option Topology := fun _ => none
  /-- What callers are computing themselves. -/
  computing : List (Nat × Topology) := []
  /-- The numbers that callers were told are published. -/
  confirmed : List Nat := []
  /-- The numbers that callers were told have failed. -/
  refused : List Nat := []

namespace Desk

/-- One atomic step of a caller or of the worker. -/
inductive Event where
  /-- A caller asks the worker for a schedule. -/
  | request (t : Topology)
  /-- The worker takes the waiting request. -/
  | take
  /-- The worker finishes what it took. -/
  | finish
  /-- A caller begins to compute a schedule itself. -/
  | beginNow (t : Topology)
  /-- The caller at a place among those that compute a schedule finishes. -/
  | finishNow (place : Nat)

/-- Notes what was submitted under the number that was just issued. -/
def record (d : Desk) (t : Topology) : Desk := { d with submitted := update d.submitted d.publisher.requested (some t) }

def step (d : Desk) : Event → Desk
  | .request t => { d with publisher := d.publisher.request t }.record t
  | .take => { d with publisher := d.publisher.take }
  | .finish => { d with publisher := d.publisher.finish }
  | .beginNow t =>
    let d := { d with publisher := d.publisher.beginNow }.record t
    { d with computing := d.computing ++ [(d.publisher.requested, t)] }
  | .finishNow place =>
    match d.computing[place]? with
    | none => d
    | some (id, t) =>
      let (publisher, result) := d.publisher.finishNow id t
      let d := { d with publisher, computing := d.computing.eraseIdx place }
      match result with
      | .ok given => { d with confirmed := given :: d.confirmed }
      | .error _ => { d with refused := id :: d.refused }

/-- What a sequence of steps leads to. -/
def after (d : Desk) (events : List Event) : Desk := events.foldl step d

/-- The latest request is published, waits, is being computed, or has failed. -/
inductive Accounted (d : Desk) : Prop
  | published : d.publisher.requested ≤ d.publisher.published → Accounted d
  | pending : d.publisher.pending ≠ none → Accounted d
  | working (t : Topology) : d.publisher.working = some (d.publisher.requested, t) → Accounted d
  | computing (t : Topology) : (d.publisher.requested, t) ∈ d.computing → Accounted d
  | failed : d.publisher.lastError ≠ none → Accounted d
  | refused : d.refused ≠ [] → Accounted d

/-- What every step keeps. -/
structure Sound (d : Desk) : Prop where
  serves : d.publisher.Serves d.submitted
  computing : ∀ id t, (id, t) ∈ d.computing → d.submitted id = some t
  confirmed : ∀ id ∈ d.confirmed, id ≤ d.publisher.published
  accounted : d.Accounted

theorem empty_sound : Sound {} :=
  ⟨Publisher.serves_new, nofun, nofun, .published le_rfl⟩

/-- A caller that finishes is told that its schedule, or a newer one, is published, or that it failed. -/
theorem finishNow_step {d : Desk} {place id : Nat} {t : Topology} (h : d.computing[place]? = some (id, t)) :
    (d.step (.finishNow place)).publisher = (d.publisher.finishNow id t).1 ∧
      (d.step (.finishNow place)).submitted = d.submitted ∧
      (d.step (.finishNow place)).computing = d.computing.eraseIdx place ∧
      (id ≤ (d.step (.finishNow place)).publisher.published ∧
          (d.step (.finishNow place)).confirmed = id :: d.confirmed ∧
          (d.step (.finishNow place)).refused = d.refused ∨
        (d.step (.finishNow place)).confirmed = d.confirmed ∧
          (d.step (.finishNow place)).refused = id :: d.refused) := by
  have htold := @Publisher.le_published_finishNow d.publisher id t
  simp only [step, h]
  rcases d.publisher.finishNow_cases id t with ⟨s, -, hfinish⟩ | ⟨e, -, hfinish⟩ <;> rw [hfinish] at htold ⊢
  · exact ⟨rfl, rfl, rfl, .inl ⟨(htold rfl).2, rfl, rfl⟩⟩
  · exact ⟨rfl, rfl, rfl, .inr ⟨rfl, rfl⟩⟩

/-- What is published only ever moves forward. -/
theorem published_step (d : Desk) (e : Event) : d.publisher.published ≤ (d.step e).publisher.published := by
  cases e with
  | request t => exact le_rfl
  | take => exact d.publisher.published_take.ge
  | finish => exact d.publisher.published_le_finish
  | beginNow t => exact le_rfl
  | finishNow place =>
    cases hplace : d.computing[place]? with
    | none => simp [step, hplace]
    | some job =>
      obtain ⟨id, t⟩ := job
      rw [(finishNow_step hplace).1]
      exact d.publisher.published_le_finishNow id t

theorem published_after (d : Desk) (events : List Event) : d.publisher.published ≤ (d.after events).publisher.published := by
  induction events generalizing d with
  | nil => exact le_rfl
  | cons e events ih => exact (d.published_step e).trans (ih (d.step e))

namespace Accounted

variable {d : Desk}

/-- What the worker finishes is the latest request, or says nothing of it. -/
theorem finish (h : d.Accounted) : (d.step .finish).Accounted := by
  have hrequested := d.publisher.requested_finish
  cases h with
  | published hdone => exact .published (hrequested.trans_le (hdone.trans (d.published_step .finish)))
  | pending hsome => exact .pending (d.publisher.pending_finish.trans_ne hsome)
  | working t hworking =>
    rcases Publisher.finish_latest hworking with hdone | hfailed
    · exact .published (hrequested.trans_le hdone)
    · exact .failed hfailed
  | computing t hjob => exact .computing t (hrequested.symm ▸ hjob)
  | failed hfailed => exact .failed (Publisher.lastError_finish hfailed)
  | refused hrefused => exact .refused hrefused

/-- And so is what a caller finishes. -/
theorem finishNow (h : d.Accounted) {place id : Nat} {t : Topology} (hplace : d.computing[place]? = some (id, t)) :
    (d.step (.finishNow place)).Accounted := by
  obtain ⟨hpublisher, -, hcomputing, hanswer⟩ := finishNow_step hplace
  have hrequested : (d.step (.finishNow place)).publisher.requested = d.publisher.requested := by
    rw [hpublisher, Publisher.requested_finishNow]
  rcases hanswer with ⟨hle, -, hrefused⟩ | ⟨-, hrefused⟩
  · cases h with
    | published hdone => exact .published (hrequested.trans_le (hdone.trans (d.published_step (.finishNow place))))
    | pending hsome => exact .pending (by rwa [hpublisher, Publisher.pending_finishNow])
    | working u hworking => exact .working u (by rwa [hrequested, hpublisher, Publisher.working_finishNow])
    | computing u hjob =>
      by_cases hlatest : d.publisher.requested = id
      · exact .published (hrequested.trans_le (hlatest.trans_le hle))
      · -- the caller that computes the latest one is another, and is still at it
        obtain ⟨other, hother⟩ := List.mem_iff_getElem?.1 hjob
        have hapart : other ≠ place := by
          rintro rfl
          cases hother.symm.trans hplace
          exact hlatest rfl
        refine .computing u ?_
        rw [hrequested, hcomputing]
        exact List.mem_eraseIdx_iff_getElem?.2 ⟨other, hapart, hother⟩
    | failed hfailed => exact .failed (by rwa [hpublisher, Publisher.lastError_finishNow])
    | refused hsome => exact .refused (hrefused.trans_ne hsome)
  · exact .refused (by rw [hrefused]; exact List.cons_ne_nil _ _)

end Accounted

namespace Sound

variable {d : Desk}

theorem request (h : d.Sound) (t : Topology) : (d.step (.request t)).Sound where
  serves := h.serves.request t
  computing id u hjob := h.serves.kept t (h.computing id u hjob)
  confirmed := h.confirmed
  accounted := .pending (Option.some_ne_none t)

theorem take (h : d.Sound) : (d.step .take).Sound where
  serves := h.serves.take
  computing := h.computing
  confirmed id hid := (h.confirmed id hid).trans (d.published_step .take)
  accounted := by
    show Accounted { d with publisher := d.publisher.take }
    rcases d.publisher.take_cases with htake | ⟨t, hidle, hpending, htake⟩ <;> rw [htake]
    · exact h.accounted
    · exact .working t rfl

theorem finish (h : d.Sound) : (d.step .finish).Sound where
  serves := h.serves.finish
  computing := h.computing
  confirmed id hid := (h.confirmed id hid).trans (d.published_step .finish)
  accounted := h.accounted.finish

theorem beginNow (h : d.Sound) (t : Topology) : (d.step (.beginNow t)).Sound where
  serves := h.serves.number t
  computing id u hjob := by
    rcases List.mem_append.1 hjob with hold | hnew
    · exact h.serves.kept t (h.computing id u hold)
    · obtain ⟨rfl, rfl⟩ := Prod.mk.inj (List.mem_singleton.1 hnew)
      exact Function.update_self ..
  confirmed := h.confirmed
  accounted := .computing t (List.mem_append_right _ List.mem_cons_self)

theorem finishNow (h : d.Sound) (place : Nat) : (d.step (.finishNow place)).Sound := by
  cases hplace : d.computing[place]? with
  | none => simpa [step, hplace] using h
  | some job =>
    obtain ⟨id, t⟩ := job
    obtain ⟨hpublisher, hsubmitted, hcomputing, hanswer⟩ := finishNow_step hplace
    have hforward := d.published_step (.finishNow place)
    refine ⟨?_, fun id' t' hjob => ?_, fun id' hid' => ?_, h.accounted.finishNow hplace⟩
    · rw [hpublisher, hsubmitted]
      exact h.serves.finishNow (h.computing id t (List.mem_of_getElem? hplace))
    · rw [hcomputing] at hjob
      rw [hsubmitted]
      exact h.computing id' t' (List.mem_of_mem_eraseIdx hjob)
    · rcases hanswer with ⟨hle, hconfirmed, -⟩ | ⟨hconfirmed, -⟩ <;> rw [hconfirmed] at hid'
      · rcases List.mem_cons.1 hid' with rfl | hold
        · exact hle
        · exact (h.confirmed id' hold).trans hforward
      · exact (h.confirmed id' hid').trans hforward

/-- Whoever takes a step, and whichever, the desk stays sound. -/
theorem step (h : d.Sound) (e : Event) : (d.step e).Sound := by
  cases e with
  | request t => exact h.request t
  | take => exact h.take
  | finish => exact h.finish
  | beginNow t => exact h.beginNow t
  | finishNow place => exact h.finishNow place

theorem after (h : d.Sound) (events : List Event) : (d.after events).Sound :=
  List.foldlRecOn (motive := Sound) events Desk.step h fun _ h e _ => h.step e

/-- No number is issued twice. -/
theorem submitted_step (h : d.Sound) (e : Event) {id : Nat} {t : Topology} (hid : d.submitted id = some t) :
    (d.step e).submitted id = some t := by
  cases e with
  | request u => exact h.serves.kept u hid
  | take => exact hid
  | finish => exact hid
  | beginNow u => exact h.serves.kept u hid
  | finishNow place =>
    cases hplace : d.computing[place]? with
    | none => simpa [Desk.step, hplace] using hid
    | some job => rwa [(finishNow_step hplace).2.1]

theorem submitted_after (h : d.Sound) (events : List Event) {id : Nat} {t : Topology} (hid : d.submitted id = some t) :
    (d.after events).submitted id = some t := by
  induction events generalizing d with
  | nil => exact hid
  | cons e events ih => exact ih (h.step e) (h.submitted_step e hid)

end Sound

/-- Callers and the worker take steps in any order. Then the numbers that were issued are one to the latest, and none is
issued twice. What is published never goes back and is no newer than the latest request; it is the schedule of what was
submitted under its number. What waits was submitted under the latest number, and whoever was told that a schedule is
published finds it or a newer one. When nothing waits or is being computed, and nothing has failed, the latest request
is published. -/
theorem latest_is_published (events later : List Event) :
    let d := after {} events
    (∀ id, (d.submitted id).isSome = true ↔ 0 < id ∧ id ≤ d.publisher.requested) ∧
    (∀ id t, d.submitted id = some t → (d.after later).submitted id = some t) ∧
    d.publisher.published ≤ (d.after later).publisher.published ∧
    d.publisher.published ≤ d.publisher.requested ∧
    (0 < d.publisher.published → ∃ t, d.submitted d.publisher.published = some t ∧
      t.schedule d.publisher.published = .ok d.publisher.schedule) ∧
    (∀ t, d.publisher.pending = some t → d.submitted d.publisher.requested = some t) ∧
    (∀ id ∈ d.confirmed, id ≤ d.publisher.published) ∧
    (d.publisher.pending = none → d.publisher.working = none → d.computing = [] → d.publisher.lastError = none →
      d.refused = [] → d.publisher.published = d.publisher.requested) := by
  intro d
  have h : d.Sound := empty_sound.after events
  refine ⟨h.serves.issued, fun id t hid => h.submitted_after later hid, d.published_after later, h.serves.behind,
    h.serves.exact, h.serves.pending, h.confirmed, fun hpending hworking hcomputing herror hrefused => ?_⟩
  refine le_antisymm h.serves.behind ?_
  cases h.accounted with
  | published hdone => exact hdone
  | pending hsome => exact absurd hpending hsome
  | working t hsome => cases hworking.symm.trans hsome
  | computing t hjob =>
    rw [hcomputing] at hjob
    cases hjob
  | failed hsome => exact absurd herror hsome
  | refused hsome => exact absurd hrefused hsome

end Desk

end Overdub
