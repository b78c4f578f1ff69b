import Overdub.Graph.Schedule
/-!
# Publishing schedules

Changes of the topology ask for a new schedule. A request for the background
replaces one that nobody has begun yet, and a result that is no longer the latest
is thrown away; a removal computes its schedule itself, so that it is published
before the object goes away. What is published only ever moves forward.

Every definition here is one atomic step: several callers and one worker may take
them in any order.
-/

namespace Overdub

/-- The state shared by those who ask for schedules and the worker. -/
structure Publisher where
  /-- The number of the latest request. -/
  requested : Nat := 0
  /-- The latest request, until the worker takes it. -/
  pending : Option Topology := none
  /-- What the worker is computing, and for which request. -/
  working : Option (Nat × Topology) := none
  /-- What the process side runs. -/
  schedule : Schedule := .empty
  computed : Nat := 0
  discarded : Nat := 0
  /-- The requests that were replaced before the worker took them. -/
  coalesced : Nat := 0
  /-- The last failed request of the worker. -/
  lastError : Option (Nat × Error) := none

namespace Publisher

def new : Publisher := {}

def published (p : Publisher) : Nat := p.schedule.generation

/-- Publishes a schedule, unless something newer is. -/
def offer (p : Publisher) (s : Schedule) : Publisher :=
  if p.published < s.generation then { p with schedule := s } else { p with discarded := p.discarded + 1 }

/-- Takes the next number, which makes a waiting request obsolete. -/
def number (p : Publisher) : Publisher :=
  { p with requested := p.requested + 1, pending := none, coalesced := p.coalesced + p.pending.toList.length }

/-- Asks the worker for a schedule. -/
def request (p : Publisher) (t : Topology) : Publisher := { p.number with pending := some t }

/-- The worker takes the waiting request. -/
def take (p : Publisher) : Publisher :=
  match p.working, p.pending with
  | none, some t => { p with pending := none, working := some (p.requested, t) }
  | _, _ => p

/-- The worker finishes what it took. -/
def finish (p : Publisher) : Publisher :=
  match p.working with
  | none => p
  | some (id, t) =>
    let p := { p with working := none, computed := p.computed + 1 }
    match t.schedule id with
    | .ok s => if id = p.requested then p.offer s else { p with discarded := p.discarded + 1 }
    | .error e => { p with lastError := some (id, e) }

/-- Begins to compute a schedule without the worker, under the number
`requested`. -/
def beginNow (p : Publisher) : Publisher := p.number

/-- Finishes computing a schedule without the worker. -/
def finishNow (p : Publisher) (id : Nat) (t : Topology) : Publisher × Except Error Nat :=
  match t.schedule id with
  | .ok s => ({ p with computed := p.computed + 1 }.offer s, .ok id)
  | .error e => (p, .error e)

/-- What has become of a request, once that is settled. -/
def outcome? (p : Publisher) (id : Nat) : Option (Except Error Unit) :=
  if id ≤ p.published then some (.ok ())
  else p.lastError.bind fun (failed, e) => if id ≤ failed then some (.error e) else none

/-- Computes and publishes a schedule without the worker. -/
def publishNow (p : Publisher) (t : Topology) : Publisher × Except Error Nat :=
  let p := p.beginNow
  p.finishNow p.requested t

/-- Lets the worker catch up. -/
def settle (p : Publisher) : Publisher := p.take.finish

/-- Asks the worker for a schedule and waits for it. -/
def requestAndWait (p : Publisher) (t : Topology) : Publisher × Except Error Nat :=
  let p := (p.request t).settle
  (p, ((p.outcome? p.requested).getD (.ok ())).map fun _ => p.requested)

end Publisher

end Overdub
