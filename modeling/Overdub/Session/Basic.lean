import Overdub.Config.Basic
import Overdub.Graph.Publisher
import Overdub.Session.Cycle
/-!
# Sessions

A session is the engine of the process side together with the topology that the
control side knows of it. Calls check the topology; what they change there they
then have the engine do by a command. So that no cycle runs a schedule that names an object
that is gone, what is added goes to the engine first and into a schedule later,
and what is removed leaves the schedule first and the engine later.
-/

namespace Overdub

/-- Both sides of a session. -/
structure Session where
  config : EngineConfig
  topology : Topology := .empty
  engine : Engine
  publisher : Publisher := .new
  driver : Option DummyDriver := none

namespace Session

/-- A session without objects and without a driver. -/
def new (config : EngineConfig) : Session :=
  { config, engine := .new config.maxIterations (.new config.bufferSize config.poolBuffers) }

/-- A call of the control side. What it did before it failed stays done. -/
abbrev Call := ExceptT Error (StateM Session)

def lookup {kind : ObjectKind} {α : Type} (arena : Topology → Arena kind α) (key : Key kind) : Call α := do
  Engine.expect kind.label ((arena (← get).topology).get? key)

/-- Refuses a call unless a condition holds. -/
def require (condition : Bool) (reason : String) : Call Unit := do
  unless condition do throw (.invalidArgument reason)

/-- Has the engine carry out a command. A command that fails changes nothing. -/
def exec {α : Type} (command : Engine → Except Error (α × Engine)) : Call α := do
  let (a, engine) ← command (← get).engine
  modify ({ · with engine })
  return a

/-- Has the engine carry out a command that gives no answer. -/
def run (command : Engine → Except Error Engine) : Call Unit := exec fun e => (command e).map ((), ·)

/-- Has the engine carry out a command that cannot fail. -/
def apply (command : Engine → Engine) : Call Unit := run fun e => .ok (command e)

/-- An addition: the engine follows, and the worker is asked for a schedule. If
the engine refuses, the topology stays as it was. -/
def commit (t : Topology) (command : Engine → Except Error Engine) : Call Unit := do
  run command
  modify fun s => { s with topology := t, publisher := s.publisher.request t }

/-- A removal: the schedule without the object is published, then the engine
follows. -/
def retract {α : Type} (t : Topology) (command : Engine → Except Error (α × Engine)) : Call α := do
  let (publisher, result) := (← get).publisher.publishNow t
  modify ({ · with topology := t, publisher })
  let _ ← result
  exec command

/-- Lets the worker catch up, and tells whether the latest request is published. -/
def settle (s : Session) : Option (Except Error Unit) × Session :=
  let publisher := s.publisher.settle
  (publisher.outcome? publisher.requested, { s with publisher })

/-- Makes a call and, if that asked for a schedule, lets the worker catch up. Beside
the answer stands why there is no such schedule. -/
def perform {α : Type} (s : Session) (call : Call α) : Except Error (α × Option Error) × Session :=
  match call.run.run s with
  | (.error e, s) => (.error e, s)
  | (.ok a, s) =>
    if s.publisher.pending.isNone then (.ok (a, none), s)
    else
      match s.settle with
      | (some (.error e), s) => (.ok (a, some e), s)
      | (_, s) => (.ok (a, none), s)

end Session

end Overdub
