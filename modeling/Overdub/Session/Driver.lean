import Overdub.Session.Basic
/-!
# The driver of a session

The driver ports of a session are opened anew on each driver under their names;
one that cannot be opened stays silent. A driver that does not start is replaced
by a driver without hardware.
-/

namespace Overdub.Session

/-- Opens the driver ports of a topology, as far as they can be. -/
def reopenPorts (t : Topology) (d : DummyDriver) : List (PortKey × Nat) × DummyDriver :=
  (t.ports.toList.filter (·.2.owner = .driver)).foldl (fun (opened, d) (key, p) =>
    match d.openPort p.name p.dataType p.direction with
    | .ok (id, d) => (opened ++ [(key, id)], d)
    | .error _ => (opened, d)) ([], d)

/-- Where a port of the engine is now. -/
def relink (opened : List (PortKey × Nat)) (key : PortKey) (p : EnginePort) : EnginePort :=
  match p.origin with
  | .chain _ => p
  | .driver _ | .detached => { p with origin := (opened.lookup key).elim .detached .driver }

/-- Moves the ports of a session to a driver and starts it. -/
def attachDriver (d : DummyDriver) : Call Unit := do
  let (opened, d) := reopenPorts (← get).topology d
  apply fun e => e.ports.keys.foldl (fun e key =>
    { e with ports := e.ports.modify key (relink opened key) }) e
  match d.start with
  | .ok d => modify ({ · with driver := some d })
  | .error e => throw (.driver e)

/-- Runs the session on a driver, or on one without hardware if that does not
start. -/
def setDriver (d : DummyDriver) : Call Unit := do
  try attachDriver d
  catch _ => attachDriver (.new (← get).config.driver)

/-- Lets the driver process frames along the published schedule. -/
def advance (s : Session) (frames : Nat) : Bool × Session :=
  match s.driver with
  | none => (false, s)
  | some d =>
    let (done, engine, d) := d.run (Engine.cycle s.publisher.schedule) s.engine frames
    (done, { s with engine, driver := some d })

def modifyDriver (s : Session) (f : DummyDriver → DummyDriver) : Session := { s with driver := s.driver.map f }

end Overdub.Session
