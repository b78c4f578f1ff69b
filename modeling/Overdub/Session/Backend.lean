import Overdub.Session.Driver
/-!
# Sessions and drivers under keys

A `Backend` hands out sessions and drivers by key. A session that is destroyed
lives on for those who already hold it, and a driver belongs to the session it is
attached to.
-/

namespace Overdub

/-- Sessions and drivers. -/
structure Backend where
  config : EngineConfig
  /-- All sessions that were ever created; who holds one knows its place. -/
  instances : List Session := []
  /-- The places of the sessions that are not destroyed. -/
  sessions : Arena .session Nat := .empty
  /-- The drivers that no session has. -/
  drivers : Arena .driver DummyDriver := .empty

namespace Backend

def createSession (b : Backend) : SessionKey × Backend :=
  let (key, sessions) := b.sessions.insert b.instances.length
  (key, { b with sessions, instances := b.instances ++ [.new b.config] })

/-- The place of a session. -/
def hold (b : Backend) (key : SessionKey) : Except Error Nat := Engine.expect "session" (b.sessions.get? key)

def destroySession (b : Backend) (key : SessionKey) : Except Error Backend :=
  (b.hold key).map fun _ => { b with sessions := b.sessions.erase key }

def addDriver (b : Backend) (d : DummyDriver) : DriverKey × Backend :=
  let (key, drivers) := b.drivers.insert d
  (key, { b with drivers })

/-- Adds the driver that the settings ask for. Without an audio server that is
the one without hardware. -/
def createDriver (b : Backend) : DriverKey × Backend := b.addDriver (.new b.config.driver)

/-- Calls a session that somebody holds. -/
def call {α : Type} (b : Backend) (place : Nat) (f : Session.Call α) : Except Error α × Backend :=
  match b.instances[place]? with
  | none => (.error (.expired "session"), b)
  | some s =>
    let (result, s) := f.run.run s
    (result, { b with instances := b.instances.set place s })

def callSession {α : Type} (b : Backend) (key : SessionKey) (f : Session.Call α) : Except Error α × Backend :=
  match b.hold key with
  | .error e => (.error e, b)
  | .ok place => b.call place f

def attachDriver (b : Backend) (session : SessionKey) (driver : DriverKey) : Except Error Unit × Backend :=
  match b.hold session, b.drivers.remove driver with
  | .error e, _ => (.error e, b)
  | .ok _, (none, _) => (.error (.expired "driver"), b)
  | .ok place, (some d, drivers) => { b with drivers }.call place (Session.setDriver d)

end Backend

end Overdub
