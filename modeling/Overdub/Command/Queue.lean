import Overdub.Error
/-!
# Commands for the process side

The control side changes the state of the process side by commands that run at
the start of a cycle. As long as cycles keep coming, a command waits for the
next one; a call that needs an answer and gets no cycle within the timeout, and
any call while the process side is idle, runs at once, after all commands that
still wait. A failing command never affects the others.
-/

namespace Overdub.Command

/-- A change of the process side's state, with its result. -/
abbrev Change (σ : Type) := σ → σ × Except Error Unit

/-- The state of the process side and the commands that wait for its next cycle. -/
structure Queue (σ : Type) where
  state : σ
  /-- First to run first. -/
  pending : List (Change σ) := []
  /-- How many commands can wait. -/
  capacity : Nat
  /-- How long a call waits for a cycle, in milliseconds. -/
  timeout : Nat
  /-- Every call runs at once. -/
  passthrough : Bool := false
  /-- A cycle has run, and no call has waited in vain for another one since. -/
  active : Bool := false

namespace Queue

variable {σ α : Type}

/-- A queue for at least one command, before the first cycle. -/
def new (state : σ) (capacity timeout : Nat) : Queue σ := { state, capacity := max 1 capacity, timeout }

/-- Runs all waiting commands in order. -/
def drain (q : Queue σ) : Queue σ :=
  { q with state := q.pending.foldl (fun s command => (command s).1) q.state, pending := [] }

/-- One cycle: runs all waiting commands, then `body`. -/
def cycle (q : Queue σ) (body : σ → σ × α) : α × Queue σ :=
  let q := q.drain
  let (state, a) := body q.state
  (a, { q with state, active := true })

/-- Runs `f` at once, after all waiting commands. -/
def runNow (q : Queue σ) (f : σ → σ × α) : α × Queue σ :=
  let q := q.drain
  let (state, a) := f q.state
  (a, { q with state })

/-- Calls run at once instead of waiting for a cycle. -/
def runsAtOnce (q : Queue σ) : Bool := q.passthrough || !q.active

/-- Lets a command wait for the next cycle. Only a command that runs at once can
report its own error. A full queue is waited for in vain. -/
def enqueue (q : Queue σ) (command : Change σ) : Except Error Unit × Queue σ :=
  if q.runsAtOnce then q.runNow command
  else if q.pending.length < q.capacity then (.ok (), { q with pending := q.pending ++ [command] })
  else { q with active := false }.runNow command

/-- Runs `f` and waits for its result. No cycle comes while the caller waits, so
the caller ends up running it. -/
def exec (q : Queue σ) (f : σ → σ × α) : α × Queue σ :=
  if q.runsAtOnce then q.runNow f else { q with active := false }.runNow f

/-- Switches between running every call at once and letting commands wait. -/
def setPassthrough (q : Queue σ) (on : Bool) : Queue σ := { q with passthrough := on }

end Queue

end Overdub.Command
