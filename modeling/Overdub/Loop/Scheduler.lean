import Overdub.Arena
import Overdub.Loop.Basic
/-!
# Advancing many loops together

A cycle is cut at every point where some loop changes state, so that transitions
land on exact samples:

```text
cycle  |------------------------------------------| n
loop A |------------|                               its end
loop B |----------------------------|               its end
chunks |-----k------|-------k-------|------k------|
```

For each chunk all loops are refreshed, sync sources first; the smallest point
of interest is the length of the chunk; all loops advance by it; and then
triggers pass from sync sources to their followers. Sync chains are followed for
a bounded number of hops.
-/

namespace Overdub

/-- Advances sync-coupled loops through cycles. -/
structure Scheduler where
  /-- How many chunks in a row may be of no length. -/
  maxIterations : Nat
  /-- The number of the current round; each round refreshes every loop once. -/
  round : Nat := 0
  deriving DecidableEq, Repr

namespace Scheduler

/-- A scheduler before its first round. -/
def new (maxIterations : Nat) : Scheduler := { maxIterations := max 1 maxIterations }

/-- How many sync sources in a row are followed. -/
def maxHops : Nat := 16

abbrev Loops := Arena .loop Loop

/-- The sync source of a loop other than itself. -/
def source? (loops : Loops) (key : LoopKey) : Option LoopKey :=
  (loops.get? key).bind fun l => l.syncSource.filter (· ≠ key)

/-- What a loop sees of its sync source. -/
def syncView (loops : Loops) (key : LoopKey) : Option SyncView :=
  (source? loops key).bind fun source => (loops.get? source).map (·.transport.syncView)

def nextTrigger (loops : Loops) (key : LoopKey) : Option Nat :=
  (loops.get? key).bind (·.transport.nextTrigger)

/-- Refreshes a loop once per round, after `visit` has been to its sync source. -/
def refreshAfter (visit : Loops → LoopKey → Loops) (loops : Loops) (key : LoopKey) (round : Nat) : Loops :=
  match loops.get? key with
  | none => loops
  | some l =>
    if l.transport.round = round then loops
    else
      let loops := loops.set key (l.modifyTransport ({ · with round }))
      match l.syncSource.filter (· ≠ key) with
      | none => loops.modify key (·.refresh none)
      | some source =>
        let loops := visit loops source
        loops.modify key (·.refresh (nextTrigger loops source))

/-- Refreshes a loop after its sync source and so on, for so many hops. -/
def refresh (loops : Loops) (key : LoopKey) (round hops : Nat) : Loops :=
  match hops with
  | 0 => refreshAfter (fun loops _ => loops) loops key round
  | hops + 1 => refreshAfter (fun loops source => refresh loops source round hops) loops key round

def refreshAll (loops : Loops) (keys : List LoopKey) (round : Nat) : Loops :=
  keys.foldl (fun loops key => refresh loops key round maxHops) loops

/-- Triggers a loop whose sync source triggered during the last chunk, after
`visit` has been to the source. -/
def passTriggerAfter (visit : Loops → LoopKey → Loops) (loops : Loops) (key : LoopKey) : Loops :=
  match source? loops key with
  | none => loops
  | some source =>
    let loops := visit loops source
    if (loops.get? source).any (·.transport.triggeringNow) then
      loops.modify key (·.modifyTransport (·.trigger))
    else loops

/-- Passes a trigger on to a loop from its sync source and so on, for so many hops. -/
def passTrigger (loops : Loops) (key : LoopKey) (hops : Nat) : Loops :=
  match hops with
  | 0 => passTriggerAfter (fun loops _ => loops) loops key
  | hops + 1 => passTriggerAfter (fun loops source => passTrigger loops source hops) loops key

def passTriggers (loops : Loops) (keys : List LoopKey) : Loops :=
  keys.foldl (fun loops key => passTrigger loops key maxHops) loops

/-- The smallest point of interest, or all that remains. -/
def chunkLength (loops : Loops) (keys : List LoopKey) (remaining : Nat) : Nat :=
  keys.foldl (fun n key =>
    (((loops.get? key).bind (·.transport.nextPoi)).map (·.offset)).elim n (min n)) remaining

/-- Lets every loop act on a point of interest it has reached. -/
def handlePois (loops : Loops) (keys : List LoopKey) : Loops :=
  keys.foldl (fun loops key => loops.modify key (·.modifyTransport (·.handlePoi (syncView loops key)))) loops

/-- Advances one loop by a chunk, after the loops in front of it. -/
def advanceOne (frames : Nat) (state : Loops × Except Error Unit) (view : LoopKey × Option SyncView) :
    Loops × Except Error Unit :=
  match state.1.get? view.1 with
  | none => state
  | some l =>
    let (l, r) := l.process frames view.2
    (state.1.set view.1 l, r.bind fun _ => state.2)

/-- Advances every loop by a chunk. What a loop sees of its sync source is taken
from before any loop moves; the last error is the one reported. -/
def advance (loops : Loops) (keys : List LoopKey) (frames : Nat) : Loops × Except Error Unit :=
  (keys.map fun key => (key, syncView loops key)).foldl (advanceOne frames) (loops, .ok ())

/-- Processes one chunk: advances every loop and passes triggers on. -/
def chunk (loops : Loops) (keys : List LoopKey) (frames : Nat) : Loops × Except Error Unit :=
  let (loops, result) := advance loops keys frames
  (passTriggers loops keys, result)

/-- Processes the frames that remain of a cycle; `idle` counts the chunks of no
length in a row. -/
def processFrom (s : Scheduler) (loops : Loops) (keys : List LoopKey) (remaining idle : Nat)
    (result : Except Error Unit) : Scheduler × Loops × Except Error Unit :=
  if _empty : remaining = 0 then (s, loops, result)
  else
    let round := s.round + 1
    let loops := refreshAll loops keys round
    let frames := chunkLength loops keys remaining
    if still : frames = 0 then
      if stuck : s.maxIterations ≤ idle then
        ({ s with round }, loops, .error (.internal "too many zero-length iterations"))
      else processFrom { s with round } (handlePois loops keys) keys remaining (idle + 1) result
    else
      let (loops, r) := chunk loops keys frames
      processFrom { s with round } loops keys (remaining - frames) 0 (r.bind fun _ => result)
termination_by (remaining, s.maxIterations - idle)
decreasing_by
  · exact Prod.Lex.right _ (by omega)
  · exact Prod.Lex.left _ _ (Nat.sub_lt (Nat.pos_of_ne_zero _empty) (Nat.pos_of_ne_zero still))

/-- Advances the loops named by `keys` by a cycle of `frames` frames. A loop that
fails does not keep the others from going on. -/
def process (s : Scheduler) (loops : Loops) (keys : List LoopKey) (frames : Nat) :
    Scheduler × Loops × Except Error Unit :=
  s.processFrom loops keys frames 0 (.ok ())

end Scheduler

end Overdub
