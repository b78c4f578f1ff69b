import Overdub.Session.Basic
/-!
# Loops of a session
-/

namespace Overdub.Session

def addLoop : Call LoopKey := do
  let t := (← get).topology
  let (key, loops) := t.loops.insert {}
  commit { t with loops } fun e => .ok (e.insertLoop key .new)
  return key

def deleteLoop (key : LoopKey) : Call Unit := do
  let info ← lookup (·.loops) key
  retract ((← get).topology.removeLoop key info) fun e =>
    let (l, e) := e.removeLoop key
    .ok ((), (l.elim [] (·.channels)).foldl Engine.releaseChannel e)

def loopChannels (key : LoopKey) : Call (List ChannelKey) := do return (← lookup (·.loops) key).channels

/-- Refuses a call that names a loop that is gone. -/
def checkLoops (keys : List LoopKey) : Call Unit := keys.forM fun key => discard (lookup (·.loops) key)

/-- What control threads see of a loop. -/
def loopStatus (key : LoopKey) : Call LoopStatus := do
  checkLoops [key]
  let l ← Engine.expect "loop" ((← get).engine.loops.get? key)
  return l.transport.published

/-- Changes loops of the engine in one cycle. -/
def changeLoops (keys : List LoopKey) (f : Loop → Loop) : Call Unit := do
  checkLoops keys
  run fun e => keys.foldlM (fun e key => do
    let l ← Engine.expect "loop" (e.loops.get? key)
    return { e with loops := e.loops.set key (f l) }) e

/-- Plans the same transition on several loops. -/
def transition (keys : List LoopKey) (mode : LoopMode) (delay : Nat) (waitForSync : Bool) : Call Unit :=
  changeLoops keys (·.plan mode delay waitForSync)

def setLength (key : LoopKey) (length : Nat) : Call Unit := changeLoops [key] (·.modifyTransport (·.setLength length))

def setPosition (key : LoopKey) (position : Nat) : Call Unit :=
  changeLoops [key] (·.modifyTransport (·.setPosition position))

/-- `key` is among `source` and the first `hops` loops that it follows. -/
def isFollowed (t : Topology) (key : LoopKey) : Nat → LoopKey → Bool
  | 0, source => source = key
  | hops + 1, source => source = key || ((t.loops.get? source).bind (·.syncSource)).any (isFollowed t key hops)

/-- Lets a loop follow the cycles of another one, unless that closes a circle. -/
def setSyncSource (key : LoopKey) (source : Option LoopKey) : Call Unit := do
  checkLoops (key :: source.toList)
  let t := (← get).topology
  require (!source.any (isFollowed t key t.loops.size)) "sync sources would form a cycle"
  changeLoops [key] ({ · with syncSource := source })
  modify fun s => { s with topology := { t with loops := t.loops.modify key ({ · with syncSource := source }) } }

/-- Turns what the ports have captured into the content of loops. -/
def adopt (keys : List LoopKey) (request : AdoptRequest) : Call Unit := do
  checkLoops keys
  let result ← exec fun e =>
    let (e, result) := e.adoptAll request keys
    .ok (result, e)
  result

end Overdub.Session
