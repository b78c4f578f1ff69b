import Overdub.Driver.Dummy
import Overdub.Graph.Schedule
import Overdub.Session.Engine
/-!
# One cycle of the process side

The engine walks the published schedule step by step:

```text
input port -> loops (chunk by chunk) -> end of channel -> output port -> driver
     |                                        ^
     +---------> effect chain -> input port --+
```

A node whose object is gone does nothing, and one that fails does not keep the
others from running.
-/

namespace Overdub.Engine

/-- A port that exists and that the schedule processes. -/
def live (e : Engine) (s : Schedule) (key : PortKey) : Bool := e.ports.contains key && s.contains (.portProcess key)

/-- Advances loops together, after their channels have begun the cycle. -/
def processLoops (e : Engine) (s : Schedule) (keys : List LoopKey) (frames : Nat) : Engine :=
  let prepared := keys.foldl (fun loops key => loops.modify key (·.prepare frames (e.live s))) e.loops
  let (scheduler, loops, _) := e.scheduler.process prepared keys frames
  { e with scheduler, loops }

/-- Lets a driver's input arrive at a port. -/
def receive (frames : Nat) (io : DriverCycle) (origin : PortOrigin) (p : Port) : Port :=
  match origin with
  | .driver id =>
    match p.prepare frames with
    | .audio p => .audio ((io.audioInput? id).elim p p.fill)
    | .midi p => .midi (p.writeAll (io.midiInput id))
  | .detached => p.prepare frames
  | .chain _ => p

def mixSources (e : Engine) (s : Schedule) (key : PortKey) (p : EnginePort) : Port :=
  p.sources.foldl (fun port source =>
    match (e.ports.get? source).filter fun _ => e.live s source && source.index ≠ key.index with
    | some other => port.mix other.port
    | none => port) p.port

/-- Hands the data of a port to the driver. -/
def send (io : DriverCycle) (origin : PortOrigin) (p : Port) : DriverCycle :=
  match origin, p with
  | .driver id, .audio p => io.playAudio id p.buffer
  | .driver id, .midi p => io.playMidi id p.messages
  | _, _ => io

/-- Processes a port: an input receives its data, an output mixes its sources and
sends the result. -/
def processPort (e : Engine) (s : Schedule) (io : DriverCycle) (key : PortKey) : Engine × DriverCycle :=
  match e.ports.get? key with
  | none => (e, io)
  | some p =>
    match p.port.direction with
    | .input => (e.modifyPort key fun port => (receive io.frames io p.origin port).finish, io)
    | .output =>
      let port := (e.mixSources s key p).finish
      (e.modifyPort key fun _ => port, send io p.origin port)

/-- Ends the cycle of a channel: its commands meet the buffers of its ports. -/
def finishChannel (e : Engine) (s : Schedule) (key : ChannelKey) : Engine :=
  match e.channel? key with
  | none => e
  | some c =>
    let input := c.input.filter (e.live s)
    let output := c.output.filter (e.live s)
    match c.body with
    | .audio a =>
      let (a, played, pool, _) := a.finalize ((input.bind e.audioPort?).map (·.buffer))
        ((output.bind e.audioPort?).map (·.buffer)) e.pool
      let e := { e with pool }.setChannel { c with body := .audio a }
      match output, played with
      | some port, some buffer => e.modifyPort port (·.mapAudio ({ · with buffer }))
      | _, _ => e
    | .midi m =>
      let (m, played, _) := m.finalize ((input.bind e.midiPort?).map (·.messages))
        ((output.bind e.midiPort?).map (·.pending))
      let e := e.setChannel { c with body := .midi m }
      match output, played with
      | some port, some pending => e.modifyPort port (·.mapMidi ({ · with pending }))
      | _, _ => e

/-- What the ports of a chain bring it. -/
def chainInput (e : Engine) (c : EngineChain) (frames : Nat) : Effect.Buffers :=
  let b := (Effect.Buffers.new c.effect.layout c.midiCapacity).prepare frames
  let b := c.audioInputs.zipIdx.foldl (fun b (port, i) => (e.audioPort? port).elim b fun p => b.setInput i p.buffer) b
  c.midiInputs.zipIdx.foldl (fun b (port, i) =>
    ((e.midiPort? port).elim [] (·.messages)).foldl (fun b m => (b.pushMidi i m).1) b) b

/-- Runs a chain on what its inputs carry, and lets its outputs carry the result. -/
def processChain (e : Engine) (key : ChainKey) (frames : Nat) : Engine :=
  match e.chains.get? key with
  | none => e
  | some c =>
    let (b, _) := c.effect.run (e.chainInput c frames)
    c.audioOutputs.zipIdx.foldl (fun e (port, i) =>
      e.modifyPort port (·.mapAudio fun p =>
        let p := p.prepare frames
        b.audioOut[i]?.elim p p.fill)) e

def processNode (s : Schedule) : Engine × DriverCycle → NodeId → Engine × DriverCycle
  | (e, io), .portPrepare key => (e.modifyPort key (·.prepare io.frames), io)
  | (e, io), .portProcess key => e.processPort s io key
  | (e, io), .loop key => (e.processLoops s [key] io.frames, io)
  | (e, io), .channel key => (e.finishChannel s key, io)
  | (e, io), .chain key => (e.processChain key io.frames, io)

def loopOf? : NodeId → Option LoopKey
  | .loop key => some key
  | _ => none

def processStep (s : Schedule) (state : Engine × DriverCycle) (step : Step) : Engine × DriverCycle :=
  if step.coProcess then
    (state.1.processLoops s (step.nodes.filterMap loopOf?) state.2.frames, state.2)
  else step.nodes.foldl (processNode s) state

/-- Runs one cycle along a schedule. A cycle of no frames does nothing. -/
def cycle (s : Schedule) (e : Engine) (io : DriverCycle) : Engine × DriverCycle :=
  if io.frames = 0 then (e, io) else s.steps.foldl (processStep s) (e, io)

end Overdub.Engine
