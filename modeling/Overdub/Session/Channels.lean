import Overdub.Session.Basic
/-!
# Channels of a session
-/

namespace Overdub.Session

def addChannel (loop : LoopKey) (dataType : DataType) (mode : ChannelMode) : Call ChannelKey := do
  let _ ← lookup (·.loops) loop
  let s ← get
  let body : ChannelBody := match dataType with
    | .audio => .audio (.new s.engine.pool.bufferSize mode (some s.config.reservedSamples))
    | .midi => .midi (.new s.config.midiCapacity mode)
  let t := s.topology
  let (key, channels) := t.channels.insert { loop, dataType }
  let loops := t.loops.modify loop fun l => { l with channels := l.channels ++ [key] }
  commit { t with channels, loops } (·.insertChannel loop { key, body })
  return key

def deleteChannel (key : ChannelKey) : Call Unit := do
  let info ← lookup (·.channels) key
  retract ((← get).topology.removeChannel key info) fun e =>
    let (c, e) := e.removeChannel key
    .ok ((), c.elim e e.releaseChannel)

/-- A channel of the engine. -/
def channel (key : ChannelKey) : Call LoopChannel := do
  let _ ← lookup (·.channels) key
  Engine.expect "channel" ((← get).engine.channel? key)

/-- Changes a channel of the engine, which may use the pool. -/
def changeChannel {α : Type} (key : ChannelKey)
    (f : LoopChannel → Audio.Pool → Except Error (α × LoopChannel × Audio.Pool)) : Call α := do
  let _ ← lookup (·.channels) key
  exec fun e => do
    let c ← Engine.expect "channel" (e.channel? key)
    let (a, c, pool) ← f c e.pool
    return (a, { e with pool }.setChannel c)

/-- Changes what the kinds of channels have in common. -/
def changeBody (key : ChannelKey) (f : ChannelBody → ChannelBody) : Call Unit :=
  changeChannel key fun c pool => .ok ((), { c with body := f c.body }, pool)

/-- Refuses a call that is meant for channels of the other kind. -/
def wrongKind : Error := .invalidArgument "wrong channel data type"

def changeAudio (key : ChannelKey) (f : Audio.Channel → Audio.Pool → Audio.Channel × Audio.Pool) : Call Unit :=
  changeChannel key fun c pool => match c.body with
    | .audio a => let (a, pool) := f a pool; .ok ((), { c with body := .audio a }, pool)
    | .midi _ => .error wrongKind

/-- What control threads see of a channel. -/
def channelStatus (key : ChannelKey) : Call ChannelStatus := do return (← channel key).body.status

/-- Hands out the loudest sample played and starts over. -/
def takeChannelPeak (key : ChannelKey) : Call Audio.Sample :=
  changeChannel key fun c pool =>
    let (peak, _) := c.body.status.takePeak
    .ok (peak, { c with body := c.body.modifyStatus (·.takePeak.2) }, pool)

/-- Changes how a channel takes part. -/
def setChannelMode (key : ChannelKey) (mode : ChannelMode) : Call Unit :=
  changeBody key (·.modifyTrack ({ · with mode }))

def setStartOffset (key : ChannelKey) (startOffset : Int) : Call Unit :=
  changeBody key (·.modifyTrack ({ · with startOffset }))

/-- Changes how much a channel plays ahead of its start. -/
def setPrePlay (key : ChannelKey) (prePlay : Nat) : Call Unit := changeBody key (·.modifyTrack ({ · with prePlay }))

def setChannelGain (key : ChannelKey) (gain : Audio.Sample) : Call Unit :=
  changeAudio key fun a pool => (a.setGain gain, pool)

/-- Replaces the content of an audio channel. -/
def loadAudio (key : ChannelKey) (samples : Audio.Buffer) : Call Unit := do
  let reserved := (← get).config.reservedSamples
  changeAudio key fun a pool =>
    let (store, pool) := Audio.Store.ofBuffer samples reserved pool
    (a.replaceStore store samples.length 0 pool).2

def audioData (key : ChannelKey) : Call Audio.Buffer := do
  match (← channel key).body with
  | .audio a => return a.data
  | .midi _ => throw wrongKind

/-- Replaces the content of a MIDI channel. Events of negative time restore the
state in front of it. -/
def loadMidi (key : ChannelKey) (events : List Midi.SequenceEvent) (length : Nat) : Call Unit :=
  changeChannel key fun c pool => match c.body with
    | .midi m => (m.load events length).map fun m => ((), { c with body := .midi m }, pool)
    | .audio _ => .error wrongKind

def midiData (key : ChannelKey) : Call (List Midi.SequenceEvent) := do
  match (← channel key).body with
  | .midi m => return m.data
  | .audio _ => throw wrongKind

/-- Replaces the content of a channel by silence. -/
def clearChannel (key : ChannelKey) (length : Nat) : Call Unit :=
  changeChannel key fun c pool =>
    let (body, pool) := c.body.clear length pool
    .ok ((), { c with body }, pool)

/-! ## Connections -/

/-- The reason why a channel and a port of the wrong direction do not fit. -/
def directionReason : Direction → String
  | .input => "channels record from input ports"
  | .output => "channels play into output ports"

/-- Connects one side of a channel to a port. -/
def connectChannel (key : ChannelKey) (port : PortKey) (direction : Direction) : Call Unit := do
  let portInfo ← lookup (·.ports) port
  let info ← lookup (·.channels) key
  require (portInfo.direction = direction) (directionReason direction)
  require (portInfo.dataType = info.dataType) "port and channel data types differ"
  let t := (← get).topology
  let known (c : ChannelInfo) : ChannelInfo := match direction with
    | .input => { c with input := some port }
    | .output => { c with output := some port }
  let live (c : LoopChannel) : LoopChannel := match direction with
    | .input => { c with input := some port }
    | .output => { c with output := some port }
  commit { t with channels := t.channels.modify key known } fun e => do
    let c ← Engine.expect "channel" (e.channel? key)
    return e.setChannel (live c)

/-- Disconnects a port from whichever side of a channel it is on. -/
def disconnectChannel (key : ChannelKey) (port : PortKey) : Call Unit := do
  let info ← lookup (·.channels) key
  require (info.input = some port || info.output = some port) "port is not connected to the channel"
  let t := (← get).topology
  let known (c : ChannelInfo) : ChannelInfo :=
    { c with input := Topology.without port c.input, output := Topology.without port c.output }
  let kept (connected : Option PortKey) (c : Option PortKey) := if connected = some port then none else c
  retract { t with channels := t.channels.modify key known } fun e => do
    let c ← Engine.expect "channel" (e.channel? key)
    return ((), e.setChannel { c with input := kept info.input c.input, output := kept info.output c.output })

end Overdub.Session
