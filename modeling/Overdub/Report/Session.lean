import Overdub.Config.Text
import Overdub.Driver.Dummy
import Overdub.Effect.Chain
import Overdub.Graph.Publisher
import Overdub.Port.Basic
import Overdub.Report.Loop
/-!
# Reports of sessions
-/

namespace Overdub.Report

/-! ## Ports and chains -/

instance : Reported PortStatus where
  report s := record
    [("gain", s.gain), ("muted", s.muted), ("input_peak", s.inputPeak), ("output_peak", s.outputPeak),
      ("n_events_in", s.eventsIn), ("n_events_out", s.eventsOut), ("ringbuffer_samples", s.captured)]

instance : Reported PortOwner where
  report
    | .driver => text "driver"
    | .chain key => report key

instance : Reported PortInfo where
  report p := record
    [("name", p.name), ("type", p.dataType), ("direction", p.direction), ("owner", p.owner), ("sources", p.sources)]

instance : Reported Effect.Chain where
  report c := record
    [("ports", [c.layout.audioInputs, c.layout.audioOutputs, c.layout.midiInputs]), ("ready", c.ready),
      ("active", c.active)]

instance : Reported ChainInfo where
  report c := record
    [("name", c.name), ("audio_in", c.audioInputs), ("audio_out", c.audioOutputs), ("midi_in", c.midiInputs),
      ("inputs", c.inputs)]

/-! ## Topology and schedules -/

instance : Reported LoopInfo where
  report l := record [("channels", l.channels), ("sync", l.syncSource)]

instance : Reported ChannelInfo where
  report c := record [("loop", c.loop), ("type", c.dataType), ("in", c.input), ("out", c.output)]

instance : Reported Topology where
  report t := record
    [("ports", t.ports.toList), ("loops", t.loops.toList), ("channels", t.channels.toList), ("chains", t.chains.toList)]

instance : Reported NodeId := ⟨fun id => text id.text⟩

/-- What a node does for its object. -/
def nodeKindName : NodeKind → String
  | .prepare => "Prepare"
  | .process => "Process"
  | .combined => "Combined"

def nodeRole : NodeId → String
  | .portPrepare _ => "prepare"
  | .portProcess _ => "process"
  | .loop _ => "loop"
  | .channel _ => "channel"
  | .chain _ => "chain"

/-- A node with its neighbours; those processed together with it are given by their
numbers. -/
def node (g : Graph) (n : Node) : Report :=
  let peers := (g.peers n.id).map fun id => g.nodes.findIdx (·.id = id)
  record
    [("id", [nodeRole n.id, n.id.text]), ("kind", text (nodeKindName n.kind)), ("name", n.name),
      ("group", if n.id.coProcessed then report 0 else absent), ("in", g.incoming n.id), ("out", g.outgoing n.id),
      ("found", g.contains n.id), ("peers", peers)]

instance : Reported Graph where
  report g := record [("len", g.nodes.length), ("empty", g.nodes.isEmpty), ("nodes", g.nodes.map (node g))]

instance : Reported Step where
  report s := record [("nodes", s.nodes), ("co", s.coProcess)]

instance : Reported Schedule where
  report s := record [("generation", s.generation), ("steps", s.steps)]

instance : Reported Publisher where
  report p := record
    [("requested", p.requested), ("computed", p.computed), ("discarded", p.discarded), ("coalesced", p.coalesced),
      ("published", p.published)]

/-! ## Settings and drivers -/

instance : Reported DriverConfig where
  report d := record
    [("kind", d.kind.name), ("client_name", d.clientName), ("sample_rate", d.sampleRate),
      ("buffer_size", d.bufferSize), ("dummy_mode", d.dummyMode.name)]

instance : Reported EngineConfig where
  report c := record (c.numbers.map fun (key, n) => (key, report n)) ++ record
    [("command_timeout_us", toString (1000 * c.commandTimeout)), ("driver", c.driver), ("is_default", c == {})]

instance : Reported DummyDriver where
  report d := record [("sample_rate", d.sampleRate), ("buffer_size", d.bufferSize), ("active", d.running)]

end Overdub.Report
