import Overdub.Config.Text
import Overdub.Report.Session
import Overdub.Session.Backend
import Overdub.Session.Chains
import Overdub.Session.Channels
import Overdub.Session.Loops
import Overdub.Arena.Linked
import Overdub.Command.Queue
import Overdub.Midi.PooledMerge
import Overdub.Audio.Decimal
import Overdub.Proofs.Division
import Overdub.Proofs.Lineage
import Overdub.Proofs.Progress
import Overdub.Proofs.Mixdown
import Overdub.Proofs.Disturbance
import Overdub.Proofs.SyncTiming
import Overdub.Proofs.Parking
import Overdub.Proofs.Deferral
import Overdub.Proofs.Chronicle
import Overdub.Proofs.Adoption
import Overdub.Proofs.Listener
import Overdub.Proofs.Replay
import Overdub.Proofs.Take
import Overdub.Proofs.Retention
import Overdub.Proofs.CatchUp
import Overdub.Proofs.Dependencies
import Overdub.Proofs.Publication
import Overdub.Proofs.Schedulable
import Overdub.Proofs.Failures
import Overdub.Proofs.RoundTrip
import Overdub.Proofs.Growth
import Overdub.Proofs.Interplay
import Overdub.Proofs.Resolution
import Overdub.Proofs.Transit
import Overdub.Proofs.Commands
import Overdub.Proofs.Entries
import Overdub.Proofs.Inventory
import Overdub.Proofs.Ancestry
import Overdub.Proofs.InStep
import Overdub.Proofs.Prompting
import Overdub.Proofs.Forecast
import Overdub.Proofs.Delivery
import Overdub.Proofs.Interruption
import Overdub.Proofs.Replacement
import Overdub.Proofs.PartialAdoption
import Overdub.Proofs.Exchange
import Overdub.Proofs.StableMerge
import Overdub.Proofs.Verdict
import Overdub.Proofs.Overhang
import Overdub.Proofs.Canonical
import Overdub.Proofs.LastSamples
import Overdub.Proofs.PortState
import Overdub.Proofs.FarBack
import Overdub.Proofs.Horizon
import Overdub.Proofs.BlockSize
import Overdub.Proofs.Isolation
import Overdub.Proofs.Cabinet
import Overdub.Proofs.Coding
import Overdub.Proofs.Display
