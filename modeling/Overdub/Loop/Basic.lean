import Overdub.Loop.Channel
/-!
# Loops

A `Loop` is a transport with the channels it drives and the loop it takes its
triggers from.
-/

namespace Overdub

/-- A transport and its channels. -/
structure Loop where
  transport : Transport := .new
  channels : List LoopChannel := []
  /-- The loop whose triggers this one follows. -/
  syncSource : Option LoopKey := none

namespace Loop

/-- A stopped loop without channels. -/
def new : Loop := {}

instance : Inhabited Loop := ⟨new⟩

def modifyTransport (l : Loop) (f : Transport → Transport) : Loop := { l with transport := f l.transport }

def plan (l : Loop) (mode : LoopMode) (delay : Nat) (waitForSync : Bool) : Loop :=
  l.modifyTransport (·.plan mode delay waitForSync l.syncSource.isSome)

def channel? (l : Loop) (key : ChannelKey) : Option LoopChannel := l.channels.find? (·.key = key)

/-- Adds a channel behind the others. -/
def addChannel (l : Loop) (c : LoopChannel) : Loop := { l with channels := l.channels ++ [c] }

def removeChannel (l : Loop) (key : ChannelKey) : Loop := { l with channels := l.channels.eraseP (·.key = key) }

/-- Replaces a channel by one of the same key. -/
def setChannel (l : Loop) (c : LoopChannel) : Loop :=
  { l with channels := l.channels.map fun old => if old.key = c.key then c else old }

def modifyTrack (l : Loop) (key : ChannelKey) (f : Track → Track) : Loop :=
  (l.channel? key).elim l fun c => l.setChannel { c with body := c.body.modifyTrack f }

/-- Computes point of interest and trigger prediction anew. -/
def refresh (l : Loop) (syncTrigger : Option Nat) : Loop :=
  l.modifyTransport (·.refresh (LoopChannel.nextPoi l.channels) syncTrigger)

/-- Begins a cycle in which the ports that are `live` take part. -/
def prepare (l : Loop) (frames : Nat) (live : PortKey → Bool) : Loop :=
  { l with channels := l.channels.map (·.prepare frames live) }

def process (l : Loop) (frames : Nat) (sync : Option SyncView) : Loop × Except Error Unit :=
  let (transport, channels, result) := l.transport.process frames sync LoopChannel.processAll l.channels
  ({ l with transport, channels }, result)

end Loop

end Overdub
