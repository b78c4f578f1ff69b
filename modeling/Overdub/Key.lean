/-!
# Keys of engine objects

The objects of an engine refer to each other by key. A key names a slot and the
generation of the slot it was issued for, so that the key of an object that is
gone never leads to whatever took its slot later.
-/

namespace Overdub

/-- What a key is a key of. -/
inductive ObjectKind where
  | port
  | loop
  | channel
  | chain
  | session
  | driver
  deriving DecidableEq, Repr

/-- The word a key is written with. -/
def ObjectKind.label : ObjectKind → String
  | .port => "port"
  | .loop => "loop"
  | .channel => "channel"
  | .chain => "chain"
  | .session => "session"
  | .driver => "driver"

/-- A slot and its generation. -/
structure Key (kind : ObjectKind) where
  index : Nat
  generation : UInt32
  deriving DecidableEq, Repr

namespace Key

def slotText {kind : ObjectKind} (k : Key kind) : String := s!"{k.index}v{k.generation}"

/-- The key as it is written. -/
def text {kind : ObjectKind} (k : Key kind) : String := s!"{kind.label}#{k.slotText}"

end Key

abbrev PortKey := Key .port
abbrev LoopKey := Key .loop
abbrev ChannelKey := Key .channel
abbrev ChainKey := Key .chain
abbrev SessionKey := Key .session
abbrev DriverKey := Key .driver

end Overdub
