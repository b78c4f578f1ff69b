import Overdub.Midi.Message
/-!
# Messages on their way out

What plays into an output appends its messages to a list of fixed room. A
message for which there is no room is lost.
-/

namespace Overdub.Midi

/-- A list of messages with room for `capacity` of them. -/
structure Outbox where
  capacity : Nat
  messages : List Message := []
  deriving DecidableEq

/-- Appends a message if there is room, and says whether there was. -/
def Outbox.push (o : Outbox) (m : Message) : Outbox × Bool :=
  if o.messages.length < o.capacity then ({ o with messages := o.messages ++ [m] }, true) else (o, false)

end Overdub.Midi
