import Overdub.Midi.Error
/-!
# Why the engine refuses or fails

Each cause says what it was about; `Error.message` is the text shown for it.
Errors of the MIDI containers and of the audio drivers are causes of their own.
-/

namespace Overdub

/-- The cause of a driver's failure. -/
inductive DriverError where
  /-- A driver that this engine does not have. -/
  | unavailable (driver : String)
  | startFailed (reason : String)
  /-- A port that could not be opened, closed or used. -/
  | portError (reason : String)
  | notStarted
  deriving DecidableEq, Repr

/-- The name of a cause. -/
def DriverError.kind : DriverError → String
  | .unavailable _ => "Unavailable"
  | .startFailed _ => "StartFailed"
  | .portError _ => "PortError"
  | .notStarted => "NotStarted"

/-- The text shown for a cause. -/
def DriverError.message : DriverError → String
  | .unavailable driver => s!"Driver not available: {driver}"
  | .startFailed reason => s!"Failed to start driver: {reason}"
  | .portError reason => s!"Port error: {reason}"
  | .notStarted => "Driver is not started"

/-- The cause of a failed engine operation. -/
inductive Error where
  /-- An access past the end of stored data or of a buffer. -/
  | outOfBounds (what : String) (position : Int) (length : Nat)
  /-- A copy without a source or without a target. -/
  | missingBuffer (what : String)
  | invalidArgument (reason : String)
  /-- A key of an object that is gone. -/
  | expired (what : String)
  /-- A fault in the division of a cycle into chunks. -/
  | internal (reason : String)
  /-- A processing graph that has no order; `unit` lies on a cycle. -/
  | graphCycle (unit : String)
  | midi (error : Midi.Error)
  | driver (error : DriverError)
  deriving DecidableEq, Repr

/-- The name of a cause; one from the MIDI containers or from a driver says so. -/
def Error.kind : Error → String
  | .outOfBounds .. => "OutOfBounds"
  | .missingBuffer _ => "MissingBuffer"
  | .invalidArgument _ => "InvalidArgument"
  | .expired _ => "Expired"
  | .internal _ => "Internal"
  | .graphCycle _ => "GraphCycle"
  | .midi error => "Midi." ++ error.kind
  | .driver error => "Driver." ++ error.kind

/-- The text shown for a cause. -/
def Error.message : Error → String
  | .outOfBounds what position length => s!"{what} out of bounds (position {position}, length {length})"
  | .missingBuffer what => s!"Missing buffer: {what}"
  | .invalidArgument reason => s!"Invalid argument: {reason}"
  | .expired what => s!"{what} handle is expired"
  | .internal reason => s!"Internal scheduling error: {reason}"
  | .graphCycle unit => s!"Processing graph contains a cycle involving {unit}"
  | .midi error => error.message
  | .driver error => error.message

end Overdub
