import Overdub.Loop.Basic
/-!
# Turning captured input into loop content

Ports keep the input of the last while in capture rings. Adoption makes that the
content of a loop after the fact. With a sync source of some length the start is
aligned to the cycles of that loop, and one more cycle of history is kept in
front of it; without one, whole rings are taken.

Frame counts are machine words, so products and sums here are taken modulo
`2 ^ 64`.
-/

namespace Overdub

/-- A frame count as a machine word. -/
def wrapWord (n : Nat) : Nat := n % UInt64.size

/-- What the ports have captured. -/
structure CaptureRings where
  audio : PortKey → Option Audio.CaptureRing
  midi : PortKey → Option Midi.Capture

/-- What to adopt, counted in cycles of the sync source. -/
structure AdoptRequest where
  /-- How many cycles before the running one the loop starts. -/
  reverseStart : Option Nat := none
  /-- How many cycles to keep. -/
  length : Option Nat := none
  /-- The cycle to put the loop's position at afterwards. -/
  goToCycle : Option Nat := none
  /-- The mode to change to at once. -/
  goToMode : Option LoopMode := none
  deriving DecidableEq, Repr

/-- How many frames before the end of the capture the loop starts, for a sync
source of some length and position. Without a number of cycles to go back, the
running cycle is the last one kept. -/
def AdoptRequest.startBeforeEnd (r : AdoptRequest) (syncLength syncPosition : Nat) : Option Nat :=
  let cyclesBack := match r.reverseStart, r.length with
    | some back, some _ => some back
    | none, some (count + 1) => some count
    | _, _ => none
  if syncLength = 0 then none
  else cyclesBack.map fun back => wrapWord (syncPosition + wrapWord (syncLength * back))

/-- The adoption of one channel after the other. -/
structure Adoption where
  pool : Audio.Pool
  /-- The length of the longest audio channel so far. -/
  audioLength : Option Nat := none
  /-- The length of the longest MIDI channel so far. -/
  midiLength : Option Nat := none
  result : Except Error Unit := .ok ()

namespace Adoption

/-- The larger length of the two. -/
def longer (a : Option Nat) (b : Nat) : Option Nat := some (max (a.getD 0) b)

/-- Lets one channel adopt the ring of the port it records from. A channel
without such a port is left alone. -/
def channel (rings : CaptureRings) (reverseStart keepBefore : Option Nat) (a : Adoption) (c : LoopChannel) :
    LoopChannel × Adoption :=
  match c.input, c.body with
  | none, _ => (c, a)
  | some port, .audio body =>
    match rings.audio port with
    | none => (c, { a with result := .error (.missingBuffer "audio capture ring") })
    | some ring =>
      let (body, pool) := body.adopt ring reverseStart keepBefore a.pool
      ({ c with body := .audio body }, { a with pool, audioLength := longer a.audioLength body.track.dataLength })
  | some port, .midi body =>
    match rings.midi port with
    | none => (c, { a with result := .error (.missingBuffer "MIDI capture ring") })
    | some capture =>
      let (body, result) := body.adopt capture reverseStart keepBefore
      ({ c with body := .midi body },
        { a with
          midiLength := longer a.midiLength body.track.dataLength
          result := result.toOption.elim result fun _ => a.result })

/-- Lets all channels adopt in turn. -/
def channels (rings : CaptureRings) (reverseStart keepBefore : Option Nat) :
    Adoption → List LoopChannel → List LoopChannel × Adoption
  | a, [] => ([], a)
  | a, c :: rest =>
    let (c, a) := channel rings reverseStart keepBefore a c
    let (rest, a) := channels rings reverseStart keepBefore a rest
    (c :: rest, a)

end Adoption

/-- Turns the capture rings of the channels' input ports into content. Audio
decides the length, MIDI only where there is no audio. The last error is the one
reported; the channels without an error keep what they adopted. -/
def Loop.adopt (l : Loop) (sync : Option SyncView) (request : AdoptRequest) (rings : CaptureRings)
    (pool : Audio.Pool) : Loop × Audio.Pool × Except Error Unit :=
  let syncLength := sync.elim 0 (·.length)
  let syncPosition := sync.elim 0 (·.position)
  let start := request.startBeforeEnd syncLength syncPosition
  let (channels, a) := Adoption.channels rings start (some syncLength) { pool } l.channels
  let captured := (a.audioLength.or a.midiLength).getD 0
  let asked := if 0 < syncLength then request.length.elim captured (fun n => wrapWord (n * syncLength)) else captured
  let length := min (min captured asked) (start.getD captured)
  let t := l.transport.setLength length
  let t := request.goToMode.elim t fun mode => t.plan mode 0 false sync.isSome
  let position := request.goToCycle.map fun n => wrapWord (wrapWord (n * syncLength) + syncPosition)
  let t := match position with
    | some position => if 0 < syncLength ∧ position < length then t.setPosition position else t
    | none => t
  ({ l with transport := t, channels }, a.pool, a.result)

end Overdub
