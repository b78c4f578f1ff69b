import Overdub.Proofs.Blocks
/-!
# The block size does not show

A client of a driver queues input, runs frames and takes what was played. What the
process side hears at each frame follows from these calls alone (`PortSpec.hears`),
and a processor that turns frames into frames gives the client the same answers for
all block sizes, wherever the driver idles in between.
-/

namespace Overdub

open Midi (InOrder Message)

/-! ## Calls -/

/-- What a client asks of a driver. -/
inductive DriverCall where
  | queueAudio (name : String) (samples : Audio.Buffer)
  | queueMidi (name : String) (messages : List Message)
  | run (frames : Nat)
  | takeAudio (name : String)
  | takeMidi (name : String)
  /-- While no frames are asked for, the driver runs cycles without any. -/
  | idle

inductive DriverAnswer where
  | ran (all : Bool)
  | audio (samples : Audio.Buffer)
  | midi (messages : List Message)

namespace DummyDriver
variable {σ : Type}

/-- The driver with its processor after a call, and what it answers. -/
def serve (process : Processor σ) (state : σ) (d : DummyDriver) : DriverCall → (σ × DummyDriver) × List DriverAnswer
  | .queueAudio name samples => ((state, d.queueAudio name samples), [])
  | .queueMidi name messages => ((state, d.queueMidi name messages), [])
  | .run n =>
    let (all, after) := d.run process state n
    (after, [.ran all])
  | .takeAudio name =>
    let (samples, d) := d.takeAudio name
    ((state, d), [.audio samples])
  | .takeMidi name =>
    let (messages, d) := d.takeMidi name
    ((state, d), [.midi messages])
  | .idle => (d.cycle process state 0, [])

/-- Calls in turn. -/
def serveAll (process : Processor σ) (state : σ) (d : DummyDriver) :
    List DriverCall → (σ × DummyDriver) × List DriverAnswer
  | [] => ((state, d), [])
  | call :: rest =>
    let ((state, d), answers) := d.serve process state call
    let (after, more) := d.serveAll process state rest
    (after, answers ++ more)

theorem serveAll_cons (process : Processor σ) (state : σ) (d : DummyDriver) (call : DriverCall)
    (rest : List DriverCall) :
    d.serveAll process state (call :: rest) =
      (((d.serve process state call).1.2.serveAll process (d.serve process state call).1.1 rest).1,
        (d.serve process state call).2 ++
          ((d.serve process state call).1.2.serveAll process (d.serve process state call).1.1 rest).2) := rfl

end DummyDriver

/-! ## Open ports -/

/-- A port to be opened. -/
structure PortSpec where
  name : String
  dataType : DataType
  direction : Direction

/-- The port when it has been opened. -/
def PortSpec.port (p : PortSpec) : DriverPort := { name := p.name, dataType := p.dataType, direction := p.direction }

namespace DriverPorts

/-- No two ports have one name. -/
def Unique (ports : DriverPorts) : Prop :=
  ∀ (i j : Nat) p q, ports[i]?.join = some p → ports[j]?.join = some q → p.name = q.name → i = j

def names (ports : DriverPorts) : List (Option String) := ports.map (·.map DriverPort.name)

theorem Unique.of_names {ports ports' : DriverPorts} (h : ports.Unique) (heq : ports'.names = ports.names) :
    ports'.Unique := by
  have hname : ∀ (i : Nat) p, ports'[i]?.join = some p → ∃ q, ports[i]?.join = some q ∧ q.name = p.name := by
    intro i p hp
    have hsame : ports'.names[i]?.join = ports.names[i]?.join := by rw [heq]
    unfold names at hsame
    rw [getElem?_join_map, getElem?_join_map, hp] at hsame
    exact Option.map_eq_some_iff.mp hsame.symm
  intro i j p q hp hq hnames
  obtain ⟨p', hp', hpn⟩ := hname i p hp
  obtain ⟨q', hq', hqn⟩ := hname j q hq
  exact h i j p' q' hp' hq' (hpn.trans (hnames.trans hqn.symm))

theorem names_map {f : DriverPort → DriverPort} (hf : ∀ p, (f p).name = p.name) (ports : DriverPorts) :
    names (ports.map (·.map f)) = ports.names := by
  simp only [names, List.map_map, Function.comp_def, Option.map_map, hf]

end DriverPorts

namespace DummyDriver
variable {d : DummyDriver}

/-- The port of a name is found where it is. -/
theorem findIdx_named (h : d.ports.Unique) {id : Nat} {p : DriverPort} (hp : d.ports[id]?.join = some p)
    (name : String) : d.ports.findIdx (named name) = id ↔ p.name = name := by
  have hslot : d.ports[id]? = some (some p) := Option.join_eq_some_iff.mp hp
  constructor
  · intro hid
    obtain ⟨hlt, hget⟩ := List.getElem?_eq_some_iff.mp hslot
    have hnamed := List.findIdx_getElem (w := hid ▸ hlt)
    simp only [hid, hget] at hnamed
    exact of_decide_eq_true hnamed
  · intro hname
    have hlt : d.ports.findIdx (named name) < d.ports.length :=
      List.findIdx_lt_length_of_exists ⟨some p, List.mem_of_getElem? hslot, decide_eq_true hname⟩
    have hnamed := List.findIdx_getElem (w := hlt)
    cases hfound : d.ports[d.ports.findIdx (named name)] with
    | none => rw [hfound] at hnamed; cases hnamed
    | some q =>
      rw [hfound] at hnamed
      have hq : d.ports[d.ports.findIdx (named name)]?.join = some q := by
        rw [List.getElem?_eq_getElem hlt, hfound]
        rfl
      exact h _ _ q p hq hp ((of_decide_eq_true hnamed).trans hname.symm)

/-- A change of a port by its name changes all ports of that name, as there is only one. -/
theorem modifyPort_ports (h : d.ports.Unique) (name : String) (f : DriverPort → DriverPort) :
    (d.modifyPort name f).ports = d.ports.map (·.map fun p => if p.name = name then f p else p) := by
  refine DriverPorts.ext (by simp [modifyPort]) fun id => ?_
  rw [DriverPorts.getElem?_join_map]
  unfold modifyPort
  rw [List.getElem?_modify]
  rcases hslot : d.ports[id]? with _ | _ | p
  · rfl
  · split_ifs <;> rfl
  · have hfind := findIdx_named h (Option.join_eq_some_iff.mpr hslot) name
    simp only [hfind]
    by_cases hname : p.name = name <;> simp [hname]

/-- A port is opened under a name that no other port has. -/
theorem openPort_eq {dataType : DataType} {direction : Direction} {name : String} {id : Nat} {d' : DummyDriver}
    (hunique : d.ports.Unique) (h : d.openPort name dataType direction = .ok (id, d')) :
    d' = { d with ports := d.ports ++ [some { name, dataType, direction }] } ∧ d'.ports.Unique := by
  unfold openPort at h
  split_ifs at h with hfree
  obtain ⟨-, rfl⟩ := Prod.mk.inj (Except.ok.inj h)
  refine ⟨rfl, ?_⟩
  have hnew : ∀ p, some p ∈ d.ports → p.name ≠ name := by
    intro p hp hname
    refine hfree ?_
    obtain ⟨slot, hslot⟩ : ∃ slot, d.ports.find? (named name) = some slot :=
      Option.isSome_iff_exists.mp (List.find?_isSome.mpr ⟨some p, hp, decide_eq_true hname⟩)
    have hnamed := List.find?_some hslot
    cases slot with
    | none => cases hnamed
    | some q =>
      rw [port?, hslot]
      rfl
  have hget : ∀ (i : Nat) p, (d.ports ++ [some ({ name, dataType, direction } : DriverPort)])[i]?.join = some p →
      d.ports[i]?.join = some p ∨ i = d.ports.length ∧ p.name = name := by
    intro i p hp
    rcases Nat.lt_or_ge i d.ports.length with hi | hi
    · rw [List.getElem?_append_left hi] at hp
      exact .inl hp
    · rw [List.getElem?_append_right hi] at hp
      have hzero : i - d.ports.length = 0 := by
        by_contra hne
        obtain ⟨k, hk⟩ := Nat.exists_eq_succ_of_ne_zero hne
        rw [hk] at hp
        cases hp
      rw [hzero] at hp
      cases hp
      exact .inr ⟨by omega, rfl⟩
  intro i j p q hp hq hnames
  have hold : ∀ {i : Nat} {p : DriverPort}, d.ports[i]?.join = some p → p.name ≠ name := fun h =>
    hnew _ (List.mem_of_getElem? (Option.join_eq_some_iff.mp h))
  rcases hget i p hp with hp | ⟨hi, hpn⟩ <;> rcases hget j q hq with hq | ⟨hj, hqn⟩
  · exact hunique i j p q hp hq hnames
  · exact absurd (hnames.trans hqn) (hold hp)
  · exact absurd (hnames.symm.trans hpn) (hold hq)
  · exact hi.trans hj.symm

/-- Opens ports in turn. -/
def openPorts (d : DummyDriver) : List PortSpec → Except DriverError DummyDriver
  | [] => .ok d
  | p :: rest => (d.openPort p.name p.dataType p.direction).bind fun (_, d) => d.openPorts rest

/-- A driver that runs the frames it is asked for, started with its ports. -/
def opened (bufferSize : Nat) (ports : List PortSpec) : Except DriverError DummyDriver :=
  ((controlled bufferSize).openPorts ports).bind start

theorem openPorts_ok {ports : List PortSpec} {d' : DummyDriver} (hunique : d.ports.Unique)
    (h : d.openPorts ports = .ok d') :
    d' = { d with ports := d.ports ++ ports.map fun p => some p.port } ∧ d'.ports.Unique := by
  induction ports generalizing d with
  | nil =>
    cases h
    exact ⟨by simp, hunique⟩
  | cons p rest ih =>
    unfold openPorts at h
    cases hopen : d.openPort p.name p.dataType p.direction with
    | error e => rw [hopen] at h; cases h
    | ok opened =>
      rw [hopen] at h
      obtain ⟨hnext, hnextUnique⟩ := openPort_eq hunique hopen
      obtain ⟨hlast, hlastUnique⟩ := ih hnextUnique h
      refine ⟨hlast.trans ?_, hlastUnique⟩
      rw [hnext, List.append_assoc]
      rfl

/-- A driver that has processed all it was asked for. -/
structure Ready (d : DummyDriver) : Prop where
  running : d.running = true
  requested : d.requested = 0
  bufferSize : d.bufferSize < 2 ^ 32
  sorted : d.ports.Sorted
  unique : d.ports.Unique

theorem opened_ok {bufferSize : Nat} (hsize : bufferSize < 2 ^ 32) {ports : List PortSpec}
    (h : opened bufferSize ports = .ok d) :
    d.Ready ∧ d.processed = 0 ∧ d.ports = ports.map fun p => some p.port := by
  unfold opened at h
  cases hopen : (controlled bufferSize).openPorts ports with
  | error e => rw [hopen] at h; cases h
  | ok opened =>
    rw [hopen] at h
    obtain ⟨rfl, hunique⟩ := openPorts_ok (d := controlled bufferSize) nofun hopen
    obtain rfl : _ = d := Except.ok.inj h
    refine ⟨⟨rfl, rfl, ?_, ?_, hunique⟩, rfl, rfl⟩
    · show max 1 bufferSize < 2 ^ 32
      omega
    · intro p hp
      obtain ⟨spec, -, hspec⟩ := List.mem_map.mp hp
      obtain rfl := Option.some_inj.mp hspec
      exact List.Pairwise.nil

end DummyDriver

/-! ## What the calls let be heard -/

namespace DriverCall

/-- The client makes the call. The driver idles without being asked. -/
def isAsked : DriverCall → Bool
  | .idle => false
  | _ => true

/-- The frames that calls ask for. -/
def frames : List DriverCall → Nat
  | [] => 0
  | .run n :: rest => n + frames rest
  | _ :: rest => frames rest

/-- The samples that arrive at an audio input: those that are queued, in turn, and silence while there are none. -/
def audioTape (name : String) : Audio.Buffer → List DriverCall → Audio.Buffer
  | _, [] => []
  | queued, .queueAudio port samples :: rest => audioTape name (if name = port then queued ++ samples else queued) rest
  | queued, .run n :: rest => .fit n queued ++ audioTape name (queued.drop n) rest
  | queued, _ :: rest => audioTape name queued rest

/-- The messages that are queued at an input, each with the frame that it arrives at: as many frames as its time
says behind those that were processed before. -/
def midiTape (name : String) : Nat → List DriverCall → List (Nat × Message)
  | _, [] => []
  | processed, .queueMidi port messages :: rest =>
    (if name = port then messages.map fun m => (processed + m.time.toNat, m) else []) ++ midiTape name processed rest
  | processed, .run n :: rest => midiTape name (processed + n) rest
  | processed, _ :: rest => midiTape name processed rest

/-- The messages that arrive at a frame, without their time. -/
def arriving (f : Nat) (tape : List (Nat × Message)) : List Message :=
  (tape.filter fun x => x.1 = f).map fun x => x.2.withTime 0

theorem arriving_append (f : Nat) (tape more : List (Nat × Message)) :
    arriving f (tape ++ more) = arriving f tape ++ arriving f more := by
  simp [arriving]

/-- A tape that starts later lies later. -/
theorem midiTape_add (name : String) (m n : Nat) (calls : List DriverCall) :
    midiTape name (m + n) calls = (midiTape name n calls).map fun x => (m + x.1, x.2) := by
  induction calls generalizing n with
  | nil => rfl
  | cons call rest ih =>
    cases call with
    | queueMidi port messages =>
      rw [midiTape, midiTape, List.map_append, ih]
      split_ifs
      · simp [Nat.add_assoc]
      · rfl
    | run k =>
      rw [midiTape, midiTape, Nat.add_assoc, ih]
    | queueAudio | takeAudio | takeMidi | idle => exact ih n

/-- What is queued behind some frames arrives behind them. -/
theorem arriving_midiTape_lt (name : String) {f n : Nat} (h : f < n) (calls : List DriverCall) :
    arriving f (midiTape name n calls) = [] := by
  have hshift := midiTape_add name n 0 calls
  rw [Nat.add_zero] at hshift
  rw [hshift, arriving, List.filter_map, List.filter_eq_nil_iff.mpr fun x _ => ?_]
  · rfl
  · simp only [Function.comp, decide_eq_true_eq]
    omega

theorem arriving_midiTape_add (name : String) (n f : Nat) (calls : List DriverCall) :
    arriving (n + f) (midiTape name n calls) = arriving f (midiTape name 0 calls) := by
  have hshift := midiTape_add name n 0 calls
  rw [Nat.add_zero] at hshift
  rw [hshift, arriving, arriving, List.filter_map, List.map_map]
  simp only [Function.comp_def, Nat.add_left_cancel_iff]

end DriverCall

open DriverCall (audioTape midiTape arriving)

/-- What arrives at a frame of a port by calls, if nothing is queued before. -/
def PortSpec.hears (calls : List DriverCall) (f : Nat) (p : PortSpec) : Arrival :=
  match p.direction, p.dataType with
  | .output, _ => {}
  | .input, .audio => { sample := some ((audioTape p.name [] calls).getD f 0) }
  | .input, .midi => { messages := arriving f (midiTape p.name 0 calls) }

namespace DriverPort

/-- What arrives at a frame of a port by calls, behind what is queued before. -/
def hears (calls : List DriverCall) (f : Nat) (p : DriverPort) : Arrival :=
  match p.direction, p.dataType with
  | .output, _ => {}
  | .input, .audio => { sample := some ((audioTape p.name p.queuedAudio calls).getD f 0) }
  | .input, .midi => { messages := messagesAt f p.queuedMidi ++ arriving f (midiTape p.name 0 calls) }

theorem hears_port (calls : List DriverCall) (f : Nat) (p : PortSpec) : p.port.hears calls f = p.hears calls f := by
  obtain ⟨name, dataType, direction⟩ := p
  cases direction <;> cases dataType <;> rfl

theorem hears_queueAudio (port : String) (samples : Audio.Buffer) (rest : List DriverCall) (f : Nat) (p : DriverPort) :
    (if p.name = port then { p with queuedAudio := p.queuedAudio ++ samples } else p).hears rest f =
      p.hears (.queueAudio port samples :: rest) f := by
  obtain ⟨name, dataType, direction⟩ := p
  cases direction <;> cases dataType <;> simp only [hears, audioTape, midiTape] <;> split_ifs <;> rfl

theorem hears_queueMidi (port : String) (messages : List Message) (rest : List DriverCall) (f : Nat) (p : DriverPort) :
    (if p.name = port then
        { p with queuedMidi := (p.queuedMidi ++ messages).mergeSort fun a b => decide (a.time ≤ b.time) }
      else p).hears rest f = p.hears (.queueMidi port messages :: rest) f := by
  have hnow : arriving f (messages.map fun m => (0 + m.time.toNat, m)) = messagesAt f messages := by
    unfold arriving messagesAt Midi.keyed
    rw [List.filter_map, List.map_map]
    simp only [Function.comp_def, Nat.zero_add]
  obtain ⟨name, dataType, direction⟩ := p
  cases direction with
  | output => split_ifs <;> rfl
  | input =>
    cases dataType with
    | audio => split_ifs <;> rfl
    | midi =>
      simp only [hears, midiTape]
      split_ifs with hname
      · rw [DriverCall.arriving_append, hnow, messagesAt_mergeSort, messagesAt_append, List.append_assoc]
      · rfl

/-- Of the frames of a run, each finds what was waiting for it, -/
theorem hears_run_lt (n : Nat) (rest : List DriverCall) {f : Nat} (hf : f < n) (p : DriverPort) :
    p.hears (.run n :: rest) f = p.arrival f := by
  obtain ⟨name, dataType, direction, buffer, queuedAudio⟩ := p
  cases direction with
  | output => rfl
  | input =>
    cases dataType with
    | audio =>
      have hfirst : (Audio.Buffer.fit n queuedAudio ++ audioTape name (queuedAudio.drop n) rest).getD f 0 =
          queuedAudio.getD f 0 :=
        (List.getD_append _ _ _ _ (by rwa [Audio.Buffer.length_fit])).trans (getD_fit hf)
      exact congrArg (Arrival.mk · []) (congrArg some hfirst)
    | midi =>
      simp only [hears, arrival, midiTape]
      rw [DriverCall.arriving_midiTape_lt name (by omega), List.append_nil]

/-- and the frames behind it find what is left and what is queued later. -/
theorem hears_run_add (n : Nat) (rest : List DriverCall) (f : Nat) (p : DriverPort) :
    p.hears (.run n :: rest) (n + f) = (p.elapse n).hears rest f := by
  obtain ⟨name, dataType, direction, buffer, queuedAudio⟩ := p
  cases direction with
  | output => rfl
  | input =>
    cases dataType with
    | audio =>
      have hlater : (Audio.Buffer.fit n queuedAudio ++ audioTape name (queuedAudio.drop n) rest).getD (n + f) 0 =
          (audioTape name (queuedAudio.drop n) rest).getD f 0 := by
        rw [List.getD_append_right _ _ _ _ (by rw [Audio.Buffer.length_fit]; omega), Audio.Buffer.length_fit,
          Nat.add_sub_cancel_left]
      exact congrArg (Arrival.mk · []) (congrArg some hlater)
    | midi =>
      simp only [hears, elapse, midiTape]
      rw [messagesAt_later, Nat.zero_add, DriverCall.arriving_midiTape_add]

end DriverPort

/-- What arrives at a frame of all ports by calls. -/
def DriverPorts.hears (calls : List DriverCall) (ports : DriverPorts) (f : Nat) : Frame := fun id =>
  ports[id]?.join.elim {} (·.hears calls f)

namespace DriverPorts
variable {ports : DriverPorts}

theorem hears_inboxes (ports : DriverPorts) (calls : List DriverCall) :
    ports.inboxes.hears calls = ports.hears calls := by
  funext f id
  unfold hears inboxes
  rw [getElem?_join_map]
  cases ports[id]?.join <;> rfl

/-- What changes all ports by themselves changes what arrives at them. -/
theorem hears_map {g : DriverPort → DriverPort} {calls calls' : List DriverCall} {f f' : Nat}
    (h : ∀ p, (g p).hears calls f = p.hears calls' f') :
    hears calls (ports.map (·.map g)) f = hears calls' ports f' := by
  funext id
  unfold hears
  rw [getElem?_join_map]
  cases ports[id]?.join with
  | none => rfl
  | some p => exact h p

/-- Some frames later, what arrives is what a run of as many frames leaves. -/
theorem hears_of_inboxes {ports' : DriverPorts} {n : Nat} (h : ports'.inboxes = ports.inboxes.elapse n)
    (rest : List DriverCall) (f : Nat) : ports'.hears rest f = ports.hears (.run n :: rest) (n + f) := by
  rw [← hears_inboxes ports', h, ← hears_inboxes ports]
  exact hears_map fun p => (p.hears_run_add n rest f).symm

theorem hears_run_lt (n : Nat) (rest : List DriverCall) {f : Nat} (hf : f < n) :
    ports.hears (.run n :: rest) f = ports.frame f := by
  funext id
  unfold hears frame
  cases ports[id]?.join with
  | none => rfl
  | some p => exact p.hears_run_lt n rest hf

end DriverPorts

namespace DummyDriver
variable {σ : Type} {process : Processor σ} {d : DummyDriver}

/-- A change of the queues or of what was played, by name. -/
theorem Ready.modifyPort (h : d.Ready) (name : String) {f : DriverPort → DriverPort} (hname : ∀ p, (f p).name = p.name)
    (hsorted : ∀ p, p.Sorted → (f p).Sorted) : (d.modifyPort name f).Ready := by
  refine ⟨h.running, h.requested, h.bufferSize, ?_, ?_⟩
  · rw [modifyPort_ports h.unique]
    intro q hq
    obtain ⟨p, hp, rfl⟩ := DriverPorts.mem_map hq
    split_ifs
    · exact hsorted p (h.sorted p hp)
    · exact h.sorted p hp
  · rw [modifyPort_ports h.unique]
    refine h.unique.of_names (DriverPorts.names_map (fun p => ?_) _)
    split_ifs
    · exact hname p
    · rfl

/-- The names of the ports can be told from their queues. -/
theorem unique_of_inboxes {ports ports' : DriverPorts} (h : ports.Unique)
    (heq : ports'.inboxes.names = ports.inboxes.names) : ports'.Unique := by
  have hnames : ∀ ports : DriverPorts, ports.inboxes.names = ports.names := fun ports =>
    DriverPorts.names_map (f := DriverPort.inbox) (fun _ => rfl) ports
  exact h.of_names ((hnames ports').symm.trans (heq.trans (hnames ports)))

/-- What a run or a cycle leaves is ready again. -/
theorem Ready.elapse (h : d.Ready) {d' : DummyDriver} {n : Nat} (hinboxes : d'.ports.inboxes = d.ports.inboxes.elapse n)
    (hrequested : d'.requested = 0) (hsize : d'.bufferSize = d.bufferSize) (hrunning : d'.running = d.running) :
    d'.Ready := by
  have hnames : ∀ p : DriverPort, (p.elapse n).name = p.name := by
    intro p
    obtain ⟨name, dataType, direction⟩ := p
    cases direction <;> cases dataType <;> rfl
  refine ⟨hrunning.trans h.running, hrequested, hsize.trans_lt h.bufferSize, ?_, ?_⟩
  · refine DriverPorts.sorted_of_inboxes (h.sorted.elapse n) ?_
    rw [hinboxes, DriverPorts.inboxes_elapse]
  · refine unique_of_inboxes h.unique ?_
    rw [hinboxes]
    exact DriverPorts.names_map hnames _

theorem run_eq (h : d.Ready) (process : Processor σ) (state : σ) (n : Nat) :
    d.run process state n = (true, ({ d with requested := n } : DummyDriver).cycles process state) := by
  unfold run
  rw [if_pos (show ({ d with requested := d.requested + n } : DummyDriver).running = true from h.running), h.requested,
    Nat.zero_add]

/-- After some frames, it hears what was waiting behind them. -/
theorem heard_split {ports ports' : DriverPorts} {n : Nat} (h : ports'.inboxes = ports.inboxes.elapse n)
    (heard : List Frame) (rest : List DriverCall) :
    heard ++ (List.range n).map ports.frame ++ (List.range (DriverCall.frames rest)).map (ports'.hears rest) =
      heard ++ (List.range (n + DriverCall.frames rest)).map (ports.hears (.run n :: rest)) := by
  have hnow : (List.range n).map ports.frame = (List.range n).map (ports.hears (.run n :: rest)) :=
    List.map_congr_left fun f hf => (DriverPorts.hears_run_lt n rest (List.mem_range.mp hf)).symm
  have hlater : ports'.hears rest = fun f => ports.hears (.run n :: rest) (n + f) :=
    funext (DriverPorts.hears_of_inboxes h rest)
  rw [hnow, hlater, List.append_assoc, ← map_range_add]

/-- A change by name that leaves what is heard as a call says. -/
theorem hears_modifyPort (h : d.Ready) (name : String) {f : DriverPort → DriverPort} {call : DriverCall}
    (hf : ∀ (p : DriverPort) rest i, (if p.name = name then f p else p).hears rest i = p.hears (call :: rest) i)
    (rest : List DriverCall) : (d.modifyPort name f).ports.hears rest = d.ports.hears (call :: rest) := by
  funext i
  rw [modifyPort_ports h.unique]
  exact DriverPorts.hears_map fun p => hf p rest i

/-- By a call, a processor hears the frames that the call runs, and what arrives at them is what the calls from there
on let arrive. -/
theorem serve_heard (hplays : process.OnlyPlays) (h : d.Ready) (state : σ) (heard : List Frame) (call : DriverCall) :
    let after := (d.serve process.listening (state, heard) call).1
    after.2.Ready ∧
      ∀ rest, after.1.2 ++ (List.range (DriverCall.frames rest)).map (after.2.ports.hears rest) =
        heard ++ (List.range (DriverCall.frames (call :: rest))).map (d.ports.hears (call :: rest)) := by
  intro after
  cases call with
  | queueAudio name samples =>
    refine ⟨h.modifyPort name (fun _ => rfl) fun _ => id, fun rest => ?_⟩
    exact congrArg (heard ++ List.map · _)
      (hears_modifyPort h name (fun p rest i => p.hears_queueAudio name samples rest i) rest)
  | queueMidi name messages =>
    refine ⟨h.modifyPort name (fun _ => rfl) fun p _ => inOrder_mergeSort _, fun rest => ?_⟩
    exact congrArg (heard ++ List.map · _)
      (hears_modifyPort h name (fun p rest i => p.hears_queueMidi name messages rest i) rest)
  | takeAudio name =>
    refine ⟨h.modifyPort name (fun _ => rfl) fun _ => id, fun rest => ?_⟩
    refine congrArg (heard ++ List.map · _) (hears_modifyPort h name (fun p rest i => ?_) rest)
    split_ifs <;> rfl
  | takeMidi name =>
    refine ⟨h.modifyPort name (fun _ => rfl) fun _ => id, fun rest => ?_⟩
    refine congrArg (heard ++ List.map · _) (hears_modifyPort h name (fun p rest i => ?_) rest)
    split_ifs <;> rfl
  | run n =>
    have hafter : after = (d.run process.listening (state, heard) n).2 := rfl
    rw [run_eq h] at hafter
    obtain ⟨hheard, hinboxes, hrequested, hsize, hrunning⟩ :=
      cycles_heard (d := { d with requested := n }) hplays h.sorted h.bufferSize state heard
    rw [hafter]
    refine ⟨h.elapse hinboxes hrequested hsize hrunning, fun rest => ?_⟩
    rw [hheard]
    exact heard_split hinboxes heard rest
  | idle =>
    have hinboxes := cycle_inboxes (n := 0) hplays.listening h.sorted (by decide) (state, heard)
    refine ⟨h.elapse hinboxes ?_ rfl rfl, fun rest => ?_⟩
    · exact (Nat.sub_zero _).trans h.requested
    · have hnothing : d.ports.hears (.run 0 :: rest) = d.ports.hears (.idle :: rest) := by
        funext f
        have hsame := DriverPorts.hears_of_inboxes (DriverPorts.elapse_zero d.ports.inboxes).symm rest f
        rw [Nat.zero_add] at hsame
        exact hsame.symm
      have hsplit := heard_split hinboxes heard rest
      rw [hnothing, Nat.zero_add] at hsplit
      exact hsplit

/-- By calls, a processor hears what they let arrive, frame by frame. -/
theorem serveAll_heard (hplays : process.OnlyPlays) (h : d.Ready) (state : σ) (heard : List Frame)
    (calls : List DriverCall) :
    (d.serveAll process.listening (state, heard) calls).1.1.2 =
      heard ++ (List.range (DriverCall.frames calls)).map (d.ports.hears calls) := by
  induction calls generalizing d state heard with
  | nil => exact (List.append_nil _).symm
  | cons call rest ih =>
    obtain ⟨hready, hheard⟩ := serve_heard hplays h state heard call
    rw [← hheard rest]
    exact ih hready _ _

/-! ## What the calls are answered -/

/-- The drivers have processed the same, and differ at most in their block sizes and in what the last cycle has left
in the buffers. -/
structure Alike (d d' : DummyDriver) : Prop where
  ports : d.ports.settled = d'.ports.settled
  processed : d.processed = d'.processed

theorem Alike.refl (d : DummyDriver) : d.Alike d := ⟨rfl, rfl⟩

theorem Alike.symm {d d' : DummyDriver} (h : d.Alike d') : d'.Alike d := ⟨h.ports.symm, h.processed.symm⟩

theorem Alike.trans {d d' d'' : DummyDriver} (h : d.Alike d') (h' : d'.Alike d'') : d.Alike d'' :=
  ⟨h.ports.trans h'.ports, h.processed.trans h'.processed⟩

variable {d' : DummyDriver}

theorem Alike.modifyPort (h : d.Alike d') (hd : d.Ready) (hd' : d'.Ready) (name : String) {f : DriverPort → DriverPort}
    (hname : ∀ p, (f p).settle = f p.settle) : (d.modifyPort name f).Alike (d'.modifyPort name f) := by
  have hsettled : ∀ {d : DummyDriver}, d.Ready → (d.modifyPort name f).ports.settled =
      d.ports.settled.map (·.map fun p => if p.name = name then f p else p) := by
    intro d hd
    have hport : ∀ p : DriverPort, (if p.name = name then f p else p).settle =
        if p.settle.name = name then f p.settle else p.settle := by
      intro p
      rw [show p.settle.name = p.name from rfl]
      split_ifs
      · exact hname p
      · rfl
    rw [modifyPort_ports hd.unique]
    simp only [DriverPorts.settled, List.map_map, Function.comp_def, Option.map_map, hport]
  refine ⟨?_, h.processed⟩
  rw [hsettled hd, hsettled hd', h.ports]

/-- A port by its name, without what the last cycle has left. -/
theorem Alike.port? (h : d.Alike d') (name : String) :
    (d.port? name).map DriverPort.settle = (d'.port? name).map DriverPort.settle := by
  have hfind : ∀ d : DummyDriver, (d.port? name).map DriverPort.settle = (d.ports.settled.find? (named name)).join := by
    intro d
    have hnamed : named name ∘ Option.map DriverPort.settle = named name := by
      funext slot
      cases slot <;> rfl
    rw [DriverPorts.settled, List.find?_map, hnamed, DummyDriver.port?]
    rcases d.ports.find? (named name) with _ | _ | _ <;> rfl
  rw [hfind d, hfind d', h.ports]

/-- Drivers that are alike tell the same of a port, as far as it does not matter that it settles. -/
theorem Alike.told (h : d.Alike d') (name : String) {α : Type} {tell : DriverPort → List α}
    (htell : ∀ p, tell p.settle = tell p) : (d.port? name).elim [] tell = (d'.port? name).elim [] tell := by
  have hsettled : ∀ d : DummyDriver,
      (d.port? name).elim [] tell = ((d.port? name).map DriverPort.settle).elim [] tell := by
    intro d
    cases d.port? name with
    | none => rfl
    | some p => exact (htell p).symm
  rw [hsettled d, hsettled d', h.port?]

/-- What a client and a processor can tell of two drivers is the same. -/
structure Matches (one other : (σ × DummyDriver) × List DriverAnswer) : Prop where
  answers : one.2 = other.2
  state : one.1.1 = other.1.1
  driver : one.1.2.Alike other.1.2
  ready : one.1.2.Ready
  ready' : other.1.2.Ready

section Framewise
variable (step : σ → Frame → σ × Frame)

theorem ready_of_settled (h : d.Ready) {n : Nat} {sent : List Frame} (hlength : sent.length = n) {next : DummyDriver}
    (hports : next.ports.settled = d.ports.settled.after d.processed sent) (hrequested : next.requested = 0)
    (hsize : next.bufferSize = d.bufferSize) (hrunning : next.running = d.running) : next.Ready := by
  refine h.elapse (n := n) ?_ hrequested hsize hrunning
  rw [← DriverPorts.inboxes_settled, hports, DriverPorts.inboxes_after, DriverPorts.inboxes_settled, hlength]

/-- A driver without frames to run stays as it is. -/
theorem serve_idle (h : d.Ready) (state : σ) :
    let after := d.serve (Processor.framewise step) state .idle
    after.2 = [] ∧ after.1.1 = state ∧ after.1.2.Alike d ∧ after.1.2.Ready := by
  intro after
  obtain ⟨hstate, hports⟩ := cycle_framewise (n := 0) step h.sorted (by decide) state
  refine ⟨rfl, hstate, ⟨hports.trans (DriverPorts.after_nil _ _), rfl⟩, ?_⟩
  exact ready_of_settled h rfl hports ((Nat.sub_zero _).trans h.requested) rfl rfl

/-- Drivers that are alike run alike. -/
theorem serve_run (h : d.Alike d') (hd : d.Ready) (hd' : d'.Ready) (state : σ) (n : Nat) :
    Matches (d.serve (Processor.framewise step) state (.run n))
      (d'.serve (Processor.framewise step) state (.run n)) := by
  have hframe : d.ports.frame = d'.ports.frame := by
    rw [← DriverPorts.frame_settled, h.ports, DriverPorts.frame_settled]
  have hran : ∀ {d : DummyDriver}, d.Ready → d.serve (Processor.framewise step) state (.run n) =
      (({ d with requested := n } : DummyDriver).cycles (Processor.framewise step) state, [.ran true]) := by
    intro d hd
    simp only [serve, run_eq hd]
  obtain ⟨hstate, hports, hprocessed, hrequested, hsize, hrunning⟩ :=
    cycles_framewise (d := { d with requested := n }) step hd.sorted hd.bufferSize state
  obtain ⟨hstate', hports', hprocessed', hrequested', hsize', hrunning'⟩ :=
    cycles_framewise (d := { d' with requested := n }) step hd'.sorted hd'.bufferSize state
  have hlength : ∀ frame : Nat → Frame, (mapFrames step state ((List.range n).map frame)).2.length = n := by
    intro frame
    rw [length_mapFrames, List.length_map, List.length_range]
  rw [hran hd, hran hd']
  refine ⟨rfl, ?_, ⟨?_, ?_⟩, ready_of_settled hd (hlength _) hports hrequested hsize hrunning,
    ready_of_settled hd' (hlength _) hports' hrequested' hsize' hrunning'⟩
  · rw [hstate, hstate']
    exact congrArg (fun frame => (mapFrames step state ((List.range n).map frame)).1) hframe
  · rw [hports, hports']
    show d.ports.settled.after d.processed (mapFrames step state ((List.range n).map d.ports.frame)).2 =
      d'.ports.settled.after d'.processed (mapFrames step state ((List.range n).map d'.ports.frame)).2
    rw [h.ports, h.processed, hframe]
  · exact hprocessed.trans ((congrArg (· + n) h.processed).trans hprocessed'.symm)

/-- Drivers that are alike answer a call alike. -/
theorem serve_alike (h : d.Alike d') (hd : d.Ready) (hd' : d'.Ready) (state : σ) (call : DriverCall) :
    Matches (d.serve (Processor.framewise step) state call) (d'.serve (Processor.framewise step) state call) := by
  cases call with
  | queueAudio name samples =>
    exact ⟨rfl, rfl, h.modifyPort hd hd' name fun _ => rfl, hd.modifyPort name (fun _ => rfl) fun _ => id,
      hd'.modifyPort name (fun _ => rfl) fun _ => id⟩
  | queueMidi name messages =>
    exact ⟨rfl, rfl, h.modifyPort hd hd' name fun _ => rfl,
      hd.modifyPort name (fun _ => rfl) fun _ _ => inOrder_mergeSort _,
      hd'.modifyPort name (fun _ => rfl) fun _ _ => inOrder_mergeSort _⟩
  | takeAudio name =>
    exact ⟨congrArg (fun samples => [DriverAnswer.audio samples]) (h.told name fun _ => rfl), rfl,
      h.modifyPort hd hd' name fun _ => rfl, hd.modifyPort name (fun _ => rfl) fun _ => id,
      hd'.modifyPort name (fun _ => rfl) fun _ => id⟩
  | takeMidi name =>
    exact ⟨congrArg (fun messages => [DriverAnswer.midi messages]) (h.told name fun _ => rfl), rfl,
      h.modifyPort hd hd' name fun _ => rfl, hd.modifyPort name (fun _ => rfl) fun _ => id,
      hd'.modifyPort name (fun _ => rfl) fun _ => id⟩
  | run n => exact serve_run step h hd hd' state n
  | idle =>
    obtain ⟨hanswer, hstate, halike, hready⟩ := serve_idle step hd state
    obtain ⟨hanswer', hstate', halike', hready'⟩ := serve_idle step hd' state
    exact ⟨hanswer.trans hanswer'.symm, hstate.trans hstate'.symm, halike.trans (h.trans halike'.symm), hready, hready'⟩

/-- Idling in between does not show. -/
theorem serveAll_asked (h : d.Alike d') (hd : d.Ready) (hd' : d'.Ready) (state : σ) (calls : List DriverCall) :
    Matches (d.serveAll (Processor.framewise step) state calls)
      (d'.serveAll (Processor.framewise step) state (calls.filter DriverCall.isAsked)) := by
  induction calls generalizing d d' state with
  | nil => exact ⟨rfl, rfl, h, hd, hd'⟩
  | cons call rest ih =>
    cases hcall : call.isAsked with
    | false =>
      obtain rfl : call = .idle := by cases call <;> first | rfl | cases hcall
      obtain ⟨hanswer, hstate, halike, hready⟩ := serve_idle step hd state
      rw [List.filter_cons_of_neg (by simp [hcall])]
      have hrest := ih (halike.trans h) hready hd' state
      rw [serveAll_cons, hanswer, hstate]
      exact ⟨hrest.answers, hrest.state, hrest.driver, hrest.ready, hrest.ready'⟩
    | true =>
      rw [List.filter_cons_of_pos hcall]
      have hserve := serve_alike step h hd hd' state call
      have hrest := ih hserve.driver hserve.ready hserve.ready' (d.serve (Processor.framewise step) state call).1.1
      rw [serveAll_cons, serveAll_cons, ← hserve.answers, ← hserve.state]
      exact ⟨congrArg (_ ++ ·) hrest.answers, hrest.state, hrest.driver, hrest.ready, hrest.ready'⟩

end Framewise

/-- The block size of a driver does not show. Whatever it is, and whatever calls are made after the ports are
opened: a processor that only plays hears the same at each frame, the queued samples in turn and silence when there
are none left, and each message as many frames as its time says behind those that were processed when it was
queued. And a processor that turns frames into frames lets all answers, with the times of the messages, and all that
is left in the queues be the same for all block sizes, wherever the driver idles in between. -/
theorem block_size_invisible {bufferSize : Nat} (hsize : bufferSize < 2 ^ 32) {ports : List PortSpec}
    (hd : opened bufferSize ports = .ok d) (calls : List DriverCall) :
    (∀ {σ : Type} {process : Processor σ}, process.OnlyPlays → ∀ state : σ,
      (d.serveAll process.listening (state, []) calls).1.1.2 =
        (List.range (DriverCall.frames calls)).map fun f id => ports[id]?.elim {} (·.hears calls f)) ∧
    ∀ {σ : Type} (step : σ → Frame → σ × Frame) (state : σ) {bufferSize' : Nat} {d' : DummyDriver}
      {calls' : List DriverCall}, bufferSize' < 2 ^ 32 → opened bufferSize' ports = .ok d' →
      calls'.filter DriverCall.isAsked = calls.filter DriverCall.isAsked →
      Matches (d.serveAll (Processor.framewise step) state calls)
        (d'.serveAll (Processor.framewise step) state calls') := by
  obtain ⟨hready, hprocessed, hports⟩ := opened_ok hsize hd
  constructor
  · intro σ process hplays state
    rw [serveAll_heard hplays hready state [] calls, List.nil_append]
    refine List.map_congr_left fun f _ => funext fun id => ?_
    rw [hports]
    unfold DriverPorts.hears
    rw [List.getElem?_map]
    cases ports[id]? with
    | none => rfl
    | some p => exact DriverPort.hears_port calls f p
  · intro σ step state bufferSize' d' calls' hsize' hd' hasked
    obtain ⟨hready', hprocessed', hports'⟩ := opened_ok hsize' hd'
    have halike : d.Alike d' := ⟨by rw [hports, hports'], by rw [hprocessed, hprocessed']⟩
    have hone := serveAll_asked step halike hready hready' state calls
    have hother := serveAll_asked step (Alike.refl d') hready' hready' state calls'
    rw [hasked] at hother
    exact ⟨hone.answers.trans hother.answers.symm, hone.state.trans hother.state.symm,
      hone.driver.trans hother.driver.symm, hone.ready, hother.ready⟩

/-- Samples and a note that pass through in blocks of two frames and of five. -/
theorem block_size_invisible_through :
    let ports : List PortSpec :=
      [⟨"in", .audio, .input⟩, ⟨"keys", .midi, .input⟩, ⟨"out", .audio, .output⟩, ⟨"notes", .midi, .output⟩]
    let note : Message := .short 2 0x90 60 100
    let calls : List DriverCall :=
      [.run 1, .queueAudio "in" [1, 2, 3], .queueMidi "keys" [note], .run 4, .takeAudio "out", .takeMidi "notes"]
    let step (_ : Unit) (frame : Frame) : Unit × Frame :=
      ((), fun id => if id = 2 then frame 0 else if id = 3 then frame 1 else {})
    ∃ d d', opened 2 ports = .ok d ∧ opened 5 ports = .ok d' ∧
      (d.serveAll (Processor.framewise step) () calls).2 =
        (d'.serveAll (Processor.framewise step) () (.idle :: calls)).2 ∧
      let heard := (d.serveAll (Processor.framewise step).listening ((), []) calls).1.1.2
      heard.map (fun frame => (frame 0).sample) = [some 0, some 1, some 2, some 3, some 0] ∧
        heard.map (fun frame => (frame 1).messages) = [[], [], [], [note.withTime 0], []] := by
  intro ports note calls step
  obtain ⟨d, hd⟩ : ∃ d, opened 2 ports = .ok d := ⟨_, rfl⟩
  obtain ⟨d', hd'⟩ : ∃ d', opened 5 ports = .ok d' := ⟨_, rfl⟩
  have hsize : 2 < 2 ^ 32 := by decide
  have hasked : (DriverCall.idle :: calls).filter DriverCall.isAsked = calls.filter DriverCall.isAsked := rfl
  obtain ⟨hheard, hsame⟩ := block_size_invisible hsize hd calls
  refine ⟨d, d', hd, hd', ?_, ?_⟩
  · exact (hsame step () (by decide) hd' hasked).answers
  · rw [hheard (Processor.framewise_onlyPlays step) ()]
    exact ⟨rfl, rfl⟩

end DummyDriver

end Overdub
