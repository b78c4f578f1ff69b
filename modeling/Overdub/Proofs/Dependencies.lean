import Mathlib
import Overdub.Proofs.Order
/-!
# What a schedule owes to the data flow

A schedule has a node for each object of its topology and for nothing else, and
every two nodes that data flows between stand in the order of the flow
(`Graph.precedes_of_flow`). `Graph.dependencies_scheduled` reads this object by
object: a reference that leads nowhere, or a port that names itself, asks for
nothing, all others are heeded.
-/

namespace Overdub

namespace Schedule

/-- Both nodes are scheduled, the first one in an earlier step. -/
def Precedes (s : Schedule) (a b : NodeId) : Prop := ∃ i j, s.position? a = some i ∧ s.position? b = some j ∧ i < j

theorem Precedes.trans {s : Schedule} {a b c : NodeId} (h : s.Precedes a b) (h' : s.Precedes b c) : s.Precedes a c := by
  obtain ⟨i, j, ha, hb, hlt⟩ := h
  obtain ⟨j', k, hb', hc, hlt'⟩ := h'
  cases hb.symm.trans hb'
  exact ⟨i, k, ha, hc, hlt.trans hlt'⟩

theorem Precedes.asymm {s : Schedule} {a b : NodeId} (h : s.Precedes a b) : ¬s.Precedes b a := by
  rintro ⟨j, i, hb, ha, hlt⟩
  obtain ⟨i', j', ha', hb', hlt'⟩ := h
  cases ha.symm.trans ha'
  cases hb.symm.trans hb'
  omega

end Schedule

namespace Graph

variable {t : Topology} {generation : Nat} {s : Schedule}

/-- A schedule has the nodes of its topology. -/
theorem contains_schedule (h : t.schedule generation = .ok s) (id : NodeId) : s.contains id = true ↔ t.Has id := by
  have hnodes : s.contains id = true ↔ id ∈ s.steps.flatMap (·.nodes) := by
    simp [Schedule.contains, List.any_eq_true, List.mem_flatMap]
  rw [hnodes, (orders_of_schedule h).1.complete.mem_iff, ← contains_ofTopology]
  simp [Graph.contains]

/-- Data reaches no loop, and no other node is processed together with one that it comes from. -/
theorem unit_ne_of_flow {a b : NodeId} (hflow : t.Flow a b) (hne : a ≠ b) : a.unit ≠ b.unit := by
  intro hunit
  rcases unit_eq_iff.1 hunit with heq | ⟨-, hloop⟩
  · exact hne heq
  · rw [hflow.target_single] at hloop
    cases hloop

/-- What data flows from is done before what it flows to. -/
theorem precedes_of_flow (h : t.schedule generation = .ok s) {a b : NodeId} (hflow : t.Flow a b) (hne : a ≠ b)
    (ha : t.Has a) (hb : t.Has b) : s.Precedes a b :=
  (orders_of_schedule h).1.earlier a b ((mem_edges t a b).2 ⟨hflow, ha, hb⟩) (unit_ne_of_flow hflow hne)

/-- A schedule of a topology lets every channel follow its loop, the port it records from and the clearing of the port
it plays into, and come before that port; lets every port follow the sources it has beside itself and, where it is an
output, its own clearing; and puts every chain between its inputs and its outputs. References to objects that are gone
ask for nothing. It has each node of the topology once, and no others. -/
theorem dependencies_scheduled (h : t.schedule generation = .ok s) :
    (∀ key c, t.channels.get? key = some c →
      (t.loops.contains c.loop = true → s.Precedes (.loop c.loop) (.channel key)) ∧
      (∀ port, c.input = some port → t.ports.contains port = true → s.Precedes (.portProcess port) (.channel key)) ∧
      (∀ port p, c.output = some port → t.ports.get? port = some p →
        s.Precedes (.channel key) (.portProcess port) ∧
        (p.direction = .output → s.Precedes (.portPrepare port) (.channel key)))) ∧
    (∀ key p, t.ports.get? key = some p →
      (∀ source ∈ p.sources, t.ports.contains source = true → source ≠ key →
        s.Precedes (.portProcess source) (.portProcess key)) ∧
      (p.direction = .output → s.Precedes (.portPrepare key) (.portProcess key))) ∧
    (∀ key c, t.chains.get? key = some c →
      (∀ port ∈ c.inputs, t.ports.contains port = true → s.Precedes (.portProcess port) (.chain key)) ∧
      (∀ port ∈ c.audioOutputs, t.ports.contains port = true → s.Precedes (.chain key) (.portProcess port))) ∧
    (∀ id, s.contains id = true ↔ t.Has id) ∧ (s.steps.flatMap (·.nodes)).Nodup := by
  have hlive : ∀ {kind : ObjectKind} {α : Type} {arena : Arena kind α} {key : Key kind} {a : α},
      arena.get? key = some a → arena.contains key = true := fun ha => Option.isSome_iff_exists.2 ⟨_, ha⟩
  refine ⟨fun key c hc => ⟨fun hloop => ?_, fun port hport hp => ?_, fun port p hport hp => ⟨?_, fun hdir => ?_⟩⟩,
    fun key p hp => ⟨fun source hsource hlives hne => ?_, fun hdir => ?_⟩,
    fun key c hc => ⟨fun port hport hp => ?_, fun port hport hp => ?_⟩, contains_schedule h,
    (orders_of_schedule h).1.once⟩
  · exact precedes_of_flow h (.loop hc) nofun hloop (hlive hc)
  · exact precedes_of_flow h (.record hc hport) nofun hp (hlive hc)
  · exact precedes_of_flow h (.play hc hport) nofun (hlive hc) (hlive hp)
  · exact precedes_of_flow h (.mix hc hport) nofun ⟨p, hp, hdir⟩ (hlive hc)
  · exact precedes_of_flow h (.source hp hsource) (fun heq => hne (NodeId.portProcess.inj heq)) hlives (hlive hp)
  · exact precedes_of_flow h (.port hp) nofun ⟨p, hp, hdir⟩ (hlive hp)
  · exact precedes_of_flow h (.effect hc hport) nofun hp (hlive hc)
  · exact precedes_of_flow h (.result hc hport) nofun (hlive hc) hp

/-- A channel between an input and an output, and one of which everything it names is gone. The output has the input,
itself and a port that is gone for sources. -/
def frayed : Topology where
  ports := ((Arena.empty.insert { name := "in", dataType := .audio, direction := .input, owner := .driver }).2.insert
    { name := "out", dataType := .audio, direction := .output, owner := .driver,
      sources := [⟨0, 0⟩, ⟨1, 0⟩, ⟨7, 0⟩] }).2
  loops := (Arena.empty.insert { channels := [⟨0, 0⟩] }).2
  channels := ((Arena.empty.insert
    { loop := ⟨0, 0⟩, dataType := .audio, input := some ⟨0, 0⟩, output := some ⟨1, 0⟩ }).2.insert
    { loop := ⟨3, 0⟩, dataType := .audio, input := some ⟨7, 0⟩, output := some ⟨1, 4⟩ }).2

theorem dependencies_scheduled_frayed : ∃ s, frayed.schedule 1 = .ok s ∧
    s.Precedes (.loop ⟨0, 0⟩) (.channel ⟨0, 0⟩) ∧ s.Precedes (.portPrepare ⟨1, 0⟩) (.channel ⟨0, 0⟩) ∧
    s.Precedes (.channel ⟨0, 0⟩) (.portProcess ⟨1, 0⟩) ∧ s.Precedes (.portProcess ⟨0, 0⟩) (.portProcess ⟨1, 0⟩) ∧
    s.contains (.channel ⟨1, 0⟩) = true ∧ s.contains (.portProcess ⟨7, 0⟩) = false := by
  have hok : (frayed.schedule 1).isOk = true := by decide +kernel
  cases h : frayed.schedule 1 with
  | error e =>
    rw [h] at hok
    cases hok
  | ok s =>
    obtain ⟨hchannels, hports, -, hnodes, -⟩ := dependencies_scheduled h
    obtain ⟨hloop, -, hplays⟩ := hchannels ⟨0, 0⟩ _ rfl
    obtain ⟨hplayed, hcleared⟩ := hplays ⟨1, 0⟩ _ rfl rfl
    obtain ⟨hsources, -⟩ := hports ⟨1, 0⟩ _ rfl
    refine ⟨s, rfl, hloop rfl, hcleared rfl, hplayed, hsources ⟨0, 0⟩ (by decide) rfl (by decide), ?_, ?_⟩
    · exact (hnodes (.channel ⟨1, 0⟩)).2 rfl
    · rw [Bool.eq_false_iff, Ne, hnodes (.portProcess ⟨7, 0⟩)]
      exact Bool.false_ne_true

end Graph

end Overdub
