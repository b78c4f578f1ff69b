import Overdub.Proofs.Rooted
/-!
# Connections that fit

Channels play into output ports, what a chain makes comes in at input ports, and
no port passes its data to itself. A call checks that before it connects anything
(`Change.fitting`), so it holds after every run of calls (`fitting_after`).
-/

namespace Overdub

/-- Connections lead where data can go: channels play into output ports, the outputs
of a chain are input ports and different ones, and no port passes its data to
itself. -/
structure Topology.Fitting (t : Topology) : Prop where
  output : ∀ key c port p, t.channels.get? key = some c → c.output = some port → t.ports.get? port = some p →
    p.direction = .output
  result : ∀ key c port p, t.chains.get? key = some c → port ∈ c.audioOutputs → t.ports.get? port = some p →
    p.direction = .input
  distinct : ∀ key c, t.chains.get? key = some c → c.audioOutputs.Nodup
  other : ∀ key p, t.ports.get? key = some p → key ∉ p.sources

/-- No port receives the data of another one twice. -/
def Wiring.Single (w : Wiring) : Prop := ∀ key sources, w.sources key = some sources → sources.Nodup

theorem Wiring.Single.dropPort {w : Wiring} (h : w.Single) (key : PortKey) : (w.dropPort key).Single := by
  intro k sources hk
  simp only [Wiring.dropPort] at hk
  split_ifs at hk
  obtain ⟨old, hold, rfl⟩ := Option.map_eq_some_iff.1 hk
  exact (h k old hold).filter _

theorem Wiring.Single.mapSources {w : Wiring} (h : w.Single) {key : PortKey} {f : List PortKey → List PortKey}
    (hf : ∀ sources, w.sources key = some sources → (f sources).Nodup) : (w.mapSources key f).Single := by
  intro k sources hk
  simp only [Wiring.mapSources, Function.update_apply] at hk
  split_ifs at hk
  · obtain ⟨old, hold, rfl⟩ := Option.map_eq_some_iff.1 hk
    exact hf old hold
  · exact h k sources hk

namespace Topology

variable {t u : Topology}

theorem empty_fitting : empty.Fitting := by
  constructor <;> intro key <;> simp [empty, Arena.get?, Arena.empty]

theorem empty_single : empty.wiring.Single := by
  intro key sources hkey
  cases hkey

/-- Fewer connections fit as before. -/
theorem Shrinks.fitting (h : Shrinks t u) (ht : t.Fitting) : u.Fitting where
  output key d port q hd hport hq := by
    obtain ⟨c, hc, -, hout⟩ := h.channels key d hd
    obtain ⟨p, hp, hdir, -⟩ := h.ports port q hq
    exact hdir.trans (ht.output key c port p hc (hout port hport) hp)
  result key c port q hc hport hq := by
    obtain ⟨p, hp, hdir, -⟩ := h.ports port q hq
    exact hdir.trans (ht.result key c port p (h.chains key c hc) hport hp)
  distinct key c hc := ht.distinct key c (h.chains key c hc)
  other key q hq hself := by
    obtain ⟨p, hp, -, hsources⟩ := h.ports key q hq
    exact ht.other key p hp (hsources key hself)

/-- New objects are connected to nothing, or are the ports of a new chain. -/
theorem Extends.fitting (h : Extends t u) (ht : t.Fitting) (hlinked : t.Linked)
    (hdistinct : ∀ key c, u.chains.get? key = some c → t.chains.get? key = none → c.audioOutputs.Nodup) :
    u.Fitting where
  output key d port q hd hport hq := by
    rcases h.channel key d hd with hold | ⟨-, -, hnone⟩
    · obtain ⟨p, hp⟩ := Option.isSome_iff_exists.1 (hlinked.output key d port hold hport)
      obtain rfl := Option.some.inj ((h.ports port p hp).symm.trans hq)
      exact ht.output key d port _ hold hport hp
    · rw [hnone] at hport
      cases hport
  result key c port q hc hport hq := by
    rcases h.chain key c hc with hold | ⟨-, -, hnew⟩
    · obtain ⟨p, hp, -⟩ := hlinked.owned key c port hold (List.mem_append_right _ hport)
      obtain rfl := Option.some.inj ((h.ports port p hp).symm.trans hq)
      exact ht.result key c port _ hold hport hp
    · obtain ⟨-, p, hp, hdir⟩ := hnew port hport
      cases hp.symm.trans hq
      exact hdir
  distinct key c hc := by
    rcases h.chain key c hc with hold | ⟨hnone, -⟩
    · exact ht.distinct key c hold
    · exact hdistinct key c hc hnone
  other key q hq := by
    rcases h.port key q hq with hold | ⟨-, hnone⟩
    · exact ht.other key q hold
    · simp [hnone]

theorem Extends.single (h : Extends t u) (ht : t.wiring.Single) : u.wiring.Single := by
  intro key sources hkey
  obtain ⟨q, hq, rfl⟩ := Option.map_eq_some_iff.1 hkey
  rcases h.port key q hq with hold | ⟨-, hnone⟩
  · exact ht key q.sources (congrArg (Option.map PortInfo.sources) hold)
  · rw [hnone]
    exact List.nodup_nil

open Session (withChainPorts withChain knownSources joined)

/-- The ports of one side of a chain are different ones. -/
theorem withChainPorts_nodup (hsound : t.ports.Sound) (chain : ChainKey) (label : String) (dataType : DataType)
    (direction : Direction) (count : Nat) : (withChainPorts chain label dataType direction count t).1.Nodup := by
  unfold withChainPorts
  refine (List.foldlRecOn (motive := fun added : List PortKey × Topology => added.2.ports.Sound ∧
    (∀ key ∈ added.1, added.2.ports.contains key = true) ∧ added.1.Nodup) _ _
    ⟨hsound, List.forall_mem_nil _, List.nodup_nil⟩ fun (keys, u) ⟨hu, hkeys, hnodup⟩ i _ => ?_).2.2
  dsimp only at hu hkeys hnodup ⊢
  have hnew : ∀ p, (u.ports.insert p).1 ∉ keys := by
    intro p hmem
    have hthere := hkeys _ hmem
    simp [Arena.contains, hu.get?_issued p] at hthere
  refine ⟨hu.insert _, fun key hkey => ?_, ?_⟩
  · rw [Arena.contains, hu.get?_insert]
    rcases List.mem_append.1 hkey with hkey | hkey
    · split_ifs
      · rfl
      · exact hkeys key hkey
    · rw [if_pos (List.mem_singleton.1 hkey)]
      rfl
  · exact hnodup.append (List.nodup_singleton _) (List.disjoint_singleton.2 (hnew _))

theorem withChain_distinct (ht : t.Linked) (name : String) (layout : Effect.Layout) {key : ChainKey} {c : ChainInfo}
    (hc : (withChain name layout t).chains.get? key = some c) (hnew : t.chains.get? key = none) :
    c.audioOutputs.Nodup := by
  have hget := ht.chains.get?_insert { name }
  unfold withChain at hc
  generalize t.chains.insert { name } = inserted at hget hc
  obtain ⟨issued, chains⟩ := inserted
  dsimp only at hget hc
  have h₁ := (withChainPorts_added (t := { t with chains }) ht.ports issued s!"{name}_in" .audio .output
    layout.audioInputs).1
  generalize withChainPorts issued s!"{name}_in" .audio .output layout.audioInputs { t with chains } = side₁ at h₁ hc
  have hsound := h₁.sound ht.ports
  have h₂ := (withChainPorts_added hsound issued s!"{name}_out" .audio .input layout.audioOutputs).1
  have hnodup := withChainPorts_nodup hsound issued s!"{name}_out" .audio .input layout.audioOutputs
  generalize withChainPorts issued s!"{name}_out" .audio .input layout.audioOutputs side₁.2 = side₂ at h₂ hnodup hc
  have h₃ := (withChainPorts_added (h₂.sound hsound) issued s!"{name}_midi_in" .midi .output layout.midiInputs).1
  rw [Arena.get?_set, ((h₁.trans h₂).trans h₃).chains] at hc
  split_ifs at hc with hkey
  · obtain ⟨_, -, rfl⟩ := Option.map_eq_some_iff.1 hc
    exact hnodup
  · rw [hget, if_neg hkey, hnew] at hc
    cases hc

/-- A port that receives the data of another one. -/
theorem Fitting.addSource (h : t.Fitting) {source target : PortKey} (hne : source ≠ target) :
    (knownSources t target (· ++ [source])).Fitting := by
  have hports : ∀ {port q}, (knownSources t target (· ++ [source])).ports.get? port = some q →
      ∃ p, t.ports.get? port = some p ∧ q.direction = p.direction ∧
        q.sources = if port = target then p.sources ++ [source] else p.sources := by
    intro port q hq
    rw [get?_knownSources] at hq
    obtain ⟨p, hp, rfl⟩ := Option.map_eq_some_iff.1 hq
    refine ⟨p, hp, ?_⟩
    split_ifs <;> exact ⟨rfl, rfl⟩
  refine ⟨fun key c port q hc hport hq => ?_, fun key c port q hc hport hq => ?_, h.distinct, fun key q hq => ?_⟩
  · obtain ⟨p, hp, hdir, -⟩ := hports hq
    exact hdir.trans (h.output key c port p hc hport hp)
  · obtain ⟨p, hp, hdir, -⟩ := hports hq
    exact hdir.trans (h.result key c port p hc hport hp)
  · obtain ⟨p, hp, -, hsources⟩ := hports hq
    rw [hsources]
    split_ifs with hkey
    · subst hkey
      simpa [hne.symm] using h.other key p hp
    · exact h.other key p hp

/-- A channel that is connected to a port of the right direction. -/
theorem Fitting.joinChannel (h : t.Fitting) {key : ChannelKey} {port : PortKey} {p : PortInfo}
    (hp : t.ports.get? port = some p) :
    { t with channels := t.channels.modify key (joined port p.direction) }.Fitting := by
  refine ⟨fun k d other q hd hother hq => ?_, h.result, h.distinct, h.other⟩
  dsimp only at hd hq
  rw [Arena.get?_modify_eq_map] at hd
  obtain ⟨c, hc, rfl⟩ := Option.map_eq_some_iff.1 hd
  split_ifs at hother
  · cases hdir : p.direction with
    | input =>
      rw [hdir] at hother
      exact h.output k c other q hc hother hq
    | output =>
      rw [hdir] at hother
      cases hother
      cases hp.symm.trans hq
      exact hdir
  · exact h.output k c other q hc hother hq

end Topology

namespace Session

open Overdub.Topology

/-- Whatever a call connects fits. -/
theorem Change.fitting {a : Action} {t u : Topology} (h : Change a t u) (hlinked : t.Linked) (ht : t.Fitting) :
    u.Fitting := by
  have hsame : ∀ {chains : Arena .chain ChainInfo} key c, chains.get? key = some c → chains.get? key = none →
      c.audioOutputs.Nodup := by
    intro chains key c hc hnone
    cases hnone.symm.trans hc
  cases h with
  | openPort => exact (portsAdded_insert hlinked.ports rfl).extends.fitting ht hlinked hsame
  | @closePort _ key => exact (removePort_shrinks t key).fitting ht
  | connectPorts _ _ hne => exact ht.addSource hne
  | @disconnectPorts _ source target => exact (Shrinks.ofSources t target source).fitting ht
  | addLoop => exact (Shrinks.ofLoops t _).fitting ht
  | @deleteLoop _ key info => exact (removeLoop_shrinks t key info).fitting ht
  | setSyncSource => exact (Shrinks.ofLoops t _).fitting ht
  | addChannel => exact (Extends.ofChannel hlinked rfl rfl _).fitting ht hlinked hsame
  | @deleteChannel _ key info => exact (removeChannel_shrinks t key info).fitting ht
  | connectChannel hp _ hdir => exact hdir ▸ ht.joinChannel hp
  | @disconnectChannel _ key port => exact (Shrinks.ofChannel t key port).fitting ht
  | @addChain _ name effect =>
    exact (withChain_extends hlinked name effect.layout).1.fitting ht hlinked fun key c hc hnone =>
      withChain_distinct hlinked name effect.layout hc hnone
  | deleteChain hinfo => exact (hlinked.removeChain hinfo).2.fitting ht

/-- No call makes a connection of two ports that is there already. -/
theorem Change.single {a : Action} {t u : Topology} (h : Change a t u) (hlinked : t.Linked) (ht : t.wiring.Single) :
    u.wiring.Single := by
  cases h with
  | openPort => exact Extends.single (portsAdded_insert hlinked.ports rfl).extends ht
  | @closePort _ key =>
    rw [wiring_removePort]
    exact ht.dropPort key
  | @connectPorts _ source target src dst _ _ hdst _ _ _ hnew =>
    rw [wiring_knownSources]
    refine ht.mapSources fun sources hsources => ?_
    cases (congrArg (Option.map PortInfo.sources) hdst).symm.trans hsources
    refine (ht target dst.sources hsources).append (List.nodup_singleton source) ?_
    exact List.disjoint_singleton.2 hnew
  | @disconnectPorts _ source target =>
    rw [wiring_knownSources]
    exact ht.mapSources fun sources hsources => (ht target sources hsources).filter _
  | @addChain _ name effect => exact Extends.single (withChain_extends hlinked name effect.layout).1 ht
  | @deleteChain _ key info =>
    rw [wiring_removeChain]
    exact List.foldlRecOn (motive := Wiring.Single) _ Wiring.dropPort ht fun _ h port _ => h.dropPort port
  | _ => exact ht

theorem fitting_act {s : Session} (hlinked : s.topology.Linked) (hfitting : s.topology.Fitting)
    (hsingle : s.topology.wiring.Single) (a : Action) :
    (s.act a).topology.Fitting ∧ (s.act a).topology.wiring.Single := by
  rcases change_act s a with hsame | hchange
  · rw [hsame]
    exact ⟨hfitting, hsingle⟩
  · exact ⟨hchange.fitting hlinked hfitting, hchange.single hlinked hsingle⟩

/-- Every connection fits, and no two are the same, whatever was called. -/
theorem fitting_after (config : EngineConfig) (actions : List Action) :
    ((Session.new config).after actions).topology.Fitting ∧
      ((Session.new config).after actions).topology.wiring.Single := by
  refine (List.foldlRecOn (motive := fun s : Session =>
    s.topology.Linked ∧ s.topology.Fitting ∧ s.topology.wiring.Single) actions act
    ⟨empty_linked, empty_fitting, empty_single⟩ fun s ⟨hlinked, hfitting, hsingle⟩ a _ => ?_).2
  exact ⟨linked_act hlinked a, fitting_act hlinked hfitting hsingle a⟩

end Session

end Overdub
