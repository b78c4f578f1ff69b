import Overdub.Proofs.Calls
import Overdub.Proofs.Flow
/-!
# The order of a topology and the calls

No call leaves a reference that leads nowhere (`linked_after`), and there are few
ways to change a topology (`Change.sorts`): to drop something, to add something
that nothing is connected to yet, or to connect. Ports are connected only where an
order was found first. A channel is connected in any case, which leaves an order
exactly when the channel does not hear itself, be it through chains or through
other ports (`schedulable_joinChannel`); until some call does that, every topology
of a session has a schedule (`order_after`).
-/

namespace Overdub

namespace Topology

theorem without_eq_some {port other : PortKey} {connection : Option PortKey} :
    without port connection = some other ↔ connection = some other ∧ other ≠ port := by
  simp [without, Option.filter_eq_some_iff]

theorem empty_linked : empty.Linked := by
  refine ⟨Arena.empty_sound, Arena.empty_sound, Arena.empty_sound, ?_, ?_, ?_, ?_⟩ <;>
    intro key value port h <;> cases h

/-! ## Removals -/

theorem removePort_shrinks (t : Topology) (key : PortKey) : Shrinks t (t.removePort key) := by
  refine ⟨fun k q hq => ?_, fun k d hd => ?_, fun k c hc => hc⟩
  · simp only [removePort, forgetPort, Arena.get?_map, Arena.get?_erase, Option.map_eq_some_iff] at hq
    obtain ⟨p, hp, rfl⟩ := hq
    split_ifs at hp
    exact ⟨p, hp, rfl, fun other ho => (List.mem_filter.1 ho).1⟩
  · simp only [removePort, forgetPort, Arena.get?_map, Option.map_eq_some_iff] at hd
    obtain ⟨c, hc, rfl⟩ := hd
    exact ⟨c, hc, fun port h => (without_eq_some.1 h).1, fun port h => (without_eq_some.1 h).1⟩

/-- A port that belongs to no chain goes without leaving a reference behind. -/
theorem Linked.removePort {t : Topology} (h : t.Linked) {key : PortKey}
    (hfree : ∀ k c, t.chains.get? k = some c → key ∉ c.inputs ++ c.audioOutputs) : (t.removePort key).Linked := by
  refine (removePort_shrinks t key).linked h ((h.ports.erase key).map _) (h.channels.map _) h.chains
    fun port p hp hrefers => ?_
  have hne : port ≠ key := by
    cases hrefers with
    | input hd hport =>
      simp only [Topology.removePort, forgetPort, Arena.get?_map, Option.map_eq_some_iff] at hd
      obtain ⟨c, -, rfl⟩ := hd
      exact (without_eq_some.1 hport).2
    | output hd hport =>
      simp only [Topology.removePort, forgetPort, Arena.get?_map, Option.map_eq_some_iff] at hd
      obtain ⟨c, -, rfl⟩ := hd
      exact (without_eq_some.1 hport).2
    | source hq hport =>
      simp only [Topology.removePort, forgetPort, Arena.get?_map, Option.map_eq_some_iff] at hq
      obtain ⟨q, -, rfl⟩ := hq
      simpa using (List.mem_filter.1 hport).2
    | chain hc hport =>
      rintro rfl
      exact hfree _ _ hc hport
  refine ⟨{ p with sources := p.sources.filter (· ≠ key) }, ?_, rfl⟩
  simp [Topology.removePort, forgetPort, Arena.get?_map, Arena.get?_erase, hne, hp]

/-- Changes of the loops alone. -/
theorem Shrinks.ofLoops (t : Topology) (loops : Arena .loop LoopInfo) : Shrinks t { t with loops } :=
  ⟨fun _ q hq => ⟨q, hq, rfl, fun _ ho => ho⟩, fun _ d hd => ⟨d, hd, fun _ h => h, fun _ h => h⟩, fun _ _ hc => hc⟩

theorem Linked.withLoops {t : Topology} (h : t.Linked) (loops : Arena .loop LoopInfo) : { t with loops }.Linked :=
  ⟨h.ports, h.channels, h.chains, h.input, h.output, h.source, h.owned⟩

/-- Channels go, or lose connections, and the loops follow. -/
theorem Shrinks.ofChannels {t : Topology} {channels : Arena .channel ChannelInfo} (loops : Arena .loop LoopInfo)
    (h : ∀ key d, channels.get? key = some d → ∃ c, t.channels.get? key = some c ∧
      (∀ port, d.input = some port → c.input = some port) ∧ ∀ port, d.output = some port → c.output = some port) :
    Shrinks t { t with channels, loops } :=
  ⟨fun _ q hq => ⟨q, hq, rfl, fun _ ho => ho⟩, h, fun _ _ hc => hc⟩

theorem Linked.dropChannels {t : Topology} (h : t.Linked) {channels : Arena .channel ChannelInfo}
    {loops : Arena .loop LoopInfo} (hs : Shrinks t { t with channels, loops }) (hsound : channels.Sound) :
    { t with channels, loops }.Linked :=
  hs.linked h h.ports hsound h.chains fun _ p hp _ => ⟨p, hp, rfl⟩

theorem get?_foldl_erase {kind : ObjectKind} {α : Type} {a : Arena kind α} (keys : List (Key kind)) {key : Key kind}
    {value : α} (h : (keys.foldl Arena.erase a).get? key = some value) : a.get? key = some value := by
  induction keys generalizing a with
  | nil => exact h
  | cons first keys ih =>
    have hstep := ih h
    rw [Arena.get?_erase] at hstep
    split_ifs at hstep
    exact hstep

theorem sound_foldl_erase {kind : ObjectKind} {α : Type} {a : Arena kind α} (h : a.Sound) (keys : List (Key kind)) :
    (keys.foldl Arena.erase a).Sound := by
  induction keys generalizing a with
  | nil => exact h
  | cons first keys ih => exact ih (h.erase first)

theorem removeLoop_shrinks (t : Topology) (key : LoopKey) (info : LoopInfo) : Shrinks t (t.removeLoop key info) :=
  .ofChannels _ fun _ d hd => ⟨d, get?_foldl_erase _ hd, fun _ h => h, fun _ h => h⟩

theorem removeChannel_shrinks (t : Topology) (key : ChannelKey) (info : ChannelInfo) :
    Shrinks t (t.removeChannel key info) :=
  .ofChannels _ fun k d hd => by
    rw [Arena.get?_erase] at hd
    split_ifs at hd
    exact ⟨d, hd, fun _ h => h, fun _ h => h⟩

theorem Shrinks.refl (t : Topology) : Shrinks t t := .ofLoops t t.loops

theorem Shrinks.trans {t u v : Topology} (h : Shrinks t u) (h' : Shrinks u v) : Shrinks t v := by
  refine ⟨fun key r hr => ?_, fun key e he => ?_, fun key c hc => h.chains key c (h'.chains key c hc)⟩
  · obtain ⟨q, hq, hrq, hsources⟩ := h'.ports key r hr
    obtain ⟨p, hp, hqp, hsources'⟩ := h.ports key q hq
    exact ⟨p, hp, hrq.trans hqp, fun other ho => hsources' other (hsources other ho)⟩
  · obtain ⟨d, hd, hin, hout⟩ := h'.channels key e he
    obtain ⟨c, hc, hin', hout'⟩ := h.channels key d hd
    exact ⟨c, hc, fun port hp => hin' port (hin port hp), fun port hp => hout' port (hout port hp)⟩

/-- Ports that no chain has go in turn. -/
theorem Linked.removePorts {t : Topology} (h : t.Linked) {keys : List PortKey}
    (hfree : ∀ key ∈ keys, ∀ k c, t.chains.get? k = some c → key ∉ c.inputs ++ c.audioOutputs) :
    (keys.foldl Topology.removePort t).Linked ∧ Shrinks t (keys.foldl Topology.removePort t) := by
  induction keys generalizing t with
  | nil => exact ⟨h, .refl t⟩
  | cons key keys ih =>
    obtain ⟨hkey, hkeys⟩ := List.forall_mem_cons.1 hfree
    obtain ⟨hlinked, hshrinks⟩ := ih (h.removePort hkey) hkeys
    exact ⟨hlinked, (removePort_shrinks t key).trans hshrinks⟩

/-- The ports of a chain go with it. -/
theorem Linked.removeChain {t : Topology} (h : t.Linked) {key : ChainKey} {info : ChainInfo}
    (hinfo : t.chains.get? key = some info) :
    (t.removeChain key info).Linked ∧ Shrinks t (t.removeChain key info) := by
  have hget : ∀ k c, (t.chains.erase key).get? k = some c → k ≠ key ∧ t.chains.get? k = some c := by
    intro k c hc
    rw [Arena.get?_erase] at hc
    split_ifs at hc with hk
    exact ⟨hk, hc⟩
  have hfirst : Shrinks t { t with chains := t.chains.erase key } :=
    ⟨fun _ q hq => ⟨q, hq, rfl, fun _ ho => ho⟩, fun _ d hd => ⟨d, hd, fun _ h => h, fun _ h => h⟩,
      fun k c hc => (hget k c hc).2⟩
  have hlinked : { t with chains := t.chains.erase key }.Linked :=
    hfirst.linked h h.ports h.channels (h.chains.erase key) fun _ p hp _ => ⟨p, hp, rfl⟩
  have hfree : ∀ port ∈ info.inputs ++ info.audioOutputs, ∀ k c, (t.chains.erase key).get? k = some c →
      port ∉ c.inputs ++ c.audioOutputs := by
    intro port hport k c hc hlisted
    obtain ⟨hne, hold⟩ := hget k c hc
    obtain ⟨p, hp, howner⟩ := h.owned key info port hinfo hport
    obtain ⟨q, hq, howner'⟩ := h.owned k c port hold hlisted
    cases hp.symm.trans hq
    exact hne (by simpa using howner'.symm.trans howner)
  obtain ⟨hlinked', hshrinks⟩ := hlinked.removePorts hfree
  exact ⟨hlinked', hfirst.trans hshrinks⟩

/-! ## Additions -/

/-- `u` has all of `t` and new ports without sources, all of one owner. -/
structure PortsAdded (owner : PortOwner) (t u : Topology) : Prop where
  channels : u.channels = t.channels
  chains : u.chains = t.chains
  sound : t.ports.Sound → u.ports.Sound
  kept : ∀ key p, t.ports.get? key = some p → u.ports.get? key = some p
  added : ∀ key q, u.ports.get? key = some q →
    t.ports.get? key = some q ∨ t.ports.get? key = none ∧ q.sources = [] ∧ q.owner = owner

theorem PortsAdded.refl (owner : PortOwner) (t : Topology) : PortsAdded owner t t :=
  ⟨rfl, rfl, id, fun _ _ h => h, fun _ _ h => .inl h⟩

theorem PortsAdded.new {owner : PortOwner} {t u : Topology} (h : PortsAdded owner t u) {key : PortKey}
    (hnone : u.ports.get? key = none) : t.ports.get? key = none := by
  cases ht : t.ports.get? key with
  | none => rfl
  | some p => rw [h.kept key p ht] at hnone; cases hnone

theorem PortsAdded.trans {owner : PortOwner} {t u v : Topology} (h : PortsAdded owner t u) (h' : PortsAdded owner u v) :
    PortsAdded owner t v := by
  refine ⟨h'.channels.trans h.channels, h'.chains.trans h.chains, fun hs => h'.sound (h.sound hs),
    fun key p hp => h'.kept key p (h.kept key p hp), fun key q hq => ?_⟩
  rcases h'.added key q hq with hu | ⟨hnone, hq'⟩
  · exact h.added key q hu
  · exact .inr ⟨h.new hnone, hq'⟩

theorem portsAdded_insert {t : Topology} (hsound : t.ports.Sound) {p : PortInfo} (hp : p.sources = []) :
    PortsAdded p.owner t { t with ports := (t.ports.insert p).2 } := by
  refine ⟨rfl, rfl, fun hs => hs.insert p, fun key q hq => ?_, fun key q hq => ?_⟩
  · show (t.ports.insert p).2.get? key = some q
    rw [hsound.get?_insert, if_neg, hq]
    rintro rfl
    rw [hsound.get?_issued] at hq
    cases hq
  · have hq' : (t.ports.insert p).2.get? key = some q := hq
    rw [hsound.get?_insert] at hq'
    split_ifs at hq' with hkey
    · cases hq'
      exact .inr ⟨hkey ▸ hsound.get?_issued p, hp, rfl⟩
    · exact .inl hq'

/-- New ports that nothing is connected to. -/
theorem PortsAdded.extends {owner : PortOwner} {t u : Topology} (h : PortsAdded owner t u) : Extends t u :=
  ⟨h.kept, fun key q hq => (h.added key q hq).imp id fun h => ⟨h.1, h.2.1⟩, fun _ _ hd => .inl (h.channels ▸ hd),
    fun _ _ hc => .inl (h.chains ▸ hc)⟩

theorem PortsAdded.linked {owner : PortOwner} {t u : Topology} (h : PortsAdded owner t u) (ht : t.Linked) : u.Linked :=
  h.extends.linked ht (h.sound ht.ports) (h.channels ▸ ht.channels) (h.chains ▸ ht.chains) fun key c hc hnone => by
    rw [h.chains, hnone] at hc
    cases hc

/-- A new channel has no ports yet. -/
theorem Extends.ofChannel {t : Topology} (ht : t.Linked) {c : ChannelInfo} (hin : c.input = none) (hout : c.output = none)
    (loops : Arena .loop LoopInfo) : Extends t { t with channels := (t.channels.insert c).2, loops } := by
  refine ⟨fun _ _ h => h, fun _ _ h => .inl h, fun key d hd => ?_, fun _ _ hc => .inl hc⟩
  have hd' : (t.channels.insert c).2.get? key = some d := hd
  rw [ht.channels.get?_insert] at hd'
  split_ifs at hd' with hkey
  · cases hd'
    exact .inr ⟨hkey ▸ ht.channels.get?_issued c, hin, hout⟩
  · exact .inl hd'

theorem Linked.insertChannel {t : Topology} (ht : t.Linked) {c : ChannelInfo} (hin : c.input = none)
    (hout : c.output = none) (loops : Arena .loop LoopInfo) :
    { t with channels := (t.channels.insert c).2, loops }.Linked :=
  (Extends.ofChannel ht hin hout loops).linked ht ht.ports (ht.channels.insert c) ht.chains fun key c hc hnone => by
    have hc' : t.chains.get? key = some c := hc
    rw [hnone] at hc'
    cases hc'

open Session (withChainPorts withChain knownSources joined)

/-- The listed ports of `u` are not of `t`; they are the chain's own, in the given direction. -/
def OwnPorts (chain : ChainKey) (direction : Direction) (t u : Topology) (keys : List PortKey) : Prop :=
  ∀ key ∈ keys, t.ports.get? key = none ∧
    ∃ p, u.ports.get? key = some p ∧ p.direction = direction ∧ p.owner = .chain chain

theorem OwnPorts.later {chain : ChainKey} {direction : Direction} {owner : PortOwner} {t u v : Topology}
    {keys : List PortKey} (h : OwnPorts chain direction t u keys) (h' : PortsAdded owner u v) :
    OwnPorts chain direction t v keys := fun key hkey => by
  obtain ⟨hnew, p, hp, hprops⟩ := h key hkey
  exact ⟨hnew, p, h'.kept key p hp, hprops⟩

theorem OwnPorts.earlier {chain : ChainKey} {direction : Direction} {owner : PortOwner} {t u v : Topology}
    {keys : List PortKey} (h : OwnPorts chain direction u v keys) (h' : PortsAdded owner t u) :
    OwnPorts chain direction t v keys := fun key hkey => (h key hkey).imp h'.new id

/-- The ports of one side of a chain. -/
theorem withChainPorts_added {t : Topology} (hsound : t.ports.Sound) (chain : ChainKey) (label : String)
    (dataType : DataType) (direction : Direction) (count : Nat) :
    PortsAdded (.chain chain) t (withChainPorts chain label dataType direction count t).2 ∧
      OwnPorts chain direction t (withChainPorts chain label dataType direction count t).2
        (withChainPorts chain label dataType direction count t).1 := by
  unfold withChainPorts
  refine List.foldlRecOn (motive := fun added : List PortKey × Topology =>
    PortsAdded (.chain chain) t added.2 ∧ OwnPorts chain direction t added.2 added.1)
    _ _ ⟨.refl _ t, List.forall_mem_nil _⟩ fun (keys, u) ⟨hadded, hkeys⟩ i _ => ?_
  dsimp only at hadded hkeys ⊢
  have hu := hadded.sound hsound
  have hstep := portsAdded_insert hu (p := { name := s!"{label}_{i + 1}", dataType, direction, owner := .chain chain }) rfl
  refine ⟨hadded.trans hstep, fun key hkey => ?_⟩
  rcases List.mem_append.1 hkey with hkey | hkey
  · exact hkeys.later hstep key hkey
  · obtain rfl := List.mem_singleton.1 hkey
    exact ⟨hadded.new (hu.get?_issued _), _, (hu.get?_insert _ _).trans (if_pos rfl), rfl, rfl⟩

/-- A new chain has new ports of its own, and nobody is connected to them yet. -/
theorem withChain_extends {t : Topology} (ht : t.Linked) (name : String) (layout : Effect.Layout) :
    Extends t (withChain name layout t) ∧ (withChain name layout t).Linked := by
  have hissued := ht.chains.get?_issued { name }
  have hget := ht.chains.get?_insert { name }
  have hsound := ht.chains.insert { name }
  unfold withChain
  generalize t.chains.insert { name } = inserted at hissued hget hsound ⊢
  obtain ⟨key, chains⟩ := inserted
  have h₁ := withChainPorts_added (t := { t with chains }) ht.ports key s!"{name}_in" .audio .output layout.audioInputs
  dsimp only at hissued hget hsound h₁ ⊢
  generalize withChainPorts key s!"{name}_in" .audio .output layout.audioInputs { t with chains } = side₁ at h₁ ⊢
  obtain ⟨audioInputs, t₁⟩ := side₁
  have h₂ := withChainPorts_added (h₁.1.sound ht.ports) key s!"{name}_out" .audio .input layout.audioOutputs
  dsimp only at h₁ h₂ ⊢
  generalize withChainPorts key s!"{name}_out" .audio .input layout.audioOutputs t₁ = side₂ at h₂ ⊢
  obtain ⟨audioOutputs, t₂⟩ := side₂
  have h₁₂ := h₁.1.trans h₂.1
  have h₃ := withChainPorts_added (h₁₂.sound ht.ports) key s!"{name}_midi_in" .midi .output layout.midiInputs
  dsimp only at h₂ h₁₂ h₃ ⊢
  generalize withChainPorts key s!"{name}_midi_in" .midi .output layout.midiInputs t₂ = side₃ at h₃ ⊢
  obtain ⟨midiInputs, t₃⟩ := side₃
  have hall := h₁₂.trans h₃.1
  dsimp only at h₃ hall ⊢
  -- the sides of the chain, as they are in the end
  have hin := (h₁.2.later h₂.1).later h₃.1
  have hout := (h₂.2.later h₃.1).earlier h₁.1
  have hmidi := h₃.2.earlier h₁₂
  have hchain : ∀ k, (t₃.chains.set key { name, audioInputs, audioOutputs, midiInputs }).get? k =
      if k = key then some { name, audioInputs, audioOutputs, midiInputs } else t.chains.get? k := by
    intro k
    rw [Arena.get?_set, hall.chains, hget key, hget k, if_pos rfl]
    split_ifs <;> rfl
  have hextends : Extends t
      { t₃ with chains := t₃.chains.set key { name, audioInputs, audioOutputs, midiInputs } } := by
    refine ⟨hall.kept, fun k q hq => (hall.added k q hq).imp id fun h => ⟨h.1, h.2.1⟩,
      fun _ _ hd => .inl (hall.channels ▸ hd), fun k c hc => ?_⟩
    rw [hchain] at hc
    split_ifs at hc with hk
    · cases hc
      refine .inr ⟨hk ▸ hissued, fun port hport => ?_, fun port hport => ?_⟩
      · obtain ⟨hnew, p, hp, hdir, -⟩ := (List.mem_append.1 hport).elim (hin port) (hmidi port)
        exact ⟨hnew, p, hp, hdir⟩
      · obtain ⟨hnew, p, hp, hdir, -⟩ := hout port hport
        exact ⟨hnew, p, hp, hdir⟩
    · exact .inl hc
  refine ⟨hextends, hextends.linked ht (hall.sound ht.ports) ?_ ?_ fun k c hc hnone port hport => ?_⟩
  · show t₃.channels.Sound
    rw [hall.channels]
    exact ht.channels
  · show (t₃.chains.set _ _).Sound
    rw [hall.chains]
    exact hsound.modify _ _
  · rw [hchain] at hc
    split_ifs at hc with hk
    · cases hc
      subst hk
      have hown : (∃ p, t₃.ports.get? port = some p ∧ p.owner = .chain k) := by
        rcases List.mem_append.1 hport with hport | hport
        · obtain ⟨-, p, hp, -, howner⟩ := (List.mem_append.1 hport).elim (hin port) (hmidi port)
          exact ⟨p, hp, howner⟩
        · obtain ⟨-, p, hp, -, howner⟩ := hout port hport
          exact ⟨p, hp, howner⟩
      exact hown
    · rw [hnone] at hc
      cases hc

/-! ## Connections -/

theorem get?_knownSources (t : Topology) (target : PortKey) (f : List PortKey → List PortKey) (key : PortKey) :
    (knownSources t target f).ports.get? key =
      (t.ports.get? key).map fun p => if key = target then { p with sources := f p.sources } else p :=
  Arena.get?_modify_eq_map ..

theorem Shrinks.ofSources (t : Topology) (target source : PortKey) :
    Shrinks t (knownSources t target (List.filter (· ≠ source))) := by
  refine ⟨fun key q hq => ?_, fun _ d hd => ⟨d, hd, fun _ h => h, fun _ h => h⟩, fun _ _ hc => hc⟩
  rw [get?_knownSources] at hq
  obtain ⟨p, hp, rfl⟩ := Option.map_eq_some_iff.1 hq
  refine ⟨p, hp, by split_ifs <;> rfl, fun other ho => ?_⟩
  split_ifs at ho
  · exact (List.mem_filter.1 ho).1
  · exact ho

theorem Linked.dropSource {t : Topology} (h : t.Linked) (target source : PortKey) :
    (knownSources t target (List.filter (· ≠ source))).Linked := by
  refine (Shrinks.ofSources t target source).linked h (h.ports.modify _ _) h.channels h.chains fun port p hp _ => ?_
  refine ⟨_, (get?_knownSources ..).trans (congrArg _ hp), ?_⟩
  dsimp only [Option.map_some]
  split_ifs <;> rfl

/-- A connection to a port that exists. -/
theorem Linked.addSource {t : Topology} (h : t.Linked) {target source : PortKey}
    (hsource : t.ports.contains source = true) : (knownSources t target (· ++ [source])).Linked := by
  have hports : ∀ port, (knownSources t target (· ++ [source])).ports.contains port = t.ports.contains port := by
    intro port
    simp only [Arena.contains, get?_knownSources, Option.isSome_map]
  refine ⟨h.ports.modify _ _, h.channels, h.chains, fun key c port hc hport => ?_, fun key c port hc hport => ?_,
    fun key q other hq ho => ?_, fun key c port hc hport => ?_⟩
  · exact (hports port).trans (h.input key c port hc hport)
  · exact (hports port).trans (h.output key c port hc hport)
  · rw [get?_knownSources] at hq
    obtain ⟨p, hp, rfl⟩ := Option.map_eq_some_iff.1 hq
    rw [hports]
    split_ifs at ho with hk
    · rcases List.mem_append.1 ho with ho | ho
      · exact h.source key p other hp ho
      · exact List.mem_singleton.1 ho ▸ hsource
    · exact h.source key p other hp ho
  · obtain ⟨p, hp, howner⟩ := h.owned key c port hc hport
    refine ⟨_, (get?_knownSources ..).trans (congrArg _ hp), ?_⟩
    dsimp only [Option.map_some]
    split_ifs <;> exact howner

theorem Shrinks.ofChannel (t : Topology) (key : ChannelKey) (port : PortKey) :
    Shrinks t { t with
      channels := t.channels.modify key fun c =>
        { c with input := without port c.input, output := without port c.output } } :=
  .ofChannels t.loops fun k d hd => by
    rw [Arena.get?_modify_eq_map] at hd
    obtain ⟨c, hc, rfl⟩ := Option.map_eq_some_iff.1 hd
    refine ⟨c, hc, fun other ho => ?_, fun other ho => ?_⟩ <;> split_ifs at ho <;>
      first | exact ho | exact (without_eq_some.1 ho).1

/-- A connection of a channel to a port that exists. -/
theorem Linked.joinChannel {t : Topology} (h : t.Linked) {key : ChannelKey} {port : PortKey}
    (hport : t.ports.contains port = true) (direction : Direction) :
    { t with channels := t.channels.modify key (joined port direction) }.Linked := by
  refine ⟨h.ports, h.channels.modify _ _, h.chains, fun k d other hd ho => ?_, fun k d other hd ho => ?_, h.source,
    h.owned⟩
  all_goals
    rw [Arena.get?_modify_eq_map] at hd
    obtain ⟨c, hc, rfl⟩ := Option.map_eq_some_iff.1 hd
    split_ifs at ho with hk
    · cases direction with
      | input =>
        first
        | exact h.output k c other hc ho
        | exact Option.some.inj ho ▸ hport
      | output =>
        first
        | exact h.input k c other hc ho
        | exact Option.some.inj ho ▸ hport
    · first
      | exact h.input k c other hc ho
      | exact h.output k c other hc ho

/-! ## A connection of a channel and the circle it may close -/

/-- The output of a node comes back to it along the edges of the graph. -/
def Circle (t : Topology) (id : NodeId) : Prop :=
  Relation.TransGen (fun a b => (a, b) ∈ (Graph.ofTopology t).edges) id id

theorem Ranked.le {t : Topology} {rank : NodeId → Nat} (h : t.Ranked rank) {a b : NodeId}
    (hpath : Relation.ReflTransGen (fun a b => (a, b) ∈ (Graph.ofTopology t).edges) a b)
    (hsingle : a.coProcessed = false) : rank a ≤ rank b := by
  induction hpath using Relation.ReflTransGen.head_induction_on with
  | refl => exact le_rfl
  | @head a c hedge _ ih =>
    obtain ⟨hflow, ha, hc⟩ := (Graph.mem_edges t a c).1 hedge
    have hle := ih hflow.target_single
    by_cases hne : a = c
    · rwa [hne]
    · exact ((h a c hflow ha hc hne hsingle).trans_le hle).le

/-- A channel on a circle leaves no order. -/
theorem Circle.not_schedulable {t : Topology} {key : ChannelKey} (h : t.Circle (.channel key)) : ¬t.Schedulable := by
  rw [schedulable_iff]
  rintro ⟨rank, hrank⟩
  obtain ⟨b, hedge, hpath⟩ := Relation.TransGen.head'_iff.1 h
  obtain ⟨hflow, ha, hb⟩ := (Graph.mem_edges t _ b).1 hedge
  have hne : NodeId.channel key ≠ b := by cases hflow; simp
  have hlt := hrank _ b hflow ha hb hne rfl
  have hle := hrank.le hpath hflow.target_single
  omega

/-- New edges at one node leave a ranking, unless they close a circle at it. -/
theorem ranked_of_no_circle {t u : Topology} {rank : NodeId → Nat} (hrank : t.Ranked rank) {id : NodeId}
    (hsingle : id.coProcessed = false) (hflow : ∀ a b, u.Flow a b → t.Flow a b ∨ a = id ∨ b = id)
    (hhas : ∀ a, u.Has a → t.Has a) (hfree : ¬u.Circle id) : ∃ rank, u.Ranked rank := by
  classical
  let Reached (b : NodeId) : Prop := Relation.TransGen (fun a b => (a, b) ∈ (Graph.ofTopology u).edges) id b
  let bound := (Graph.ofTopology u).edges.toFinset.sup (fun e => rank e.1) + 1
  have hbound : ∀ a b, (a, b) ∈ (Graph.ofTopology u).edges → rank a < bound := fun a b hedge =>
    Nat.lt_succ_of_le (Finset.le_sup (f := fun e : NodeId × NodeId => rank e.1) (List.mem_toFinset.2 hedge))
  refine ⟨fun b => if b = id then bound else if Reached b then rank b + bound + 1 else rank b,
    fun a b hab ha hb hne hsingle' => ?_⟩
  have hedge : (a, b) ∈ (Graph.ofTopology u).edges := (Graph.mem_edges u a b).2 ⟨hab, ha, hb⟩
  dsimp only
  by_cases haid : a = id
  · subst haid
    have hreached : Reached b := .single hedge
    rw [if_pos rfl, if_neg (Ne.symm hne), if_pos hreached]
    omega
  by_cases hbid : b = id
  · subst hbid
    have hnot : ¬Reached a := fun hreached => hfree (hreached.tail hedge)
    rw [if_neg haid, if_neg hnot, if_pos rfl]
    exact hbound a b hedge
  have hlt : rank a < rank b := by
    rcases hflow a b hab with hab | h | h
    · exact hrank a b hab (hhas a ha) (hhas b hb) hne hsingle'
    · exact absurd h haid
    · exact absurd h hbid
  rw [if_neg haid, if_neg hbid]
  by_cases hreached : Reached a
  · rw [if_pos hreached, if_pos (hreached.tail hedge)]
    omega
  · rw [if_neg hreached]
    split_ifs <;> omega

theorem flow_joinChannel {t : Topology} {key : ChannelKey} {port : PortKey} {direction : Direction} {a b : NodeId}
    (h : Flow { t with channels := t.channels.modify key (joined port direction) } a b) :
    t.Flow a b ∨ a = .channel key ∨ b = .channel key := by
  have hother : ∀ k d, (t.channels.modify key (joined port direction)).get? k = some d →
      k = key ∨ t.channels.get? k = some d := by
    intro k d hd
    rw [Arena.get?_modify] at hd
    split_ifs at hd with hk
    · exact .inl hk
    · exact .inr hd
  cases h with
  | port hp => exact .inl (.port hp)
  | loop hd =>
    rcases hother _ _ hd with rfl | hc
    · exact .inr (.inr rfl)
    · exact .inl (.loop hc)
  | record hd hport =>
    rcases hother _ _ hd with rfl | hc
    · exact .inr (.inr rfl)
    · exact .inl (.record hc hport)
  | mix hd hport =>
    rcases hother _ _ hd with rfl | hc
    · exact .inr (.inr rfl)
    · exact .inl (.mix hc hport)
  | play hd hport =>
    rcases hother _ _ hd with rfl | hc
    · exact .inr (.inl rfl)
    · exact .inl (.play hc hport)
  | source hp ho => exact .inl (.source hp ho)
  | effect hc hport => exact .inl (.effect hc hport)
  | result hc hport => exact .inl (.result hc hport)

/-- A channel that is connected leaves an order exactly when it closes no circle. -/
theorem schedulable_joinChannel {t : Topology} (h : t.Schedulable) (key : ChannelKey) (port : PortKey)
    (direction : Direction) :
    Schedulable { t with channels := t.channels.modify key (joined port direction) } ↔
      ¬Circle { t with channels := t.channels.modify key (joined port direction) } (.channel key) := by
  refine ⟨fun h hcircle => hcircle.not_schedulable h, fun hfree => ?_⟩
  obtain ⟨rank, hrank⟩ := (schedulable_iff t).1 h
  refine (schedulable_iff _).2 (ranked_of_no_circle hrank rfl (fun a b => flow_joinChannel) (fun a ha => ?_) hfree)
  cases a with
  | channel k =>
    have hk : ((t.channels.modify key (joined port direction)).get? k).isSome = true := ha
    rw [Arena.get?_modify_eq_map, Option.isSome_map] at hk
    exact hk
  | _ => exact ha

end Topology

end Overdub

namespace Overdub.Session

open Overdub.Topology

/-! ## Calls -/

/-- A change takes objects or connections away, or adds objects that nothing is connected to, or it is a connection:
one of ports comes with an order, one of a channel is made in any case. -/
theorem Change.sorts {a : Action} {t u : Topology} (h : Change a t u) (ht : t.Linked) :
    u.Linked ∧ (Shrinks t u ∨ Extends t u ∨ u.Schedulable ∨ ∃ key port direction,
      a = .connectChannel key port direction ∧
        u = { t with channels := t.channels.modify key (joined port direction) }) := by
  cases h with
  | @openPort _ name dataType direction =>
    have hadded := portsAdded_insert ht.ports (p := { name, dataType, direction, owner := .driver }) rfl
    exact ⟨hadded.linked ht, .inr (.inl hadded.extends)⟩
  | @closePort _ key info hinfo howner =>
    refine ⟨ht.removePort fun k c hc hlisted => ?_, .inl (removePort_shrinks t key)⟩
    obtain ⟨p, hp, howner'⟩ := ht.owned k c key hc hlisted
    cases hinfo.symm.trans hp
    rw [howner] at howner'
    cases howner'
  | connectPorts hsrc hdst hne hdir htype hnew horder =>
    exact ⟨ht.addSource (Option.isSome_iff_exists.2 ⟨_, hsrc⟩), .inr (.inr (.inl (schedulable_of_ok horder)))⟩
  | @disconnectPorts _ source target => exact ⟨ht.dropSource target source, .inl (.ofSources t target source)⟩
  | addLoop => exact ⟨ht.withLoops _, .inl (.ofLoops t _)⟩
  | @deleteLoop _ key info =>
    have hless := removeLoop_shrinks t key info
    exact ⟨ht.dropChannels hless (sound_foldl_erase ht.channels _), .inl hless⟩
  | setSyncSource => exact ⟨ht.withLoops _, .inl (.ofLoops t _)⟩
  | addChannel => exact ⟨ht.insertChannel rfl rfl _, .inr (.inl (.ofChannel ht rfl rfl _))⟩
  | @deleteChannel _ key info =>
    have hless := removeChannel_shrinks t key info
    exact ⟨ht.dropChannels hless (ht.channels.erase key), .inl hless⟩
  | @connectChannel _ key port direction p c hp =>
    exact ⟨ht.joinChannel (Option.isSome_iff_exists.2 ⟨_, hp⟩) direction,
      .inr (.inr (.inr ⟨key, port, direction, rfl, rfl⟩))⟩
  | @disconnectChannel _ key port =>
    have hless := Shrinks.ofChannel t key port
    exact ⟨ht.dropChannels hless (ht.channels.modify _ _), .inl hless⟩
  | @addChain _ name effect =>
    obtain ⟨hmore, hlinked⟩ := withChain_extends ht name effect.layout
    exact ⟨hlinked, .inr (.inl hmore)⟩
  | deleteChain hinfo =>
    obtain ⟨hlinked, hless⟩ := ht.removeChain hinfo
    exact ⟨hlinked, .inl hless⟩

theorem Change.ports_ordered {source target : PortKey} {t u : Topology} (h : Change (.connectPorts source target) t u) :
    u.Schedulable := by
  cases h with
  | connectPorts _ _ _ _ _ _ horder => exact schedulable_of_ok horder

/-- Only a channel that closes a circle takes the order away. -/
theorem Change.order {a : Action} {t u : Topology} (h : Change a t u) (ht : t.Linked) (horder : t.Schedulable) :
    u.Schedulable ∨ ∃ key port direction, a = .connectChannel key port direction ∧ u.Circle (.channel key) := by
  obtain ⟨rank, hrank⟩ := (schedulable_iff t).1 horder
  rcases (h.sorts ht).2 with hless | hmore | hdone | ⟨key, port, direction, rfl, rfl⟩
  · exact .inl ((schedulable_iff u).2 ⟨rank, hless.ranked hrank⟩)
  · exact .inl ((schedulable_iff u).2 (hmore.ranked ht hrank))
  · exact .inl hdone
  · rw [schedulable_joinChannel horder]
    exact (em _).symm.imp_right fun hcircle => ⟨key, port, direction, rfl, hcircle⟩

/-! ## Runs of calls -/

theorem linked_act {s : Session} (h : s.topology.Linked) (a : Action) : (s.act a).topology.Linked := by
  rcases change_act s a with hsame | hchange
  · rwa [hsame]
  · exact (hchange.sorts h).1

/-- No call leaves a reference that leads nowhere. -/
theorem linked_after (config : EngineConfig) (actions : List Action) :
    ((Session.new config).after actions).topology.Linked :=
  List.foldlRecOn (motive := fun s : Session => s.topology.Linked) actions act empty_linked
    fun _ h a _ => linked_act h a

theorem order_act {s : Session} (h : s.topology.Linked) (horder : s.topology.Schedulable) (a : Action) :
    (s.act a).topology.Schedulable ∨
      ∃ key port direction, a = .connectChannel key port direction ∧ (s.act a).topology.Circle (.channel key) := by
  rcases change_act s a with hsame | hchange
  · exact .inl (hsame ▸ horder)
  · exact hchange.order h horder

theorem empty_schedulable : Topology.empty.Schedulable := by
  refine (schedulable_iff _).2 ⟨fun _ => 0, fun a b hflow ha => ?_⟩
  cases a <;> simp [Has, Topology.empty, Arena.contains, Arena.get?, Arena.empty] at ha

/-- A run of calls leaves an order, unless one of them connected a channel to itself. -/
theorem order_after (config : EngineConfig) (actions : List Action) :
    ((Session.new config).after actions).topology.Schedulable ∨
      ∃ before key port direction later, actions = before ++ .connectChannel key port direction :: later ∧
        ((Session.new config).after before).topology.Schedulable ∧
        ((Session.new config).after (before ++ [.connectChannel key port direction])).topology.Circle
          (.channel key) := by
  induction actions using List.reverseRecOn with
  | nil => exact .inl empty_schedulable
  | append_singleton actions a ih =>
    rcases ih with horder | ⟨before, key, port, direction, later, rfl, hcircle⟩
    · rw [after_append]
      rcases order_act (linked_after config actions) horder a with hdone | ⟨key, port, direction, rfl, hcircle⟩
      · exact .inl hdone
      · exact .inr ⟨actions, key, port, direction, [], rfl, horder, by rwa [after_append]⟩
    · exact .inr ⟨before, key, port, direction, later ++ [a], by simp, hcircle⟩

/-! ## Refused connections -/

/-- If the call fails, it has changed nothing. -/
def Undone {α : Type} (c : Call α) : Prop := ∀ (s : Session) (e : Error), (s.call c).1 = .error e → (s.call c).2 = s

section Undone

variable {α β : Type} {kind : ObjectKind}

/-- A step that changes nothing, and then one that changes nothing when it fails. -/
theorem Undone.bind {c : Call α} {f : α → Call β} (hc : Reads c) (hf : ∀ a, Undone (f a)) : Undone (c >>= f) := by
  intro s e
  rw [call_bind]
  have h := hc s
  generalize s.call c = made at h ⊢
  obtain ⟨e' | a, s'⟩ := made
  · exact fun _ => h
  · obtain rfl : s' = s := h
    exact hf a s' e

theorem Undone.lookup {arena : Topology → Arena kind α} {key : Key kind} {f : α → Call β} (hf : ∀ a, Undone (f a)) :
    Undone (lookup arena key >>= f) := .bind (.lookup arena key) hf

theorem Undone.require {condition : Bool} {reason : String} {f : Unit → Call β} (hf : Undone (f ())) :
    Undone (require condition reason >>= f) := .bind (.require condition reason) fun _ => hf

theorem Undone.commit (t : Topology) (command : Engine → Except Error Engine) : Undone (commit t command) := by
  intro s e h
  rw [call_commit] at h ⊢
  split at h
  · cases h
  · rfl

end Undone

theorem connectPorts_undone (source target : PortKey) : Undone (connectPorts source target) := by
  refine .lookup fun src => .lookup fun dst => .require (.require (.require ?_))
  split
  · exact fun s e h => by cases h
  · exact .bind .get fun s => .bind (.lift _) fun order => .commit _ _

theorem connectChannel_undone (key : ChannelKey) (port : PortKey) (direction : Direction) :
    Undone (connectChannel key port direction) := by
  refine .lookup fun p => .lookup fun c => .require (.require ?_)
  exact .bind .get fun s => .commit _ _

/-- Only a channel can take the order of a topology away. A run of calls leaves a schedule for every request, unless a
channel was connected so that its own output comes back to it; that call is accepted. A refused connection changes
nothing, an accepted connection of ports leaves an order, and one of a channel does exactly if it closes no circle. -/
theorem topology_keeps_order (config : EngineConfig) (actions : List Action) :
    let s := (Session.new config).after actions
    (s.topology.Schedulable ∨
      ∃ before key port direction later, actions = before ++ .connectChannel key port direction :: later ∧
        ((Session.new config).after before).topology.Schedulable ∧
        ((Session.new config).after (before ++ [.connectChannel key port direction])).topology.Circle
          (.channel key)) ∧
    (∀ source target e, (s.call (connectPorts source target)).1 = .error e → s.act (.connectPorts source target) = s) ∧
    (∀ key port direction e, (s.call (connectChannel key port direction)).1 = .error e →
      s.act (.connectChannel key port direction) = s) ∧
    (∀ source target, (s.act (.connectPorts source target)).topology = s.topology ∨
      (s.act (.connectPorts source target)).topology.Schedulable) ∧
    (∀ key port direction, s.topology.Schedulable →
      ((s.act (.connectChannel key port direction)).topology.Schedulable ↔
        ¬(s.act (.connectChannel key port direction)).topology.Circle (.channel key))) := by
  intro s
  refine ⟨order_after config actions, fun source target e => connectPorts_undone source target s e,
    fun key port direction e => connectChannel_undone key port direction s e, fun source target => ?_,
    fun key port direction horder => ⟨fun h hcircle => hcircle.not_schedulable h, fun hfree => ?_⟩⟩
  · rcases change_act s (.connectPorts source target) with hsame | hchange
    · exact .inl hsame
    · exact .inr hchange.ports_ordered
  · rcases order_act (linked_after config actions) horder (.connectChannel key port direction) with
      hdone | ⟨key', _, _, heq, hcircle⟩
    · exact hdone
    · cases heq
      exact absurd hcircle hfree

/-- A channel that plays into an effect chain and records what the chain makes of it. -/
def feedback : Session :=
  (Session.new { bufferSize := 1, poolBuffers := 0, reservedSamples := 1 }).after
    [.addChain "fx" { layout := { audioInputs := 1, audioOutputs := 1 }, process := fun b => (b, .ok ()) },
      .addLoop, .addChannel ⟨0, 0⟩ .audio .direct, .connectChannel ⟨0, 0⟩ ⟨1, 0⟩ .input,
      .connectChannel ⟨0, 0⟩ ⟨0, 0⟩ .output]

/-- Such a channel is accepted, and no schedule follows. -/
theorem feedback_not_schedulable : ¬feedback.topology.Schedulable := by
  have hchannel : feedback.topology.channels.get? ⟨0, 0⟩ =
      some { loop := ⟨0, 0⟩, dataType := .audio, input := some ⟨1, 0⟩, output := some ⟨0, 0⟩ } := by rfl
  have hchain : feedback.topology.chains.get? ⟨0, 0⟩ =
      some { name := "fx", audioInputs := [⟨0, 0⟩], audioOutputs := [⟨1, 0⟩] } := by rfl
  have hports : feedback.topology.Has (.portProcess ⟨0, 0⟩) ∧ feedback.topology.Has (.portProcess ⟨1, 0⟩) := ⟨rfl, rfl⟩
  have hnodes : feedback.topology.Has (.channel ⟨0, 0⟩) ∧ feedback.topology.Has (.chain ⟨0, 0⟩) := ⟨rfl, rfl⟩
  have hcircle : feedback.topology.Circle (.channel ⟨0, 0⟩) :=
    .head ((Graph.mem_edges ..).2 ⟨.play hchannel rfl, hnodes.1, hports.1⟩) <|
      .head ((Graph.mem_edges ..).2 ⟨.effect hchain List.mem_cons_self, hports.1, hnodes.2⟩) <|
        .head ((Graph.mem_edges ..).2 ⟨.result hchain List.mem_cons_self, hnodes.2, hports.2⟩) <|
          .single ((Graph.mem_edges ..).2 ⟨.record hchannel rfl, hports.2, hnodes.1⟩)
  exact hcircle.not_schedulable

end Overdub.Session
