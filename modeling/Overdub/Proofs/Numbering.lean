import Overdub.Proofs.Fronts
/-!
# Ports and their numbers

After calls that all succeeded the topology and the engine say the same of the
direction and the owner of every port, and no two ports of the engine go by the
same number of the driver (`Session.PortsAgree.after`). A driver never gives a
number twice, also not that of a port that was closed; a new driver gives new ones
to all ports of its own (`reopenPorts_numbers`).
-/

namespace Overdub

/-! ## Numbers -/

namespace Engine

/-- The driver knows ports by numbers below `n`, each by one of its own. -/
structure Numbered (e : Engine) (n : Nat) : Prop where
  below : ∀ key id, e.number? key = some id → id < n
  apart : ∀ key key' id, e.number? key = some id → e.number? key' = some id → key = key'

variable {e e' : Engine} {n m : Nat}

theorem Numbered.mono (h : e.Numbered n) (hle : n ≤ m)
    (hkept : ∀ key id, e'.number? key = some id → e.number? key = some id) : e'.Numbered m where
  below key id hkey := (h.below key id (hkept key id hkey)).trans_le hle
  apart key key' id hkey hkey' := h.apart key key' id (hkept key id hkey) (hkept key' id hkey')

/-- One more port, under the next number. -/
theorem Numbered.next (h : e.Numbered n) {new : PortKey}
    (hkept : ∀ key, e'.number? key = if key = new then some n else e.number? key) : e'.Numbered (n + 1) where
  below key id hkey := by
    rw [hkept] at hkey
    split_ifs at hkey
    · cases hkey
      exact n.lt_succ_self
    · exact (h.below key id hkey).trans n.lt_succ_self
  apart key key' id hkey hkey' := by
    rw [hkept] at hkey hkey'
    split_ifs at hkey hkey' with hnew hnew' hnew'
    · exact hnew.trans hnew'.symm
    · cases hkey
      cases (h.below key' n hkey').false
    · cases hkey'
      cases (h.below key n hkey).false
    · exact h.apart key key' id hkey hkey'

/-- What is out of `gone` is as it was. -/
theorem traits_drop {gone : PortKey → Prop} [DecidablePred gone]
    (h : ∀ k, e'.fronts k = if gone k then none else e.fronts k) (k : PortKey) :
    e'.traits k = if gone k then none else e.traits k := by
  simp only [traits, h]
  split_ifs <;> rfl

theorem number?_drop {gone : PortKey → Prop} [DecidablePred gone]
    (h : ∀ k, e'.fronts k = if gone k then none else e.fronts k) (k : PortKey) (id : Nat)
    (hid : e'.number? k = some id) : e.number? k = some id := by
  simp only [number?, h] at hid
  split_ifs at hid
  · cases hid
  · exact hid

end Engine

namespace Session

theorem openPort_ok {d d' : DummyDriver} {name : String} {dataType : DataType} {direction : Direction} {id : Nat}
    (h : d.openPort name dataType direction = .ok (id, d')) :
    id = d.ports.length ∧ d'.ports.length = d.ports.length + 1 := by
  unfold DummyDriver.openPort at h
  split_ifs at h
  cases h
  exact ⟨rfl, List.length_append⟩

theorem direction_buildPort (config : EngineConfig) (dataType : DataType) (direction : Direction) (pool : Audio.Pool) :
    (buildPort config dataType direction pool).1.direction = direction := by
  unfold buildPort
  cases dataType with
  | audio => rfl
  | midi =>
    dsimp only
    split_ifs <;> rfl

/-- The engine stores a port under the key that the topology has issued for it. -/
theorem traits_insert {t : Topology} {e : Engine} (hsound : t.ports.Sound) (h : t.traits = e.traits) {p : PortInfo}
    {q : EnginePort} (hdir : q.port.direction = p.direction) (howner : q.origin.owner = p.owner) :
    { t with ports := (t.ports.insert p).2 }.traits = (e.insertPort (t.ports.insert p).1 q).traits ∧
      ∀ k, (e.insertPort (t.ports.insert p).1 q).number? k =
        if k = (t.ports.insert p).1 then q.origin.number? else e.number? k := by
  have hvacant : e.ports.Vacant (t.ports.insert p).1.index :=
    (hsound.vacant_issued p).of_map fun k => (congrFun h k).trans (Option.map_map ..)
  refine ⟨funext fun k => ?_, fun k => ?_⟩
  · rw [Topology.traits_insertPort hsound, Engine.traits, Engine.fronts_insertPort hvacant]
    split_ifs
    · rw [Option.map_some, hdir, howner]
    · exact congrFun h k
  · rw [Engine.number?, Engine.fronts_insertPort hvacant]
    split_ifs <;> rfl

/-- The same ports were added to both sides, and none of them is one of the driver. -/
structure ChainPortsAlike (e : Engine) (t' : Topology) (e' : Engine) : Prop where
  sound : t'.ports.Sound
  traits : t'.traits = e'.traits
  number : ∀ key id, e'.number? key = some id → e.number? key = some id

theorem addChainPorts_sides {t : Topology} {e : Engine} (hsound : t.ports.Sound) (h : t.traits = e.traits)
    (config : EngineConfig) (chain : ChainKey) (label : String) (dataType : DataType) (direction : Direction)
    (count : Nat) :
    ChainPortsAlike e (addChainPorts config chain label dataType direction count t e).2.1
      (addChainPorts config chain label dataType direction count t e).2.2 := by
  unfold addChainPorts
  refine List.foldlRecOn (motive := fun added : List PortKey × Topology × Engine => ChainPortsAlike e added.2.1 added.2.2) _ _
    ⟨hsound, h, fun _ _ => id⟩ ?_
  rintro ⟨keys, u, f⟩ ⟨hu, hsame, hnumber⟩ i _
  dsimp only at hu hsame hnumber ⊢
  let p : PortInfo := { name := s!"{label}_{i + 1}", dataType, direction, owner := .chain chain }
  let made := buildPort config dataType direction f.pool
  obtain ⟨htraits, hadded⟩ := traits_insert (p := p) (e := { f with pool := made.2 })
    (q := { origin := .chain chain, port := made.1 }) hu hsame (direction_buildPort ..) rfl
  refine ⟨hu.insert p, htraits, fun k id hid => hnumber k id ?_⟩
  have hk := (hadded k).symm.trans hid
  split_ifs at hk
  · cases hk
  · exact hk

theorem fronts_removeChain {e : Engine} {key : ChainKey} {c : EngineChain} (hc : e.chains.get? key = some c)
    (k : PortKey) : (e.removeChain key).2.fronts k = if k ∈ c.ports then none else e.fronts k := by
  unfold Engine.removeChain
  simp only [Arena.remove_of_get? hc]
  exact Engine.fronts_removePorts { e with chains := e.chains.erase key } c.ports k

/-- The number that the driver gives to the next port. -/
def portCount (s : Session) : Nat := s.driver.elim 0 (·.ports.length)

/-- Both sides say the same of each port, and the driver knows its ports by different numbers. -/
structure PortsAgree (s : Session) : Prop where
  traits : s.topology.traits = s.engine.traits
  numbers : s.engine.Numbered s.portCount

namespace PortsAgree

variable {s : Session}

/-- As long as ports and driver stay. -/
theorem of_same {u : Session} (h : s.PortsAgree) (htraits : u.topology.traits = s.topology.traits)
    (hfronts : u.engine.fronts = s.engine.fronts) (hcount : s.portCount ≤ u.portCount) : u.PortsAgree where
  traits := htraits.trans (h.traits.trans (by funext k; rw [Engine.traits, Engine.traits, hfronts]))
  numbers := h.numbers.mono hcount fun key id hid => by rwa [Engine.number?, ← hfronts]

/-! ## Call by call -/

theorem openPort (h : s.PortsAgree) (hsound : s.topology.ports.Sound) (name : String) (dataType : DataType)
    (direction : Direction) : Makes PortsAgree (openPort name dataType direction) s := by
  refine .get ?_
  split
  · next driver hdriver =>
    split
    · exact .throw _
    · next id d hopened =>
      have hcount : s.portCount = driver.ports.length := by rw [portCount, hdriver, Option.elim_some]
      obtain ⟨rfl, hlength⟩ := openPort_ok hopened
      rw [← hcount] at hlength ⊢
      refine .bind fun _ u hmade => ?_
      rw [call_modify] at hmade
      obtain ⟨-, rfl⟩ := Prod.mk.inj hmade
      refine Makes.then (.commit fun e he => ?_) fun _ _ => .pure
      cases he
      obtain ⟨htraits, hnumber⟩ := traits_insert (e := { s.engine with
          pool := (buildPort s.config dataType direction s.engine.pool).2 })
        (q := { origin := .driver s.portCount, port := (buildPort s.config dataType direction s.engine.pool).1 })
        (p := { name, dataType, direction, owner := .driver }) hsound h.traits
        (direction_buildPort s.config dataType direction s.engine.pool) rfl
      have hnumbers := h.numbers.next hnumber
      rw [← hlength] at hnumbers
      exact ⟨htraits, hnumbers⟩
  · exact .throw _

theorem closePort (h : s.PortsAgree) (key : PortKey) : Makes PortsAgree (closePort key) s := by
  refine .lookup fun info hinfo => .reads (.require _ _) fun _ => .get (Makes.then (.retract fun _ p e _ he => ?_) ?_)
  · have hfronts : ∀ k, e.fronts k = if k = key then none else s.engine.fronts k := by
      intro k
      rw [← s.engine.fronts_removePort]
      generalize s.engine.removePort key = removed at he
      obtain ⟨_ | gone, f⟩ := removed <;> cases he
      · rfl
      · exact congrFun (f.fronts_releasePort gone) k
    refine ⟨funext fun k => ?_, h.numbers.mono le_rfl (Engine.number?_drop hfronts)⟩
    rw [Topology.traits_removePort, Engine.traits_drop hfronts, h.traits]
  · intro p u hu
    split
    · next id _ =>
      refine .modify (hu.of_same rfl rfl (le_of_eq ?_))
      unfold portCount
      cases u.driver with
      | none => rfl
      | some d =>
        dsimp only [Option.map_some, Option.elim_some]
        unfold DummyDriver.closePort
        cases d.ports[id]?.join <;> simp [Except.toOption]
    · exact .pure hu

theorem addChain (h : s.PortsAgree) (hagrees : s.Agrees) (name : String) (effect : Effect.Chain) :
    Makes PortsAgree (addChain name effect) s := by
  refine .get ?_
  split
  next key chains hkey =>
  dsimp only
  have h₁ := addChainPorts_sides (t := { s.topology with chains }) hagrees.linked.ports h.traits s.config key
    s!"{name}_in" .audio .output effect.layout.audioInputs
  generalize addChainPorts s.config key s!"{name}_in" .audio .output effect.layout.audioInputs
    { s.topology with chains } s.engine = side₁ at h₁ ⊢
  have h₂ := addChainPorts_sides h₁.sound h₁.traits s.config key s!"{name}_out" .audio .input
    effect.layout.audioOutputs
  generalize addChainPorts s.config key s!"{name}_out" .audio .input effect.layout.audioOutputs side₁.2.1 side₁.2.2 =
    side₂ at h₂ ⊢
  have h₃ := addChainPorts_sides h₂.sound h₂.traits s.config key s!"{name}_midi_in" .midi .output
    effect.layout.midiInputs
  generalize addChainPorts s.config key s!"{name}_midi_in" .midi .output effect.layout.midiInputs side₂.2.1 side₂.2.2 =
    side₃ at h₃ ⊢
  refine Makes.then (.commit fun e he => ?_) fun _ _ => .pure
  cases he
  exact ⟨h₃.traits, h.numbers.mono le_rfl fun k id hid => h₁.number k id (h₂.number k id (h₃.number k id hid))⟩

theorem deleteChain (h : s.PortsAgree) (hagrees : s.Agrees) (key : ChainKey) : Makes PortsAgree (deleteChain key) s := by
  refine .lookup fun info hinfo => .get (.retract fun _ a e _ he => ?_)
  obtain ⟨c, hc, hports⟩ := hagrees.chain hinfo
  have hfronts : ∀ k, e.fronts k = if k ∈ c.ports then none else s.engine.fronts k := by
    intro k
    have hremoved := fronts_removeChain hc k
    generalize s.engine.removeChain key = removed at he hremoved
    obtain ⟨_ | gone, f⟩ := removed
    · cases he
    · cases he
      exact (congrFun (Engine.fronts_foldl Engine.fronts_releasePort f _) k).trans hremoved
  refine ⟨funext fun k => ?_, h.numbers.mono le_rfl (Engine.number?_drop hfronts)⟩
  rw [Engine.traits_drop hfronts, ← h.traits]
  refine (Topology.traits_removePorts _ _ k).trans ?_
  simp only [hports.mem_iff]
  rfl

/-! ## Drivers -/

/-- The ports that were opened have different numbers. -/
theorem reopenPorts_numbers (t : Topology) (d : DummyDriver) :
    (∀ x ∈ (reopenPorts t d).1, x.2 < (reopenPorts t d).2.ports.length) ∧
      ∀ x ∈ (reopenPorts t d).1, ∀ y ∈ (reopenPorts t d).1, x.2 = y.2 → x.1 = y.1 := by
  unfold reopenPorts
  refine List.foldlRecOn (motive := fun made : List (PortKey × Nat) × DummyDriver =>
    (∀ x ∈ made.1, x.2 < made.2.ports.length) ∧ ∀ x ∈ made.1, ∀ y ∈ made.1, x.2 = y.2 → x.1 = y.1) _ _
    ⟨List.forall_mem_nil _, List.forall_mem_nil _⟩ ?_
  rintro ⟨opened, d⟩ ⟨hbelow, happart⟩ ⟨key, p⟩ _
  dsimp only at hbelow happart ⊢
  split
  · next id d' hopened =>
    obtain ⟨rfl, hlength⟩ := openPort_ok hopened
    have hnew : ∀ x ∈ opened, x.2 ≠ d.ports.length := fun x hx => (hbelow x hx).ne
    simp only [List.forall_mem_append, List.forall_mem_singleton, hlength]
    refine ⟨⟨fun x hx => (hbelow x hx).trans d.ports.length.lt_succ_self, d.ports.length.lt_succ_self⟩,
      ⟨fun x hx => ⟨happart x hx, fun heq => absurd heq (hnew x hx)⟩,
        fun y hy heq => absurd heq.symm (hnew y hy), fun _ => trivial⟩⟩
  · exact ⟨hbelow, happart⟩

/-- The ports of an engine when a driver has opened some of them anew. -/
theorem get?_relink (opened : List (PortKey × Nat)) (e : Engine) (k : PortKey) :
    (e.ports.keys.foldl (fun e key => { e with ports := e.ports.modify key (relink opened key) }) e).ports.get? k =
      (e.ports.get? k).map (relink opened k) := by
  have hports : (e.ports.keys.foldl (fun e key => { e with ports := e.ports.modify key (relink opened key) }) e).ports =
      (e.ports.keys.map fun key => (key, key)).foldl (fun ports x => ports.modify x.1 (relink opened x.2)) e.ports := by
    rw [List.foldl_map]
    exact (List.foldl_hom Engine.ports fun _ _ => rfl).symm
  have hkeys : (e.ports.keys.map fun key => (key, key)).map (·.1) = e.ports.keys := by
    simp [Function.comp_def]
  rw [hports]
  by_cases hk : k ∈ e.ports.keys
  · refine Arena.get?_modifyAll (relink opened) e.ports ?_ (List.mem_map_of_mem hk)
    rw [hkeys]
    exact e.ports.nodup_keys
  · rw [← hkeys] at hk
    rw [Arena.get?_modifyOthers _ _ hk]
    rw [hkeys, Arena.mem_keys, Arena.contains, Bool.not_eq_true, Option.isSome_eq_false_iff, Option.isNone_iff_eq_none] at hk
    rw [hk, Option.map_none]

/-- A port stays the driver's or a chain's, and it has a number if it was opened under it. -/
theorem relink_spec (opened : List (PortKey × Nat)) (key : PortKey) (p : EnginePort) :
    (relink opened key p).port = p.port ∧ (relink opened key p).origin.owner = p.origin.owner ∧
      ∀ id, (relink opened key p).origin.number? = some id → (key, id) ∈ opened := by
  have hmem : ∀ id, ((opened.lookup key).elim .detached PortOrigin.driver).number? = some id → (key, id) ∈ opened := by
    intro id hid
    cases hfound : opened.lookup key with
    | none =>
      rw [hfound] at hid
      cases hid
    | some number =>
      rw [hfound] at hid
      cases hid
      obtain ⟨_, _, rfl, -⟩ := List.lookup_eq_some_iff.1 hfound
      simp
  have howner : ((opened.lookup key).elim .detached PortOrigin.driver).owner = .driver := by
    cases opened.lookup key <;> rfl
  unfold relink
  cases horigin : p.origin with
  | chain chain => exact ⟨rfl, congrArg PortOrigin.owner horigin, fun id hid => by rw [horigin] at hid; cases hid⟩
  | driver id => exact ⟨rfl, howner, hmem⟩
  | detached => exact ⟨rfl, howner, hmem⟩

theorem traits_relink (opened : List (PortKey × Nat)) (e : Engine) :
    (e.ports.keys.foldl (fun e key => { e with ports := e.ports.modify key (relink opened key) }) e).traits =
      e.traits := by
  funext k
  simp only [Engine.traits, Engine.fronts, get?_relink, Option.map_map]
  refine congrArg (Option.map · _) (funext fun p => ?_)
  obtain ⟨hport, howner, -⟩ := relink_spec opened k p
  simp only [Function.comp_apply, hport, howner]

/-- On a driver that runs, both sides say the same as before. -/
theorem attachDriver (d : DummyDriver) (h : s.topology.traits = s.engine.traits) :
    Makes PortsAgree (attachDriver d) s := by
  refine .get ?_
  obtain ⟨hbelow, happart⟩ := reopenPorts_numbers s.topology d
  generalize reopenPorts s.topology d = reopened at hbelow happart ⊢
  obtain ⟨opened, d⟩ := reopened
  dsimp only at hbelow happart ⊢
  refine .bind fun _ u hmade => ?_
  unfold apply at hmade
  rw [call_run] at hmade
  obtain ⟨-, rfl⟩ := Prod.mk.inj hmade
  split
  · next d' hstarted =>
    have hlength : d'.ports.length = d.ports.length := by
      unfold DummyDriver.start at hstarted
      split_ifs at hstarted
      cases hstarted
      rfl
    refine .modify ⟨h.trans (traits_relink opened s.engine).symm, ?_⟩
    have hmem : ∀ key id, (s.engine.ports.keys.foldl (fun e key =>
        { e with ports := e.ports.modify key (relink opened key) }) s.engine).number? key = some id →
        (key, id) ∈ opened := by
      intro key id hid
      simp only [Engine.number?, Engine.fronts, get?_relink, Option.map_map] at hid
      obtain ⟨front, hfront, hid⟩ := Option.bind_eq_some_iff.1 hid
      obtain ⟨p, -, rfl⟩ := Option.map_eq_some_iff.1 hfront
      exact (relink_spec opened key p).2.2 id hid
    refine ⟨fun key id hid => ?_, fun key key' id hid hid' => ?_⟩
    · exact (hbelow _ (hmem key id hid)).trans_eq hlength.symm
    · exact happart _ (hmem key id hid) _ (hmem key' id hid') rfl
  · exact .throw _

/-- Neither does a driver that cannot be started change what they say. -/
theorem fixes_attachDriver (d : DummyDriver) :
    Fixes (fun s => (s.topology.traits, s.engine.traits)) (Session.attachDriver d) := by
  refine Reads.get.fixes.bind fun s => ?_
  refine Fixes.bind (fun s => ?_) fun _ => ?_
  · unfold apply
    rw [call_run]
    exact congrArg (s.topology.traits, ·) (traits_relink _ s.engine)
  · split
    · exact fun _ => rfl
    · exact (Reads.throw _).fixes

theorem setDriver (h : s.PortsAgree) (d : DummyDriver) : Makes PortsAgree (setDriver d) s := by
  refine .tryCatch (attachDriver d h.traits) fun e u hmade => ?_
  have hkept := fixes_attachDriver d s
  rw [hmade] at hkept
  obtain ⟨htopology, hengine⟩ := Prod.mk.inj hkept
  exact .get (attachDriver _ (htopology.trans (h.traits.trans hengine.symm)))

theorem length_ports_send (c : DriverCycle) (origin : PortOrigin) (p : Port) :
    (Engine.send c origin p).ports.length = c.ports.length := by
  unfold Engine.send
  split
  · unfold DriverCycle.playAudio
    split_ifs
    · exact List.length_modify ..
    · rfl
  · exact List.length_modify ..
  · rfl

/-- A cycle neither adds nor takes away a port of the driver. -/
theorem length_ports_cycle (s : Schedule) (e : Engine) (io : DriverCycle) :
    (e.cycle s io).2.ports.length = io.ports.length := by
  refine Engine.cycle_keeps (φ := fun state => state.2.ports.length) s (fun _ _ _ => rfl) ?_ e io
  rintro ⟨e, c⟩ id
  cases id with
  | portProcess key =>
    simp only [Engine.processNode, Engine.processPort]
    split
    · rfl
    · split
      · rfl
      · exact length_ports_send ..
  | _ => rfl

theorem length_ports_run {σ : Type} {process : σ → DriverCycle → σ × DriverCycle}
    (h : ∀ state io, (process state io).2.ports.length = io.ports.length) (d : DummyDriver) (state : σ) (frames : Nat) :
    (d.run process state frames).2.2.ports.length = d.ports.length := by
  have hcycles : ∀ state d, (DummyDriver.cycles process state d).2.ports.length = d.ports.length := by
    intro state d
    fun_induction DummyDriver.cycles process state d with
    | case1 => rfl
    | case2 state d hd next ih =>
      refine ih.trans ?_
      simp [next, DummyDriver.cycle, h]
  unfold DummyDriver.run
  dsimp only
  split_ifs
  · exact hcycles ..
  · rfl

theorem advance (h : s.PortsAgree) (frames : Nat) : (s.advance frames).2.PortsAgree := by
  refine h.of_same (congrArg Topology.traits (aside_topology.advance frames s)) ?_ (le_of_eq ?_)
  · unfold Session.advance
    split
    · rfl
    · next d hd => exact DummyDriver.run_keeps (fun e io => Engine.fronts_cycle _ e io) d s.engine frames
  · unfold Session.advance
    split
    · rfl
    · next d hd =>
      simp only [portCount, hd, Option.elim_some]
      exact (length_ports_run (length_ports_cycle _) d s.engine frames).symm

end PortsAgree

/-! ## Runs of calls -/

/-- What is done to the driver from outside leaves it all the ports that it has. -/
def Action.SparesPorts : Action → Prop
  | changeDriver change => ∀ d, d.ports.length ≤ (change d).ports.length
  | _ => True

/-- A call that moves no port tells neither side anything new of one. -/
theorem traits_act {a : Action} (h : a.movesPorts = false) (s : Session) :
    (s.act a).topology.traits = s.topology.traits := by
  rcases change_act s a with hsame | hchange
  · rw [hsame]
  · generalize (s.act a).topology = u at hchange ⊢
    cases hchange with
    | connectPorts => exact Topology.traits_knownSources ..
    | disconnectPorts => exact Topology.traits_knownSources ..
    | openPort => cases h
    | closePort => cases h
    | addChain => cases h
    | deleteChain => cases h
    | _ => rfl

/-- Every call that succeeds leaves both sides saying the same. -/
theorem PortsAgree.makes {s : Session} (h : s.PortsAgree) (hagrees : s.Agrees) {a : Action} (hspares : a.SparesPorts) :
    Makes PortsAgree a.call s := by
  cases hmoves : a.movesPorts with
  | false =>
    intro _ u hmade
    have hports := keepsPorts_of_not_movesPorts hmoves s
    have htraits := traits_act hmoves s
    unfold act at htraits
    rw [hmade] at hports htraits
    obtain ⟨hfronts, hdriver⟩ := Prod.mk.inj hports
    exact h.of_same htraits hfronts (le_of_eq (congrArg (Option.elim · 0 _) hdriver.symm))
  | true =>
    cases a with
    | openPort name dataType direction => exact (h.openPort hagrees.linked.ports name dataType direction).discard
    | closePort key => exact h.closePort key
    | addChain name effect => exact (h.addChain hagrees name effect).discard
    | deleteChain key => exact (h.deleteChain hagrees key).discard
    | setDriver driver => exact h.setDriver driver
    | changeDriver change =>
      refine .modify (h.of_same rfl rfl ?_)
      show s.driver.elim 0 _ ≤ (s.driver.map change).elim 0 _
      cases s.driver with
      | none => exact le_rfl
      | some d => exact hspares d
    | advance frames => exact .modify (h.advance frames)
    | _ => cases hmoves

theorem PortsAgree.act {s : Session} (h : s.PortsAgree) (hagrees : s.Agrees) {a : Action} (hspares : a.SparesPorts)
    (hok : (s.call a.call).1.isOk = true) : (s.act a).PortsAgree := by
  have hmakes := h.makes hagrees hspares
  unfold Session.act
  generalize hmade : s.call a.call = made at hok ⊢
  obtain ⟨_ | u, v⟩ := made
  · cases hok
  · exact hmakes u v hmade

theorem portsAgree_new (config : EngineConfig) : (new config).PortsAgree := ⟨rfl, nofun, nofun⟩

/-- After calls that all succeeded both sides say the same of each port, and the driver knows each of its ports by a
number of its own. -/
theorem PortsAgree.after {s : Session} (h : s.PortsAgree) (hagrees : s.Agrees) {actions : List Action}
    (hspares : ∀ a ∈ actions, a.SparesPorts) (hok : s.succeeds actions = true) : (s.after actions).PortsAgree := by
  induction actions generalizing s with
  | nil => exact h
  | cons a rest ih =>
    obtain ⟨hfirst, hrest⟩ := Bool.and_eq_true_iff.1 hok
    obtain ⟨ha, hothers⟩ := List.forall_mem_cons.1 hspares
    exact ih (h.act hagrees ha hfirst) (hagrees.act hfirst) hothers hrest

end Session

end Overdub
