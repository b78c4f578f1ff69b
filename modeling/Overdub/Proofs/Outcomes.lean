import Mathlib
import Overdub.Proofs.Rooted
import Overdub.Proofs.Steady
/-!
# What a call leaves behind

Rules for two questions about a call, one for each way to compose it: whether it
changes a connection of the engine (`Steady`), and whether it has changed something
when it fails (`Undone`). A call that restructures nothing is steady, and every
call is undone when it fails except for the removals, and for those that go through
several objects of which one may fail.
-/

namespace Overdub.Session

section Rules

variable {α β : Type}

theorem ok_of_bind {x : Except Error α} {f : α → Except Error β} {b : β} (h : x >>= f = .ok b) :
    ∃ a, x = .ok a ∧ f a = .ok b := by
  cases x with
  | error e => cases h
  | ok a => exact ⟨a, rfl, h⟩

theorem ok_of_map {x : Except Error α} {f : α → β} {b : β} (h : x.map f = .ok b) : ∃ a, x = .ok a ∧ f a = b := by
  cases x with
  | error e => cases h
  | ok a => exact ⟨a, rfl, Except.ok.inj h⟩

theorem some_of_expect {what : String} {o : Option α} {a : α} (h : Engine.expect what o = .ok a) : o = some a := by
  cases o with
  | none => cases h
  | some b => exact congrArg some (Except.ok.inj h)

/-! ## Calls that change no connection of the engine -/

/-- The call leaves the wiring of the engine alone, whether it fails or not. -/
def Steady (c : Call α) : Prop := ∀ s : Session, (s.call c).2.engine.wiring = s.engine.wiring

theorem Reads.steady {c : Call α} (h : Reads c) : Steady c := fun s => by rw [h s]

theorem Steady.bind {c : Call α} {f : α → Call β} (hc : Steady c) (hf : ∀ a, Steady (f a)) : Steady (c >>= f) :=
  Fixes.bind (φ := (·.engine.wiring)) hc hf

theorem Steady.map {c : Call α} (h : Steady c) (f : α → β) : Steady (f <$> c) :=
  Fixes.map (φ := (·.engine.wiring)) h f

theorem Steady.exec {command : Engine → Except Error (α × Engine)}
    (h : ∀ e a e', command e = .ok (a, e') → e'.wiring = e.wiring) : Steady (exec command) := by
  intro s
  rw [call_exec]
  split
  · next a e' he => exact h _ a e' he
  · rfl

theorem Steady.run {command : Engine → Except Error Engine}
    (h : ∀ e e', command e = .ok e' → e'.wiring = e.wiring) : Steady (run command) := by
  refine .exec fun e a e' he => ?_
  obtain ⟨made, hmade, hpair⟩ := ok_of_map he
  cases hpair
  exact h e _ hmade

theorem Steady.modify {f : Session → Session} (h : ∀ s, (f s).engine.wiring = s.engine.wiring) :
    Steady (MonadState.modifyGet fun s => ((), f s) : Call Unit) := h

theorem Steady.tryCatch {c : Call α} {handler : Error → Call α} (hc : Steady c) (hh : ∀ e, Steady (handler e)) :
    Steady (MonadExcept.tryCatch c handler) := Fixes.tryCatch (φ := (·.engine.wiring)) hc hh

theorem Steady.changePort (key : PortKey) (f : Port → Port) : Steady (changePort key f) := by
  refine (Reads.port key).steady.bind fun _ => .run fun e e' he => ?_
  cases he
  exact e.wiring_modifyPort key f

theorem Steady.changeLoops (keys : List LoopKey) {f : Loop → Loop} (hf : ∀ l, (f l).view = l.view) :
    Steady (changeLoops keys f) := by
  refine (Reads.checkLoops keys).steady.bind fun _ => .run fun e e' he => ?_
  induction keys generalizing e with
  | nil => cases he; rfl
  | cons key keys ih =>
    rw [List.foldlM_cons] at he
    obtain ⟨first, hfirst, hrest⟩ := ok_of_bind he
    obtain ⟨l, hl, hset⟩ := ok_of_bind hfirst
    cases hset
    have hviews := Scheduler.views_set (some_of_expect hl) (hf l)
    exact (ih _ hrest).trans (Engine.wiring_withLoops rfl rfl rfl hviews)

theorem Steady.changeChannel (key : ChannelKey)
    {f : LoopChannel → Audio.Pool → Except Error (α × LoopChannel × Audio.Pool)}
    (hf : ∀ c pool a c' pool', f c pool = .ok (a, c', pool') → c'.plug = c.plug) : Steady (changeChannel key f) := by
  refine (Reads.lookup _ key).steady.bind fun _ => .exec fun e a e' he => ?_
  obtain ⟨c, hc, he⟩ := ok_of_bind he
  obtain ⟨⟨a', c', pool⟩, hfc, he⟩ := ok_of_bind he
  cases he
  exact Engine.wiring_keepEnds (e := { e with pool }) (some_of_expect hc) (hf _ _ _ _ _ hfc)

theorem Steady.changeBody (key : ChannelKey) (f : ChannelBody → ChannelBody) : Steady (changeBody key f) := by
  refine .changeChannel key fun c pool a c' pool' h => ?_
  cases h
  rfl

theorem Steady.changeAudio (key : ChannelKey) (f : Audio.Channel → Audio.Pool → Audio.Channel × Audio.Pool) :
    Steady (changeAudio key f) := by
  refine .changeChannel key fun c pool a c' pool' h => ?_
  split at h
  · cases h; rfl
  · cases h

theorem Steady.attachDriver (d : DummyDriver) : Steady (attachDriver d) := by
  refine Reads.get.steady.bind fun s => ?_
  refine (Steady.run fun e e' he => ?_).bind fun _ => ?_
  · cases he
    refine Engine.wiring_foldl (fun e key => e.wiring_keepSources key fun p => ?_) _ _
    unfold relink
    split <;> rfl
  · split
    · exact Steady.modify fun _ => rfl
    · exact (Reads.throw _).steady

theorem Steady.advance (frames : Nat) (s : Session) : (s.advance frames).2.engine.wiring = s.engine.wiring := by
  unfold Session.advance
  split
  · rfl
  · next d hd => exact DummyDriver.run_keeps (fun e io => Engine.wiring_cycle _ e io) d s.engine frames

end Rules

/-- A call that neither adds nor removes nor connects changes no connection of the engine either. -/
theorem steady_of_not_restructures {a : Action} (h : a.restructures = false) : Steady a.call := by
  unfold Action.call
  cases a with
  | setPortGain key gain => exact .changePort _ _
  | setPortMuted key muted => exact .changePort _ _
  | setCaptured key depth =>
    refine (Reads.lookup _ _).steady.bind fun info => (Reads.require _ _).steady.bind fun _ => .run fun e e' he => ?_
    obtain ⟨p, hp, he⟩ := ok_of_bind he
    split at he <;> cases he
    · exact Engine.wiring_modifyPort _ _ _
    · exact Engine.wiring_modifyPort _ _ _
  | takePortPeaks key =>
    exact .map ((Reads.portStatus _).steady.bind fun _ => (Steady.changePort _ _).bind fun _ => (Reads.pure _).steady) _
  | portInfo key => exact ((Reads.lookup _ _).map _).steady
  | portStatus key => exact ((Reads.portStatus _).map _).steady
  | transition keys mode delay waitForSync => exact .changeLoops _ fun _ => rfl
  | setLength key length => exact .changeLoops _ fun _ => rfl
  | setPosition key position => exact .changeLoops _ fun _ => rfl
  | adopt keys request =>
    refine (Reads.checkLoops _).steady.bind fun _ => .bind (.exec fun e a e' he => ?_) fun _ => (Reads.lift _).steady
    cases he
    exact e.wiring_adoptAll request keys
  | loopChannels key => exact ((Reads.loopChannels key).map _).steady
  | loopStatus key => exact ((Reads.loopStatus key).map _).steady
  | setChannelMode key mode => exact .changeBody _ _
  | setChannelGain key gain => exact .changeAudio _ _
  | setStartOffset key startOffset => exact .changeBody _ _
  | setPrePlay key prePlay => exact .changeBody _ _
  | loadAudio key samples => exact Reads.get.steady.bind fun _ => .changeAudio _ _
  | loadMidi key events length =>
    refine .changeChannel _ fun c pool a c' pool' h => ?_
    split at h
    · obtain ⟨m, -, h⟩ := ok_of_map h
      cases h
      rfl
    · cases h
  | clearChannel key length =>
    refine .changeChannel _ fun c pool a c' pool' h => ?_
    cases h
    rfl
  | takeChannelPeak key =>
    refine .map (.changeChannel _ fun c pool a c' pool' h => ?_) _
    cases h
    rfl
  | channelStatus key => exact ((Reads.channelStatus key).map _).steady
  | audioData key => exact ((Reads.audioData key).map _).steady
  | midiData key => exact ((Reads.midiData key).map _).steady
  | setChainActive key active =>
    refine (Reads.lookup _ _).steady.bind fun _ => .run fun e e' he => ?_
    obtain ⟨c, hc, he⟩ := ok_of_bind he
    cases he
    exact Engine.wiring_keepSides (some_of_expect hc) rfl rfl rfl
  | chainInfo key => exact ((Reads.lookup _ _).map _).steady
  | setDriver driver => exact .tryCatch (.attachDriver _) fun _ => Reads.get.steady.bind fun _ => .attachDriver _
  | changeDriver change => exact .modify fun _ => rfl
  | advance frames => exact .modify (Steady.advance frames)
  | settle => exact .modify fun _ => rfl
  | _ => cases h

/-! ## Calls that succeed -/

/-- If the call succeeds, `P` holds afterwards. -/
def Makes {α : Type} (P : Session → Prop) (c : Call α) (s : Session) : Prop := ∀ a u, s.call c = (.ok a, u) → P u

section Makes

variable {α β : Type} {kind : ObjectKind} {s : Session} {P : Session → Prop}

theorem Makes.bind {c : Call α} {f : α → Call β} (h : ∀ a u, s.call c = (.ok a, u) → Makes P (f a) u) :
    Makes P (c >>= f) s := by
  intro b v hmade
  rw [call_bind] at hmade
  generalize hc : s.call c = made at hmade
  obtain ⟨e | a, u⟩ := made
  · cases hmade
  · exact h a u hc b v hmade

theorem Makes.reads {c : Call α} {f : α → Call β} (hc : Reads c) (h : ∀ a, Makes P (f a) s) : Makes P (c >>= f) s := by
  refine .bind fun a u hmade => ?_
  have hsame := hc s
  rw [hmade] at hsame
  obtain rfl : u = s := hsame
  exact h a

theorem Makes.get {f : Session → Call β} (h : Makes P (f s) s) : Makes P (MonadState.get >>= f) s := h

theorem Makes.lookup {arena : Topology → Arena kind α} {key : Key kind} {f : α → Call β}
    (h : ∀ a, (arena s.topology).get? key = some a → Makes P (f a) s) : Makes P (lookup arena key >>= f) s := by
  refine .bind fun a u hmade => ?_
  rw [call_lookup] at hmade
  obtain ⟨hfound, rfl⟩ := Prod.mk.inj hmade
  exact h a (some_of_expect hfound)

theorem Makes.require {condition : Bool} {reason : String} {f : Unit → Call β}
    (h : condition = true → Makes P (f ()) s) : Makes P (require condition reason >>= f) s := by
  refine .bind fun a u hmade => ?_
  rw [call_require] at hmade
  cases condition with
  | false => cases hmade
  | true =>
    cases hmade
    exact h rfl

theorem Makes.lift {x : Except Error α} {f : α → Call β} (h : ∀ a, x = .ok a → Makes P (f a) s) :
    Makes P (liftM x >>= f) s := by
  refine .bind fun a u hmade => ?_
  rw [call_lift] at hmade
  obtain ⟨hx, rfl⟩ := Prod.mk.inj hmade
  exact h a hx

theorem Makes.throw (e : Error) : Makes P (MonadExcept.throw e : Call α) s := by
  intro a u hmade
  cases hmade

theorem Makes.pure {a : α} (h : P s) : Makes P (Pure.pure a) s := by
  intro b u hmade
  cases hmade
  exact h

theorem Makes.modify {f : Session → Session} (h : P (f s)) :
    Makes P (MonadState.modifyGet fun s => ((), f s) : Call Unit) s := by
  intro a u hmade
  cases hmade
  exact h

/-- Before a call that keeps what was made. -/
theorem Makes.then {c : Call α} {f : α → Call β} (h : Makes P c s) (hf : ∀ a u, P u → Makes P (f a) u) :
    Makes P (c >>= f) s :=
  .bind fun a u hmade => hf a u (h a u hmade)

theorem Makes.discard {c : Call α} (h : Makes P c s) : Makes P (Functor.discard c) s := by
  show Makes P (Function.const α PUnit.unit <$> c) s
  rw [← bind_pure_comp]
  exact h.then fun _ _ => .pure

theorem Makes.tryCatch {c : Call α} {handler : Error → Call α} (hc : Makes P c s)
    (hh : ∀ e u, s.call c = (.error e, u) → Makes P (handler e) u) : Makes P (MonadExcept.tryCatch c handler) s := by
  intro a u hmade
  rw [call_tryCatch] at hmade
  generalize hfirst : s.call c = made at hmade
  obtain ⟨e | b, v⟩ := made
  · exact hh e v hfirst a u hmade
  · exact hc a u (hfirst.trans hmade)

theorem Makes.commit {t : Topology} {command : Engine → Except Error Engine}
    (h : ∀ engine, command s.engine = .ok engine →
      P { s with engine, topology := t, publisher := s.publisher.request t }) : Makes P (commit t command) s := by
  intro a u hmade
  rw [call_commit] at hmade
  split at hmade
  · next e he =>
    cases hmade
    exact h e he
  · cases hmade

theorem Makes.retract {t : Topology} {command : Engine → Except Error (α × Engine)}
    (h : ∀ id a engine, (s.publisher.publishNow t).2 = .ok id → command s.engine = .ok (a, engine) →
      P { s with engine, topology := t, publisher := (s.publisher.publishNow t).1 }) : Makes P (retract t command) s := by
  intro a u hmade
  rw [call_retract] at hmade
  dsimp only at hmade
  split at hmade
  · next id hid =>
    rw [call_exec] at hmade
    split at hmade
    · next a e he =>
      cases hmade
      exact h id a e hid he
    · cases hmade
  · cases hmade

end Makes

/-! ## Calls that are undone when they fail -/

section Undone

variable {α β : Type}

/-- The call never fails. -/
def Total (c : Call α) : Prop := ∀ s : Session, ∃ a, (s.call c).1 = .ok a

theorem Total.pure (a : α) : Total (Pure.pure a) := fun _ => ⟨a, rfl⟩

theorem Total.modify (f : Session → Session) : Total (MonadState.modifyGet fun s => ((), f s) : Call Unit) :=
  fun _ => ⟨(), rfl⟩

theorem Total.bind {c : Call α} {f : α → Call β} (hc : Total c) (hf : ∀ a, Total (f a)) : Total (c >>= f) := by
  intro s
  rw [call_bind]
  obtain ⟨a, ha⟩ := hc s
  generalize s.call c = made at ha ⊢
  obtain ⟨made, s'⟩ := made
  cases ha
  exact hf a s'

theorem Total.commit (t : Topology) (command : Engine → Engine) : Total (commit t fun e => .ok (command e)) :=
  fun s => ⟨(), by rw [call_commit]⟩

theorem Total.undone {c : Call α} (h : Total c) : Undone c := by
  intro s e he
  obtain ⟨a, ha⟩ := h s
  cases ha.symm.trans he

theorem Reads.undone {c : Call α} (h : Reads c) : Undone c := fun s _ _ => h s

theorem Undone.exec (command : Engine → Except Error (α × Engine)) : Undone (exec command) := by
  intro s e he
  rw [call_exec] at he ⊢
  cases hmade : command s.engine with
  | error _ => rfl
  | ok _ => simp only [hmade] at he; cases he

/-- Behind a call that may fail stands one that does not. -/
theorem Undone.then {c : Call α} {f : α → Call β} (hc : Undone c) (hf : ∀ a, Total (f a)) : Undone (c >>= f) := by
  intro s e
  rw [call_bind]
  have h := hc s
  generalize s.call c = made at h ⊢
  obtain ⟨e' | a, s'⟩ := made
  · exact fun _ => h e' rfl
  · intro he
    obtain ⟨b, hb⟩ := hf a s'
    cases hb.symm.trans he

theorem Undone.map {c : Call α} (h : Undone c) (f : α → β) : Undone (f <$> c) := by
  rw [← bind_pure_comp]
  exact h.then fun _ => .pure _

theorem Undone.changePort (key : PortKey) (f : Port → Port) : Undone (changePort key f) :=
  .bind (.port key) fun _ => .exec _

theorem Undone.changeLoops (keys : List LoopKey) (f : Loop → Loop) : Undone (changeLoops keys f) :=
  .bind (.checkLoops keys) fun _ => .exec _

theorem Undone.changeChannel (key : ChannelKey)
    (f : LoopChannel → Audio.Pool → Except Error (α × LoopChannel × Audio.Pool)) : Undone (changeChannel key f) :=
  .bind (.lookup _ key) fun _ => .exec _

theorem Undone.changeBody (key : ChannelKey) (f : ChannelBody → ChannelBody) : Undone (changeBody key f) :=
  .changeChannel _ _

theorem Undone.changeAudio (key : ChannelKey) (f : Audio.Channel → Audio.Pool → Audio.Channel × Audio.Pool) :
    Undone (changeAudio key f) := .changeChannel _ _

end Undone

/-- The action takes an object or a connection out: the schedule without it is published first. -/
def Action.removes : Action → Bool
  | closePort .. | disconnectPorts .. | deleteLoop .. | deleteChannel .. | disconnectChannel .. | deleteChain .. => true
  | _ => false

/-- The action goes through several loops, or tries several drivers, and keeps what it did before it failed. -/
def Action.several : Action → Bool
  | adopt .. | setDriver .. => true
  | _ => false

/-- Every other call changes nothing when it fails. -/
theorem undone_of_not_removes {a : Action} (hremoves : a.removes = false) (hseveral : a.several = false) :
    Undone a.call := by
  unfold Action.call
  cases a with
  | openPort name dataType direction =>
    refine .map (.bind .get fun s => ?_) _
    split
    · split
      · exact (Reads.throw _).undone
      · exact ((Total.modify _).bind fun _ => (Total.commit _ _).bind fun _ => .pure _).undone
    · exact (Reads.throw _).undone
  | connectPorts source target => exact connectPorts_undone source target
  | setPortGain key gain => exact .changePort _ _
  | setPortMuted key muted => exact .changePort _ _
  | setCaptured key depth => exact .bind (.lookup _ _) fun _ => .bind (.require _ _) fun _ => .exec _
  | takePortPeaks key =>
    exact .map (.bind (.portStatus key) fun _ => (Undone.changePort _ _).then fun _ => .pure _) _
  | portInfo key => exact ((Reads.lookup _ _).map _).undone
  | portStatus key => exact ((Reads.portStatus _).map _).undone
  | addLoop => exact .map (.bind .get fun _ => (Undone.commit _ _).then fun _ => .pure _) _
  | setSyncSource key source =>
    refine .bind (.checkLoops _) fun _ => .bind .get fun s => .bind (.require _ _) fun _ => ?_
    exact (Undone.changeLoops _ _).then fun _ => .modify _
  | transition keys mode delay waitForSync => exact .changeLoops _ _
  | setLength key length => exact .changeLoops _ _
  | setPosition key position => exact .changeLoops _ _
  | loopChannels key => exact ((Reads.loopChannels key).map _).undone
  | loopStatus key => exact ((Reads.loopStatus key).map _).undone
  | addChannel loop dataType mode =>
    exact .map (.bind (.lookup _ _) fun _ => .bind .get fun s => (Undone.commit _ _).then fun _ => .pure _) _
  | connectChannel key port direction => exact connectChannel_undone key port direction
  | setChannelMode key mode => exact .changeBody _ _
  | setChannelGain key gain => exact .changeAudio _ _
  | setStartOffset key startOffset => exact .changeBody _ _
  | setPrePlay key prePlay => exact .changeBody _ _
  | loadAudio key samples => exact .bind .get fun _ => .changeAudio _ _
  | loadMidi key events length => exact .changeChannel _ _
  | clearChannel key length => exact .changeChannel _ _
  | takeChannelPeak key => exact .map (.changeChannel _ _) _
  | channelStatus key => exact ((Reads.channelStatus key).map _).undone
  | audioData key => exact ((Reads.audioData key).map _).undone
  | midiData key => exact ((Reads.midiData key).map _).undone
  | addChain name effect => exact .map (.bind .get fun _ => (Undone.commit _ _).then fun _ => .pure _) _
  | setChainActive key active => exact .bind (.lookup _ _) fun _ => .exec _
  | chainInfo key => exact ((Reads.lookup _ _).map _).undone
  | changeDriver change => exact (Total.modify _).undone
  | advance frames => exact (Total.modify _).undone
  | settle => exact (Total.modify _).undone
  | adopt => cases hseveral
  | setDriver => cases hseveral
  | _ => cases hremoves

end Overdub.Session
