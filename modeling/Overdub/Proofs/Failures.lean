import Mathlib
import Overdub.Proofs.Mirror
/-!
# What a call leaves behind when it fails

An addition or a connection that fails has changed nothing. A removal writes the
topology down before it asks for the schedule without the object, so if there is
no such schedule, the object is gone on one side and alive on the other
(`HalfDone`). That takes a topology without an order to begin with, and as long as
no removal was half done both sides agree (`agrees_after`).
-/

namespace Overdub

namespace Publisher

theorem publishNow_schedulable {p : Publisher} {t : Topology} (h : t.Schedulable) :
    ∃ id, (p.publishNow t).2 = .ok id := by
  obtain ⟨s, hs⟩ := h p.beginNow.requested
  refine ⟨p.beginNow.requested, ?_⟩
  unfold publishNow finishNow
  simp only [hs]

theorem not_schedulable_of_publishNow {p : Publisher} {t : Topology} {e : Error}
    (h : (p.publishNow t).2 = .error e) : ¬t.Schedulable := by
  intro horder
  obtain ⟨id, hid⟩ := publishNow_schedulable (p := p) horder
  cases hid.symm.trans h

end Publisher

namespace Session

/-! ## Removals that fail -/

/-- If the call fails, it has changed nothing, or nothing but the topology. In a session whose sides agree, the latter
takes a topology without an order. -/
def Spares {α : Type} (c : Call α) (s : Session) : Prop :=
  ∀ e u, s.call c = (.error e, u) → u = s ∨ u.engine = s.engine ∧ (s.Agrees → ¬u.topology.Schedulable)

section Spares

variable {α β : Type} {kind : ObjectKind} {s : Session}

theorem Spares.get {f : Session → Call β} (h : Spares (f s) s) : Spares (MonadState.get >>= f) s := h

theorem Spares.lookup {arena : Topology → Arena kind α} {key : Key kind} {f : α → Call β}
    (h : ∀ a, (arena s.topology).get? key = some a → Spares (f a) s) : Spares (lookup arena key >>= f) s := by
  intro e u hmade
  rw [call_bind, call_lookup] at hmade
  cases hfound : (arena s.topology).get? key with
  | none =>
    rw [hfound] at hmade
    cases hmade
    exact .inl rfl
  | some a =>
    rw [hfound] at hmade
    exact h a hfound e u hmade

theorem Spares.require {condition : Bool} {reason : String} {f : Unit → Call β} (h : Spares (f ()) s) :
    Spares (require condition reason >>= f) s := by
  intro e u hmade
  rw [call_bind, call_require] at hmade
  cases condition with
  | false =>
    cases hmade
    exact .inl rfl
  | true => exact h e u hmade

/-- Before a call that does not fail. -/
theorem Spares.then {c : Call α} {f : α → Call β} (h : Spares c s) (hf : ∀ a, Total (f a)) : Spares (c >>= f) s := by
  intro e u hmade
  rw [call_bind] at hmade
  generalize hc : s.call c = made at hmade
  obtain ⟨e' | a, v⟩ := made
  · cases hmade
    exact h e u hc
  · obtain ⟨b, hb⟩ := hf a v
    dsimp only at hmade
    rw [hmade] at hb
    cases hb

/-- The engine does what it is told where both sides agree. -/
theorem Spares.retract {t : Topology} {command : Engine → Except Error (α × Engine)}
    (h : s.Agrees → ∃ made, command s.engine = .ok made) : Spares (retract t command) s := by
  intro e u hmade
  rw [call_retract] at hmade
  dsimp only at hmade
  split at hmade
  · rw [call_exec] at hmade
    dsimp only at hmade
    split at hmade
    · cases hmade
    · next e' he =>
      cases hmade
      refine .inr ⟨rfl, fun hagrees => ?_⟩
      obtain ⟨made, hmade⟩ := h hagrees
      cases hmade.symm.trans he
  · next e' he =>
    cases hmade
    exact .inr ⟨rfl, fun _ => Publisher.not_schedulable_of_publishNow he⟩

end Spares

/-- Every removal spares the engine when it fails. -/
theorem spares_of_removes (s : Session) {a : Action} (h : a.removes = true) : Spares a.call s := by
  unfold Action.call
  cases a with
  | closePort key =>
    refine .lookup fun info _ => .require (.get (Spares.then (.retract fun _ => ⟨_, rfl⟩) fun p => ?_))
    split
    · exact .modify _
    · exact .pure _
  | disconnectPorts source target =>
    refine .lookup fun dst hdst => .require (.get (.retract fun hagrees => ?_))
    obtain ⟨p, hp, -⟩ := hagrees.port hdst
    simp only [liveSources, hp]
    exact ⟨_, rfl⟩
  | deleteLoop key => exact .lookup fun info _ => .get (.retract fun _ => ⟨_, rfl⟩)
  | deleteChannel key => exact .lookup fun info _ => .get (.retract fun _ => ⟨_, rfl⟩)
  | disconnectChannel key port =>
    refine .lookup fun info hinfo => .require (.get (.retract fun hagrees => ?_))
    obtain ⟨c, hc, -⟩ := hagrees.channel hinfo
    simp only [hc]
    exact ⟨_, rfl⟩
  | deleteChain key =>
    show Spares (Functor.map _ _) s
    rw [← bind_pure_comp]
    refine Spares.then (.lookup fun info hinfo => .get (.retract fun hagrees => ?_)) fun _ => .pure _
    obtain ⟨c, hc, -⟩ := hagrees.chain hinfo
    simp only [Engine.removeChain, Arena.remove_of_get? hc]
    exact ⟨_, rfl⟩
  | _ => cases h

/-- The action fails although the topology has changed, and the engine has not. -/
structure HalfDone (s : Session) (a : Action) : Prop where
  fails : (s.call a.call).1.isOk = false
  removes : a.removes = true
  engine : (s.act a).engine = s.engine
  change : Change a s.topology (s.act a).topology
  disorder : ¬(s.act a).topology.Schedulable

variable {s : Session} {a : Action}

theorem call_of_fails (h : (s.call a.call).1.isOk = false) : ∃ e, s.call a.call = (.error e, s.act a) := by
  unfold act
  generalize s.call a.call = made at h ⊢
  obtain ⟨e | _, u⟩ := made
  · exact ⟨e, rfl⟩
  · cases h

/-- Nothing that goes through several objects restructures. -/
theorem not_restructures_of_several (h : a.several = true) : a.restructures = false := by
  cases a <;> first | rfl | cases h

/-- A removal keeps the order of a topology. -/
theorem Change.keeps_order {t u : Topology} (h : Change a t u) (hremoves : a.removes = true) (ht : t.Linked)
    (horder : t.Schedulable) : u.Schedulable := by
  rcases h.order ht horder with hdone | ⟨key, port, direction, rfl, -⟩
  · exact hdone
  · cases hremoves

/-- A removal that fails in a session whose sides agree has changed nothing, or is half done. -/
theorem Agrees.removal_fails (h : s.Agrees) (hremoves : a.removes = true) (hfails : (s.call a.call).1.isOk = false) :
    s.act a = s ∨ (s.act a).engine = s.engine ∧ (s.act a).topology = s.topology ∨ HalfDone s a := by
  obtain ⟨e, hmade⟩ := call_of_fails hfails
  rcases spares_of_removes s hremoves e _ hmade with hsame | ⟨hengine, hdisorder⟩
  · exact .inl hsame
  · rcases change_act s a with hsame | hchange
    · exact .inr (.inl ⟨hengine, hsame⟩)
    · exact .inr (.inr ⟨hfails, hremoves, hengine, hchange, hdisorder h⟩)

/-- Where the topology has an order, a removal that fails changes nothing. -/
theorem Agrees.removal_undone (h : s.Agrees) (horder : s.topology.Schedulable) (hremoves : a.removes = true)
    (hfails : (s.call a.call).1.isOk = false) : s.act a = s := by
  obtain ⟨e, hmade⟩ := call_of_fails hfails
  rcases spares_of_removes s hremoves e _ hmade with hsame | ⟨-, hdisorder⟩
  · exact hsame
  · refine absurd ?_ (hdisorder h)
    rcases change_act s a with hsame | hchange
    · exact hsame.symm ▸ horder
    · exact hchange.keeps_order hremoves h.linked horder

/-- A call either leaves both sides agreeing or is half done. -/
theorem Agrees.act_or_half (h : s.Agrees) (a : Action) : (s.act a).Agrees ∨ HalfDone s a := by
  have hlinked := linked_act h.linked a
  have hrooted := rooted_act h.linked h.rooted a
  cases hok : (s.call a.call).1.isOk with
  | true => exact .inl (h.act hok)
  | false =>
    cases hremoves : a.removes with
    | true =>
      rcases h.removal_fails hremoves hok with hsame | ⟨hengine, htopology⟩ | hhalf
      · exact .inl (hsame.symm ▸ h)
      · exact .inl ⟨hlinked, hrooted, by rw [hengine, htopology, h.alike]⟩
      · exact .inr hhalf
    | false =>
      cases hseveral : a.several with
      | true =>
        have hkind := not_restructures_of_several hseveral
        have htopology := keeps_of_not_restructures hkind s
        exact .inl ⟨hlinked, hrooted,
          (congrArg Topology.wiring htopology).trans (h.alike.trans (steady_of_not_restructures hkind s).symm)⟩
      | false =>
        obtain ⟨e, hmade⟩ := call_of_fails hok
        have hsame : s.act a = s := undone_of_not_removes hremoves hseveral s e (congrArg Prod.fst hmade)
        exact .inl (hsame.symm ▸ h)

/-- Both sides of a session agree, unless some call was half done. -/
theorem agrees_after (config : EngineConfig) (actions : List Action) :
    ((new config).after actions).Agrees ∨ ∃ before a later, actions = before ++ a :: later ∧
      ((new config).after before).Agrees ∧ ((new config).after before).HalfDone a := by
  induction actions using List.reverseRecOn with
  | nil => exact .inl (agrees_new config)
  | append_singleton actions a ih =>
    rcases ih with hagrees | ⟨before, first, later, rfl, hhalf⟩
    · rw [after_append]
      exact (hagrees.act_or_half a).imp_right fun hhalf => ⟨actions, a, [], rfl, hagrees, hhalf⟩
    · exact .inr ⟨before, first, later ++ [a], by simp, hhalf⟩

/-- What calls that fail leave behind, in every session that calls can lead to. A call that adds, connects or changes
something has changed nothing. One that goes through several loops or drivers keeps the topology and all connections. A
removal leaves the engine alone, and if it has changed the topology then as if it had succeeded. Both sides agree until
a removal is half done for the first time, which takes a topology without an order: in a session whose sides agree and
whose topology has an order, a removal that fails has changed nothing either. -/
theorem failed_calls_undone (config : EngineConfig) (actions : List Action) :
    let s := (new config).after actions
    (∀ a : Action, (s.call a.call).1.isOk = false → a.removes = false → a.several = false → s.act a = s) ∧
    (∀ a : Action, (s.call a.call).1.isOk = false → a.several = true →
      (s.act a).topology = s.topology ∧ (s.act a).engine.wiring = s.engine.wiring) ∧
    (∀ a : Action, (s.call a.call).1.isOk = false → a.removes = true → (s.act a).engine = s.engine ∧
      ((s.act a).topology = s.topology ∨ Change a s.topology (s.act a).topology)) ∧
    (s.Agrees ∨ ∃ before a later, actions = before ++ a :: later ∧
      ((new config).after before).Agrees ∧ ((new config).after before).HalfDone a) ∧
    (s.Agrees → ∀ a : Action, (s.call a.call).1.isOk = false → a.removes = true →
      (s.act a).topology = s.topology ∨ s.HalfDone a) ∧
    (s.Agrees → s.topology.Schedulable → ∀ a : Action, (s.call a.call).1.isOk = false → a.removes = true →
      s.act a = s) := by
  intro s
  refine ⟨fun a hfails hremoves hseveral => ?_, fun a _ hseveral => ?_, fun a hfails hremoves => ⟨?_, change_act s a⟩,
    agrees_after config actions, fun hagrees a hfails hremoves => ?_,
    fun hagrees horder a hfails hremoves => hagrees.removal_undone horder hremoves hfails⟩
  · obtain ⟨e, hmade⟩ := call_of_fails hfails
    exact undone_of_not_removes hremoves hseveral s e (congrArg Prod.fst hmade)
  · have hkind := not_restructures_of_several hseveral
    exact ⟨keeps_of_not_restructures hkind s, steady_of_not_restructures hkind s⟩
  · obtain ⟨e, hmade⟩ := call_of_fails hfails
    rcases spares_of_removes s hremoves e _ hmade with hsame | ⟨hengine, -⟩
    · rw [hsame]
    · exact hengine
  · rcases hagrees.removal_fails hremoves hfails with hsame | ⟨-, htopology⟩ | hhalf
    · exact .inl (congrArg Session.topology hsame)
    · exact .inl htopology
    · exact .inr hhalf

/-- Half a removal: the other loop of a session without an order is gone for the control side, and the engine still has
it. -/
example :
    let s := feedback.act .addLoop
    let u := s.act (.deleteLoop ⟨1, 0⟩)
    (s.call (deleteLoop ⟨1, 0⟩)).1.isOk = false ∧ s.topology.loops.contains ⟨1, 0⟩ = true ∧
      u.topology.loops.contains ⟨1, 0⟩ = false ∧ u.engine.loops.contains ⟨1, 0⟩ = true := by
  decide +kernel

end Session

end Overdub
