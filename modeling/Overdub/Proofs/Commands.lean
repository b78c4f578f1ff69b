import Mathlib
import Overdub.Command.Queue
/-!
# Commands take effect in the order they were issued

An `Event` is what one control thread or the process side does to a queue, or a
cycle that fails to come. `inTurn` is what a history makes of the state if
everything in it is done on the spot. `Queue.Follows` is the invariant: the queue
has done a first part of the history, and of the rest it holds the commands, so
that whoever drains it finds the state of the whole history.

A history with numbers (`numbered`) does the same and notes in a log who saw
which state. `Queue.Related` compares two queues that run alike; it is why the
log does not change what happens, and why a command that fails does not either.
-/

namespace Overdub.Command

variable {σ τ α : Type}

/-- A call of the control thread, a cycle of the process side, or the lack of one. -/
inductive Event (σ α : Type) where
  | enqueue (command : Change σ)
  /-- A call that waits for its answer, and no cycle comes. -/
  | exec (f : σ → σ × α)
  /-- A call that leaves the answer to a cycle: one comes while it waits, or it
  gives up and the command still waits. -/
  | send (f : σ → σ × α)
  | setPassthrough (on : Bool)
  | cycle (body : σ → σ × α)
  /-- For longer than the timeout no cycle has come. -/
  | lapse

/-- What the one who caused an event gets. -/
inductive Answer (α : Type) where
  | reported (result : Except Error Unit)
  | returned (a : α)
  | nothing

namespace Event

/-- What an event does to the state if it is carried out on the spot, and what it answers. -/
def perform : Event σ α → σ → σ × Answer α
  | enqueue command, s => ((command s).1, .reported (command s).2)
  | exec f, s | send f, s | cycle f, s => ((f s).1, .returned (f s).2)
  | setPassthrough _, s | lapse, s => (s, .nothing)

def effect (e : Event σ α) (s : σ) : σ := (e.perform s).1

/-- The command of an event that may have to wait. -/
def change? : Event σ α → Option (Change σ)
  | enqueue command => some command
  | send f => some fun s => ((f s).1, .ok ())
  | _ => none

/-- The event is nothing but a change of the queue's own settings. -/
def isSwitch : Event σ α → Bool
  | setPassthrough _ | lapse => true
  | _ => false

/-- The event that also notes its number and the state it sees. -/
def noted (e : Event σ α) (n : Nat) : Event (σ × List (Nat × σ)) α :=
  let note {β : Type} (f : σ → σ × β) : σ × List (Nat × σ) → (σ × List (Nat × σ)) × β :=
    fun (s, log) => (((f s).1, log ++ [(n, s)]), (f s).2)
  match e with
  | enqueue command => enqueue (note command)
  | exec f => exec (note f)
  | send f => send (note f)
  | setPassthrough on => setPassthrough on
  | cycle body => cycle (note body)
  | lapse => lapse

/-- The event whose command, if it is one for a cycle, does the same and reports success. -/
def quiet : Event σ α → Event σ α
  | enqueue command => enqueue fun s => ((command s).1, .ok ())
  | e => e

end Event

/-- The state after a history in which everything is done on the spot. -/
def inTurn (history : List (Event σ α)) (s : σ) : σ := history.foldl (fun s e => e.effect s) s

/-- The history in which each event notes its place and the state it sees. -/
def numbered (history : List (Event σ α)) : List (Event (σ × List (Nat × σ)) α) :=
  history.zipIdx.map fun (e, n) => e.noted n

/-- The log of a history with numbers: every command and every cycle once, in
order, with what all events before it have made of the state. -/
def sightings (history : List (Event σ α)) (s : σ) : List (Nat × σ) :=
  (history.zipIdx.filter fun (e, _) => !e.isSwitch).map fun (_, n) => (n, inTurn (history.take n) s)

namespace Queue

/-- Issues `f` without insisting on its answer: it runs at once or waits. -/
def send (q : Queue σ) (f : σ → σ × α) : Answer α × Queue σ :=
  if q.runsAtOnce then (.returned (q.runNow f).1, (q.runNow f).2)
  else if q.pending.length < q.capacity then
    (.nothing, { q with pending := q.pending ++ [fun s => ((f s).1, .ok ())] })
  else
    let late := { q with active := false }
    (.returned (late.runNow f).1, (late.runNow f).2)

/-- One event. -/
def step (q : Queue σ) : Event σ α → Answer α × Queue σ
  | .enqueue command => (.reported (q.enqueue command).1, (q.enqueue command).2)
  | .exec f => (.returned (q.exec f).1, (q.exec f).2)
  | .send f => q.send f
  | .setPassthrough on => (.nothing, q.setPassthrough on)
  | .cycle body => (.returned (q.cycle body).1, (q.cycle body).2)
  | .lapse => (.nothing, { q with active := false })

/-- What a history leaves. -/
def after (q : Queue σ) (history : List (Event σ α)) : Queue σ := history.foldl (fun q e => (q.step e).2) q

theorem after_concat (q : Queue σ) (history : List (Event σ α)) (e : Event σ α) :
    q.after (history ++ [e]) = ((q.after history).step e).2 := List.foldl_concat ..

/-! ## One event -/

/-- A command waits: it may, calls do not run at once, and there is room. -/
def Defers (q : Queue σ) (e : Event σ α) (command : Change σ) : Prop :=
  e.change? = some command ∧ q.runsAtOnce = false ∧ q.pending.length < q.capacity

/-- A command waits, or the event is a switch, or it drains the queue and is then carried out. -/
theorem step_cases (q : Queue σ) (e : Event σ α) :
    (∃ command, q.Defers e command ∧ (q.step e).2 = { q with pending := q.pending ++ [command] }) ∨
    (e.isSwitch = true ∧ (q.step e).2.state = q.state ∧ (q.step e).2.pending = q.pending) ∨
    (e.isSwitch = false ∧ (q.step e).1 = (e.perform q.drain.state).2 ∧
      (q.step e).2.state = e.effect q.drain.state ∧ (q.step e).2.pending = []) := by
  cases e with
  | enqueue command =>
    by_cases hnow : q.runsAtOnce = true
    · refine .inr (.inr ⟨rfl, ?_⟩)
      simp only [step, enqueue, hnow, if_true]
      exact ⟨rfl, rfl, rfl⟩
    · by_cases hroom : q.pending.length < q.capacity
      · refine .inl ⟨command, ⟨rfl, by simpa using hnow, hroom⟩, ?_⟩
        simp only [step, enqueue, hnow, hroom, if_true, if_false, Bool.false_eq_true]
      · refine .inr (.inr ⟨rfl, ?_⟩)
        simp only [step, enqueue, hnow, hroom, if_false, Bool.false_eq_true]
        exact ⟨rfl, rfl, rfl⟩
  | send f =>
    by_cases hnow : q.runsAtOnce = true
    · refine .inr (.inr ⟨rfl, ?_⟩)
      simp only [step, send, hnow, if_true]
      exact ⟨rfl, rfl, rfl⟩
    · by_cases hroom : q.pending.length < q.capacity
      · refine .inl ⟨_, ⟨rfl, by simpa using hnow, hroom⟩, ?_⟩
        simp only [step, send, hnow, hroom, if_true, if_false, Bool.false_eq_true]
      · refine .inr (.inr ⟨rfl, ?_⟩)
        simp only [step, send, hnow, hroom, if_false, Bool.false_eq_true]
        exact ⟨rfl, rfl, rfl⟩
  | exec f =>
    refine .inr (.inr ⟨rfl, ?_⟩)
    simp only [step, exec]
    split <;> exact ⟨rfl, rfl, rfl⟩
  | setPassthrough on => exact .inr (.inl ⟨rfl, rfl, rfl⟩)
  | cycle body => exact .inr (.inr ⟨rfl, rfl, rfl, rfl⟩)
  | lapse => exact .inr (.inl ⟨rfl, rfl, rfl⟩)

end Queue

/-! ## A history done on the spot -/

theorem inTurn_append (history later : List (Event σ α)) (s : σ) :
    inTurn (history ++ later) s = inTurn later (inTurn history s) := List.foldl_append

theorem inTurn_concat (history : List (Event σ α)) (e : Event σ α) (s : σ) :
    inTurn (history ++ [e]) s = e.effect (inTurn history s) := List.foldl_concat ..

theorem Event.effect_of_change {e : Event σ α} {command : Change σ} (h : e.change? = some command) (s : σ) :
    e.effect s = (command s).1 := by
  cases e <;> cases h <;> rfl

theorem Event.effect_of_isSwitch {e : Event σ α} (h : e.isSwitch = true) (s : σ) : e.effect s = s := by
  cases e <;> first | rfl | cases h

theorem Event.change_of_isSwitch {e : Event σ α} (h : e.isSwitch = true) : e.change? = none := by
  cases e <;> first | rfl | cases h

/-- Nothing of this is carried out before the queue is drained. -/
def Waiting (later : List (Event σ α)) : Prop := ∀ e ∈ later, e.isSwitch = false → (e.change?).isSome = true

/-- Carrying out the commands that wait is doing their part of the history on the spot. -/
theorem Waiting.foldl {later : List (Event σ α)} (h : Waiting later) (s : σ) :
    (later.filterMap Event.change?).foldl (fun s command => (command s).1) s = inTurn later s := by
  induction later generalizing s with
  | nil => rfl
  | cons e later ih =>
    have hlater : Waiting later := fun e' he' => h e' (List.mem_cons_of_mem _ he')
    show _ = inTurn later (e.effect s)
    cases hswitch : e.isSwitch with
    | true => rw [List.filterMap_cons_none (Event.change_of_isSwitch hswitch), Event.effect_of_isSwitch hswitch, ih hlater]
    | false =>
      obtain ⟨command, hcommand⟩ := Option.isSome_iff_exists.1 (h e List.mem_cons_self hswitch)
      rw [List.filterMap_cons_some hcommand, List.foldl_cons, ← Event.effect_of_change hcommand, ih hlater]

theorem Waiting.length {later : List (Event σ α)} (h : Waiting later) :
    (later.filterMap Event.change?).length = later.countP fun e => !e.isSwitch := by
  induction later with
  | nil => rfl
  | cons e later ih =>
    have hlater : Waiting later := fun e' he' => h e' (List.mem_cons_of_mem _ he')
    cases hswitch : e.isSwitch with
    | true => rw [List.filterMap_cons_none (Event.change_of_isSwitch hswitch), ih hlater]; simp [hswitch]
    | false =>
      obtain ⟨command, hcommand⟩ := Option.isSome_iff_exists.1 (h e List.mem_cons_self hswitch)
      rw [List.filterMap_cons_some hcommand, List.length_cons, ih hlater]
      simp [hswitch]

/-! ## The log -/

theorem sightings_concat (history : List (Event σ α)) (e : Event σ α) (s : σ) :
    sightings (history ++ [e]) s =
      sightings history s ++ if e.isSwitch then [] else [(history.length, inTurn history s)] := by
  have hbefore : ∀ x ∈ history.zipIdx.filter (fun (e, _) => !e.isSwitch),
      ((x.2, inTurn ((history ++ [e]).take x.2) s) : Nat × σ) = (x.2, inTurn (history.take x.2) s) := by
    rintro ⟨e', n⟩ hmem
    have hlt := (List.mk_mem_zipIdx_iff_getElem?.1 (List.mem_of_mem_filter hmem))
    rw [List.take_append_of_le_length (List.getElem?_eq_some_iff.1 hlt).1.le]
  unfold sightings
  rw [List.zipIdx_append, List.filter_append, List.map_append, List.map_congr_left hbefore]
  cases hswitch : e.isSwitch <;> simp [hswitch]

/-- What is seen first does not depend on what comes later. -/
theorem sightings_append (history later : List (Event σ α)) (s : σ) :
    ∃ rest, sightings (history ++ later) s = sightings history s ++ rest ∧
      rest.length = later.countP fun e => !e.isSwitch := by
  induction later using List.reverseRecOn with
  | nil => exact ⟨[], by simp, rfl⟩
  | append_singleton later e ih =>
    obtain ⟨rest, hrest, hlength⟩ := ih
    rw [← List.append_assoc, sightings_concat, hrest, List.append_assoc]
    refine ⟨_, rfl, ?_⟩
    rw [List.length_append, hlength, List.countP_append]
    cases hswitch : e.isSwitch <;> simp [hswitch]

theorem numbered_concat (history : List (Event σ α)) (e : Event σ α) :
    numbered (history ++ [e]) = numbered history ++ [e.noted history.length] := by
  unfold numbered
  rw [List.zipIdx_append, List.map_append]
  simp

theorem take_numbered (history : List (Event σ α)) (n : Nat) :
    (numbered history).take n = numbered (history.take n) := by
  refine List.ext_getElem? fun i => ?_
  simp only [numbered, List.getElem?_take, List.getElem?_map, List.getElem?_zipIdx, Nat.zero_add]
  split_ifs <;> rfl

theorem Event.isSwitch_noted (e : Event σ α) (n : Nat) : (e.noted n).isSwitch = e.isSwitch := by
  cases e <;> rfl

theorem countP_drop_numbered (history : List (Event σ α)) (n : Nat) :
    ((numbered history).drop n).countP (fun e => !e.isSwitch) = (history.drop n).countP fun e => !e.isSwitch := by
  have hfst : history.drop n = (history.zipIdx.drop n).map Prod.fst := by
    rw [List.map_drop, List.zipIdx_map_fst]
  rw [hfst, numbered, ← List.map_drop, List.countP_map, List.countP_map]
  exact List.countP_congr fun x _ => by simp only [Function.comp_apply, Event.isSwitch_noted]

theorem Event.effect_noted (e : Event σ α) (n : Nat) (s : σ) (log : List (Nat × σ)) :
    (e.noted n).effect (s, log) = (e.effect s, log ++ if e.isSwitch then [] else [(n, s)]) := by
  cases e <;> simp [noted, effect, perform, isSwitch]

theorem inTurn_numbered (history : List (Event σ α)) (s : σ) :
    inTurn (numbered history) (s, []) = (inTurn history s, sightings history s) := by
  induction history using List.reverseRecOn with
  | nil => rfl
  | append_singleton history e ih =>
    rw [numbered_concat, inTurn_concat, ih, Event.effect_noted, inTurn_concat, sightings_concat]

/-! ## Queues that run alike -/

/-- The two commands do the same to related states. -/
def Change.Related (r : σ → τ → Prop) (c : Change σ) (c' : Change τ) : Prop := ∀ s t, r s t → r (c s).1 (c' t).1

/-- The two functions do the same to related states, and answer the same. -/
def Alike (r : σ → τ → Prop) (f : σ → σ × α) (f' : τ → τ × α) : Prop :=
  ∀ s t, r s t → r (f s).1 (f' t).1 ∧ (f s).2 = (f' t).2

/-- The same event with a command, function or body that does the same. What a command reports may differ. -/
inductive Event.Related (r : σ → τ → Prop) : Event σ α → Event τ α → Prop
  | enqueue {c c'} : Change.Related r c c' → Related r (.enqueue c) (.enqueue c')
  | exec {f f'} : Alike r f f' → Related r (.exec f) (.exec f')
  | send {f f'} : Alike r f f' → Related r (.send f) (.send f')
  | setPassthrough (on : Bool) : Related r (.setPassthrough on) (.setPassthrough on)
  | cycle {f f'} : Alike r f f' → Related r (.cycle f) (.cycle f')
  | lapse : Related r .lapse .lapse

/-- The queues differ in no more than their states and commands do. -/
structure Queue.Related (r : σ → τ → Prop) (q : Queue σ) (q' : Queue τ) : Prop where
  state : r q.state q'.state
  pending : List.Forall₂ (Change.Related r) q.pending q'.pending
  capacity : q.capacity = q'.capacity
  passthrough : q.passthrough = q'.passthrough
  active : q.active = q'.active

namespace Queue.Related

variable {r : σ → τ → Prop} {q : Queue σ} {q' : Queue τ}

theorem runsAtOnce (h : q.Related r q') : q.runsAtOnce = q'.runsAtOnce := by
  unfold Queue.runsAtOnce
  rw [h.passthrough, h.active]

theorem drain (h : q.Related r q') : q.drain.Related r q'.drain where
  state := by
    have hfold : ∀ (cs : List (Change σ)) (cs' : List (Change τ)), List.Forall₂ (Change.Related r) cs cs' →
        ∀ s t, r s t → r (cs.foldl (fun s c => (c s).1) s) (cs'.foldl (fun s c => (c s).1) t) := by
      intro cs cs' hcs
      induction hcs with
      | nil => exact fun _ _ hst => hst
      | cons hc _ ih => exact fun s t hst => ih _ _ (hc s t hst)
    exact hfold _ _ h.pending _ _ h.state
  pending := .nil
  capacity := h.capacity
  passthrough := h.passthrough
  active := h.active

theorem runNow (h : q.Related r q') {f : σ → σ × α} {f' : τ → τ × α}
    (hf : ∀ s t, r s t → r (f s).1 (f' t).1) : (q.runNow f).2.Related r (q'.runNow f').2 :=
  { h.drain with state := hf _ _ h.drain.state }

theorem late (h : q.Related r q') : ({ q with active := false } : Queue σ).Related r { q' with active := false } :=
  { h with active := rfl }

theorem push (h : q.Related r q') {c : Change σ} {c' : Change τ} (hc : Change.Related r c c') :
    ({ q with pending := q.pending ++ [c] } : Queue σ).Related r { q' with pending := q'.pending ++ [c'] } :=
  { h with pending := List.rel_append h.pending (.cons hc .nil) }

/-- Related events leave related queues. -/
theorem step (h : q.Related r q') {e : Event σ α} {e' : Event τ α} (he : e.Related r e') :
    (q.step e).2.Related r (q'.step e').2 := by
  have hroom : (q.pending.length < q.capacity) = (q'.pending.length < q'.capacity) := by
    rw [h.pending.length_eq, h.capacity]
  cases he with
  | enqueue hc =>
    simp only [Queue.step, Queue.enqueue, h.runsAtOnce, hroom]
    split_ifs
    · exact h.runNow hc
    · exact h.push hc
    · exact h.late.runNow hc
  | exec hf =>
    simp only [Queue.step, Queue.exec, h.runsAtOnce]
    split_ifs
    · exact h.runNow fun s t hst => (hf s t hst).1
    · exact h.late.runNow fun s t hst => (hf s t hst).1
  | send hf =>
    simp only [Queue.step, Queue.send, h.runsAtOnce, hroom]
    split_ifs
    · exact h.runNow fun s t hst => (hf s t hst).1
    · exact h.push fun s t hst => (hf s t hst).1
    · exact h.late.runNow fun s t hst => (hf s t hst).1
  | setPassthrough on => exact { h with passthrough := rfl }
  | cycle hf => exact { h.drain with state := (hf _ _ h.drain.state).1, active := rfl }
  | lapse => exact h.late

theorem after (h : q.Related r q') {history : List (Event σ α)} {history' : List (Event τ α)}
    (he : List.Forall₂ (Event.Related r) history history') : (q.after history).Related r (q'.after history') := by
  induction he generalizing q q' with
  | nil => exact h
  | cons he _ ih => exact ih (h.step he)

end Queue.Related

/-- Noting changes nothing but the log. -/
theorem Event.related_noted (e : Event σ α) (n : Nat) : e.Related (fun s t => t.1 = s) (e.noted n) := by
  cases e with
  | enqueue command => exact .enqueue fun _ _ hst => by cases hst; rfl
  | exec f => exact .exec fun _ _ hst => by cases hst; exact ⟨rfl, rfl⟩
  | send f => exact .send fun _ _ hst => by cases hst; exact ⟨rfl, rfl⟩
  | setPassthrough on => exact .setPassthrough on
  | cycle body => exact .cycle fun _ _ hst => by cases hst; exact ⟨rfl, rfl⟩
  | lapse => exact .lapse

theorem related_numbered (history : List (Event σ α)) :
    List.Forall₂ (Event.Related fun s t => t.1 = s) history (numbered history) := by
  induction history using List.reverseRecOn with
  | nil => exact .nil
  | append_singleton history e ih =>
    rw [numbered_concat]
    exact List.rel_append ih (.cons (e.related_noted _) .nil)

theorem Event.related_quiet (e : Event σ α) : e.Related Eq e.quiet := by
  have heq : ∀ f : σ → σ × α, Alike Eq f f := fun f s t hst => by cases hst; exact ⟨rfl, rfl⟩
  cases e with
  | enqueue command => exact .enqueue fun _ _ hst => by cases hst; rfl
  | exec f => exact .exec (heq f)
  | send f => exact .send (heq f)
  | setPassthrough on => exact .setPassthrough on
  | cycle body => exact .cycle (heq body)
  | lapse => exact .lapse

/-! ## Any history -/

namespace Queue

/-- A first part of the history is done, and the commands of the rest wait. -/
def Follows (q : Queue σ) (history : List (Event σ α)) (state : σ) : Prop :=
  ∃ n ≤ history.length, q.state = inTurn (history.take n) state ∧
    q.pending = (history.drop n).filterMap Event.change? ∧ Waiting (history.drop n)

variable {q : Queue σ} {history : List (Event σ α)} {state : σ}

/-- Whoever drains the queue finds the state of the whole history. -/
theorem Follows.drain (h : q.Follows history state) : q.drain.state = inTurn history state := by
  obtain ⟨n, -, hstate, hpending, hwaiting⟩ := h
  show q.pending.foldl _ q.state = _
  rw [hpending, hwaiting.foldl, hstate, ← inTurn_append, List.take_append_drop]

theorem Follows.step (h : q.Follows history state) (e : Event σ α) :
    (q.step e).2.Follows (history ++ [e]) state := by
  have hdrain := h.drain
  obtain ⟨n, hn, hstate, hpending, hwaiting⟩ := h
  have htake : (history ++ [e]).take n = history.take n := List.take_append_of_le_length hn
  have hdrop : (history ++ [e]).drop n = history.drop n ++ [e] := List.drop_append_of_le_length hn
  have hlength : n ≤ (history ++ [e]).length := by rw [List.length_append]; omega
  rcases q.step_cases e with ⟨command, ⟨hcommand, -, -⟩, hstep⟩ | ⟨hswitch, hs, hp⟩ | ⟨-, -, hs, hp⟩
  · refine ⟨n, hlength, ?_, ?_, ?_⟩
    · rw [hstep, htake]
      exact hstate
    · rw [hstep, hdrop, List.filterMap_append, ← hpending, List.filterMap_cons_some hcommand, List.filterMap_nil]
    · rw [hdrop]
      refine List.forall_mem_append.2 ⟨hwaiting, List.forall_mem_singleton.2 fun _ => ?_⟩
      rw [hcommand, Option.isSome_some]
  · refine ⟨n, hlength, by rw [hs, htake, hstate], ?_, ?_⟩
    · rw [hp, hdrop, List.filterMap_append, ← hpending, List.filterMap_cons_none (Event.change_of_isSwitch hswitch)]
      exact (List.append_nil _).symm
    · rw [hdrop]
      refine List.forall_mem_append.2 ⟨hwaiting, List.forall_mem_singleton.2 fun hnot => ?_⟩
      rw [hswitch] at hnot
      cases hnot
  · -- Everything before it has been carried out, and so is the event itself.
    refine ⟨(history ++ [e]).length, le_rfl, ?_, ?_, ?_⟩
    · rw [List.take_length, inTurn_concat, hs, hdrain]
    · rw [List.drop_length, hp, List.filterMap_nil]
    · rw [List.drop_length]
      exact List.forall_mem_nil _

theorem follows_after (state : σ) (capacity timeout : Nat) (history : List (Event σ α)) :
    ((Queue.new state capacity timeout).after history).Follows history state := by
  induction history using List.reverseRecOn with
  | nil => exact ⟨0, le_rfl, rfl, rfl, List.forall_mem_nil _⟩
  | append_singleton history e ih =>
    rw [after_concat]
    exact ih.step e

theorem active_after {history : List (Event σ α)} (h : ∀ body, Event.cycle body ∉ history) (q : Queue σ)
    (hq : q.active = false) : (q.after history).active = false := by
  induction history generalizing q with
  | nil => exact hq
  | cons e history ih =>
    refine ih (fun body hmem => h body (List.mem_cons_of_mem _ hmem)) _ ?_
    cases e with
    | enqueue command =>
      simp only [step, enqueue]
      split_ifs
      · exact hq
      · exact hq
      · rfl
    | exec f =>
      simp only [step, exec]
      split_ifs
      · exact hq
      · rfl
    | send f =>
      simp only [step, send]
      split_ifs
      · exact hq
      · exact hq
      · rfl
    | setPassthrough on => exact hq
    | cycle body => exact absurd List.mem_cons_self (h body)
    | lapse => rfl

/-- Noting leaves a queue as it is, and the log holds what has been done so far: all that was seen, less the commands
that still wait. -/
theorem log_after (state : σ) (capacity timeout : Nat) (history : List (Event σ α)) :
    let q := (Queue.new state capacity timeout).after history
    let noting := (Queue.new (state, []) capacity timeout).after (numbered history)
    noting.state.1 = q.state ∧ noting.drain.state = (inTurn history state, sightings history state) ∧
      ∃ waiting, sightings history state = noting.state.2 ++ waiting ∧ waiting.length = q.pending.length := by
  intro q noting
  have hnew : (Queue.new state capacity timeout).Related (fun s t => t.1 = s)
      (Queue.new (state, ([] : List (Nat × σ))) capacity timeout) := ⟨rfl, .nil, rfl, rfl, rfl⟩
  have hrelated : q.Related (fun s t => t.1 = s) noting := hnew.after (related_numbered history)
  have hfollows : noting.Follows (numbered history) (state, []) := follows_after _ _ _ _
  refine ⟨hrelated.state, hfollows.drain.trans (inTurn_numbered history state), ?_⟩
  obtain ⟨n, -, hstate, hpending, hwaiting⟩ := hfollows
  obtain ⟨rest, hrest, hlength⟩ := sightings_append (history.take n) (history.drop n) state
  rw [List.take_append_drop] at hrest
  rw [take_numbered, inTurn_numbered] at hstate
  refine ⟨rest, by rw [hrest, hstate], ?_⟩
  rw [hrelated.pending.length_eq, hpending, hwaiting.length, hlength, countP_drop_numbered]

end Queue

/-- Whatever one control thread and the process side do in turn, with a queue of any capacity: what was issued is carried
out in the order of the issues, each once. The state is that of a first part of the history done on the spot, the commands
of the rest wait, and the log of a history with numbers holds each command and each cycle so far once, in order, with the
state that all events before it made. A cycle and a call that runs at once find the state that the whole history made, and
leave nothing to wait; a call runs at once in passthrough, before the first cycle or after one failed to come, and when
the queue is full. Commands that report success in place of an error change nothing. -/
theorem commands_in_turn (state : σ) (capacity timeout : Nat) (history : List (Event σ α)) :
    let q := (Queue.new state capacity timeout).after history
    let noting := (Queue.new (state, []) capacity timeout).after (numbered history)
    let quiet := (Queue.new state capacity timeout).after (history.map Event.quiet)
    let now := inTurn history state
    (∃ n, q.state = inTurn (history.take n) state ∧ q.pending = (history.drop n).filterMap Event.change? ∧
      Waiting (history.drop n)) ∧
    (noting.state.1 = q.state ∧ noting.drain.state = (now, sightings history state) ∧
      ∃ waiting, sightings history state = noting.state.2 ++ waiting ∧ waiting.length = q.pending.length) ∧
    (∀ body : σ → σ × α, (q.cycle body).1 = (body now).2 ∧ (q.cycle body).2.state = (body now).1 ∧
      (q.cycle body).2.pending = []) ∧
    (∀ f : σ → σ × α, (q.exec f).1 = (f now).2 ∧ (q.exec f).2.state = (f now).1 ∧ (q.exec f).2.pending = []) ∧
    (∀ command, (q.passthrough = true ∨ q.active = false ∨ q.capacity ≤ q.pending.length) →
      (q.enqueue command).1 = (command now).2 ∧ (q.enqueue command).2.state = (command now).1 ∧
        (q.enqueue command).2.pending = []) ∧
    (∀ command, ¬(q.passthrough = true ∨ q.active = false ∨ q.capacity ≤ q.pending.length) →
      q.enqueue command = (.ok (), { q with pending := q.pending ++ [command] })) ∧
    ((∀ body, Event.cycle body ∉ history) → q.active = false) ∧
    (quiet.state = q.state ∧ quiet.pending.length = q.pending.length ∧
      ∀ body : σ → σ × α, (quiet.cycle body).1 = (q.cycle body).1 ∧
        (quiet.cycle body).2.state = (q.cycle body).2.state) := by
  intro q noting quiet now
  have hfollows : q.Follows history state := Queue.follows_after state capacity timeout history
  have hnow : q.drain.state = now := hfollows.drain
  have hquiet : q.Related Eq quiet := by
    refine Queue.Related.after ⟨rfl, .nil, rfl, rfl, rfl⟩ ?_
    exact List.forall₂_map_right_iff.2 (List.forall₂_same.2 fun e _ => e.related_quiet)
  refine ⟨?_, Queue.log_after state capacity timeout history, fun body => ?_, fun f => ?_, fun command hnext => ?_,
    fun command hwait => ?_, fun hcycle => Queue.active_after hcycle _ rfl, ?_⟩
  · obtain ⟨n, -, hstate, hpending, hwaiting⟩ := hfollows
    exact ⟨n, hstate, hpending, hwaiting⟩
  · rw [← hnow]
    exact ⟨rfl, rfl, rfl⟩
  · rw [← hnow]
    unfold Queue.exec
    split <;> exact ⟨rfl, rfl, rfl⟩
  · rw [← hnow]
    unfold Queue.enqueue
    split_ifs with honce hroom
    · exact ⟨rfl, rfl, rfl⟩
    · have hidle : q.passthrough = false ∧ q.active = true := by simpa [Queue.runsAtOnce] using honce
      rcases hnext with hpass | hactive | hfull
      · exact absurd hpass (by simp [hidle.1])
      · exact absurd hactive (by simp [hidle.2])
      · omega
    · exact ⟨rfl, rfl, rfl⟩
  · obtain ⟨hpass, hactive, hroom⟩ := not_or.1 hwait |>.imp_right not_or.1
    have honce : q.runsAtOnce = false := by simp_all [Queue.runsAtOnce]
    simp only [Queue.enqueue, honce, Nat.lt_of_not_le hroom, if_true, Bool.false_eq_true, if_false]
  · refine ⟨hquiet.state.symm, hquiet.pending.length_eq.symm, fun body => ?_⟩
    simp only [Queue.cycle, hquiet.drain.state, and_self]

end Overdub.Command
