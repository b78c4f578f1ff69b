import Overdub.Proofs.Lineage
import Overdub.Proofs.SyncTiming
import Overdub.Session.Engine
/-!
# Loops that wait at their ends

A loop that reaches its end while its sync source plays is parked there until the
source triggers. A cycle parks no loop whose source does not play, and a source
that a parked loop follows does not stop in a cycle without triggering it
(`Waits.chunk`). A command can stop the source of a parked loop or take it away;
`Strands` says which ones do. The loop then has no end before it that it could
reach, so it does not become its own clock; as long as no other loop of its line
is under way it stays where it is (`Deadlocked.chunk`).
-/

namespace Overdub

/-! ## Clocks at their ends -/

namespace Clock
variable {c : Clock} {mode : LoopMode} {n : Nat}

/-- Plays, and has something to play. -/
structure Plays (c : Clock) : Prop where
  playing : c.mode.isPlaying = true
  content : 0 < c.length

/-- Plays, and has come to its end. -/
structure Parked (c : Clock) : Prop extends Plays c where
  ended : c.length ≤ c.position

/-- Plays, and has not come to its end. -/
structure Underway (c : Clock) : Prop where
  playing : c.mode.isPlaying = true
  before : c.position < c.length

instance (c : Clock) : Decidable c.Parked :=
  decidable_of_iff (c.mode.isPlaying = true ∧ 0 < c.length ∧ c.length ≤ c.position)
    ⟨fun h => ⟨⟨h.1, h.2.1⟩, h.2.2⟩, fun h => ⟨h.playing, h.content, h.ended⟩⟩

instance (c : Clock) : Decidable c.Underway :=
  decidable_of_iff (c.mode.isPlaying = true ∧ c.position < c.length) ⟨fun h => ⟨h.1, h.2⟩, fun h => ⟨h.playing, h.before⟩⟩

theorem not_parked_still : ¬ still.Parked := fun h => Bool.false_ne_true h.playing

theorem not_plays_still : ¬ still.Plays := fun h => Bool.false_ne_true h.playing

theorem Plays.transition (h : c.Plays) (hm : mode.isPlaying = true) : (c.transition mode).Plays := by
  unfold Clock.transition
  split
  · exact h
  · have hne : mode ≠ .recording := by
      rintro rfl
      cases hm
    exact ⟨hm, by simpa [hne] using h.content⟩

/-- No change of mode leads to the end of a loop. -/
theorem parked_of_transition (h : (c.transition mode).Parked) : c.Parked := by
  unfold transition at h
  split at h
  · exact h
  · obtain ⟨⟨hp, hc⟩, he⟩ := h
    dsimp only at hp hc he
    by_cases hplay : c.mode.isPlaying = true
    · have hne : mode ≠ .recording := by
        rintro rfl
        cases hp
      rw [if_neg hne] at hc he
      rw [if_pos (by rw [hplay, hp]; rfl)] at he
      exact ⟨⟨hplay, hc⟩, he⟩
    · rw [if_neg (c := (c.mode.isPlaying && mode.isPlaying) = true) (by simp [hplay])] at he
      omega

theorem not_parked_wrapped (c : Clock) : ¬ c.wrapped.Parked := by
  rintro ⟨⟨hp, hc⟩, he⟩
  unfold wrapped at hp hc he
  split at hp
  · next h =>
    rw [if_pos h] at hc he
    exact absurd he (Nat.not_le.2 hc)
  · next h =>
    rw [if_neg h] at hc he
    exact h (by simp [hp, he])

/-- A trigger leaves no loop at its end. -/
theorem not_parked_trigger (c : Clock) : ¬ c.trigger.Parked := by
  have hfollow : ∀ (plans : List PlannedTransition) (c : Clock), (c.follow plans).Parked → c.Parked := by
    intro plans
    induction plans with
    | nil => exact fun _ h => h
    | cons p rest ih => exact fun c h => parked_of_transition (ih _ h)
  rintro ⟨⟨hp, hc⟩, he⟩
  exact not_parked_wrapped c (hfollow _ _ ⟨⟨hp, hc⟩, he⟩)

theorem settled_of_plays (h : c.Plays) : c.settled = c := settled_of_content fun _ => h.content

theorem plays_settled (h : c.settled.mode.isPlaying = true) : c.settled.Plays := ⟨h, content_of_settled c h⟩

/-- To settle is no way to play. -/
theorem settled_eq_of_plays (h : c.settled.Plays) : c.settled = c := by
  have hp := h.playing
  unfold settled at hp ⊢
  split
  · next hc =>
    -- a loop that had to settle has stopped
    rw [if_pos hc] at hp
    simp only [Bool.and_eq_true] at hc
    unfold transition at hp
    split at hp
    · next hm => simp [hm, LoopMode.isPlaying] at hc
    · cases hp
  · rfl

theorem Plays.moved (h : c.Plays) (n : Nat) : (c.moved n).Plays :=
  ⟨(c.moved_mode n).symm ▸ h.playing, Nat.lt_of_lt_of_le h.content (c.moved_length_le n)⟩

theorem moved_ended (hp : c.mode.isPlaying = true) (he : c.length ≤ c.position) :
    (c.moved n).length ≤ (c.moved n).position := by
  obtain ⟨mode, position, length, planned⟩ := c
  cases mode <;> simp [LoopMode.isPlaying] at hp <;> simp [Clock.moved] at he ⊢ <;> omega

theorem Parked.moved (h : c.Parked) (n : Nat) : (c.moved n).Parked := ⟨h.toPlays.moved n, moved_ended h.playing h.ended⟩

theorem not_underway_moved (h : ¬ c.Underway) : ¬ (c.moved n).Underway := by
  rintro ⟨hp, hlt⟩
  rw [moved_mode] at hp
  have he : c.length ≤ c.position := Nat.not_lt.1 fun hlt => h ⟨hp, hlt⟩
  exact absurd (moved_ended (n := n) hp he) (Nat.not_le.2 hlt)

/-- Frames that do not pass an end lead to it only if they end there. -/
theorem untilEnd_of_parked_moved (hw : ∀ m, c.untilEnd = some m → n ≤ m) (h : (c.moved n).Parked)
    (hc : ¬ c.Parked) (hcontent : 0 < c.length) : c.untilEnd = some n := by
  have hp : c.mode.isPlaying = true := by simpa using h.playing
  have hlt : c.position < c.length := Nat.not_le.1 fun he => hc ⟨⟨hp, hcontent⟩, he⟩
  have hle := hw _ (untilEnd_eq_some.2 ⟨hp, hlt, rfl⟩)
  have he := h.ended
  refine untilEnd_eq_some.2 ⟨hp, hlt, Nat.le_antisymm hle ?_⟩
  obtain ⟨mode, position, length, planned⟩ := c
  cases mode <;> simp [LoopMode.isPlaying] at hp <;> simp [Clock.moved, clampFrames] at he hlt ⊢ <;> omega

theorem underway_of_untilEnd (h : c.untilEnd = some n) : c.Underway :=
  ⟨(untilEnd_eq_some.1 h).1, (untilEnd_eq_some.1 h).2.1⟩

theorem underway_of_settled (h : c.settled.Underway) : c.Underway := by
  have hp := plays_settled h.playing
  rwa [settled_eq_of_plays hp] at h

end Clock

/-! ## Ensembles -/

namespace Ensemble
variable {e : Ensemble} {c : Clocks} {n : Nat}

/-- Every parked clock follows one that plays. -/
def Waits (e : Ensemble) (c : Clocks) : Prop :=
  ∀ key, (c key).Parked → ∃ source, e.source key = some source ∧ (c source).Plays

/-- Triggers from upstream reach every clock that takes part, and the others stand
still. -/
structure Connected (e : Ensemble) (c : Clocks) : Prop where
  listed : ∀ key, c key = .still ∨ key ∈ e.keys
  near : ∀ key d k, upstream e.source d key = some k →
    ∃ d ≤ Scheduler.maxHops + 1, upstream e.source d key = some k

/-- A follower that takes part triggers with its source. -/
theorem Connected.fired_of_source (h : Connected e c) {key source : LoopKey} (hkey : key ∈ e.keys)
    (hs : e.source key = some source) (hfired : e.fired n c source = true) : e.fired n c key = true := by
  obtain ⟨d, k, hk, hend⟩ := exists_of_passAll hfired
  exact (passAll_iff hkey fun d k hk _ => h.near key d k hk).2 ⟨d + 1, k, by simpa [upstream, hs] using hk, hend⟩

theorem Connected.settle (h : Connected e c) : Connected e (settle c) where
  listed key := (h.listed key).imp_left fun hc => by simp [Ensemble.settle, hc]
  near := h.near

/-- A chunk parks no clock whose source does not play, and triggers the clocks
whose source it stops. -/
theorem Waits.chunk (h : e.Waits c) (hc : Connected e c) (hw : Within n c) : e.Waits (e.chunk n c) := by
  intro key hparked
  have hquiet : e.fired n (Ensemble.settle c) key = false := by
    rw [← Bool.not_eq_true]
    intro hf
    rw [chunk_of_fired hf] at hparked
    exact Clock.not_parked_trigger _ hparked
  rw [chunk_of_not_fired hquiet] at hparked
  have hkey : key ∈ e.keys := (hc.listed key).resolve_left fun hs => by
    rw [hs] at hparked
    exact Clock.not_parked_still hparked
  have hplays : (Ensemble.settle c key).Plays :=
    Clock.plays_settled ((Clock.moved_mode _ n).symm ▸ hparked.playing)
  -- The source plays as the chunk begins, whether the clock was at its end or has come to it.
  obtain ⟨source, hs, hsource⟩ : ∃ source, e.source key = some source ∧ (Ensemble.settle c source).Plays := by
    by_cases hbefore : (Ensemble.settle c key).Parked
    · rw [Ensemble.settle, Clock.settled_eq_of_plays hplays] at hbefore
      obtain ⟨source, hs, hsource⟩ := h key hbefore
      exact ⟨source, hs, by rwa [Ensemble.settle, Clock.settled_of_plays hsource]⟩
    · have hend := Clock.untilEnd_of_parked_moved (hw key) hparked hbefore hplays.content
      have hnot : e.endsAlone n (Ensemble.settle c) key = false := by
        rw [← Bool.not_eq_true]
        exact fun hend => by simp [fired, e.passAll_of_hit hend] at hquiet
      unfold endsAlone at hnot
      cases hs : e.source key with
      | none => simp [hend, hs] at hnot
      | some source =>
        have hplaying : (Ensemble.settle c source).mode.isPlaying = true := by simpa [hend, hs] using hnot
        exact ⟨source, rfl, Clock.plays_settled hplaying⟩
  -- It has not triggered, or the clock would have.
  have hstill : e.fired n (Ensemble.settle c) source = false := by
    rw [← Bool.not_eq_true]
    exact fun hf => by simp [hc.settle.fired_of_source hkey hs hf] at hquiet
  refine ⟨source, hs, ?_⟩
  rw [chunk_of_not_fired hstill]
  exact hsource.moved n

theorem Connected.chunk (h : Connected e c) (n : Nat) : Connected e (e.chunk n c) where
  listed key := (h.settle.listed key).imp_left advance_still
  near := h.near

/-- The clock is at its end, and nothing upstream of it is under way. -/
structure Deadlocked (e : Ensemble) (c : Clocks) (key : LoopKey) : Prop where
  parked : (c key).Parked
  halted : ∀ d k, upstream e.source d key = some k → ¬ (c k).Underway

/-- What is deadlocked stays so. -/
theorem Deadlocked.chunk {key : LoopKey} (h : e.Deadlocked c key) (n : Nat) : e.Deadlocked (e.chunk n c) key := by
  have hquiet : ∀ d k, upstream e.source d key = some k → e.fired n (Ensemble.settle c) k = false := by
    intro d k hk
    rw [← Bool.not_eq_true]
    intro hf
    obtain ⟨i, k', hk', hend⟩ := exists_of_passAll hf
    simp only [endsAlone, Bool.and_eq_true, decide_eq_true_eq] at hend
    have hup : upstream e.source (d + i) key = some k' := by simp [upstream_add, hk, hk']
    exact h.halted (d + i) k' hup (Clock.underway_of_settled (Clock.underway_of_untilEnd hend.1))
  have hmoved : ∀ d k, upstream e.source d key = some k → e.chunk n c k = ((c k).settled).moved n :=
    fun d k hk => chunk_of_not_fired (hquiet d k hk)
  refine ⟨?_, fun d k hk => ?_⟩
  · rw [hmoved 0 key rfl, Clock.settled_of_plays h.parked.toPlays]
    exact h.parked.moved n
  · rw [hmoved d k hk]
    exact Clock.not_underway_moved fun hrun => h.halted d k hk (Clock.underway_of_settled hrun)

/-- Chunks in a row that park no clock whose source does not play. -/
theorem Run.waits {c' : Clocks} (h : e.Run c n c') (hwaits : e.Waits c) (hc : Connected e c) :
    e.Waits c' :=
  (h.inv (fun _ c => e.Waits c ∧ Connected e c)
    (fun _ n _ _ hw hi => ⟨hi.1.chunk hi.2 hw, hi.2.chunk n⟩) (t := 0) ⟨hwaits, hc⟩).1

theorem Run.deadlocked {c' : Clocks} {key : LoopKey} (h : e.Run c n c') (hd : e.Deadlocked c key) :
    e.Deadlocked c' key :=
  h.inv (fun _ c => e.Deadlocked c key) (fun _ n _ _ _ hi => hi.chunk n) (t := 0) hd

end Ensemble

/-! ## Loops -/

namespace Scheduler
variable {s : Scheduler} {loops loops' : Loops} {keys : List LoopKey} {key : LoopKey}

/-- The loop plays, and has something to play. -/
def PlaysAt (loops : Loops) (key : LoopKey) : Prop := ∃ l, loops.get? key = some l ∧ l.transport.clock.Plays

/-- The loop plays, and has come to its end. -/
def ParkedAt (loops : Loops) (key : LoopKey) : Prop := ∃ l, loops.get? key = some l ∧ l.transport.clock.Parked

/-- The loop plays, and has not come to its end. -/
def UnderwayAt (loops : Loops) (key : LoopKey) : Prop := ∃ l, loops.get? key = some l ∧ l.transport.clock.Underway

/-- Every parked loop follows one that plays. -/
def Waits (loops : Loops) : Prop :=
  ∀ key, ParkedAt loops key → ∃ source, source? loops key = some source ∧ PlaysAt loops source

/-- A parked loop follows this one. -/
def Awaited (loops : Loops) (key : LoopKey) : Prop := ∃ k, ParkedAt loops k ∧ source? loops k = some key

/-- The loop has come to its end, and none that it follows, directly or not, is
on its way to its own. -/
structure Deadlocked (loops : Loops) (key : LoopKey) : Prop where
  parked : ParkedAt loops key
  halted : ∀ d k, upstream (source? loops) d key = some k → ¬ UnderwayAt loops k

/-- No sync chain is longer than triggers are passed on in one chunk, but for
going round in circles. -/
def InReach (loops : Loops) : Prop :=
  ∀ key d k, upstream (source? loops) d key = some k →
    ∃ d ≤ maxHops + 1, upstream (source? loops) d key = some k

theorem clocks_iff {P : Clock → Prop} (h : ¬ P .still) :
    P (clocks (fun _ => true) loops key) ↔ ∃ l, loops.get? key = some l ∧ P l.transport.clock := by
  cases hl : loops.get? key with
  | none => simp [clocks_of_none hl, h]
  | some l =>
    have hclock : clocks (fun _ => true) loops key = l.transport.clock := clocks_of_some rfl hl
    simp [hclock]

theorem parkedAt_iff : (clocks (fun _ => true) loops key).Parked ↔ ParkedAt loops key :=
  clocks_iff Clock.not_parked_still

theorem playsAt_iff : (clocks (fun _ => true) loops key).Plays ↔ PlaysAt loops key := clocks_iff Clock.not_plays_still

theorem underwayAt_iff : (clocks (fun _ => true) loops key).Underway ↔ UnderwayAt loops key :=
  clocks_iff fun h => Bool.false_ne_true h.playing

theorem waits_iff :
    Ensemble.Waits ⟨source? loops, keys⟩ (clocks (fun _ => true) loops) ↔ Waits loops := by
  simp only [Ensemble.Waits, Waits, parkedAt_iff, playsAt_iff]

theorem deadlocked_iff :
    Ensemble.Deadlocked ⟨source? loops, keys⟩ (clocks (fun _ => true) loops) key ↔ Deadlocked loops key := by
  constructor
  · exact fun h => ⟨parkedAt_iff.1 h.parked, fun d k hk hrun => h.halted d k hk (underwayAt_iff.2 hrun)⟩
  · exact fun h => ⟨parkedAt_iff.2 h.parked, fun d k hk hrun => h.halted d k hk (underwayAt_iff.1 hrun)⟩

theorem connected (hkeys : ∀ key l, loops.get? key = some l → key ∈ keys) (hreach : InReach loops) :
    Ensemble.Connected ⟨source? loops, keys⟩ (clocks (fun _ => true) loops) where
  listed key := by
    cases hl : loops.get? key with
    | none => exact .inl (clocks_of_none hl)
    | some l => exact .inr (hkeys key l hl)
  near := hreach

theorem ne_of_source {source : LoopKey} (h : source? loops key = some source) : source ≠ key := by
  obtain ⟨l, -, hs⟩ := Option.bind_eq_some_iff.1 h
  simpa using (Option.filter_eq_some_iff.1 hs).2

theorem Waits.playsAt (h : Waits loops) (ha : Awaited loops key) : PlaysAt loops key := by
  obtain ⟨k, hparked, hs⟩ := ha
  obtain ⟨source, hs', hplays⟩ := h k hparked
  rw [hs, Option.some.injEq] at hs'
  rwa [hs']

/-! ## Commands -/

/-- Takes a loop out; its followers follow nothing. -/
def drop (loops : Loops) (key : LoopKey) : Loops :=
  match loops.remove key with
  | (none, _) => loops
  | (some _, loops) => loops.map fun l => { l with syncSource := l.syncSource.filter (· ≠ key) }

/-- What becomes of the loops of an engine that one is removed from. -/
theorem loops_removeLoop (e : Engine) (key : LoopKey) : (e.removeLoop key).2.loops = drop e.loops key := by
  unfold Engine.removeLoop drop
  rcases e.loops.remove key with ⟨_ | l, loops⟩ <;> rfl

/-- What is done to loops between cycles. -/
inductive Command where
  | plan (key : LoopKey) (mode : LoopMode) (delay : Nat) (waitForSync : Bool)
  | clearPlans (key : LoopKey)
  | setLength (key : LoopKey) (length : Nat)
  | follow (key : LoopKey) (source : Option LoopKey)
  | remove (key : LoopKey)

def Command.run : Command → Loops → Loops
  | .plan key mode delay waitForSync, loops => loops.modify key (·.plan mode delay waitForSync)
  | .clearPlans key, loops => loops.modify key (·.modifyTransport (·.clearPlans))
  | .setLength key length, loops => loops.modify key (·.modifyTransport (·.setLength length))
  | .follow key source, loops => loops.modify key ({ · with syncSource := source })
  | .remove key, loops => drop loops key

/-- A transition planned for the loop does not wait for a trigger. -/
def obeysAtOnce (l : Loop) (waitForSync : Bool) : Bool :=
  !waitForSync || (!l.syncSource.isSome && l.transport.mode != LoopMode.playing)

/-- The command takes the playing source of a parked loop away. -/
def Strands (loops : Loops) : Command → Prop
  | .plan key mode _ waitForSync =>
    Awaited loops key ∧ mode.isPlaying = false ∧ ∃ l, loops.get? key = some l ∧ obeysAtOnce l waitForSync = true
  | .clearPlans _ => False
  | .setLength key length => Awaited loops key ∧ length = 0
  | .follow key source => ParkedAt loops key ∧ ∀ k, source.filter (· ≠ key) = some k → ¬ PlaysAt loops k
  | .remove key => Awaited loops key

/-- A change of one loop that does not bring it to its end leaves another one at
its end alone exactly if it stops the loop. -/
theorem Waits.modify_iff (h : Waits loops) (key : LoopKey) (f : Loop → Loop) (Stops : Loop → Prop)
    (hsource : ∀ l, (f l).syncSource = l.syncSource)
    (hparked : ∀ l, (f l).transport.clock.Parked → l.transport.clock.Parked)
    (hplays : ∀ l, l.transport.clock.Plays → ((f l).transport.clock.Plays ↔ ¬ Stops l)) :
    Waits (loops.modify key f) ↔ ¬ (Awaited loops key ∧ ∃ l, loops.get? key = some l ∧ Stops l) := by
  have hsame := source?_modify loops key f hsource
  constructor
  · rintro hafter ⟨⟨k, ⟨lk, hlk, hk⟩, hs⟩, l, hl, hstops⟩
    have hne := ne_of_source hs
    have hpark : ParkedAt (loops.modify key f) k := ⟨lk, by rw [Arena.get?_modify_ne _ _ hne.symm, hlk], hk⟩
    obtain ⟨source, hs', l', hl', hplaysAfter⟩ := hafter k hpark
    rw [hsame, hs, Option.some.injEq] at hs'
    subst hs'
    rw [Arena.get?_modify_self, hl, Option.map_some, Option.some.injEq] at hl'
    subst hl'
    obtain ⟨l₀, hl₀, hplaysBefore⟩ := h.playsAt ⟨k, ⟨lk, hlk, hk⟩, hs⟩
    rw [hl, Option.some.injEq] at hl₀
    subst hl₀
    exact (hplays l hplaysBefore).1 hplaysAfter hstops
  · rintro hnot k ⟨lk', hlk', hk⟩
    rw [Arena.get?_modify_eq_map] at hlk'
    obtain ⟨lk, hlk, rfl⟩ := Option.map_eq_some_iff.1 hlk'
    have hbefore : ParkedAt loops k := by
      refine ⟨lk, hlk, ?_⟩
      split at hk
      · exact hparked lk hk
      · exact hk
    obtain ⟨source, hs, l, hl, hplaysBefore⟩ := h k hbefore
    refine ⟨source, hsame ▸ hs, _, by rw [Arena.get?_modify_eq_map, hl, Option.map_some], ?_⟩
    split
    · next heq =>
      subst heq
      exact (hplays l hplaysBefore).2 fun hstops => hnot ⟨⟨k, hbefore, hs⟩, l, hl, hstops⟩
    · exact hplaysBefore

theorem clock_setLength (t : Transport) (length : Nat) :
    (t.setLength length).clock =
      { t.clock with
        length
        position := if length = t.length then t.position else min t.position (length - 1) } := by
  unfold Transport.setLength
  split
  · next h => subst h; rfl
  · dsimp only
    split
    · next h =>
      have hmin : min t.position (length - 1) = length - 1 := by omega
      have hclock := Transport.clock_setPosition { t with length } (length - 1)
      rw [hmin]
      exact congrArg (fun c : Clock => c) hclock
    · next h =>
      have hmin : min t.position (length - 1) = t.position := by omega
      rw [hmin]
      rfl

theorem clock_plan_cases (l : Loop) (mode : LoopMode) (delay : Nat) (waitForSync : Bool) :
    (l.plan mode delay waitForSync).transport.clock =
      if obeysAtOnce l waitForSync then { l.transport.clock.transition mode with planned := [] }
      else { l.transport.clock with planned := Transport.insertPlan ⟨mode, delay⟩ l.transport.planned } := by
  unfold Loop.plan Loop.modifyTransport Transport.plan obeysAtOnce
  dsimp only
  split
  · rw [← Transport.clock_transition]
    rfl
  · rfl

theorem Waits.plan_iff (h : Waits loops) (mode : LoopMode) (delay : Nat) (waitForSync : Bool) :
    Waits ((Command.plan key mode delay waitForSync).run loops) ↔
      ¬ Strands loops (.plan key mode delay waitForSync) := by
  have hiff := h.modify_iff key (·.plan mode delay waitForSync)
    (fun l => mode.isPlaying = false ∧ obeysAtOnce l waitForSync = true) (fun _ => rfl)
    (fun l hl => ?parked) (fun l hl => ?plays)
  case parked =>
    rw [clock_plan_cases] at hl
    split at hl
    · exact Clock.parked_of_transition ⟨⟨hl.playing, hl.content⟩, hl.ended⟩
    · exact ⟨⟨hl.playing, hl.content⟩, hl.ended⟩
  case plays =>
    rw [clock_plan_cases]
    split
    · next hobeys =>
      cases hm : mode.isPlaying with
      | true =>
        have hplays := hl.transition hm
        exact iff_of_true ⟨hplays.playing, hplays.content⟩ (by simp)
      | false =>
        refine iff_of_false (fun hplays => ?_) (by simp [hobeys])
        have hp := hplays.playing
        simp [Clock.transition_mode, hm] at hp
    · next hobeys => exact iff_of_true ⟨hl.playing, hl.content⟩ (by simp [hobeys])
  refine hiff.trans (not_congr ⟨?_, ?_⟩)
  · rintro ⟨ha, l, hl, hm, hobeys⟩
    exact ⟨ha, hm, l, hl, hobeys⟩
  · rintro ⟨ha, hm, l, hl, hobeys⟩
    exact ⟨ha, l, hl, hm, hobeys⟩

theorem Waits.setLength_iff (h : Waits loops) (length : Nat) :
    Waits ((Command.setLength key length).run loops) ↔ ¬ Strands loops (.setLength key length) := by
  have hiff := h.modify_iff key (·.modifyTransport (·.setLength length))
    (fun _ => length = 0) (fun _ => rfl) (fun l hl => ?parked) (fun l hl => ?plays)
  case parked =>
    rw [Loop.modifyTransport, clock_setLength] at hl
    obtain ⟨⟨hp, hc⟩, he⟩ := hl
    dsimp only at hp hc he
    split at he
    · next hsame =>
      subst hsame
      exact ⟨⟨hp, hc⟩, he⟩
    · omega
  case plays =>
    rw [Loop.modifyTransport, clock_setLength]
    exact ⟨fun hafter => Nat.ne_of_gt hafter.content, fun hne => ⟨hl.playing, Nat.pos_of_ne_zero hne⟩⟩
  refine hiff.trans (not_congr ⟨?_, ?_⟩)
  · rintro ⟨ha, l, hl, hzero⟩
    exact ⟨ha, hzero⟩
  · rintro ⟨ha, hzero⟩
    obtain ⟨l, hl, -⟩ := h.playsAt ha
    exact ⟨ha, l, hl, hzero⟩

theorem Waits.clearPlans (h : Waits loops) : Waits ((Command.clearPlans key).run loops) := by
  refine (h.modify_iff key (·.modifyTransport (·.clearPlans)) (fun _ => False) (fun _ => rfl)
    (fun l hl => ⟨⟨hl.playing, hl.content⟩, hl.ended⟩) fun l hl => ?_).2 fun hstops => hstops.2.choose_spec.2
  exact iff_of_true ⟨hl.playing, hl.content⟩ not_false

theorem source?_follow (source : Option LoopKey) (k : LoopKey) :
    source? ((Command.follow key source).run loops) k =
      if k = key then (loops.get? key).bind fun _ => source.filter (· ≠ key) else source? loops k := by
  unfold source? Command.run
  rw [Arena.get?_modify]
  split
  · next hk =>
    subst hk
    cases loops.get? k <;> rfl
  · rfl

theorem get?_follow (source : Option LoopKey) (k : LoopKey) {P : Clock → Prop} :
    (∃ l, ((Command.follow key source).run loops).get? k = some l ∧ P l.transport.clock) ↔
      ∃ l, loops.get? k = some l ∧ P l.transport.clock := by
  unfold Command.run
  rw [Arena.get?_modify_eq_map]
  cases loops.get? k with
  | none => simp
  | some l => by_cases hk : k = key <;> simp [hk]

theorem Waits.follow_iff (h : Waits loops) (source : Option LoopKey) :
    Waits ((Command.follow key source).run loops) ↔ ¬ Strands loops (.follow key source) := by
  have hparked : ∀ k, ParkedAt ((Command.follow key source).run loops) k ↔ ParkedAt loops k := fun k => get?_follow source k
  have hplays : ∀ k, PlaysAt ((Command.follow key source).run loops) k ↔ PlaysAt loops k := fun k => get?_follow source k
  simp only [Waits, hparked, hplays, source?_follow]
  constructor
  · rintro hafter ⟨hk, hnone⟩
    obtain ⟨l, hl, -⟩ := id hk
    obtain ⟨k, hs, hplaysAt⟩ := hafter key hk
    rw [if_pos rfl, hl, Option.bind_some] at hs
    exact hnone k hs hplaysAt
  · intro hnot k hk
    by_cases heq : k = key
    · subst heq
      obtain ⟨l, hl, -⟩ := id hk
      rw [if_pos rfl, hl, Option.bind_some]
      by_contra hnone
      exact hnot ⟨hk, fun k' hs hplaysAt => hnone ⟨k', hs, hplaysAt⟩⟩
    · rw [if_neg heq]
      exact h k hk

section Drop
variable (hkey : ∃ l, loops.get? key = some l) (k : LoopKey)
include hkey

theorem get?_drop :
    (drop loops key).get? k = if k = key then none else
      (loops.get? k).map fun l => { l with syncSource := l.syncSource.filter (· ≠ key) } := by
  obtain ⟨l, hl⟩ := hkey
  unfold drop
  rw [Arena.remove_of_get? hl]
  dsimp only
  rw [Arena.get?_map, Arena.get?_erase]
  split <;> rfl

theorem source?_drop :
    source? (drop loops key) k = if k = key then none else (source? loops k).filter (· ≠ key) := by
  unfold source?
  rw [get?_drop hkey]
  split
  · rfl
  · cases loops.get? k with
    | none => rfl
    | some l => simp [Option.filter_filter, Bool.and_comm]

theorem clock_drop {P : Clock → Prop} :
    (∃ l, (drop loops key).get? k = some l ∧ P l.transport.clock) ↔
      k ≠ key ∧ ∃ l, loops.get? k = some l ∧ P l.transport.clock := by
  rw [get?_drop hkey]
  by_cases hk : k = key
  · simp [hk]
  · cases loops.get? k <;> simp [hk]

end Drop

theorem Waits.remove_iff (h : Waits loops) :
    Waits ((Command.remove key).run loops) ↔ ¬ Strands loops (.remove key) := by
  cases hl : loops.get? key with
  | none =>
    have hgone : (Command.remove key).run loops = loops := by
      simp only [Command.run, drop, Arena.remove_of_none hl]
    refine hgone.symm ▸ iff_of_true h fun ha => ?_
    obtain ⟨l, hl', -⟩ := h.playsAt ha
    simp [hl] at hl'
  | some l =>
    have hkey : ∃ l, loops.get? key = some l := ⟨l, hl⟩
    have hparked : ∀ k, ParkedAt (drop loops key) k ↔ k ≠ key ∧ ParkedAt loops k := fun k => clock_drop hkey k
    have hplays : ∀ k, PlaysAt (drop loops key) k ↔ k ≠ key ∧ PlaysAt loops k := fun k => clock_drop hkey k
    simp only [Command.run, Waits, hparked, hplays, source?_drop hkey]
    constructor
    · rintro hafter ⟨k, hk, hs⟩
      have hne := (ne_of_source hs).symm
      obtain ⟨source, hs', hother, -⟩ := hafter k ⟨hne, hk⟩
      rw [if_neg hne, hs, Option.filter_eq_some_iff, Option.some.injEq] at hs'
      exact hother hs'.1.symm
    · rintro hnot k ⟨hne, hk⟩
      obtain ⟨source, hs, hplaysAt⟩ := h k hk
      have hother : source ≠ key := by
        rintro rfl
        exact hnot ⟨k, hk, hs⟩
      exact ⟨source, by simp [hne, hs, hother], hother, hplaysAt⟩

/-- A command leaves a loop at its end for good exactly if it strands one. -/
theorem Waits.command_iff (h : Waits loops) (command : Command) :
    Waits (command.run loops) ↔ ¬ Strands loops command := by
  cases command with
  | plan key mode delay waitForSync => exact h.plan_iff mode delay waitForSync
  | clearPlans key => exact iff_of_true h.clearPlans not_false
  | setLength key length => exact h.setLength_iff length
  | follow key source => exact h.follow_iff source
  | remove key => exact h.remove_iff

/-! ## Histories -/

theorem Waits.process (h : Waits loops) (hnd : keys.Nodup) (hkeys : ∀ key l, loops.get? key = some l → key ∈ keys)
    (hbare : ∀ key l, loops.get? key = some l → l.channels = []) (ha : s.Ahead loops) (hreach : InReach loops)
    {n : Nat} (hn : n ≤ maxFrames) : Waits (s.process loops keys n).2.1 := by
  have hruns := runs_all hnd hkeys ha hbare
  have hafter := (hruns.process hn).waits (waits_iff.2 h) (connected hkeys hreach)
  rw [← source?_congr (processFrom_syncSource hnd ha n (.ok ()))] at hafter
  exact waits_iff.1 hafter

theorem Deadlocked.cycles (h : Deadlocked loops key) (hnd : keys.Nodup)
    (hkeys : ∀ key l, loops.get? key = some l → key ∈ keys)
    (hbare : ∀ key l, loops.get? key = some l → l.channels = []) (ha : s.Ahead loops) {ns : List Nat}
    (hns : ∀ n ∈ ns, n ≤ maxFrames) : Deadlocked (s.cycles loops keys ns).2.1 key := by
  have hruns := runs_all hnd hkeys ha hbare
  have hafter := (hruns.cycles_run ns hns).deadlocked (deadlocked_iff.2 h)
  rw [← source?_congr (hruns.cycles_sameSources ns)] at hafter
  exact deadlocked_iff.1 hafter

/-- What commands and cycles have made of new loops, no command having stranded
one. -/
inductive Reached : Scheduler → Loops → Prop
  | start (maxIterations : Nat) (loops : Loops) (h : ∀ key l, loops.get? key = some l → l = .new) :
      Reached (.new maxIterations) loops
  | add {s : Scheduler} {loops loops' : Loops} {key : LoopKey} (h : Reached s loops) (hfree : loops.get? key = none)
      (hadd : ∀ k, loops'.get? k = if k = key then some .new else loops.get? k) : Reached s loops'
  | command {s : Scheduler} {loops : Loops} (h : Reached s loops) (command : Command)
      (hspares : ¬ Strands loops command) : Reached s (command.run loops)
  | cycle {s : Scheduler} {loops : Loops} (h : Reached s loops) {keys : List LoopKey} (hnd : keys.Nodup)
      (hkeys : ∀ key l, loops.get? key = some l → key ∈ keys) (hreach : InReach loops) {n : Nat}
      (hn : n ≤ maxFrames) : Reached (s.process loops keys n).1 (s.process loops keys n).2.1

/-- No command touches the channels of a loop, or the round of its last refresh. -/
theorem Command.kept (command : Command) {l' : Loop} (hl' : (command.run loops).get? key = some l') :
    ∃ l, loops.get? key = some l ∧ l'.channels = l.channels ∧ l'.transport.round = l.transport.round := by
  have hmodify : ∀ (k : LoopKey) (f : Loop → Loop), (∀ l, (f l).channels = l.channels) →
      (∀ l, (f l).transport.round = l.transport.round) → (loops.modify k f).get? key = some l' →
      ∃ l, loops.get? key = some l ∧ l'.channels = l.channels ∧ l'.transport.round = l.transport.round := by
    intro k f hchannels hround h
    rw [Arena.get?_modify_eq_map] at h
    obtain ⟨l, hl, rfl⟩ := Option.map_eq_some_iff.1 h
    refine ⟨l, hl, ?_⟩
    split
    · exact ⟨hchannels l, hround l⟩
    · exact ⟨rfl, rfl⟩
  cases command with
  | plan k mode delay waitForSync =>
    refine hmodify k (·.plan mode delay waitForSync) (fun _ => rfl) (fun l => ?_) hl'
    unfold Loop.plan Loop.modifyTransport Transport.plan
    dsimp only
    split
    · exact (Transport.carried_transition l.transport mode).round
    · rfl
  | clearPlans k => exact hmodify k (·.modifyTransport (·.clearPlans)) (fun _ => rfl) (fun _ => rfl) hl'
  | setLength k length =>
    exact hmodify k (·.modifyTransport (·.setLength length)) (fun _ => rfl)
      (fun l => (Transport.carried_setLength l.transport length).round) hl'
  | follow k source => exact hmodify k ({ · with syncSource := source }) (fun _ => rfl) (fun _ => rfl) hl'
  | remove k =>
    cases hk : loops.get? k with
    | none => exact ⟨l', by simpa [Command.run, drop, Arena.remove_of_none hk] using hl', rfl, rfl⟩
    | some lk =>
      rw [Command.run, get?_drop ⟨lk, hk⟩] at hl'
      split at hl'
      · cases hl'
      · obtain ⟨l, hl, rfl⟩ := Option.map_eq_some_iff.1 hl'
        exact ⟨l, hl, rfl, rfl⟩

/-- What is true of all loops that are reached. -/
structure Sound (s : Scheduler) (loops : Loops) : Prop where
  ahead : s.Ahead loops
  bare : ∀ key l, loops.get? key = some l → l.channels = []
  waits : Waits loops

theorem Sound.add (h : Sound s loops) (hfree : loops.get? key = none)
    (hadd : ∀ k, loops'.get? k = if k = key then some .new else loops.get? k) : Sound s loops' := by
  have hold : ∀ k l, loops'.get? k = some l → l = .new ∨ loops.get? k = some l := by
    intro k l hl
    rw [hadd] at hl
    split at hl
    · exact .inl (Option.some.inj hl).symm
    · exact .inr hl
  refine ⟨fun k l hl => ?_, fun k l hl => ?_, ?_⟩
  · rcases hold k l hl with rfl | hl
    · exact Nat.zero_le _
    · exact h.ahead k l hl
  · rcases hold k l hl with rfl | hl
    · rfl
    · exact h.bare k l hl
  · rintro k ⟨l, hl, hk⟩
    rcases hold k l hl with rfl | hl'
    · exact absurd hk Clock.not_parked_still
    -- the loop that it follows is not the new one, whose key was free
    · obtain ⟨source, hs, ls, hls, hplays⟩ := h.waits k ⟨l, hl', hk⟩
      have hother : source ≠ key := by
        rintro rfl
        simp [hfree] at hls
      refine ⟨source, ?_, ls, by rw [hadd, if_neg hother, hls], hplays⟩
      simpa [source?, hl, hl'] using hs

theorem Reached.sound (h : Reached s loops) : Sound s loops := by
  induction h with
  | start maxIterations loops h =>
    refine ⟨fun key l hl => ?_, fun key l hl => ?_, ?_⟩
    · rw [h key l hl]
      exact Nat.zero_le _
    · rw [h key l hl]
      rfl
    · rintro key ⟨l, hl, hk⟩
      rw [h key l hl] at hk
      exact absurd hk Clock.not_parked_still
  | add _ hfree hadd ih => exact ih.add hfree hadd
  | command _ command hspares ih =>
    refine ⟨fun key l' hl' => ?_, fun key l' hl' => ?_, (ih.waits.command_iff command).2 hspares⟩
    · obtain ⟨l, hl, -, hround⟩ := command.kept hl'
      rw [hround]
      exact ih.ahead key l hl
    · obtain ⟨l, hl, hchannels, -⟩ := command.kept hl'
      rw [hchannels]
      exact ih.bare key l hl
  | @cycle s loops _ keys hnd hkeys hreach n hn ih =>
    have hafter := (runs_all hnd hkeys ih.ahead ih.bare).processFrom n (.ok ())
    have hsame := processFrom_syncSource hnd ih.ahead n (.ok ())
    refine ⟨hafter.ahead, fun key l' hl' => ?_, ih.waits.process hnd hkeys ih.bare ih.ahead hreach hn⟩
    obtain ⟨l, hl, -⟩ := hsame.some_right hl'
    exact hafter.bare key (hkeys key l hl) rfl l' hl'

/-- Loops that are parked follow a loop that plays, in any history in which no
command strands one and triggers can reach all loops; a command strands one by
nothing but what `Strands` names. A loop at its end that no loop under way leads
to is not wrapped by any cycles. -/
theorem parked_loops_wait (s : Scheduler) (loops : Loops) :
    (Reached s loops → Waits loops) ∧
    (∀ command, Waits loops → (Waits (command.run loops) ↔ ¬ Strands loops command)) ∧
    (∀ (keys : List LoopKey) ns key, keys.Nodup → (∀ key l, loops.get? key = some l → key ∈ keys) →
      (∀ key l, loops.get? key = some l → l.channels = []) → s.Ahead loops → (∀ n ∈ ns, n ≤ maxFrames) →
      Deadlocked loops key → Deadlocked (s.cycles loops keys ns).2.1 key) :=
  ⟨fun h => h.sound.waits, fun command h => h.command_iff command,
    fun _ _ _ hnd hkeys hbare ha hns h => h.cycles hnd hkeys hbare ha hns⟩

/-- Where no loop is parked, none can be stranded. -/
theorem not_strands (h : ∀ key, ¬ ParkedAt loops key) (command : Command) : ¬ Strands loops command := by
  have hawaited : ∀ key, ¬ Awaited loops key := fun key ⟨k, hk, _⟩ => h k hk
  cases command with
  | plan key mode delay waitForSync => exact fun hs => hawaited key hs.1
  | clearPlans key => exact id
  | setLength key length => exact fun hs => hawaited key hs.1
  | follow key source => exact fun hs => h key hs.1
  | remove key => exact hawaited key

theorem not_parkedAt (h : ∀ p ∈ loops.toList, ¬ p.2.transport.clock.Parked) (key : LoopKey) : ¬ ParkedAt loops key :=
  fun ⟨_, hl, hparked⟩ => h _ (Arena.mem_toList_of_get? hl) hparked

/-- A loop of eight samples and one of four that follows it, both at their start. -/
def unequal : Loops :=
  [Command.setLength ⟨0, 0⟩ 8, .plan ⟨0, 0⟩ .playing 0 false, .setLength ⟨1, 0⟩ 4, .plan ⟨1, 0⟩ .playing 0 false,
    .follow ⟨1, 0⟩ (some ⟨0, 0⟩)].foldl (fun loops command => command.run loops)
      { slots := [⟨0, some .new⟩, ⟨0, some .new⟩], size := 2 }

theorem reached_unequal : Reached (.new 16) unequal := by
  let pair : Loops := { slots := [⟨0, some .new⟩, ⟨0, some .new⟩], size := 2 }
  have hnew : ∀ p ∈ pair.toList, p.2 = .new := by simp [pair, Arena.toList]
  have h₀ : Reached (.new 16) pair := .start 16 pair fun key l h => hnew _ (Arena.mem_toList_of_get? h)
  have h₁ := h₀.command (.setLength ⟨0, 0⟩ 8) (not_strands (not_parkedAt (by decide)) _)
  have h₂ := h₁.command (.plan ⟨0, 0⟩ .playing 0 false) (not_strands (not_parkedAt (by decide)) _)
  have h₃ := h₂.command (.setLength ⟨1, 0⟩ 4) (not_strands (not_parkedAt (by decide)) _)
  have h₄ := h₃.command (.plan ⟨1, 0⟩ .playing 0 false) (not_strands (not_parkedAt (by decide)) _)
  exact h₄.command (.follow ⟨1, 0⟩ (some ⟨0, 0⟩)) (not_strands (not_parkedAt (by decide)) _)

/-- Where no loop that is followed follows another one, triggers reach all loops. -/
theorem inReach_of_flat (h : ∀ key source, source? loops key = some source → source? loops source = none) :
    InReach loops := by
  intro key d k hk
  match d with
  | 0 => exact ⟨0, by decide, hk⟩
  | 1 => exact ⟨1, by decide, hk⟩
  | d + 2 =>
    obtain ⟨source, hs, hk⟩ := Option.bind_eq_some_iff.1 hk
    simp [upstream, h key source hs] at hk

/-- The shorter loop waits at its end for the longer one. When that is stopped, it
goes on waiting. -/
theorem parked_loops_wait_stopped :
    let first := (Scheduler.new 16).process unequal unequal.keys 4
    let stopped := (Command.plan ⟨0, 0⟩ .stopped 0 false).run first.2.1
    Waits first.2.1 ∧ ParkedAt first.2.1 ⟨1, 0⟩ ∧ ¬ Waits stopped ∧
      ParkedAt (first.1.cycles stopped stopped.keys [1, 7, maxFrames]).2.1 ⟨1, 0⟩ := by
  have hreach : InReach unequal := inReach_of_flat fun key source hs => by
    obtain ⟨l, hl, -⟩ := Option.bind_eq_some_iff.1 hs
    have hall : ∀ k ∈ unequal.keys, (source? unequal k).all fun source => source? unequal source = none := by decide
    simpa [hs] using hall key (Arena.mem_keys_of_get? hl)
  have hreached := reached_unequal.cycle (by decide) (fun _ _ h => Arena.mem_keys_of_get? h) hreach
    (by decide : 4 ≤ maxFrames)
  -- the four frames are one chunk
  have hround := reached_unequal.sound.ahead.begin unequal.keys (by decide : 0 < 4)
  have hframes : (Scheduler.new 16).nextFrames unequal unequal.keys 4 = 4 := by decide
  have hfirst : (Scheduler.new 16).process unequal unequal.keys 4 =
      ((Scheduler.new 16).next, ((Scheduler.new 16).nextChunk unequal unequal.keys 4).1,
        ((Scheduler.new 16).nextChunk unequal unequal.keys 4).2.bind fun _ => .ok ()) := by
    rw [process, processFrom_eq hround, hframes, Nat.sub_self, processFrom_zero]
  rw [hfirst] at hreached ⊢
  dsimp only at hreached ⊢
  generalize hw : ((Scheduler.new 16).nextChunk unequal unequal.keys 4).1 = waiting at hreached ⊢
  have hparked : ParkedAt waiting ⟨1, 0⟩ := by
    subst hw
    exact ⟨_, rfl, by decide⟩
  have hstrands : Strands waiting (.plan ⟨0, 0⟩ .stopped 0 false) := by
    refine ⟨⟨⟨1, 0⟩, hparked, ?_⟩, rfl, ?_⟩ <;> subst hw
    · rfl
    · exact ⟨_, rfl, rfl⟩
  have hstopped : ∀ p ∈ ((Command.plan ⟨0, 0⟩ .stopped 0 false).run waiting).toList,
      ¬ p.2.transport.clock.Underway ∧ p.2.channels.isEmpty = true ∧ p.2.transport.round ≤ 1 := by
    subst hw
    decide
  obtain ⟨hwaits, hcommand, -⟩ := parked_loops_wait (Scheduler.new 16).next waiting
  obtain ⟨-, -, hstays⟩ := parked_loops_wait (Scheduler.new 16).next
    ((Command.plan ⟨0, 0⟩ .stopped 0 false).run waiting)
  refine ⟨hwaits hreached, hparked, fun h => (hcommand _ (hwaits hreached)).1 h hstrands, ?_⟩
  refine (hstays _ _ _ (Arena.nodup_keys _) (fun _ _ h => Arena.mem_keys_of_get? h)
    (fun _ _ h => List.isEmpty_iff.1 (hstopped _ (Arena.mem_toList_of_get? h)).2.1)
    (fun _ _ h => (hstopped _ (Arena.mem_toList_of_get? h)).2.2) (by decide) ⟨?_, ?_⟩).parked
  · subst hw
    exact ⟨_, rfl, by decide⟩
  · rintro d k - ⟨l, hl, hrun⟩
    exact (hstopped _ (Arena.mem_toList_of_get? hl)).1 hrun

end Scheduler

end Overdub
