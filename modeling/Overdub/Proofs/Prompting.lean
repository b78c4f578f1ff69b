import Overdub.Proofs.Countdown
import Overdub.Proofs.Progress
/-!
# What prompts a trigger

In a chunk a loop triggers at most once. Every trigger goes back to a loop that
reaches its end without a playing sync source, from where it was passed on from
source to follower in that same chunk (`Caused`). There is one way around this: the
mark by which a loop tells its followers of a trigger is taken away when the loop is
next processed, so a loop that takes no part in a cycle still bears that of an
earlier one (`Lingers`), and its followers are triggered in every chunk.

`Prompting` is what the steps of a chunk preserve while triggers are passed on:
which loops have been hit, how their clocks and marks show it, and that each hit has
a cause.
-/

namespace Overdub.Scheduler

/-! ## Causes -/

/-- The loop takes part in a chunk, and none of its channels fails. -/
def goesOn (keys : List LoopKey) (n : Nat) (key : LoopKey) (l : Loop) : Bool :=
  key ∈ keys && (LoopChannel.processAll (l.context n) l.channels).2.isOk

/-- Where the chunk takes a loop, triggers aside. -/
def reach (keys : List LoopKey) (n : Nat) (key : LoopKey) (l : Loop) : Clock :=
  if goesOn keys n key l then l.transport.clock.moved n else l.transport.clock

/-- The loop ends with the chunk, and no playing sync source is there to trigger it. -/
def endsHere (loops : Loops) (keys : List LoopKey) (n : Nat) (key : LoopKey) : Bool :=
  (loops.get? key).any fun l => goesOn keys n key l && l.transport.clock.untilEnd = some n &&
    (syncView loops key).all fun s => !s.mode.isPlaying

/-- The loop takes no part in the chunk and bears the mark of an earlier trigger. -/
def Lingers (loops : Loops) (keys : List LoopKey) (key : LoopKey) : Prop :=
  key ∉ keys ∧ (loops.get? key).any (·.transport.triggeringNow) = true

/-- Why a loop is among those that are hit in the chunk. -/
inductive Caused (loops : Loops) (keys : List LoopKey) (n : Nat) (hit : LoopKey → Bool) : LoopKey → Prop
  /-- It reached its own end. -/
  | ownEnd {key : LoopKey} : endsHere loops keys n key = true → Caused loops keys n hit key
  /-- Its sync source triggered in the chunk. -/
  | passed {key source : LoopKey} : source? loops key = some source → hit source = true →
      Caused loops keys n hit source → Caused loops keys n hit key
  /-- Its sync source has triggered before, and nothing has taken the mark away since. -/
  | lingering {key source : LoopKey} : source? loops key = some source → Lingers loops keys source →
      Caused loops keys n hit key

/-- A loop before and within a chunk, hit by a trigger or not. -/
structure Told (keys : List LoopKey) (n : Nat) (hit : Bool) (key : LoopKey) (l l' : Loop) : Prop where
  clock : l'.transport.clock = if hit then (reach keys n key l).trigger else reach keys n key l
  alreadyTriggered : l'.transport.alreadyTriggered = (hit || (decide (key ∉ keys) && l.transport.alreadyTriggered))
  triggeringNow : l'.transport.triggeringNow = (hit || (decide (key ∉ keys) && l.transport.triggeringNow))

/-- The loops within a chunk, those in `hit` having triggered. -/
structure Prompting (loops : Loops) (keys : List LoopKey) (n : Nat) (hit : LoopKey → Bool) (loops' : Loops) :
    Prop where
  source : source? loops' = source? loops
  told : Arena.Related (fun key => Told keys n (hit key) key) loops loops'
  cause : ∀ key, hit key = true → Caused loops keys n hit key
  ends : ∀ key, endsHere loops keys n key = true → hit key = true

variable {loops loops' : Loops} {keys : List LoopKey} {n : Nat} {hit hit' : LoopKey → Bool} {key source : LoopKey}

theorem Caused.mono (h : Caused loops keys n hit key) (hle : ∀ k, hit k = true → hit' k = true) :
    Caused loops keys n hit' key := by
  induction h with
  | ownEnd hends => exact .ownEnd hends
  | passed hs hsource _ ih => exact .passed hs (hle _ hsource) ih
  | lingering hs hlingers => exact .lingering hs hlingers

theorem exists_of_source? (hs : source? loops key = some source) : ∃ l, loops.get? key = some l := by
  obtain ⟨l, hl, -⟩ := Option.bind_eq_some_iff.1 hs
  exact ⟨l, hl⟩

theorem Caused.exists (h : Caused loops keys n hit key) : ∃ l, loops.get? key = some l := by
  cases h with
  | ownEnd hends =>
    obtain ⟨l, hl, -⟩ := (Option.any_eq_true _ _).1 hends
    exact ⟨l, hl⟩
  | passed hs => exact exists_of_source? hs
  | lingering hs => exact exists_of_source? hs

/-! ## Triggers that are passed on -/

/-- A trigger counts unless the loop has triggered already. -/
theorem Told.trigger {b : Bool} {l l' : Loop} (h : Told keys n b key l l') :
    ∃ b', (b = true → b' = true) ∧ (key ∈ keys → b' = true) ∧
      Told keys n b' key l (l'.modifyTransport (·.trigger)) := by
  cases ha : l'.transport.alreadyTriggered with
  | true =>
    have hsame : l'.modifyTransport (·.trigger) = l' :=
      congrArg (fun transport => { l' with transport }) (Transport.trigger_again _ ha)
    refine ⟨b, id, fun hk => ?_, hsame.symm ▸ h⟩
    have hmark := h.alreadyTriggered
    rw [ha] at hmark
    simpa [hk] using hmark.symm
  | false =>
    obtain ⟨hclock, halready, hnow, -⟩ := Transport.trigger_first _ ha
    have hmark := h.alreadyTriggered
    rw [ha, eq_comm, Bool.or_eq_false_iff] at hmark
    refine ⟨true, fun _ => rfl, fun _ => rfl, ?_, ?_, ?_⟩
    · rw [if_pos rfl]
      refine hclock.trans (congrArg Clock.trigger ?_)
      rw [h.clock, hmark.1, if_neg Bool.false_ne_true]
    · rw [Bool.true_or]
      exact halready
    · rw [Bool.true_or]
      exact hnow

namespace Prompting

/-- Whether a loop within the chunk bears the mark of a trigger. -/
theorem marked (h : Prompting loops keys n hit loops') (key : LoopKey) :
    (loops'.get? key).any (·.transport.triggeringNow) = true ↔ hit key = true ∨ Lingers loops keys key := by
  have htold := h.told key
  cases hl : loops.get? key <;> cases hl' : loops'.get? key <;> rw [hl, hl'] at htold
  · have hno : hit key ≠ true := by
      intro hhit
      obtain ⟨l, hsome⟩ := (h.cause key hhit).exists
      rw [hl] at hsome
      cases hsome
    simp [Lingers, hl, hno]
  · cases htold
  · cases htold
  · cases htold with
    | some htold => simp [Lingers, hl, htold.triggeringNow]

/-- A trigger that comes from a source with a mark has a cause. -/
theorem trigger (h : Prompting loops keys n hit loops') (hs : source? loops key = some source)
    (hmarked : (loops'.get? source).any (·.transport.triggeringNow) = true) :
    ∃ hit', (∀ k, hit k = true → hit' k = true) ∧ (key ∈ keys → hit' key = true) ∧
      Prompting loops keys n hit' (loops'.modify key (·.modifyTransport (·.trigger))) := by
  obtain ⟨l, hl⟩ := exists_of_source? hs
  obtain ⟨l', hl', htold⟩ := h.told.some_left hl
  obtain ⟨b, hkeeps, hhits, htold⟩ := htold.trigger
  let hit' : LoopKey → Bool := fun k => if k = key then b else hit k
  have hle : ∀ k, hit k = true → hit' k = true := by
    intro k hk
    by_cases hkey : k = key
    · subst hkey
      simpa only [hit', if_pos] using hkeeps hk
    · simpa only [hit', if_neg hkey] using hk
  have hcaused : Caused loops keys n hit' key := by
    rcases (h.marked source).1 hmarked with hsource | hlingers
    · exact .passed hs (hle source hsource) ((h.cause source hsource).mono hle)
    · exact .lingering hs hlingers
  have hsame := (source?_modify loops' key (·.modifyTransport (·.trigger)) fun _ => rfl).trans h.source
  refine ⟨hit', hle, fun hk => by simpa only [hit', if_pos] using hhits hk, hsame, ?_, fun k hk => ?_,
    fun k hk => hle k (h.ends k hk)⟩
  · intro k
    by_cases hkey : k = key
    · subst hkey
      rw [Arena.get?_modify_self, hl, hl']
      exact .some (by simpa only [hit', if_pos] using htold)
    · rw [Arena.get?_modify_ne _ _ hkey]
      simpa only [hit', if_neg hkey] using h.told k
  · by_cases hkey : k = key
    · exact hkey ▸ hcaused
    · have hbefore : hit k = true := by simpa only [hit', if_neg hkey] using hk
      exact (h.cause k hbefore).mono hle

/-- A loop whose source is marked is hit after a visit to the source. -/
theorem passTriggerAfter (h : Prompting loops keys n hit loops') {visit : Loops → LoopKey → Loops}
    (hvisit : ∀ source, ∃ hit', (∀ k, hit k = true → hit' k = true) ∧
      Prompting loops keys n hit' (visit loops' source)) (key : LoopKey) :
    ∃ hit', (∀ k, hit k = true → hit' k = true) ∧
      (key ∈ keys → ∀ source, source? loops key = some source → (hit source = true ∨ Lingers loops keys source) →
        hit' key = true) ∧
      Prompting loops keys n hit' (Scheduler.passTriggerAfter visit loops' key) := by
  unfold Scheduler.passTriggerAfter
  rw [h.source]
  cases hs : source? loops key with
  | none => exact ⟨hit, fun _ => id, by simp, h⟩
  | some source =>
    obtain ⟨hit₁, hle₁, h₁⟩ := hvisit source
    dsimp only
    split
    · next hmarked =>
      obtain ⟨hit₂, hle₂, hhits, h₂⟩ := h₁.trigger hs hmarked
      exact ⟨hit₂, fun k hk => hle₂ k (hle₁ k hk), fun hk _ _ _ => hhits hk, h₂⟩
    · next hunmarked =>
      refine ⟨hit₁, hle₁, fun _ source' hs' hsource => ?_, h₁⟩
      cases hs'
      exact absurd ((h₁.marked source).2 (hsource.imp_left (hle₁ source))) hunmarked

theorem passTrigger (h : Prompting loops keys n hit loops') (hops : Nat) (key : LoopKey) :
    ∃ hit', (∀ k, hit k = true → hit' k = true) ∧
      (key ∈ keys → ∀ source, source? loops key = some source → (hit source = true ∨ Lingers loops keys source) →
        hit' key = true) ∧
      Prompting loops keys n hit' (Scheduler.passTrigger loops' key hops) := by
  induction hops generalizing key with
  | zero => exact h.passTriggerAfter (fun _ => ⟨hit, fun _ => id, h⟩) key
  | succ hops ih =>
    refine h.passTriggerAfter (fun source => ?_) key
    obtain ⟨hit', hle, -, h'⟩ := ih source
    exact ⟨hit', hle, h'⟩

theorem passTriggers (h : Prompting loops keys n hit loops') (visited : List LoopKey) :
    ∃ hit', (∀ k, hit k = true → hit' k = true) ∧
      (∀ key ∈ visited, key ∈ keys → ∀ source, source? loops key = some source →
        (hit source = true ∨ Lingers loops keys source) → hit' key = true) ∧
      Prompting loops keys n hit' (Scheduler.passTriggers loops' visited) := by
  unfold Scheduler.passTriggers
  induction visited generalizing hit loops' with
  | nil => exact ⟨hit, fun _ => id, by simp, h⟩
  | cons key rest ih =>
    obtain ⟨hit₁, hle₁, hfirst, h₁⟩ := h.passTrigger maxHops key
    obtain ⟨hit₂, hle₂, hrest, h₂⟩ := ih h₁
    refine ⟨hit₂, fun k hk => hle₂ k (hle₁ k hk), fun k hk hmem source hs hsource => ?_, h₂⟩
    rcases List.mem_cons.1 hk with rfl | hk
    · exact hle₂ k (hfirst hmem source hs hsource)
    · exact hrest k hk hmem source hs (hsource.imp_left (hle₁ source))

end Prompting

/-! ## Chunks -/

/-- A loop that fails takes the marks of the chunk before away and stays where it is. -/
theorem process_fails (l : Loop) {n : Nat} (hn : 0 < n) (h : l.transport.Fits n) (sync : Option SyncView)
    (hfails : (LoopChannel.processAll (l.context n) l.channels).2 ≠ .ok ()) :
    (l.process n sync).1.transport = l.transport.beginChunk := by
  have hfit : ¬ (l.transport.nextPoi.any fun p => decide (p.offset < n)) = true := by
    cases hp : l.transport.nextPoi with
    | none => exact Bool.false_ne_true
    | some p => simpa using h.le p hp
  unfold Loop.process Transport.process
  rw [if_neg (Nat.ne_of_gt hn), if_neg hfit]
  change (LoopChannel.processAll (l.transport.beginChunk.chunkContext n) l.channels).2 ≠ .ok () at hfails
  dsimp only
  split
  · next hok =>
    rw [hok] at hfails
    exact absurd rfl hfails
  · rfl

/-- What a loop does by itself in a chunk. -/
theorem told_process (l : Loop) (hk : key ∈ keys) (hl : loops.get? key = some l) (hn : 0 < n)
    (h : l.transport.Fits n) :
    Told keys n (endsHere loops keys n key) key l (l.process n (syncView loops key)).1 := by
  have hoff : decide (key ∉ keys) = false := by simpa using hk
  have hends : endsHere loops keys n key = (goesOn keys n key l && l.transport.clock.untilEnd = some n &&
      (syncView loops key).all fun s => !s.mode.isPlaying) := by
    simp only [endsHere, hl, Option.any_some]
  cases hok : (LoopChannel.processAll (l.context n) l.channels).2 with
  | ok =>
    have hgoes : goesOn keys n key l = true := by simp [goesOn, hk, hok, Except.isOk, Except.toBool]
    have hmoved := (l.process_advanced hn h (syncView loops key)).1.moved hok
    rw [hends, hgoes, Bool.true_and]
    refine ⟨?_, ?_, ?_⟩
    · rw [reach, if_pos hgoes]
      exact hmoved.clock
    · rw [hoff, Bool.false_and, Bool.or_false]
      exact hmoved.alreadyTriggered
    · rw [hoff, Bool.false_and, Bool.or_false]
      exact hmoved.triggeringNow
  | error e =>
    have hstays : goesOn keys n key l = false := by simp [goesOn, hok, Except.isOk, Except.toBool]
    have hheld := process_fails l hn h (syncView loops key) (by rw [hok]; exact fun h => by cases h)
    rw [hends, hstays, Bool.false_and, Bool.false_and]
    refine ⟨?_, ?_, ?_⟩ <;> rw [hheld]
    · rw [reach, hstays, if_neg Bool.false_ne_true, if_neg Bool.false_ne_true]
      rfl
    · rw [hoff]
      rfl
    · rw [hoff]
      rfl

/-- While the loops advance, those are hit that reach their end alone. -/
theorem prompting_advance (hnd : keys.Nodup) (hn : 0 < n)
    (hfits : ∀ key ∈ keys, ∀ l, loops.get? key = some l → l.transport.Fits n) :
    Prompting loops keys n (endsHere loops keys n) (advance loops keys n).1 := by
  refine ⟨source?_congr fun k => ?_, fun k => ?_, fun k hk => .ownEnd hk, fun _ => id⟩
  · rw [get?_advance loops hnd]
    cases hl : loops.get? k with
    | none => split <;> exact .none
    | some l =>
      split
      · next hmem => exact .some (l.process_advanced hn (hfits k hmem l hl) _).1.syncSource
      · exact .some rfl
  · rw [get?_advance loops hnd]
    cases hl : loops.get? k with
    | none => split <;> exact .none
    | some l =>
      split
      · next hmem => exact .some (told_process l hmem hl hn (hfits k hmem l hl))
      · next hmem =>
        have hoff : goesOn keys n k l = false := by simp [goesOn, hmem]
        have hends : endsHere loops keys n k = false := by simp [endsHere, hl, hoff]
        refine .some ⟨?_, ?_, ?_⟩ <;> rw [hends]
        · rw [reach, hoff, if_neg Bool.false_ne_true, if_neg Bool.false_ne_true]
        · simp [hmem]
        · simp [hmem]

/-- A chunk: no loop is hit without a cause, and none is left out that follows a loop
with a mark. -/
theorem prompting_chunk (hnd : keys.Nodup) (hn : 0 < n)
    (hfits : ∀ key ∈ keys, ∀ l, loops.get? key = some l → l.transport.Fits n) :
    ∃ hit, Prompting loops keys n hit (chunk loops keys n).1 ∧
      ∀ key ∈ keys, ∀ source, source? loops key = some source →
        (endsHere loops keys n source = true ∨ Lingers loops keys source) → hit key = true := by
  obtain ⟨hit, -, hfollows, h⟩ := (prompting_advance hnd hn hfits).passTriggers keys
  exact ⟨hit, h, fun key hk => hfollows key hk hk⟩

/-- The loop is at its end after `n` frames, and has no playing sync source. -/
def ReachesEnd (loops : Loops) (n : Nat) (key : LoopKey) : Prop :=
  ∃ l, loops.get? key = some l ∧ l.transport.mode.isPlaying ∧ l.transport.position + n = l.transport.length ∧
    (syncView loops key).all fun s => !s.mode.isPlaying

/-- A chunk that can be counted ends where the loop does. -/
theorem reachesEnd_of_endsHere (h : endsHere loops keys n key = true) (hn : n < maxFrames) :
    ReachesEnd loops n key := by
  obtain ⟨l, hl, hends⟩ := (Option.any_eq_true _ _).1 h
  simp only [Bool.and_eq_true, decide_eq_true_eq] at hends
  obtain ⟨hplaying, hbefore, hclamped⟩ := Clock.untilEnd_eq_some.1 hends.1.2
  refine ⟨l, hl, hplaying, ?_, hends.2⟩
  simp only [clampFrames, Transport.clock_length, Transport.clock_position] at hbefore hclamped
  omega

/-- Where no source lingers, a loop triggers at its own end or with its source only. -/
theorem Prompting.law (h : Prompting loops keys n hit loops') (hn : n < maxFrames)
    (hnone : ∀ key source, source? loops key = some source → ¬ Lingers loops keys source)
    (hkey : hit key = true) :
    ReachesEnd loops n key ∨ ∃ source, source? loops key = some source ∧ hit source = true := by
  cases h.cause key hkey with
  | ownEnd hends => exact .inl (reachesEnd_of_endsHere hends hn)
  | passed hs hsource => exact .inr ⟨_, hs, hsource⟩
  | lingering hs hlingers => exact absurd hlingers (hnone _ _ hs)

/-! ## Plans -/

/-- A plan is one trigger nearer if the loop has been hit, else it stays. -/
theorem Told.plans {b : Bool} {l l' : Loop} (h : Told keys n b key l l') (hordered : Ordered l.transport.planned)
    {mode : LoopMode} {left : Nat} (hp : ⟨mode, left⟩ ∈ l.transport.planned) (hleft : b.toNat ≤ left) :
    Ordered l'.transport.planned ∧ ⟨mode, (left - b.toNat : Nat)⟩ ∈ l'.transport.planned := by
  have hsame : (reach keys n key l).planned = l.transport.planned := by
    unfold reach
    split
    · exact Clock.moved_planned _ _
    · rfl
  have hclock := h.clock
  rw [← Transport.clock_planned l'.transport]
  cases b with
  | false =>
    rw [hclock, if_neg Bool.false_ne_true, hsame]
    exact ⟨hordered, hp⟩
  | true =>
    rw [hclock, if_pos rfl]
    exact ⟨Clock.ordered_trigger (hsame.symm ▸ hordered),
      Clock.mem_trigger (hsame.symm ▸ hordered) (hsame.symm ▸ hp) hleft⟩

/-- Refreshing counts nothing down. -/
theorem Touched.planned {round : Nat} {l l' : Loop} (h : Touched round l l') :
    l'.transport.planned = l.transport.planned := by
  rcases h with rfl | ⟨-, hr⟩
  · rfl
  · exact (congrArg Clock.planned hr.clock).trans (Clock.settled_planned _)

/-! ## Cycles -/

/-- What is hit in an iteration: nothing without a cause, no less than the followers of a
loop that ends alone or lingers, and nothing but loops at their own end and followers of a
hit source where no source lingers and the frames can be counted. -/
structure Accounted (keys : List LoopKey) (it : Iteration) (hit : LoopKey → Bool) : Prop where
  prompting : Prompting it.loops keys it.frames hit (chunk it.loops keys it.frames).1
  follows : ∀ key ∈ keys, ∀ source, source? it.loops key = some source →
    (endsHere it.loops keys it.frames source = true ∨ Lingers it.loops keys source) → hit key = true
  law : it.frames < maxFrames → (∀ key source, source? it.loops key = some source → ¬ Lingers it.loops keys source) →
    ∀ key, hit key = true →
      ReachesEnd it.loops it.frames key ∨ ∃ source, source? it.loops key = some source ∧ hit source = true

variable {s : Scheduler} {remaining : Nat}

theorem Round.accounted (h : s.Round loops keys remaining) (hnd : keys.Nodup) :
    ∃ hit, Accounted keys ⟨s.ready loops keys, s.nextFrames loops keys remaining⟩ hit := by
  obtain ⟨hit, hprompting, hfollows⟩ := prompting_chunk hnd h.pos h.fits
  exact ⟨hit, hprompting, hfollows, fun hn hnone key => hprompting.law hn hnone⟩

/-- A chunk counts a plan down exactly if it hits the loop. -/
theorem Round.plans (h : s.Round loops keys remaining)
    (hall : Accounted keys ⟨s.ready loops keys, s.nextFrames loops keys remaining⟩ hit) {l : Loop}
    (hl : loops.get? key = some l) (hordered : Ordered l.transport.planned) {mode : LoopMode} {left : Nat}
    (hp : ⟨mode, left⟩ ∈ l.transport.planned) (hleft : (hit key).toNat ≤ left) :
    ∃ l', (s.nextChunk loops keys remaining).1.get? key = some l' ∧ Ordered l'.transport.planned ∧
      ⟨mode, (left - (hit key).toNat : Nat)⟩ ∈ l'.transport.planned := by
  obtain ⟨l₁, hl₁, htouched, -⟩ := Arena.Related.some_left h.refreshed hl
  obtain ⟨l₂, hl₂, htold⟩ := hall.prompting.told.some_left hl₁
  rw [← htouched.planned] at hordered hp
  exact ⟨l₂, hl₂, htold.plans hordered hp hleft⟩

/-- In every chunk of a cycle a loop triggers at most once, and each trigger has a cause:
the loop reached its own end without a playing sync source, or its source triggered in
that same chunk, or its source, which takes no part in the cycle, still bears the mark of
an earlier trigger. Plans count these triggers, however many they are, and nothing else. -/
theorem triggers_prompted (s : Scheduler) (loops : Loops) (keys : List LoopKey) (n : Nat) (ha : s.Ahead loops)
    (hnd : keys.Nodup) :
    let its := s.iterations loops keys n 0
    let after := (s.process loops keys n).2.1
    Leads keys s.round loops its after ∧
      ∃ hits : List (LoopKey → Bool), List.Forall₂ (Accounted keys) its hits ∧
        ∀ key l, loops.get? key = some l → Ordered l.transport.planned →
          ∀ mode (left : Nat), ⟨mode, left⟩ ∈ l.transport.planned → hits.countP (· key) ≤ left →
            ∃ l', after.get? key = some l' ∧ ⟨mode, (left - hits.countP (· key) : Nat)⟩ ∈ l'.transport.planned := by
  refine ⟨iterations_lead hnd ha (.ok ()), ?_⟩
  suffices h : ∃ hits : List (LoopKey → Bool), List.Forall₂ (Accounted keys) (s.iterations loops keys n 0) hits ∧
      ∀ result key l, loops.get? key = some l → Ordered l.transport.planned →
        ∀ mode (left : Nat), ⟨mode, left⟩ ∈ l.transport.planned → hits.countP (· key) ≤ left →
          ∃ l', (s.processFrom loops keys n 0 result).2.1.get? key = some l' ∧
            ⟨mode, (left - hits.countP (· key) : Nat)⟩ ∈ l'.transport.planned by
    obtain ⟨hits, hall, hplans⟩ := h
    exact ⟨hits, hall, hplans (.ok ())⟩
  refine cycle_induction hnd (P := fun s loops remaining =>
    ∃ hits : List (LoopKey → Bool), List.Forall₂ (Accounted keys) (s.iterations loops keys remaining 0) hits ∧
      ∀ result key l, loops.get? key = some l → Ordered l.transport.planned →
        ∀ mode (left : Nat), ⟨mode, left⟩ ∈ l.transport.planned → hits.countP (· key) ≤ left →
          ∃ l', (s.processFrom loops keys remaining 0 result).2.1.get? key = some l' ∧
            ⟨mode, (left - hits.countP (· key) : Nat)⟩ ∈ l'.transport.planned) ?done ?chunk ha
  case done =>
    intro s loops _
    refine ⟨[], by rw [iterations_zero]; exact .nil, fun result key l hl _ mode left hp _ => ⟨l, ?_, hp⟩⟩
    rw [processFrom_zero]
    exact hl
  case chunk =>
    rintro s loops remaining - hround ⟨hits, hall, hplans⟩
    obtain ⟨hit, hhit⟩ := hround.accounted hnd
    refine ⟨hit :: hits, by rw [iterations_eq hround]; exact .cons hhit hall, ?_⟩
    intro result key l hl hordered mode left hp hleft
    have hcount : (hit :: hits).countP (· key) = (hit key).toNat + hits.countP (· key) := by
      rw [List.countP_cons, Nat.add_comm]
      cases hit key <;> rfl
    rw [hcount] at hleft ⊢
    obtain ⟨l', hl', hordered', hp'⟩ := hround.plans hhit hl hordered hp (by omega)
    rw [processFrom_eq hround, ← Nat.sub_sub]
    exact hplans _ key l' hl' hordered' mode _ hp' (by omega)

/-- A loop that has just started over and is left out of the next cycle, and its follower. -/
def leftOut : Loops :=
  { slots := [
      ⟨0, some { transport := { Transport.new with mode := .playing, length := 4, triggeringNow := true } }⟩,
      ⟨0, some { transport := { Transport.new with planned := [⟨.recording, 2⟩] }, syncSource := some ⟨0, 0⟩ }⟩]
    size := 2 }

/-- The follower counts a trigger although its source stands still. -/
theorem triggers_prompted_left_out :
    ∃ l', ((Scheduler.new 16).process leftOut [⟨1, 0⟩] 1).2.1.get? ⟨1, 0⟩ = some l' ∧
      ⟨.recording, (1 : Nat)⟩ ∈ l'.transport.planned := by
  have hzero : ∀ p ∈ leftOut.toList, p.2.transport.round = 0 := by decide
  have ha : (Scheduler.new 16).Ahead leftOut := fun _ _ h => Nat.le_of_eq (hzero _ (Arena.mem_toList_of_get? h))
  obtain ⟨-, hits, hall, hplans⟩ := triggers_prompted (.new 16) leftOut [⟨1, 0⟩] 1 ha (by decide)
  have hframes : (Scheduler.new 16).nextFrames leftOut [⟨1, 0⟩] 1 = 1 := by decide
  rw [iterations_eq (ha.begin [⟨1, 0⟩] Nat.one_pos), hframes, Nat.sub_self, iterations_zero] at hall
  obtain ⟨hit, _, hhit, hrest, rfl⟩ := List.forall₂_cons_left_iff.1 hall
  obtain rfl := List.forall₂_nil_left_iff.1 hrest
  have hphantom : hit ⟨1, 0⟩ = true :=
    hhit.follows ⟨1, 0⟩ (by decide) ⟨0, 0⟩ (by decide) (.inr ⟨by decide, by decide⟩)
  have hone : [hit].countP (· ⟨1, 0⟩) = 1 := by simp [hphantom]
  have hplan := hplans ⟨1, 0⟩ _ rfl (Ordered.nil.insertPlan (p := ⟨.recording, 2⟩) (by decide)) .recording 2
    List.mem_cons_self (by rw [hone]; decide)
  rwa [hone] at hplan

end Overdub.Scheduler
