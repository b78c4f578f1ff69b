import Overdub.Proofs.Countdown
import Overdub.Proofs.Disturbance
import Overdub.Proofs.Prediction
/-!
# What the prediction of a trigger foretells

As long as no command intervenes, no loop on the line of another one triggers before the
first end on that line. So the clocks of the line just move, and the prediction counts
down frame by frame (`Course.unprompted`).

When the time has come, a loop on the line has reached its end. It triggers unless its
own sync source is playing, which the prediction does not ask. So the predicted trigger
comes exactly if some loop on the line ends there without a playing source
(`triggers_foretold`), and else the loop goes without it (`triggers_foretold_missed`).
-/

namespace Overdub

namespace Scheduler

variable {s s' : Scheduler} {loops loops' : Loops} {keys : List LoopKey} {key x : LoopKey}
  {remaining m n t : Nat}

/-- All loops take part, and no sync chain is longer than those that are followed. -/
structure Entire (keys : List LoopKey) (loops : Loops) : Prop where
  nodup : keys.Nodup
  all : ∀ key l, loops.get? key = some l → key ∈ keys
  short : Short loops

/-- A loop triggered in the last chunk. -/
def triggered (loops : Loops) (key : LoopKey) : Bool := (loops.get? key).any (·.transport.triggeringNow)

theorem clockUp_isSome (h : SameSources loops loops') (d : Nat) (key : LoopKey) :
    (clockUp loops' d key).isSome = (clockUp loops d key).isSome := by
  unfold clockUp
  rw [source?_congr h]
  cases upstream (source? loops) d key with
  | none => rfl
  | some y => exact clockAt_isSome h y

theorem upstream_ends {hops : Nat}
    (hends : ∀ key ∈ loops.keys, upstream (source? loops) (hops + 1) key = none) (key : LoopKey) (d : Nat) :
    upstream (source? loops) (hops + 1 + d) key = none := by
  have hend : upstream (source? loops) (hops + 1) key = none := by
    cases hl : loops.get? key with
    | none => simp [upstream, source?_of_none hl]
    | some l => exact hends key (Arena.mem_keys_of_get? hl)
  rw [upstream_add, hend]
  rfl

theorem line_settledUp (keys : List LoopKey) (loops : Loops) (x : LoopKey) :
    Ensemble.line ⟨source? loops, keys⟩ (Ensemble.settle (clocks (fun _ => true) loops)) x = settledUp loops x := by
  funext d
  rw [Ensemble.line_settle, line_clocks]
  rfl

namespace Entire

theorem congr (h : Entire keys loops) (hsame : SameSources loops loops') : Entire keys loops' where
  nodup := h.nodup
  all key l' hl' := by
    obtain ⟨l, hl, -⟩ := hsame.some_right hl'
    exact h.all key l hl
  short key d hd := by
    have hsome := clockUp_isSome hsame d key
    rw [h.short key d hd] at hsome
    exact Option.isNone_iff_eq_none.1 (by simpa using hsome)

theorem group (h : Entire keys loops) : Group ⟨source? loops, keys⟩ (fun _ => true) loops :=
  ⟨h.nodup, rfl, fun _ _ _ _ => rfl, fun k l _ hl => h.all k l hl⟩

theorem settled_lineage (h : Entire keys loops) (x : LoopKey) :
    Ensemble.Lineage ⟨source? loops, keys⟩ (Ensemble.settle (clocks (fun _ => true) loops)) x :=
  (lineage h.all (h.short x)).settle

/-- Chains that end after few hops from every loop are short. -/
theorem of_hops {hops : Nat} (hle : hops ≤ maxHops)
    (hends : ∀ key ∈ loops.keys, upstream (source? loops) (hops + 1) key = none) : Entire loops.keys loops where
  nodup := Arena.nodup_keys loops
  all _ _ hl := Arena.mem_keys_of_get? hl
  short key d hd := by
    obtain ⟨i, rfl⟩ := Nat.exists_eq_add_of_le (Nat.succ_le_of_lt (Nat.lt_of_le_of_lt hle hd))
    rw [clockUp, upstream_ends hends]
    rfl

/-- In a chunk that is well, the loops act as the ensemble of their clocks does. -/
theorem marks (h : Entire keys loops) (hround : s.Round loops keys remaining)
    (hok : (s.nextChunk loops keys remaining).2 = .ok ()) :
    Marks ⟨source? loops, keys⟩ (fun _ => true) (s.nextFrames loops keys remaining) (s.ready loops keys)
      (Ensemble.fired ⟨source? loops, keys⟩ (s.nextFrames loops keys remaining)
        (Ensemble.settle (clocks (fun _ => true) loops))) (s.nextChunk loops keys remaining).1 := by
  have hmarks := (h.group.congr hround.refreshed.syncSource).advance hround.pos hround.fits fun k _ l hl => by
    obtain ⟨l₀, hl₀, -⟩ := Arena.Related.some_right hround.refreshed hl
    exact (chunk_ok h.nodup hround.pos hround.fits).1 hok k (h.all k l₀ hl₀) l hl
  rw [hround.refreshed.clocks h.group] at hmarks
  exact hmarks.passTriggers fun _ _ _ _ => rfl

/-- A loop triggers in a chunk exactly if a loop on its line ends there without a
playing source. -/
theorem triggered_iff (h : Entire keys loops) (hround : s.Round loops keys remaining)
    (hok : (s.nextChunk loops keys remaining).2 = .ok ()) (hx : x ∈ keys) :
    triggered (s.nextChunk loops keys remaining).1 x = true ↔
      ∃ d, Ensemble.EndsAt (s.nextFrames loops keys remaining) (settledUp loops x) d := by
  rw [triggered, (h.marks hround hok).triggeringNow rfl, (h.settled_lineage x).fired_iff hx, line_settledUp]

theorem clocks_nextChunk (h : Entire keys loops) (hround : s.Round loops keys remaining)
    (hok : (s.nextChunk loops keys remaining).2 = .ok ()) :
    clocks (fun _ => true) (s.nextChunk loops keys remaining).1 =
      Ensemble.advance ⟨source? loops, keys⟩ (s.nextFrames loops keys remaining)
        (Ensemble.settle (clocks (fun _ => true) loops)) := by
  rw [(h.marks hround hok).clocks, hround.refreshed.clocks h.group]
  rfl

theorem clock_ready (h : Entire keys loops) (hround : s.Round loops keys remaining) {l : Loop}
    (hl : (s.ready loops keys).get? x = some l) : l.transport.clock = settledUp loops x 0 := by
  obtain ⟨l₀, hl₀, -, hr⟩ := Arena.Related.some_right hround.refreshed hl
  rw [settledUp_zero hl₀, (hr (h.all x l₀ hl₀)).clock]

/-- What a trigger does to a loop in a chunk. -/
theorem clock_triggered (h : Entire keys loops) (hround : s.Round loops keys remaining)
    (hok : (s.nextChunk loops keys remaining).2 = .ok ()) {l : Loop}
    (hl : (s.nextChunk loops keys remaining).1.get? x = some l)
    (htriggered : triggered (s.nextChunk loops keys remaining).1 x = true) :
    l.transport.clock = ((settledUp loops x 0).moved (s.nextFrames loops keys remaining)).trigger := by
  have hmarks := h.marks hround hok
  have hmark := hmarks.mark x rfl
  rw [triggered, hmarks.triggeringNow rfl] at htriggered
  cases hready : (s.ready loops keys).get? x with
  | none => rw [hready, hl] at hmark; cases hmark
  | some l₀ =>
    rw [hready, hl, htriggered] at hmark
    rw [← h.clock_ready hround hready]
    exact hmark.clock

/-- A chunk in which no loop on a line ends moves the line on. -/
theorem settledUp_nextChunk (h : Entire keys loops) (hround : s.Round loops keys remaining)
    (hok : (s.nextChunk loops keys remaining).2 = .ok ())
    (hquiet : ∀ d, (settledUp loops x d).untilEnd ≠ some (s.nextFrames loops keys remaining)) (d : Nat) :
    settledUp (s.nextChunk loops keys remaining).1 x d =
      (settledUp loops x d).moved (s.nextFrames loops keys remaining) := by
  rw [← line_settledUp keys] at hquiet
  have hadvance := (h.settled_lineage x).advance_quiet hquiet d
  rw [← h.clocks_nextChunk hround hok, line_settledUp] at hadvance
  have hsources := source?_congr (hround.syncSource h.nodup)
  rw [← line_settledUp keys, hsources, Ensemble.line_settle, hadvance]
  exact Clock.settled_moved _ _

/-- The first end on a line is not within a chunk. -/
theorem le_first (h : Entire keys loops) (hround : s.Round loops keys remaining)
    (hfirst : Soonest (settledUp loops x) (some t)) : s.nextFrames loops keys remaining ≤ t := by
  obtain ⟨d, hd⟩ := hfirst.reached t rfl
  rw [← line_settledUp keys, Ensemble.line] at hd
  cases hy : upstream (source? loops) d x with
  | none => simp [hy] at hd
  | some y => exact hround.within h.group y t (by simpa [hy] using hd)

end Entire

/-! ## Courses -/

/-- Where loops get to without commands: chunk after chunk, in cycles of whatever
length; between these, channels may change, but no loop is put anywhere else in time. -/
inductive Course (keys : List LoopKey) (s : Scheduler) (loops : Loops) : Nat → Scheduler → Loops → Prop
  | start : Course keys s loops 0 s loops
  | chunk {m remaining : Nat} {s' : Scheduler} {loops' : Loops} : Course keys s loops m s' loops' → 0 < remaining →
      (s'.nextChunk loops' keys remaining).2 = .ok () →
      Course keys s loops (m + s'.nextFrames loops' keys remaining) s'.next (s'.nextChunk loops' keys remaining).1
  | rest {m : Nat} {s' : Scheduler} {loops' loops'' : Loops} : Course keys s loops m s' loops' →
      Alike loops' loops'' → Course keys s loops m s' loops''

/-- A cycle without an error is part of a course. -/
theorem Course.cycle (h : Course keys s loops m s' loops') (hnd : keys.Nodup) (ha : s'.Ahead loops')
    (hok : (s'.process loops' keys n).2.2 = .ok ()) :
    Course keys s loops (m + n) (s'.process loops' keys n).1 (s'.process loops' keys n).2.1 := by
  refine cycle_induction hnd (P := fun s' loops' n => ∀ m result, Course keys s loops m s' loops' →
    (s'.processFrom loops' keys n 0 result).2.2 = .ok () →
    Course keys s loops (m + n) (s'.processFrom loops' keys n 0 result).1
      (s'.processFrom loops' keys n 0 result).2.1) ?done ?chunk ha m (.ok ()) h hok
  case done =>
    intro s' loops' _ m result h _
    rw [processFrom_zero]
    exact h
  case chunk =>
    intro s' loops' n ha hround ih m result h hok
    have hn : 0 < n := Nat.lt_of_lt_of_le hround.pos hround.le
    rw [processFrom_eq hround] at hok ⊢
    have hchunk := (bind_ok.1 (result_ok hnd (hround.ahead hnd ha) hok)).1
    have hcourse := ih _ _ (h.chunk hn hchunk) hok
    rwa [Nat.add_assoc, Nat.add_sub_cancel' hround.le] at hcourse

/-- The loops of a course on which no loop of a line has ended yet. -/
structure Unprompted (loops : Loops) (x : LoopKey) (m : Nat) (s' : Scheduler) (loops' : Loops) : Prop where
  ahead : s'.Ahead loops'
  sources : SameSources loops loops'
  line : ∀ d, settledUp loops' x d = (settledUp loops x d).later m

theorem Course.unprompted (h : Course keys s loops m s' loops') (hentire : Entire keys loops) (ha : s.Ahead loops)
    (hfirst : Soonest (settledUp loops x) (some t)) (hm : m < t) : Unprompted loops x m s' loops' := by
  induction h with
  | start => exact ⟨ha, .refl loops, fun d => by simp [Clock.later]⟩
  | @chunk m remaining s' loops' _ hr hok ih =>
    have hbefore := ih (Nat.lt_of_le_of_lt (Nat.le_add_right _ _) hm)
    have hround := hbefore.ahead.begin keys hr
    have hentire' := hentire.congr hbefore.sources
    refine ⟨hround.ahead hentire.nodup hbefore.ahead, hbefore.sources.trans (hround.syncSource hentire.nodup),
      fun d => ?_⟩
    rw [hentire'.settledUp_nextChunk hround hok fun i hi => ?_, hbefore.line, Clock.later_moved _ _ hround.pos]
    rw [hbefore.line] at hi
    have hle := Clock.le_untilEnd_later (n := m) (k := t - m) (fun k hk => ?_) _ hi
    · omega
    · have := hfirst.le hk
      omega
  | @rest m s' loops' loops'' _ halike ih =>
    have hbefore := ih hm
    refine ⟨fun key l'' hl'' => ?_, hbefore.sources.trans halike.sameSources, fun d => ?_⟩
    · obtain ⟨l', hl', hsame⟩ := Arena.Related.some_right halike hl''
      rw [hsame.round]
      exact hbefore.ahead key l' hl'
    · rw [← hbefore.line]
      unfold settledUp clockUp
      rw [halike.clockAt, source?_congr halike.sameSources]

/-! ## Playing ahead of the trigger -/

/-- A channel that is idle until its loop changes its mode already plays what leads up
to its start, so many frames ahead of it. -/
def LeadsIn (c : ChunkContext) (mode : LoopMode) (left : Nat) : Prop :=
  ∀ startOffset channelMode, (Activity.ofModes c.mode channelMode).isIdle = true →
    (Activity.ofModes mode channelMode).playback = true →
    ChunkTask.of c.mode c.next c.posBefore startOffset channelMode = ⟨{ playback := true }, startOffset - left⟩

/-- A loop has changed its mode, and the channels that play in it do so from their start. -/
def PlaysFromStart (l : Loop) (mode : LoopMode) : Prop :=
  l.transport.mode = mode ∧ ∀ next startOffset channelMode, (Activity.ofModes mode channelMode).playback = true →
    let task := ChunkTask.of mode next l.transport.position startOffset channelMode
    task.activity.playback = true ∧ task.position = startOffset

theorem isPlaying_of_playback {mode : LoopMode} {channelMode : ChannelMode}
    (h : (Activity.ofModes mode channelMode).playback = true) : mode.isPlaying = true := by
  cases mode <;> cases channelMode <;> first | rfl | cases h

/-- What an idle channel plays ahead of the next mode is where the prediction puts it. -/
theorem leadsIn {l : Loop} {mode : LoopMode} {left : Nat}
    (hplan : l.transport.planned.head? = some ⟨mode, 0⟩) (hleft : l.transport.nextTrigger = some left) (n : Nat) :
    LeadsIn (l.context n) mode left := by
  intro startOffset channelMode hidle hplays
  have himminent : (l.context n).next.imminent? = some (mode, left) := by
    have hnext : (l.context n).next = l.transport.upcoming := rfl
    rw [hnext]
    simp [Transport.upcoming, hplan, hleft, frames32?, Upcoming.imminent?]
  simp only [ChunkTask.of, himminent, hidle, hplays, Bool.and_self, if_true, ChunkTask.mk.injEq, and_true]
  simp only [Activity.isIdle, Bool.not_eq_true', Bool.or_eq_false_iff] at hidle
  obtain ⟨⟨⟨-, hrecord⟩, hreplace⟩, hpreRecord⟩ := hidle
  rw [hrecord, hreplace, hpreRecord]

/-- The trigger that carries out a plan brings a loop that is not playing to its start. -/
theorem playsFromStart {l : Loop} {mode : LoopMode} {c : Clock} (hplan : c.planned.head? = some ⟨mode, 0⟩)
    (hordered : Ordered c.planned) (hidle : c.mode.isPlaying = false) (hl : l.transport.clock = c.trigger) :
    PlaysFromStart l mode := by
  have hdue : c.due? = some ⟨mode, 0⟩ := by simp [Clock.due?, hplan]
  have hwrapped : c.wrapped = c := by simp [Clock.wrapped, hidle]
  rw [Clock.trigger_ordered hordered, hdue, hwrapped] at hl
  refine ⟨(congrArg Clock.mode hl).trans (Clock.transition_mode c mode),
    fun next startOffset channelMode hplays => ?_⟩
  have hplaying := isPlaying_of_playback hplays
  have hposition : l.transport.position = 0 := by
    refine (congrArg Clock.position hl).trans ?_
    dsimp only
    unfold Clock.transition
    rw [if_neg (by rintro rfl; rw [hidle] at hplaying; cases hplaying)]
    simp [hidle]
  obtain ⟨hplayback, hat⟩ := ChunkTask.of_playback hplays next l.transport.position startOffset
  rw [hposition, Int.natCast_zero, Int.zero_add] at hat
  exact ⟨hplayback, hposition ▸ hat⟩

namespace Unprompted

/-- The prediction counts down. -/
theorem nextTrigger_eq (hu : Unprompted loops x m s' loops') (h : Entire keys loops)
    (hfirst : Soonest (settledUp loops x) (some t)) (hm : m < t) (ht : t < maxFrames) :
    nextTrigger (s'.ready loops' keys) x = some (t - m) := by
  have h' := h.congr hu.sources
  have hnow := foretells hu.ahead h'.all h'.short x
  rw [funext hu.line] at hnow
  exact hnow.unique (hfirst.later hm ht)

/-- No chunk goes past the frame that is predicted. -/
theorem frames_le (hu : Unprompted loops x m s' loops') (h : Entire keys loops)
    (hfirst : Soonest (settledUp loops x) (some t)) (hm : m < t) (ht : t < maxFrames)
    (hround : s'.Round loops' keys remaining) : m + s'.nextFrames loops' keys remaining ≤ t := by
  have hnow : Soonest (settledUp loops' x) (some (t - m)) := by
    rw [funext hu.line]
    exact hfirst.later hm ht
  have hle := (h.congr hu.sources).le_first hround hnow
  omega

/-- No trigger comes before that frame. -/
theorem not_triggered (hu : Unprompted loops x m s' loops') (h : Entire keys loops)
    (hfirst : Soonest (settledUp loops x) (some t)) (hround : s'.Round loops' keys remaining)
    (hok : (s'.nextChunk loops' keys remaining).2 = .ok ()) (hx : x ∈ keys)
    (hn : m + s'.nextFrames loops' keys remaining < t) :
    triggered (s'.nextChunk loops' keys remaining).1 x = false := by
  refine Bool.eq_false_iff.2 fun htriggered => ?_
  obtain ⟨d, hd, -⟩ := ((h.congr hu.sources).triggered_iff hround hok hx).1 htriggered
  rw [hu.line] at hd
  have hfar : ∀ k, (settledUp loops x d).untilEnd = some k → m + (t - m) ≤ k := fun k hk => by
    have := hfirst.le hk
    omega
  have hle := Clock.le_untilEnd_later hfar _ hd
  omega

/-- At that frame the loop triggers exactly if a loop on its line ends there without a
playing source. -/
theorem triggered_iff (hu : Unprompted loops x m s' loops') (h : Entire keys loops)
    (hfirst : Soonest (settledUp loops x) (some t)) (hm : m < t) (ht : t < maxFrames)
    (hround : s'.Round loops' keys remaining) (hok : (s'.nextChunk loops' keys remaining).2 = .ok ())
    (hx : x ∈ keys) (hn : m + s'.nextFrames loops' keys remaining = t) :
    triggered (s'.nextChunk loops' keys remaining).1 x = true ↔
      ∃ d, Ensemble.EndsAt t (settledUp loops x) d := by
  rw [(h.congr hu.sources).triggered_iff hround hok hx, funext hu.line]
  refine exists_congr fun d => ?_
  have hpast : ∀ k, (settledUp loops x d).untilEnd = some k → m < k := fun k hk =>
    Nat.lt_of_lt_of_le hm (hfirst.le hk)
  unfold Ensemble.EndsAt
  rw [Clock.untilEnd_later hpast (hn.symm ▸ ht), hn, Clock.later_mode]

/-- The lead of channels that play ahead counts down with the prediction. -/
theorem leadsIn_ready (hu : Unprompted loops x m s' loops') (h : Entire keys loops)
    (hfirst : Soonest (settledUp loops x) (some t)) (hm : m < t) (ht : t < maxFrames)
    (hround : s'.Round loops' keys remaining) {l l' : Loop} {mode : LoopMode} (hl : loops.get? x = some l)
    (hplan : l.transport.planned.head? = some ⟨mode, 0⟩) (hl' : (s'.ready loops' keys).get? x = some l') :
    LeadsIn (l'.context (s'.nextFrames loops' keys remaining)) mode (t - m) := by
  have hclock := (h.congr hu.sources).clock_ready hround hl'
  rw [hu.line, settledUp_zero hl] at hclock
  have hplan' : l'.transport.planned.head? = some ⟨mode, 0⟩ := by
    rwa [← Transport.clock_planned, hclock, Clock.later_planned, Clock.settled_planned]
  have hleft := hu.nextTrigger_eq h hfirst hm ht
  rw [nextTrigger, hl', Option.bind_some] at hleft
  exact leadsIn hplan' hleft _

/-- The trigger brings them to their start. -/
theorem playsFromStart_after (hu : Unprompted loops x m s' loops') (h : Entire keys loops)
    (hround : s'.Round loops' keys remaining) (hok : (s'.nextChunk loops' keys remaining).2 = .ok ())
    {l l' : Loop} {mode : LoopMode} (hl : loops.get? x = some l)
    (hplan : l.transport.planned.head? = some ⟨mode, 0⟩) (hordered : Ordered l.transport.planned)
    (hidle : l.transport.mode.isPlaying = false) (hl' : (s'.nextChunk loops' keys remaining).1.get? x = some l')
    (htriggered : triggered (s'.nextChunk loops' keys remaining).1 x = true) : PlaysFromStart l' mode := by
  have hclock := (h.congr hu.sources).clock_triggered hround hok hl' htriggered
  have hsettled : l.transport.clock.settled = l.transport.clock :=
    Clock.settled_of_content fun hp => absurd hp (by simp [hidle])
  rw [hu.line, settledUp_zero hl, hsettled, Clock.later_moved _ _ hround.pos] at hclock
  exact playsFromStart (by rwa [Clock.later_planned]) (by rwa [Clock.later_planned]) (by rwa [Clock.later_mode])
    hclock

end Unprompted

/-- As long as no command intervenes, a predicted trigger comes no sooner than predicted.
The prediction counts down to it frame by frame, and so does the lead of channels that
play ahead of it. The trigger then comes exactly if some loop on the line of the
predicting one ends at that frame without a playing source; if none does, the loop goes
without a trigger. Ends too far away to be counted are not predicted exactly. -/
theorem triggers_foretold {s s' : Scheduler} {loops loops' : Loops} {keys : List LoopKey} {x : LoopKey}
    {t m remaining : Nat} (h : Entire keys loops) (ha : s.Ahead loops)
    (hforetold : nextTrigger (s.ready loops keys) x = some t) (hcourse : Course keys s loops m s' loops')
    (hm : m < t) (hr : 0 < remaining) (hok : (s'.nextChunk loops' keys remaining).2 = .ok ()) :
    let n := s'.nextFrames loops' keys remaining
    let after := (s'.nextChunk loops' keys remaining).1
    0 < n ∧ (m + n < t → triggered after x = false) ∧
    (t < maxFrames →
      nextTrigger (s'.ready loops' keys) x = some (t - m) ∧ m + n ≤ t ∧
      (m + n = t → (triggered after x = true ↔ ∃ d, Ensemble.EndsAt t (settledUp loops x) d)) ∧
      ∀ l mode, loops.get? x = some l → l.transport.planned.head? = some ⟨mode, 0⟩ →
        (∀ l', (s'.ready loops' keys).get? x = some l' → LeadsIn (l'.context n) mode (t - m)) ∧
        (triggered after x = true → Ordered l.transport.planned → l.transport.mode.isPlaying = false →
          ∀ l', after.get? x = some l' → PlaysFromStart l' mode)) := by
  have hfirst : Soonest (settledUp loops x) (some t) := hforetold ▸ foretells ha h.all h.short x
  have hu := hcourse.unprompted h ha hfirst hm
  have hround := hu.ahead.begin keys hr
  have hx : x ∈ keys := by
    cases hl : loops.get? x with
    | none =>
      obtain ⟨d, hd⟩ := hfirst.reached t rfl
      rw [settledUp_of_none hl] at hd
      cases hd
    | some l => exact h.all x l hl
  intro n after
  refine ⟨hround.pos, hu.not_triggered h hfirst hround hok hx, fun ht => ⟨hu.nextTrigger_eq h hfirst hm ht,
    hu.frames_le h hfirst hm ht hround, hu.triggered_iff h hfirst hm ht hround hok hx,
    fun l mode hl hplan => ⟨fun l' hl' => ?_, fun htriggered hordered hidle l' hl' => ?_⟩⟩⟩
  · exact hu.leadsIn_ready h hfirst hm ht hround hl hplan hl'
  · exact hu.playsFromStart_after h hround hok hl hplan hordered hidle hl' htriggered

/-- Two loops, each with a follower: one that is shorter than its source, and one that
is to start playing. -/
def staggered : Loops :=
  { slots := [
      ⟨0, some { transport := { Transport.new with mode := .playing, length := 8 } }⟩,
      ⟨0, some { transport := { Transport.new with mode := .playing, length := 4 }, syncSource := some ⟨0, 0⟩ }⟩,
      ⟨0, some { transport := { Transport.new with mode := .playing, length := 4 } }⟩,
      ⟨0, some { transport := { Transport.new with length := 6, planned := [⟨.playing, 0⟩] },
                 syncSource := some ⟨2, 0⟩ }⟩]
    size := 4 }

/-- After one of the four frames that both followers are to wait for, three are left. By
then one starts from its beginning, and the other one is at its end without a trigger. -/
theorem triggers_foretold_missed :
    let first := (Scheduler.new 16).process staggered staggered.keys 1
    let after := (first.1.nextChunk first.2.1 staggered.keys 3).1
    nextTrigger (first.1.ready first.2.1 staggered.keys) ⟨1, 0⟩ = some 3 ∧ triggered after ⟨1, 0⟩ = false ∧
      nextTrigger (first.1.ready first.2.1 staggered.keys) ⟨3, 0⟩ = some 3 ∧ triggered after ⟨3, 0⟩ = true ∧
      ∀ l, after.get? ⟨3, 0⟩ = some l → PlaysFromStart l .playing := by
  have hzero : ∀ p ∈ staggered.toList, p.2.transport.round = 0 := by decide
  have ha : (Scheduler.new 16).Ahead staggered := fun _ _ h => Nat.le_of_eq (hzero _ (Arena.mem_toList_of_get? h))
  have hends : ∀ key d, upstream (source? staggered) (2 + d) key = none := upstream_ends (by decide)
  have hentire : Entire staggered.keys staggered := .of_hops (show 1 ≤ maxHops by decide) (by decide)
  have hcycle : (Scheduler.new 16).process staggered staggered.keys 1 =
      ((Scheduler.new 16).next, ((Scheduler.new 16).nextChunk staggered staggered.keys 1).1, .ok ()) := by
    have hframes : (Scheduler.new 16).nextFrames staggered staggered.keys 1 = 1 := by decide
    rw [process, processFrom_eq (ha.begin staggered.keys Nat.one_pos), hframes, processFrom_zero]
    rfl
  have hstart : Course staggered.keys (.new 16) staggered 0 (.new 16) staggered := .start
  have hcourse := hstart.cycle (n := 1) hentire.nodup ha (congrArg (·.2.2) hcycle)
  intro first after
  have hframes : first.1.nextFrames first.2.1 staggered.keys 3 = 3 := by
    simp only [first, hcycle]
    decide
  have hok : (first.1.nextChunk first.2.1 staggered.keys 3).2 = .ok () := by
    simp only [first, hcycle]
    rfl
  obtain ⟨-, -, hmissed⟩ := triggers_foretold (x := ⟨1, 0⟩) (t := 4) hentire ha (by decide) hcourse (by decide)
    (by decide) hok
  obtain ⟨hleft, -, hiff, -⟩ := hmissed (by decide)
  obtain ⟨-, -, hkept⟩ := triggers_foretold (x := ⟨3, 0⟩) (t := 4) hentire ha (by decide) hcourse (by decide)
    (by decide) hok
  obtain ⟨hleft', -, hiff', hplays⟩ := hkept (by decide)
  have hstarts := (hiff' (by rw [hframes])).2 ⟨1, by decide, by decide⟩
  refine ⟨hleft, Bool.eq_false_iff.2 fun htriggered => ?_, hleft', hstarts,
    (hplays _ _ rfl rfl).2 hstarts (Ordered.nil.insertPlan (p := ⟨.playing, 0⟩) (by decide)) rfl⟩
  obtain ⟨d, hend, hclear⟩ := (hiff (by rw [hframes])).1 htriggered
  rcases d with - | - | d
  -- its source is playing, and does not end yet
  · exact absurd hclear (by decide)
  · exact absurd hend (by decide)
  · rw [settledUp, clockUp, show d + 1 + 1 = 2 + d from Nat.add_comm d 2, hends] at hend
    cases hend

end Scheduler

end Overdub
