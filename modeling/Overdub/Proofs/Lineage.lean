import Overdub.Proofs.Division
/-!
# What a loop depends on

Time passes for a loop as the clocks of its sync ancestors say: its source, the
source of that one, and so on. A trigger reaches it if one of them ends alone
(`fired_iff`), so the clocks along its line decide those of the next chunk
(`line_advance`). Other loops move the boundaries between chunks and the order
in which triggers are passed on; neither shows in the line after a cycle
(`unrelated_irrelevant`).
-/

namespace Overdub

/-- The key so many hops up the sync chain. -/
def upstream (source : LoopKey → Option LoopKey) : Nat → LoopKey → Option LoopKey
  | 0, key => some key
  | d + 1, key => (source key).bind (upstream source d)

theorem upstream_add (source : LoopKey → Option LoopKey) (d i : Nat) (key : LoopKey) :
    upstream source (d + i) key = (upstream source d key).bind (upstream source i) := by
  induction d generalizing key with
  | zero => rw [Nat.zero_add]; rfl
  | succ d ih =>
    rw [Nat.succ_add]
    cases hs : source key with
    | none => simp [upstream, hs]
    | some k => simp [upstream, hs, ih]

theorem upstream_succ_of_some {source : LoopKey → Option LoopKey} {k next : LoopKey} (h : source k = some next)
    (d : Nat) : upstream source (d + 1) k = upstream source d next := by
  rw [upstream, h, Option.bind_some]

/-- One more hop at the end. -/
theorem upstream_step {source : LoopKey → Option LoopKey} {d : Nat} {k last : LoopKey}
    (h : upstream source d k = some last) : upstream source (d + 1) k = source last := by
  rw [upstream_add, h, Option.bind_some, upstream]
  cases source last <;> rfl

/-- Sources that are taken away lengthen no chain. -/
theorem upstream_mono {source source' : LoopKey → Option LoopKey} {d : Nat} {k last : LoopKey}
    (hless : ∀ k k', source' k = some k' → source k = some k') (h : upstream source' d k = some last) :
    upstream source d k = some last := by
  induction d generalizing k with
  | zero => exact h
  | succ d ih =>
    obtain ⟨next, hnext, h⟩ := Option.bind_eq_some_iff.1 h
    rw [upstream_succ_of_some (hless k next hnext)]
    exact ih h

/-- Whoever is followed does not follow, however far around. -/
def Acyclic (source : LoopKey → Option LoopKey) : Prop := ∀ d key, upstream source (d + 1) key ≠ some key

namespace Ensemble
variable {e e' : Ensemble} {c c' : Clocks} {x x' : LoopKey} {n : Nat}

/-! ## Triggers from upstream -/

theorem pass_of_upstream {hit : LoopKey → Bool} {hops d : Nat} {key k : LoopKey} (hd : d ≤ hops + 1)
    (hk : upstream e.source d key = some k) (h : hit k = true) : e.pass hops key hit key = true := by
  induction hops generalizing d key with
  | zero =>
    rcases Nat.le_one_iff_eq_zero_or_eq_one.1 hd with rfl | rfl
    · cases hk
      exact e.pass_of_hit h
    · obtain ⟨source, hs, hk⟩ := Option.bind_eq_some_iff.1 hk
      cases hk
      exact e.pass_of_source hs h
  | succ hops ih =>
    cases d with
    | zero =>
      cases hk
      exact e.pass_of_hit h
    | succ d =>
      obtain ⟨source, hs, hk⟩ := Option.bind_eq_some_iff.1 hk
      have harrives : e.pass hops source hit source = true := ih (by omega) hk
      simp [pass, passOn, hs, harrives]

/-- A trigger comes from upstream. -/
theorem exists_of_passAll {hit : LoopKey → Bool} {key : LoopKey} (h : e.passAll hit key = true) :
    ∃ d k, upstream e.source d key = some k ∧ hit k = true := by
  have hspreads : e.Spreads (fun key => ∃ d k, upstream e.source d key = some k ∧ hit k = true) hit := by
    refine ⟨fun key hk => ⟨0, key, rfl, hk⟩, ?_⟩
    rintro key source hs ⟨d, k, hk, hhit⟩
    exact ⟨d + 1, k, by simpa [upstream, hs] using hk, hhit⟩
  exact hspreads.passAll.now key h

/-- A clock triggers exactly if one upstream of it does, when those that do are
within reach. -/
theorem passAll_iff {hit : LoopKey → Bool} {key : LoopKey} (hkey : key ∈ e.keys)
    (hnear : ∀ d k, upstream e.source d key = some k → hit k = true →
      ∃ d ≤ Scheduler.maxHops + 1, upstream e.source d key = some k) :
    e.passAll hit key = true ↔ ∃ d k, upstream e.source d key = some k ∧ hit k = true := by
  refine ⟨exists_of_passAll, ?_⟩
  rintro ⟨d, k, hk, hhit⟩
  obtain ⟨d, hd, hk⟩ := hnear d k hk hhit
  obtain ⟨front, back, hkeys⟩ := List.append_of_mem hkey
  unfold passAll
  rw [hkeys, List.foldl_append, List.foldl_cons]
  exact e.foldl_pass_of_hit back (pass_of_upstream hd hk (e.foldl_pass_of_hit front hhit))

/-! ## The line of a clock -/

variable (e) in
/-- The clocks up the sync chain; above its end they stand still. -/
def line (c : Clocks) (key : LoopKey) (d : Nat) : Clock := (upstream e.source d key).elim .still c

/-- The clock at a place of the line ends with the `n`-th frame, and the one
above it is not playing. -/
def EndsAt (n : Nat) (l : Nat → Clock) (d : Nat) : Prop :=
  (l d).untilEnd = some n ∧ (l (d + 1)).mode.isPlaying = false

theorem line_of_upstream {d : Nat} {y : LoopKey} (hy : upstream e.source d x = some y) :
    e.line c x d = c y := by simp [line, hy]

theorem line_up {d : Nat} {y : LoopKey} (hy : upstream e.source d x = some y) (i : Nat) :
    e.line c y i = e.line c x (d + i) := by simp [line, upstream_add, hy]

theorem endsAlone_iff {d : Nat} {y : LoopKey} (hy : upstream e.source d x = some y) :
    e.endsAlone n c y = true ↔ EndsAt n (e.line c x) d := by
  have habove : e.line c x (d + 1) = (e.source y).elim .still c := by
    rw [← line_up hy, line, upstream]
    cases e.source y <;> rfl
  unfold endsAlone EndsAt
  rw [habove, line_of_upstream hy]
  cases e.source y <;> simp [Clock.still, LoopMode.isPlaying]

theorem endsAt_upstream {d : Nat} (h : EndsAt n (e.line c x) d) :
    ∃ y, upstream e.source d x = some y ∧ e.endsAlone n c y = true := by
  cases hy : upstream e.source d x with
  | none => simp [EndsAt, line, hy] at h
  | some y => exact ⟨y, rfl, (endsAlone_iff hy).2 h⟩

/-- A line that triggers can climb: its keys take part, and it ends in time. -/
structure Lineage (e : Ensemble) (c : Clocks) (x : LoopKey) : Prop where
  listed : ∀ d y, upstream e.source d x = some y → c y = .still ∨ y ∈ e.keys
  short : ∀ d, Scheduler.maxHops < d → e.line c x d = .still

theorem Lineage.up (h : Lineage e c x) {d : Nat} {y : LoopKey} (hy : upstream e.source d x = some y) :
    Lineage e c y where
  listed i z hz := h.listed (d + i) z (by simp [upstream_add, hy, hz])
  short i hi := by rw [line_up hy, h.short (d + i) (by omega)]

/-- What a clock does that stands still is nothing. -/
theorem advance_still {y : LoopKey} (hy : c y = .still) : e.advance n c y = .still := by
  unfold advance
  split <;> simp [hy]

theorem line_advance_still {d : Nat} (h : e.line c x d = .still) : e.line (e.advance n c) x d = .still := by
  cases hy : upstream e.source d x with
  | none => simp [line, hy]
  | some y =>
    rw [line_of_upstream hy] at h ⊢
    exact advance_still h

theorem Lineage.advance (h : Lineage e c x) (n : Nat) : Lineage e (e.advance n c) x where
  listed d y hy := (h.listed d y hy).imp_left advance_still
  short d hd := line_advance_still (h.short d hd)

theorem line_settle (d : Nat) : e.line (settle c) x d = (e.line c x d).settled := by
  unfold line
  cases upstream e.source d x <;> simp [settle]

theorem Lineage.settle (h : Lineage e c x) : Lineage e (settle c) x where
  listed d y hy := (h.listed d y hy).imp_left fun hc => by simp [Ensemble.settle, hc]
  short d hd := by rw [line_settle, h.short d hd, Clock.still_settled]

/-- A clock triggers exactly if some clock of its line ends alone. -/
theorem Lineage.fired_iff (h : Lineage e c x) (hx : x ∈ e.keys) :
    e.fired n c x = true ↔ ∃ d, EndsAt n (e.line c x) d := by
  refine (passAll_iff hx fun d k hk hhit => ?near).trans ⟨?_, ?_⟩
  case near =>
    -- a clock that ends does not stand still, so it is not above the end of the line
    refine ⟨d, Nat.le_succ_of_le (Nat.le_of_not_lt fun hd => ?_), hk⟩
    have hend := ((endsAlone_iff hk).1 hhit).1
    rw [h.short d hd] at hend
    cases hend
  · rintro ⟨d, k, hk, hhit⟩
    exact ⟨d, (endsAlone_iff hk).1 hhit⟩
  · rintro ⟨d, hd⟩
    obtain ⟨k, hk, hhit⟩ := endsAt_upstream hd
    exact ⟨d, k, hk, hhit⟩

/-- Where no clock of a line ends, none of them triggers. -/
theorem Lineage.advance_quiet (h : Lineage e c x) (hquiet : ∀ d, (e.line c x d).untilEnd ≠ some n) (d : Nat) :
    e.line (e.advance n c) x d = (e.line c x d).moved n := by
  cases hy : upstream e.source d x with
  | none => simp [line, hy]
  | some y =>
    rw [line_of_upstream hy, line_of_upstream hy]
    rcases h.listed d y hy with hstill | hmem
    · rw [advance_still hstill, hstill, Clock.still_moved]
    · have hfired : e.fired n c y = false := by
        refine Bool.eq_false_iff.2 fun hf => ?_
        obtain ⟨i, hi, -⟩ := ((h.up hy).fired_iff hmem).1 hf
        rw [line_up hy] at hi
        exact hquiet (d + i) hi
      rw [Ensemble.advance, hfired, if_neg Bool.false_ne_true]

/-! ## Equal lines -/

/-- Equal lines trigger at the same places and stay equal. -/
theorem line_advance (h : Lineage e c x) (h' : Lineage e' c' x') (hline : e.line c x = e'.line c' x') :
    e.line (e.advance n c) x = e'.line (e'.advance n c') x' := by
  funext d
  by_cases hstill : e.line c x d = .still
  · rw [line_advance_still hstill, line_advance_still (hline ▸ hstill)]
  have hthere : ∀ {e : Ensemble} {c x}, Lineage e c x → e.line c x d ≠ .still →
      ∃ y ∈ e.keys, upstream e.source d x = some y := by
    intro e c x h hne
    cases hy : upstream e.source d x with
    | none => exact absurd (by simp [line, hy]) hne
    | some y =>
      rw [line_of_upstream hy] at hne
      exact ⟨y, (h.listed d y hy).resolve_left hne, rfl⟩
  obtain ⟨y, hmem, hy⟩ := hthere h hstill
  obtain ⟨y', hmem', hy'⟩ := hthere h' (hline ▸ hstill)
  have hup : e.line c y = e'.line c' y' := by
    funext i
    rw [line_up hy, line_up hy', hline]
  have hfired : e.fired n c y = e'.fired n c' y' := by
    rw [Bool.eq_iff_iff, (h.up hy).fired_iff hmem, (h'.up hy').fired_iff hmem', hup]
  have hclock : c y = c' y' :=
    (line_of_upstream hy).symm.trans ((congrFun hline d).trans (line_of_upstream hy'))
  rw [line_of_upstream hy, line_of_upstream hy']
  unfold advance
  rw [hfired, hclock]

theorem Lineage.frame (h : Lineage e c x) : Lineage e (e.frame c) x := h.settle.advance 1

theorem line_frame (h : Lineage e c x) (h' : Lineage e' c' x') (hline : e.line c x = e'.line c' x') :
    e.line (e.frame c) x = e'.line (e'.frame c') x' := by
  refine line_advance h.settle h'.settle ?_
  funext d
  rw [line_settle, line_settle, hline]

theorem line_frames (h : Lineage e c x) (h' : Lineage e' c' x') (hline : e.line c x = e'.line c' x') (n : Nat) :
    e.line (e.frame^[n] c) x = e'.line (e'.frame^[n] c') x' := by
  induction n generalizing c c' with
  | zero => exact hline
  | succ n ih =>
    rw [Function.iterate_succ_apply, Function.iterate_succ_apply]
    exact ih h.frame h'.frame (line_frame h h' hline)

end Ensemble

/-! ## Loops -/

namespace Scheduler

/-- The clock of the loop so many hops up the sync chain, if there is one. -/
def clockUp (loops : Loops) (d : Nat) (key : LoopKey) : Option Clock :=
  (upstream (source? loops) d key).bind (clockAt loops)

variable {s : Scheduler} {loops : Loops} {keys : List LoopKey} {x : LoopKey}

theorem line_clocks (d : Nat) :
    Ensemble.line ⟨source? loops, keys⟩ (clocks (fun _ => true) loops) x d = (clockUp loops d x).getD .still := by
  unfold Ensemble.line clockUp clocks
  cases upstream (source? loops) d x <;> simp

theorem lineage (hkeys : ∀ key l, loops.get? key = some l → key ∈ keys)
    (hshort : ∀ d, maxHops < d → clockUp loops d x = none) :
    Ensemble.Lineage ⟨source? loops, keys⟩ (clocks (fun _ => true) loops) x where
  listed d y _ := by
    cases hl : loops.get? y with
    | none => exact .inl (clocks_of_none hl)
    | some l => exact .inr (hkeys y l hl)
  short d hd := by rw [line_clocks, hshort d hd, Option.getD_none]

theorem clockAt_isSome {loops loops' : Loops} (h : SameSources loops loops') (key : LoopKey) :
    (clockAt loops' key).isSome = (clockAt loops key).isSome := by
  simp only [clockAt, Option.isSome_map, Arena.Related.isSome h key]

/-- After a cycle the clock of a loop depends on its own clock before and on
those of its sync ancestors. It does not depend on other loops, on where loops
are kept, on the order of the keys or on the scheduler. -/
theorem unrelated_irrelevant (s s' : Scheduler) (loops loops' : Loops) (keys keys' : List LoopKey)
    (x x' : LoopKey) (n : Nat) (hnd : keys.Nodup) (hnd' : keys'.Nodup)
    (hkeys : ∀ key l, loops.get? key = some l → key ∈ keys)
    (hkeys' : ∀ key l, loops'.get? key = some l → key ∈ keys')
    (hbare : ∀ key l, loops.get? key = some l → l.channels = [])
    (hbare' : ∀ key l, loops'.get? key = some l → l.channels = [])
    (ha : s.Ahead loops) (ha' : s'.Ahead loops') (hn : n < maxFrames)
    (hshort : ∀ d, maxHops < d → clockUp loops d x = none)
    (hsame : ∀ d, clockUp loops d x = clockUp loops' d x') :
    clockAt (s.process loops keys n).2.1 x = clockAt (s'.process loops' keys' n).2.1 x' := by
  have hruns := runs_all hnd hkeys ha hbare
  have hruns' := runs_all hnd' hkeys' ha' hbare'
  have hframes := (hruns.process (Nat.le_of_lt hn)).frames hn
  have hframes' := (hruns'.process (Nat.le_of_lt hn)).frames hn
  have hline : Ensemble.line ⟨source? loops, keys⟩ (clocks (fun _ => true) loops) x =
      Ensemble.line ⟨source? loops', keys'⟩ (clocks (fun _ => true) loops') x' := by
    funext d
    rw [line_clocks, line_clocks, hsame]
  have hafter := congrFun (Ensemble.line_frames (lineage hkeys hshort)
    (lineage hkeys' fun d hd => hsame d ▸ hshort d hd) hline n) 0
  rw [← hframes, ← hframes'] at hafter
  simp only [Ensemble.line, upstream, Option.elim_some, clocks, if_true] at hafter
  -- the clocks are equal where both loops exist, and both exist where one did
  have hthere : (clockAt (s.process loops keys n).2.1 x).isSome =
      (clockAt (s'.process loops' keys' n).2.1 x').isSome := by
    have h0 : clockAt loops x = clockAt loops' x' := hsame 0
    have hkept := clockAt_isSome (processFrom_syncSource hnd ha n (.ok ())) x
    have hkept' := clockAt_isSome (processFrom_syncSource hnd' ha' n (.ok ())) x'
    exact hkept.trans ((congrArg Option.isSome h0).trans hkept'.symm)
  generalize clockAt (s.process loops keys n).2.1 x = u at hafter hthere ⊢
  generalize clockAt (s'.process loops' keys' n).2.1 x' = v at hafter hthere ⊢
  cases u <;> cases v <;> first | rfl | simp_all

/-- The loops of `duet` behind two others, of which one follows the other. -/
def quartet : Loops :=
  { slots := [
      ⟨0, some { transport := { Transport.new with mode := .playing, length := 3 } }⟩,
      ⟨0, some { transport := { Transport.new with mode := .recording, planned := [⟨.playing, 1⟩] },
                 syncSource := some ⟨0, 0⟩ }⟩,
      ⟨0, some { transport := { Transport.new with mode := .playing, position := 1, length := 4 } }⟩,
      ⟨0, some { transport := { Transport.new with planned := [⟨.recording, 0⟩] }, syncSource := some ⟨2, 0⟩ }⟩]
    size := 4 }

theorem unrelated_irrelevant_quartet :
    clockAt ((Scheduler.new 16).process duet duet.keys 5).2.1 ⟨1, 0⟩ =
      clockAt ((Scheduler.new 4).process quartet quartet.keys.reverse 5).2.1 ⟨3, 0⟩ := by
  have hduet : ∀ p ∈ duet.toList, p.2.channels = [] ∧ p.2.transport.round = 0 := by
    simp [duet, Arena.toList, Transport.new]
  have hquartet : ∀ p ∈ quartet.toList, p.2.channels = [] ∧ p.2.transport.round = 0 := by
    simp [quartet, Arena.toList, Transport.new]
  refine unrelated_irrelevant (.new 16) (.new 4) duet quartet duet.keys quartet.keys.reverse ⟨1, 0⟩ ⟨3, 0⟩ 5
    (by decide) (by decide) (fun _ _ h => Arena.mem_keys_of_get? h)
    (fun _ _ h => List.mem_reverse.2 (Arena.mem_keys_of_get? h))
    (fun _ _ h => (hduet _ (Arena.mem_toList_of_get? h)).1)
    (fun _ _ h => (hquartet _ (Arena.mem_toList_of_get? h)).1)
    (fun _ _ h => Nat.le_of_eq (hduet _ (Arena.mem_toList_of_get? h)).2)
    (fun _ _ h => Nat.le_of_eq (hquartet _ (Arena.mem_toList_of_get? h)).2)
    (by decide) (fun d hd => ?_) (fun d => ?_)
  -- the second loop of `duet` has one ancestor
  · rcases d with - | - | d
    · exact absurd hd (by decide)
    · exact absurd hd (by decide)
    · rfl
  · rcases d with - | - | d <;> rfl

end Scheduler

end Overdub
