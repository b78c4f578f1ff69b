import Mathlib
import Overdub.Proofs.Census
import Overdub.Proofs.Lineage
import Overdub.Proofs.Mirror
import Overdub.Proofs.Presence
/-!
# No loop follows itself

`Acyclic` says that no chain of sync sources comes back to where it began. Taking
sources away keeps it (`Acyclic.mono`), and so does a new source that does not
lead to the loop that gets it (`Acyclic.follow`). Between finitely many loops such
a chain ends (`Acyclic.ends`), by the pigeonhole principle, and that is why the walk
of `isFollowed` is never cut short (`Topology.Ancestral.isFollowed_iff`).
-/

namespace Overdub

/-! ## Chains of sources -/

section Chains

variable {source source' : LoopKey → Option LoopKey} {key k last : LoopKey} {d : Nat}

/-- Sources that are taken away close no circle. -/
theorem Acyclic.mono (h : Acyclic source) (hless : ∀ k k', source' k = some k' → source k = some k') :
    Acyclic source' := fun d key hcircle => h d key (upstream_mono hless hcircle)

section Follow

variable (hsame : ∀ k, k ≠ key → source' k = source k)
include hsame

/-- The way to the loop with the new source is the same as before. -/
theorem exists_upstream_of_follow (h : upstream source' d k = some key) : ∃ d, upstream source d k = some key := by
  induction d generalizing k with
  | zero => exact ⟨0, h⟩
  | succ d ih =>
    by_cases hk : k = key
    · exact ⟨0, congrArg some hk⟩
    · obtain ⟨next, hnext, h⟩ := Option.bind_eq_some_iff.1 h
      obtain ⟨e, he⟩ := ih h
      exact ⟨e + 1, (upstream_succ_of_some ((hsame k hk).symm.trans hnext) e).trans he⟩

/-- A chain passes through the loop with the new source, or it was there before. -/
theorem passes_or_upstream (h : upstream source' d k = some last) :
    (∃ i < d, upstream source' i k = some key) ∨ upstream source d k = some last := by
  induction d generalizing k with
  | zero => exact .inr h
  | succ d ih =>
    by_cases hk : k = key
    · exact .inl ⟨0, Nat.succ_pos d, congrArg some hk⟩
    · obtain ⟨next, hnext, h⟩ := Option.bind_eq_some_iff.1 h
      rcases ih h with ⟨i, hi, hpass⟩ | hbefore
      · exact .inl ⟨i + 1, Nat.succ_lt_succ hi, (upstream_succ_of_some hnext i).trans hpass⟩
      · exact .inr ((upstream_succ_of_some ((hsame k hk).symm.trans hnext) d).trans hbefore)

/-- A new source closes no circle if it does not lead to the loop that gets it. -/
theorem Acyclic.follow (h : Acyclic source) {first : LoopKey} (hkey : source' key = some first)
    (hfree : ∀ d, upstream source d first ≠ some key) : Acyclic source' := by
  intro d k hcircle
  rcases passes_or_upstream hsame hcircle with ⟨i, hi, hpass⟩ | hbefore
  · -- the circle begins anew at the loop with the new source
    obtain ⟨j, hj⟩ := Nat.exists_eq_add_of_lt hi
    rw [hj, Nat.add_assoc, upstream_add, hpass, Option.bind_some] at hcircle
    have haround : upstream source' (j + 1 + i) key = some key := by
      rw [upstream_add, hcircle, Option.bind_some, hpass]
    rw [Nat.add_right_comm, upstream_succ_of_some hkey] at haround
    obtain ⟨e, he⟩ := exists_upstream_of_follow hsame haround
    exact hfree e he
  · exact h d k hbefore

end Follow

/-- Two places of a chain are different. -/
theorem Acyclic.ne (h : Acyclic source) {i j : Nat} (hij : i < j) (hi : upstream source i key = some k)
    (hj : upstream source j key = some last) : k ≠ last := by
  rintro rfl
  obtain ⟨e, rfl⟩ := Nat.exists_eq_add_of_lt hij
  rw [Nat.add_assoc, upstream_add, hi, Option.bind_some] at hj
  exact h e k hj

/-- Between finitely many loops a chain of sources ends, in fewer hops than there are loops. -/
theorem Acyclic.ends (h : Acyclic source) {keys : List LoopKey}
    (hlive : ∀ k ∈ keys, ∀ next, source k = some next → next ∈ keys) (hkey : key ∈ keys) :
    ∃ d < keys.length, ∃ last ∈ keys, upstream source d key = some last ∧ source last = none := by
  by_contra hnever
  have hgoes : ∀ d ≤ keys.length, ∃ last ∈ keys, upstream source d key = some last := by
    intro d hd
    induction d with
    | zero => exact ⟨key, hkey, rfl⟩
    | succ d ih =>
      obtain ⟨last, hlast, hup⟩ := ih (Nat.le_of_succ_le hd)
      cases hnext : source last with
      | none => exact absurd ⟨d, hd, last, hlast, hup, hnext⟩ hnever
      | some next => exact ⟨next, hlive last hlast next hnext, (upstream_step hup).trans hnext⟩
  -- one place more than there are loops
  have hcard : keys.toFinset.card < (Finset.range (keys.length + 1)).card := by
    rw [Finset.card_range]
    exact Nat.lt_succ_of_le keys.toFinset_card_le
  have hmaps : Set.MapsTo (fun d => (upstream source d key).getD key) (Finset.range (keys.length + 1)) keys.toFinset := by
    intro d hd
    obtain ⟨last, hlast, hup⟩ := hgoes d (Nat.le_of_lt_succ (Finset.mem_range.1 (Finset.mem_coe.1 hd)))
    simpa [hup] using hlast
  obtain ⟨i, hi, j, hj, hne, heq⟩ := Finset.exists_ne_map_eq_of_card_lt_of_maps_to hcard hmaps
  obtain ⟨k, -, hk⟩ := hgoes i (Nat.le_of_lt_succ (Finset.mem_range.1 hi))
  obtain ⟨last, -, hlast⟩ := hgoes j (Nat.le_of_lt_succ (Finset.mem_range.1 hj))
  obtain rfl : k = last := by simpa [hk, hlast] using heq
  rcases Nat.lt_or_gt_of_ne hne with hlt | hgt
  · exact h.ne hlt hk hlast rfl
  · exact h.ne hgt hlast hk rfl

/-- Behind its end a chain leads nowhere. -/
theorem le_of_end (hend : upstream source d key = some last) (hlast : source last = none) {i : Nat}
    (hi : upstream source i key = some k) : i ≤ d := by
  by_contra hgt
  obtain ⟨e, rfl⟩ := Nat.exists_eq_add_of_lt (Nat.lt_of_not_le hgt)
  rw [Nat.add_assoc, upstream_add, hend, Option.bind_some, upstream, hlast] at hi
  cases hi

end Chains

/-! ## The loops of a topology -/

namespace Topology

variable {t u : Topology} {key k last : LoopKey}

/-- The loop that a loop follows. -/
def source (t : Topology) (key : LoopKey) : Option LoopKey := (t.loops.get? key).bind (·.syncSource)

/-- No loop is forgotten, and none follows itself. -/
structure Ancestral (t : Topology) : Prop where
  whole : t.loops.Whole
  acyclic : Acyclic t.source

theorem empty_ancestral : Topology.empty.Ancestral := ⟨Arena.empty_whole, fun _ _ h => nomatch h⟩

/-- A loop that follows is there, and so is what it follows. -/
theorem Rooted.source_live (h : t.Rooted) (hk : t.source k = some last) : last ∈ t.loops.keys := by
  obtain ⟨l, hl, hsource⟩ := Option.bind_eq_some_iff.1 hk
  exact Arena.mem_keys.2 (h.wiring.follows k l last hl hsource)

namespace Ancestral

/-- A chain ends before it has had as many hops as there are loops. -/
theorem ends (h : t.Ancestral) (hrooted : t.Rooted) (hkey : t.loops.contains key = true) :
    ∃ d < t.loops.size, ∃ last, t.loops.contains last = true ∧ upstream t.source d key = some last ∧
      t.source last = none := by
  obtain ⟨d, hd, last, hlast, hend⟩ :=
    h.acyclic.ends (fun k _ next hnext => hrooted.source_live hnext) (Arena.mem_keys.2 hkey)
  exact ⟨d, h.whole.length_keys ▸ hd, last, Arena.mem_keys.1 hlast, hend⟩

theorem isFollowed_iff_le (t : Topology) (key : LoopKey) (hops : Nat) (k : LoopKey) :
    Session.isFollowed t key hops k = true ↔ ∃ d ≤ hops, upstream t.source d k = some key := by
  induction hops generalizing k with
  | zero =>
    rw [Session.isFollowed, decide_eq_true_iff]
    constructor
    · exact fun hk => ⟨0, Nat.le_refl 0, congrArg some hk⟩
    · rintro ⟨d, hd, hup⟩
      obtain rfl := Nat.le_zero.1 hd
      exact Option.some.inj hup
  | succ hops ih =>
    rw [Session.isFollowed, Bool.or_eq_true_iff, decide_eq_true_iff, Option.any_eq_true]
    constructor
    · rintro (hk | ⟨next, hnext, hfollowed⟩)
      · exact ⟨0, Nat.zero_le _, congrArg some hk⟩
      · obtain ⟨d, hd, hup⟩ := (ih next).1 hfollowed
        exact ⟨d + 1, Nat.succ_le_succ hd, (upstream_succ_of_some hnext d).trans hup⟩
    · rintro ⟨d, hd, hup⟩
      cases d with
      | zero => exact .inl (Option.some.inj hup)
      | succ d =>
        obtain ⟨next, hnext, hup⟩ := Option.bind_eq_some_iff.1 hup
        exact .inr ⟨next, hnext, (ih next).2 ⟨d, Nat.le_of_succ_le_succ hd, hup⟩⟩

/-- The walk finds whatever a loop follows: it is not cut short. -/
theorem isFollowed_iff (h : t.Ancestral) (hrooted : t.Rooted) (hk : t.loops.contains k = true) :
    Session.isFollowed t key t.loops.size k = true ↔ ∃ d, upstream t.source d k = some key := by
  rw [isFollowed_iff_le]
  constructor
  · exact fun ⟨d, _, hup⟩ => ⟨d, hup⟩
  · rintro ⟨d, hup⟩
    obtain ⟨e, he, last, -, hend, hlast⟩ := h.ends hrooted hk
    exact ⟨d, (le_of_end hend hlast hup).trans he.le, hup⟩

/-- Where a loop and what it follows stay the same. -/
theorem of_source_eq (h : t.Ancestral) (hwhole : u.loops.Whole) (hsource : u.source = t.source) : u.Ancestral :=
  ⟨hwhole, hsource ▸ h.acyclic⟩

end Ancestral

theorem source_modify (t : Topology) (key : LoopKey) {f : LoopInfo → LoopInfo} (hf : ∀ l, (f l).syncSource = l.syncSource)
    (channels : Arena .channel ChannelInfo) :
    ({ t with channels, loops := t.loops.modify key f } : Topology).source = t.source := by
  funext k
  simp only [source, Arena.get?_modify_eq_map, Option.bind_map]
  refine Option.bind_congr fun l _ => ?_
  simp only [Function.comp_apply]
  split_ifs
  · exact hf l
  · rfl

end Topology

open Session (Change)

/-- No change of a topology closes a circle. -/
theorem Session.Change.ancestral {a : Session.Action} {t u : Topology} (h : Change a t u) (hrooted : t.Rooted)
    (ht : t.Ancestral) : u.Ancestral := by
  cases h with
  | addLoop =>
    refine ⟨ht.whole.insert {}, ht.acyclic.mono fun k next hnext => ?_⟩
    simp only [Topology.source, hrooted.loops.get?_insert] at hnext ⊢
    split_ifs at hnext
    · cases hnext
    · exact hnext
  | @deleteLoop _ key info =>
    refine ⟨(ht.whole.erase key).map _, ht.acyclic.mono fun k next hnext => ?_⟩
    simp only [Topology.source, Topology.removeLoop, Arena.get?_map, Arena.get?_erase, Option.bind_map] at hnext ⊢
    split_ifs at hnext
    · cases hnext
    · obtain ⟨l, hl, hfilter⟩ := Option.bind_eq_some_iff.1 hnext
      exact Option.bind_eq_some_iff.2 ⟨l, hl, (Option.filter_eq_some_iff.1 hfilter).1⟩
  | @setSyncSource _ key src hkey hlive hfree =>
    refine ⟨ht.whole.modify _ _, ?_⟩
    have hsource : ∀ k, ({ t with loops := t.loops.modify key ({ · with syncSource := src }) } : Topology).source k =
        if k = key then src else t.source k := by
      intro k
      simp only [Topology.source, Arena.get?_modify]
      split_ifs with hk
      · obtain ⟨l, hl⟩ := Option.isSome_iff_exists.1 hkey
        rw [hl]
        rfl
      · rfl
    cases src with
    | none =>
      refine ht.acyclic.mono fun k next hnext => ?_
      rw [hsource] at hnext
      split_ifs at hnext
      exact hnext
    | some first =>
      refine ht.acyclic.follow (fun k hk => (hsource k).trans (if_neg hk)) ((hsource key).trans (if_pos rfl)) fun d hup => ?_
      have hfound := (ht.isFollowed_iff hrooted (hlive first rfl)).2 ⟨d, hup⟩
      rw [Option.any_some, hfound] at hfree
      cases hfree
  | addChannel =>
    refine ht.of_source_eq (ht.whole.modify _ _) (t.source_modify _ ?_ _)
    exact fun _ => rfl
  | deleteChannel =>
    refine ht.of_source_eq (ht.whole.modify _ _) (t.source_modify _ ?_ _)
    exact fun _ => rfl
  | @addChain _ name effect =>
    have hloops := (t.loops_withChain name effect.layout).1
    exact ht.of_source_eq (hloops ▸ ht.whole) (by funext k; simp only [Topology.source, hloops])
  | @deleteChain _ key info =>
    have hloops : (t.removeChain key info).loops = t.loops := Topology.loops_removePorts _ _
    exact ht.of_source_eq (hloops ▸ ht.whole) (by funext k; simp only [Topology.source, hloops])
  | _ => exact ⟨ht.whole, ht.acyclic⟩

/-! ## Sessions -/

namespace Session

variable {s : Session} {key : LoopKey} {source : Option LoopKey}

/-- What holds of a session after any calls. -/
structure Charted (s : Session) : Prop where
  linked : s.topology.Linked
  rooted : s.topology.Rooted
  ancestral : s.topology.Ancestral
  attended : s.Attended

theorem charted_new (config : EngineConfig) : (new config).Charted :=
  ⟨Topology.empty_linked, Topology.empty_rooted, Topology.empty_ancestral, fun _ h => nomatch h⟩

theorem Charted.act (h : s.Charted) (a : Action) : (s.act a).Charted where
  linked := linked_act h.linked a
  rooted := rooted_act h.linked h.rooted a
  ancestral := by
    rcases change_act s a with hsame | hchange
    · exact hsame.symm ▸ h.ancestral
    · exact hchange.ancestral h.rooted h.ancestral
  attended := h.attended.act h.rooted.loops a

theorem charted_after (config : EngineConfig) (actions : List Action) : ((new config).after actions).Charted :=
  List.foldlRecOn (motive := Charted) actions act (charted_new config) fun _ h a _ => h.act a

/-- One of the loops that a call names is gone. -/
def Dead (t : Topology) (key : LoopKey) (source : Option LoopKey) : Prop :=
  t.loops.contains key = false ∨ ∃ k ∈ source, t.loops.contains k = false

/-- The source is the loop itself, or follows it. -/
def Closes (t : Topology) (key : LoopKey) (source : Option LoopKey) : Prop :=
  ∃ k ∈ source, ∃ hops, upstream t.source hops k = some key

theorem call_bind_ok {α β : Type} {c : Call α} {f : α → Call β} {a : α} {u : Session} (h : s.call c = (.ok a, u)) :
    s.call (c >>= f) = u.call (f a) := by rw [call_bind, h]

theorem call_bind_error {α β : Type} {c : Call α} {f : α → Call β} {e : Error} {u : Session}
    (h : s.call c = (.error e, u)) : s.call (c >>= f) = (.error e, u) := by rw [call_bind, h]

theorem call_checkLoops (s : Session) (keys : List LoopKey) :
    s.call (checkLoops keys) =
      (if keys.all s.topology.loops.contains then .ok () else .error (.expired "loop"), s) := by
  induction keys with
  | nil => rfl
  | cons key keys ih =>
    have hcons : checkLoops (key :: keys) = lookup (·.loops) key >>= fun _ => checkLoops keys := by
      simp only [checkLoops, List.forM_eq_forM, List.forM_cons]
      exact bind_map_left (Function.const _ PUnit.unit) (lookup (·.loops) key) _
    rw [hcons, call_bind, call_lookup, List.all_cons, Arena.contains]
    cases s.topology.loops.get? key with
    | none => rfl
    | some info => exact ih

theorem call_checkLoops_ok {keys : List LoopKey} (h : keys.all s.topology.loops.contains = true) :
    s.call (checkLoops keys) = (.ok (), s) := by rw [call_checkLoops, if_pos h]

theorem live_of_not_dead (h : ¬Dead s.topology key source) :
    (key :: source.toList).all s.topology.loops.contains = true := by
  simp only [Dead, not_or, not_exists, not_and, Bool.not_eq_false] at h
  refine List.all_eq_true.2 fun k hk => ?_
  rcases List.mem_cons.1 hk with rfl | hk
  · exact h.1
  · exact h.2 k (Option.mem_toList.1 hk)

theorem not_live_of_dead (h : Dead s.topology key source) :
    (key :: source.toList).all s.topology.loops.contains = false := by
  refine List.all_eq_false.2 ?_
  rcases h with hkey | ⟨k, hk, hdead⟩
  · exact ⟨key, List.mem_cons_self, by simp [hkey]⟩
  · exact ⟨k, List.mem_cons_of_mem _ (Option.mem_toList.2 hk), by simp [hdead]⟩

theorem setSyncSource_dead (h : Dead s.topology key source) :
    s.call (setSyncSource key source) = (.error (.expired "loop"), s) := by
  refine call_bind_error ?_
  rw [call_checkLoops, not_live_of_dead h]
  rfl

theorem Charted.closes_iff (h : s.Charted) (hlive : ¬Dead s.topology key source) :
    source.any (isFollowed s.topology key s.topology.loops.size) = true ↔ Closes s.topology key source := by
  rw [Option.any_eq_true]
  refine exists_congr fun k => and_congr_right fun hk => h.ancestral.isFollowed_iff h.rooted ?_
  by_contra hdead
  exact hlive (.inr ⟨k, hk, by simpa using hdead⟩)

theorem Charted.setSyncSource_closes (h : s.Charted) (hlive : ¬Dead s.topology key source)
    (hcloses : Closes s.topology key source) :
    s.call (setSyncSource key source) = (.error (.invalidArgument "sync sources would form a cycle"), s) := by
  refine (call_bind_ok (call_checkLoops_ok (live_of_not_dead hlive))).trans ?_
  refine (call_bind_ok s.call_get).trans (call_bind_error ?_)
  rw [call_require, (h.closes_iff hlive).2 hcloses]
  rfl

/-- The engine has the loop, so nothing is in the way. -/
theorem Charted.setSyncSource_ok (h : s.Charted) (hlive : ¬Dead s.topology key source)
    (hfree : ¬Closes s.topology key source) :
    ∃ engine, s.call (setSyncSource key source) = (.ok (), { s with
      engine
      topology := { s.topology with loops := s.topology.loops.modify key ({ · with syncSource := source }) } }) := by
  have hall := live_of_not_dead hlive
  have hkey : s.topology.loops.contains key = true := List.all_eq_true.1 hall key List.mem_cons_self
  obtain ⟨l, hl⟩ := Option.isSome_iff_exists.1 (h.attended key hkey)
  have hwalk : source.any (isFollowed s.topology key s.topology.loops.size) = false :=
    Bool.eq_false_iff.2 fun hfound => hfree ((h.closes_iff hlive).1 hfound)
  have hallowed : s.call (require (!source.any (isFollowed s.topology key s.topology.loops.size))
      "sync sources would form a cycle") = (.ok (), s) := by
    rw [call_require, hwalk]
    rfl
  have hmade : s.call (changeLoops [key] ({ · with syncSource := source })) =
      (.ok (), { s with engine := { s.engine with loops := s.engine.loops.set key { l with syncSource := source } } }) := by
    refine (call_bind_ok (call_checkLoops_ok (by rw [List.all_cons, hkey]; rfl))).trans ?_
    rw [call_run, List.foldlM_cons, hl]
    rfl
  refine ⟨{ s.engine with loops := s.engine.loops.set key { l with syncSource := source } }, ?_⟩
  refine (call_bind_ok (call_checkLoops_ok hall)).trans ((call_bind_ok s.call_get).trans ?_)
  exact (call_bind_ok hallowed).trans (call_bind_ok hmade)

/-- After any calls, whatever has failed and whatever has taken the place of a deleted loop: the loop that a live loop
follows, the one that that follows and so on are live and come to an end after fewer hops than there are loops. A walk
with as many hops as there are loops finds out whether one loop is upstream of another. And a loop is refused a source
exactly if one of the two is gone or the loop is upstream of the source. -/
theorem sync_sources_end (config : EngineConfig) (actions : List Action) :
    let s := (new config).after actions
    let t := s.topology
    (∀ key, t.loops.contains key = true → ∃ hops < t.loops.keys.length, ∃ last, t.loops.contains last = true ∧
      upstream t.source hops key = some last ∧ t.source last = none) ∧
    (∀ key k, t.loops.contains k = true →
      (isFollowed t key t.loops.size k = true ↔ ∃ hops, upstream t.source hops k = some key)) ∧
    ∀ key source,
      ((s.call (setSyncSource key source)).1.isOk = false ↔ Dead t key source ∨ Closes t key source) ∧
      (Dead t key source → s.call (setSyncSource key source) = (.error (.expired "loop"), s)) ∧
      (¬Dead t key source → Closes t key source → s.call (setSyncSource key source) =
        (.error (.invalidArgument "sync sources would form a cycle"), s)) ∧
      (¬Dead t key source → ¬Closes t key source → (s.call (setSyncSource key source)).2.topology =
        { t with loops := t.loops.modify key ({ · with syncSource := source }) }) := by
  intro s t
  have hcharted : s.Charted := charted_after config actions
  refine ⟨fun key hkey => ?_, fun key k hk => hcharted.ancestral.isFollowed_iff hcharted.rooted hk, fun key source => ?_⟩
  · rw [hcharted.ancestral.whole.length_keys]
    exact hcharted.ancestral.ends hcharted.rooted hkey
  · refine ⟨⟨fun hrefused => ?_, fun hrefused => ?_⟩, setSyncSource_dead, hcharted.setSyncSource_closes, fun hlive hfree => ?_⟩
    · by_contra hnone
      obtain ⟨hlive, hfree⟩ := not_or.1 hnone
      obtain ⟨engine, hmade⟩ := hcharted.setSyncSource_ok hlive hfree
      rw [hmade] at hrefused
      cases hrefused
    · by_cases hdead : Dead t key source
      · rw [setSyncSource_dead hdead]
        rfl
      · rw [hcharted.setSyncSource_closes hdead (hrefused.resolve_left hdead)]
        rfl
    · obtain ⟨engine, hmade⟩ := hcharted.setSyncSource_ok hlive hfree
      rw [hmade]

/-- The first loop is gone, and with it what kept the loop in its place from following the second one. -/
example :
    let s := (new { bufferSize := 1, poolBuffers := 0, reservedSamples := 1 }).after
      [.addLoop, .addLoop, .setSyncSource ⟨1, 0⟩ (some ⟨0, 0⟩)]
    (s.call (setSyncSource ⟨0, 0⟩ (some ⟨1, 0⟩))).1.isOk = false ∧
      ((s.after [.deleteLoop ⟨0, 0⟩, .addLoop]).call (setSyncSource ⟨0, 1⟩ (some ⟨1, 0⟩))).1.isOk = true := by
  decide +kernel

end Session

end Overdub
