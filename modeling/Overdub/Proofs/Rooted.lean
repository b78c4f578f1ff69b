import Mathlib
import Overdub.Proofs.Schedulable
import Overdub.Proofs.Wiring
/-!
# Loops and their channels

A loop lists its channels and a channel names its loop. `Wiring.Rooted` says that
the two agree, that no channel is listed twice, and that a loop follows only loops
that exist. No call breaks it: each change of a topology is one of the changes of
its wiring (`Topology.wiring_removeLoop` and so on), and those keep it.
-/

namespace Overdub

namespace Wiring

/-- The lists of loops and the loops of channels tell the same. -/
structure Rooted (w : Wiring) : Prop where
  follows : ∀ key l source, w.loops key = some l → l.syncSource = some source → (w.loops source).isSome
  listed : ∀ key l c, w.loops key = some l → c ∈ l.channels → w.owner c = some key
  nodup : ∀ key l, w.loops key = some l → l.channels.Nodup
  owned : ∀ c key, w.owner c = some key → ∃ l, w.loops key = some l ∧ c ∈ l.channels

variable {w : Wiring}

theorem Rooted.congr {w' : Wiring} (h : w.Rooted) (hloops : w'.loops = w.loops) (howner : w'.owner = w.owner) :
    w'.Rooted := by
  refine ⟨?_, ?_, ?_, ?_⟩ <;> rw [hloops] <;> try rw [howner]
  · exact h.follows
  · exact h.listed
  · exact h.nodup
  · exact h.owned

theorem Rooted.addLoop (h : w.Rooted) {key : LoopKey} (hfresh : w.loops key = none) : (w.addLoop key).Rooted := by
  have hget : ∀ k l, (w.addLoop key).loops k = some l → l = {} ∨ w.loops k = some l := by
    intro k l hl
    simp only [Wiring.addLoop, Function.update_apply] at hl
    split_ifs at hl
    · exact .inl (Option.some.inj hl).symm
    · exact .inr hl
  have hkept : ∀ k l, w.loops k = some l → (w.addLoop key).loops k = some l := by
    intro k l hl
    have hne : k ≠ key := by
      rintro rfl
      rw [hfresh] at hl
      cases hl
    simpa [Wiring.addLoop, hne] using hl
  refine ⟨fun k l source hl hsource => ?_, fun k l c hl hc => ?_, fun k l hl => ?_, fun c k hc => ?_⟩
  · rcases hget k l hl with rfl | hl
    · cases hsource
    · obtain ⟨l', hl'⟩ := Option.isSome_iff_exists.1 (h.follows k l source hl hsource)
      exact Option.isSome_iff_exists.2 ⟨l', hkept source l' hl'⟩
  · rcases hget k l hl with rfl | hl
    · cases hc
    · exact h.listed k l c hl hc
  · rcases hget k l hl with rfl | hl
    · exact List.nodup_nil
    · exact h.nodup k l hl
  · obtain ⟨l, hl, hmem⟩ := h.owned c k hc
    exact ⟨l, hkept k l hl, hmem⟩

/-- The same loops with other contents, which are all in order. -/
theorem Rooted.ofLoops {w' : Wiring} {f : LoopKey → LoopInfo → LoopInfo}
    (hloops : ∀ key, w'.loops key = (w.loops key).map (f key))
    (hfollows : ∀ key l source, w.loops key = some l → (f key l).syncSource = some source → (w.loops source).isSome)
    (hlisted : ∀ key l c, w.loops key = some l → c ∈ (f key l).channels → w'.owner c = some key)
    (hnodup : ∀ key l, w.loops key = some l → (f key l).channels.Nodup)
    (howned : ∀ c key, w'.owner c = some key → ∃ l, w.loops key = some l ∧ c ∈ (f key l).channels) : w'.Rooted := by
  refine ⟨fun key l source hl hsource => ?_, fun key l c hl hc => ?_, fun key l hl => ?_, fun c key hc => ?_⟩
  · obtain ⟨old, hold, rfl⟩ := Option.map_eq_some_iff.1 ((hloops key).symm.trans hl)
    rw [hloops, Option.isSome_map]
    exact hfollows key old source hold hsource
  · obtain ⟨old, hold, rfl⟩ := Option.map_eq_some_iff.1 ((hloops key).symm.trans hl)
    exact hlisted key old c hold hc
  · obtain ⟨old, hold, rfl⟩ := Option.map_eq_some_iff.1 ((hloops key).symm.trans hl)
    exact hnodup key old hold
  · obtain ⟨l, hl, hmem⟩ := howned c key hc
    exact ⟨f key l, (hloops key).trans (congrArg (Option.map _) hl), hmem⟩

theorem loops_mapLoop (w : Wiring) (key : LoopKey) (f : LoopInfo → LoopInfo) (k : LoopKey) :
    (w.mapLoop key f).loops k = (w.loops k).map fun l => if k = key then f l else l := by
  simp only [mapLoop, Function.update_apply]
  split_ifs with hk
  · rw [hk]
  · exact Option.map_id'.symm

/-- A loop follows a loop that exists, or none. -/
theorem Rooted.follow (h : w.Rooted) {key : LoopKey} {source : Option LoopKey}
    (hsource : ∀ other ∈ source, (w.loops other).isSome) :
    (w.mapLoop key ({ · with syncSource := source })).Rooted := by
  have hchannels : ∀ (k : LoopKey) (l : LoopInfo),
      (if k = key then { l with syncSource := source } else l).channels = l.channels := by
    intro k l
    split_ifs <;> rfl
  refine .ofLoops (w.loops_mapLoop key _) (fun k l other hl ho => ?_) (fun k l c hl hc => ?_) (fun k l hl => ?_)
    fun c k hc => ?_
  · split_ifs at ho
    · exact hsource other ho
    · exact h.follows k l other hl ho
  · exact h.listed k l c hl (hchannels k l ▸ hc)
  · exact (hchannels k l).symm ▸ h.nodup k l hl
  · obtain ⟨l, hl, hmem⟩ := h.owned c k hc
    exact ⟨l, hl, (hchannels k l).symm ▸ hmem⟩

/-- The channels of a loop go with it, and no others. -/
theorem Rooted.dropLoop (h : w.Rooted) {key : LoopKey} {info : LoopInfo} (hinfo : w.loops key = some info) :
    (w.dropLoop key info.channels).Rooted := by
  have hget : ∀ k l, (w.dropLoop key info.channels).loops k = some l → k ≠ key ∧ ∃ old, w.loops k = some old ∧
      l.channels = old.channels ∧ l.syncSource = old.syncSource.filter (· ≠ key) := by
    intro k l hl
    simp only [Wiring.dropLoop, forgetLoop, forgetChannels] at hl
    split_ifs at hl with hk
    obtain ⟨old, hold, rfl⟩ := Option.map_eq_some_iff.1 hl
    exact ⟨hk, old, hold, rfl, rfl⟩
  have hkept : ∀ k old, k ≠ key → w.loops k = some old →
      ∃ l, (w.dropLoop key info.channels).loops k = some l ∧ l.channels = old.channels := by
    intro k old hk hold
    simp only [Wiring.dropLoop, forgetLoop, forgetChannels, if_neg hk, hold]
    exact ⟨_, rfl, rfl⟩
  refine ⟨fun k l source hl hsource => ?_, fun k l c hl hc => ?_, fun k l hl => ?_, fun c k hc => ?_⟩
  · obtain ⟨-, old, hold, -, hsync⟩ := hget k l hl
    rw [hsync, Option.filter_eq_some_iff] at hsource
    obtain ⟨other, ho⟩ := Option.isSome_iff_exists.1 (h.follows k old source hold hsource.1)
    obtain ⟨l', hl', -⟩ := hkept source other (of_decide_eq_true hsource.2) ho
    exact Option.isSome_iff_exists.2 ⟨l', hl'⟩
  · obtain ⟨hne, old, hold, hchannels, -⟩ := hget k l hl
    have howner := h.listed k old c hold (hchannels ▸ hc)
    have hgone : c ∉ info.channels := fun hmem => by
      rw [h.listed key info c hinfo hmem] at howner
      exact hne (Option.some.inj howner).symm
    simpa only [Wiring.dropLoop, forgetLoop, forgetChannels, if_neg hgone] using howner
  · obtain ⟨-, old, hold, hchannels, -⟩ := hget k l hl
    exact hchannels ▸ h.nodup k old hold
  · simp only [Wiring.dropLoop, forgetLoop, forgetChannels] at hc
    split_ifs at hc with hgone
    obtain ⟨old, hold, hmem⟩ := h.owned c k hc
    have hne : k ≠ key := by
      rintro rfl
      cases hinfo.symm.trans hold
      exact hgone hmem
    obtain ⟨l, hl, hchannels⟩ := hkept k old hne hold
    exact ⟨l, hl, hchannels ▸ hmem⟩

theorem Rooted.dropChain (h : w.Rooted) (key : ChainKey) (ports : List PortKey) : (w.dropChain key ports).Rooted :=
  List.foldlRecOn (motive := Rooted) ports Wiring.dropPort (h.congr rfl rfl) fun _ h _ _ => h.congr rfl rfl

/-- A new channel is listed by its loop, and by no other. -/
theorem Rooted.addChannel (h : w.Rooted) {loop : LoopKey} {key : ChannelKey} (hloop : (w.loops loop).isSome)
    (hfresh : w.owner key = none) : (w.addChannel loop key).Rooted := by
  have hnew : ∀ k l, w.loops k = some l → key ∉ l.channels := by
    intro k l hl hmem
    rw [h.listed k l key hl hmem] at hfresh
    cases hfresh
  have howner : ∀ c, (w.addChannel loop key).owner c = if c = key then some loop else w.owner c :=
    fun c => Function.update_apply ..
  have hold : ∀ k l c, w.loops k = some l → c ∈ l.channels → (w.addChannel loop key).owner c = some k := by
    intro k l c hl hc
    have hne : c ≠ key := fun heq => hnew k l hl (heq ▸ hc)
    rw [howner, if_neg hne, h.listed k l c hl hc]
  refine .ofLoops (w.loops_mapLoop loop _) (fun k l source hl hsource => h.follows k l source hl ?_)
    (fun k l c hl hc => ?_) (fun k l hl => ?_) fun c k hc => ?_
  · split_ifs at hsource <;> exact hsource
  · split_ifs at hc with hk
    · rcases List.mem_append.1 hc with hc | hc
      · exact hold k l c hl hc
      · rw [howner, if_pos (List.mem_singleton.1 hc), hk]
    · exact hold k l c hl hc
  · split_ifs
    · exact (h.nodup k l hl).append (List.nodup_singleton key) (by simpa using hnew k l hl)
    · exact h.nodup k l hl
  · rw [howner] at hc
    split_ifs at hc with hkey
    · cases hc
      obtain ⟨l, hl⟩ := Option.isSome_iff_exists.1 hloop
      exact ⟨l, hl, by simp [hkey]⟩
    · obtain ⟨l, hl, hmem⟩ := h.owned c k hc
      refine ⟨l, hl, ?_⟩
      split_ifs
      · exact List.mem_append_left _ hmem
      · exact hmem

/-- A channel that goes is taken out of the list of its loop, the only one it is in. -/
theorem Rooted.dropChannel (h : w.Rooted) {loop : LoopKey} {key : ChannelKey} (howner : w.owner key = some loop) :
    (w.dropChannel loop key).Rooted := by
  have howner' : ∀ c, (w.dropChannel loop key).owner c = if c = key then none else w.owner c := by
    intro c
    simp only [Wiring.dropChannel, mapLoop, forgetChannels, List.mem_singleton]
  have hmem : ∀ k l c, w.loops k = some l →
      (c ∈ (if k = loop then { l with channels := l.channels.filter (· ≠ key) } else l).channels ↔
        c ∈ l.channels ∧ c ≠ key) := by
    intro k l c hl
    split_ifs with hk
    · simp
    · refine ⟨fun hc => ⟨hc, ?_⟩, And.left⟩
      rintro rfl
      exact hk (Option.some.inj ((h.listed k l c hl hc).symm.trans howner))
  refine .ofLoops ((w.forgetChannels [key]).loops_mapLoop loop _)
    (fun k l source hl hsource => h.follows k l source hl ?_) (fun k l c hl hc => ?_) (fun k l hl => ?_)
    fun c k hc => ?_
  · split_ifs at hsource <;> exact hsource
  · obtain ⟨hc, hne⟩ := (hmem k l c hl).1 hc
    rw [howner', if_neg hne, h.listed k l c hl hc]
  · split_ifs
    · exact (h.nodup k l hl).filter _
    · exact h.nodup k l hl
  · rw [howner'] at hc
    split_ifs at hc with hkey
    obtain ⟨l, hl, hc⟩ := h.owned c k hc
    exact ⟨l, hl, (hmem k l c hl).2 ⟨hc, hkey⟩⟩

end Wiring

/-! ## Every change keeps it -/

open Session (Change withChainPorts withChain)

namespace Topology

theorem loops_withChainPorts (chain : ChainKey) (label : String) (dataType : DataType) (direction : Direction)
    (count : Nat) (t : Topology) :
    (withChainPorts chain label dataType direction count t).2.loops = t.loops ∧
      (withChainPorts chain label dataType direction count t).2.channels = t.channels := by
  unfold withChainPorts
  exact List.foldlRecOn (motive := fun added : List PortKey × Topology =>
    added.2.loops = t.loops ∧ added.2.channels = t.channels) _ _ ⟨rfl, rfl⟩ fun _ h _ _ => h

theorem loops_withChain (name : String) (layout : Effect.Layout) (t : Topology) :
    (withChain name layout t).loops = t.loops ∧ (withChain name layout t).channels = t.channels := by
  unfold withChain
  simp only [loops_withChainPorts, and_self]

theorem loops_removePorts (t : Topology) (keys : List PortKey) : (keys.foldl removePort t).loops = t.loops :=
  List.foldlRecOn (motive := fun u : Topology => u.loops = t.loops) keys removePort rfl fun _ h _ _ => h

end Topology

/-- Loops are stored as they should be, and they and their channels tell the same. -/
structure Topology.Rooted (t : Topology) : Prop where
  loops : t.loops.Sound
  wiring : t.wiring.Rooted

theorem Topology.empty_rooted : Topology.empty.Rooted :=
  ⟨Arena.empty_sound, ⟨nofun, nofun, nofun, nofun⟩⟩

/-- No change of a topology breaks what its loops and channels tell of each other. -/
theorem Session.Change.rooted {a : Session.Action} {t u : Topology} (h : Change a t u) (hlinked : t.Linked)
    (ht : t.Rooted) : u.Rooted := by
  cases h with
  | openPort => exact ⟨ht.loops, ht.wiring.congr rfl rfl⟩
  | @closePort _ key =>
    refine ⟨ht.loops, ?_⟩
    rw [Topology.wiring_removePort]
    exact ht.wiring.congr rfl rfl
  | connectPorts => exact ⟨ht.loops, ht.wiring.congr rfl rfl⟩
  | disconnectPorts => exact ⟨ht.loops, ht.wiring.congr rfl rfl⟩
  | addLoop =>
    refine ⟨ht.loops.insert {}, ?_⟩
    rw [Topology.wiring_insertLoop ht.loops]
    exact ht.wiring.addLoop (ht.loops.get?_issued {})
  | deleteLoop hinfo =>
    refine ⟨(ht.loops.erase _).map _, ?_⟩
    rw [Topology.wiring_removeLoop]
    exact ht.wiring.dropLoop hinfo
  | setSyncSource _ hsource =>
    refine ⟨ht.loops.modify _ _, ?_⟩
    rw [Topology.wiring_modifyLoop]
    exact ht.wiring.follow hsource
  | addChannel hloop =>
    refine ⟨ht.loops.modify _ _, ?_⟩
    rw [Topology.wiring_insertChannel hlinked.channels]
    refine ht.wiring.addChannel hloop ?_
    exact congrArg (Option.map _) (hlinked.channels.get?_issued _)
  | deleteChannel hinfo =>
    refine ⟨ht.loops.modify _ _, ?_⟩
    rw [Topology.wiring_removeChannel]
    exact ht.wiring.dropChannel (congrArg (Option.map ChannelInfo.loop) hinfo)
  | connectChannel =>
    refine ⟨ht.loops, ?_⟩
    rw [Topology.wiring_joinChannel]
    exact ht.wiring.congr rfl rfl
  | disconnectChannel =>
    refine ⟨ht.loops, ?_⟩
    rw [Topology.wiring_leaveChannel]
    exact ht.wiring.congr rfl rfl
  | @addChain _ name effect =>
    obtain ⟨hloops, hchannels⟩ := t.loops_withChain name effect.layout
    refine ⟨hloops ▸ ht.loops, ht.wiring.congr ?_ ?_⟩
    · simp only [Topology.wiring, hloops]
    · simp only [Topology.wiring, hchannels]
  | @deleteChain _ key info =>
    have hloops : (t.removeChain key info).loops = t.loops := Topology.loops_removePorts _ _
    refine ⟨hloops ▸ ht.loops, ?_⟩
    rw [Topology.wiring_removeChain]
    exact ht.wiring.dropChain key _

end Overdub
