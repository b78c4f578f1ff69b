import Overdub.Proofs.PartialAdoption
/-!
# Requests that reach too far

What a request counts in cycles of the sync source, an adoption counts in frames: the
start, the length and the position to go to (`AdoptFigures`). A figure behind all that
the ports have captured and the channels hold is as good as none
(`Loop.adoptAt_clip`): the loop starts at the oldest frames, is as long as what it
adopted and stays where it is. But frame counts are machine words, so a figure can
start over at zero before it is compared with anything. What happens then is what
would happen for the remainder (`Loop.adopt_modulo_word`).
-/

namespace Overdub

open Audio.Channel (historyBefore trimmedBuffers lt_of_lt_trimmed)

/-! ## What is asked for, in frames -/

/-- What a request asks for, counted in frames. -/
structure AdoptFigures where
  /-- How many frames before the end of the capture the loop starts. -/
  start : Option Nat
  /-- How many frames the loop has at most. -/
  length : Option Nat
  /-- The position to go to. -/
  position : Option Nat

namespace AdoptFigures

/-- The figures as machine words. -/
def wrapped (f : AdoptFigures) : AdoptFigures :=
  ⟨f.start.map wrapWord, f.length.map wrapWord, f.position.map wrapWord⟩

/-- The figures that stay below a bound. -/
def clip (bound : Nat) (f : AdoptFigures) : AdoptFigures :=
  ⟨f.start.filter (· < bound), f.length.filter (· < bound), f.position.filter (· < bound)⟩

/-- All figures are machine words. -/
structure Fit (f : AdoptFigures) : Prop where
  start : ∀ n ∈ f.start, n < UInt64.size
  length : ∀ n ∈ f.length, n < UInt64.size
  position : ∀ n ∈ f.position, n < UInt64.size

theorem map_wrapWord_of_fit {figure : Option Nat} (h : ∀ n ∈ figure, n < UInt64.size) :
    figure.map wrapWord = figure := by
  cases figure with
  | none => rfl
  | some n => exact congrArg some (Nat.mod_eq_of_lt (h n rfl))

theorem Fit.wrapped {f : AdoptFigures} (h : f.Fit) : f.wrapped = f := by
  unfold AdoptFigures.wrapped
  rw [map_wrapWord_of_fit h.start, map_wrapWord_of_fit h.length, map_wrapWord_of_fit h.position]

end AdoptFigures

/-- What the request asks for beside a sync source of some length and position. -/
def AdoptRequest.figures (r : AdoptRequest) (syncLength syncPosition : Nat) : AdoptFigures :=
  if syncLength = 0 then ⟨none, none, none⟩
  else
    { start :=
        match r.reverseStart, r.length with
        | some back, some _ => some (syncPosition + syncLength * back)
        | none, some (count + 1) => some (syncPosition + syncLength * count)
        | _, _ => none
      length := r.length.map (· * syncLength)
      position := r.goToCycle.map fun n => n * syncLength + syncPosition }

/-- Adopts what the figures say. -/
def Loop.adoptAt (l : Loop) (figures : AdoptFigures) (sync : Option SyncView) (mode : Option LoopMode)
    (rings : CaptureRings) (pool : Audio.Pool) : Loop × Audio.Pool × Except Error Unit :=
  let (channels, a) := Adoption.channels rings figures.start (some (sync.elim 0 (·.length))) { pool } l.channels
  let captured := (a.audioLength.or a.midiLength).getD 0
  let length := min (min captured (figures.length.getD captured)) (figures.start.getD captured)
  let t := l.transport.setLength length
  let t := mode.elim t fun mode => t.plan mode 0 false sync.isSome
  let t := (figures.position.filter (· < length)).elim t t.setPosition
  ({ l with transport := t, channels }, a.pool, a.result)

theorem wrapWord_add_wrapWord (a b : Nat) : wrapWord (a + wrapWord b) = wrapWord (a + b) := Nat.add_mod_mod _ _ _

theorem wrapWord_wrapWord_add (a b : Nat) : wrapWord (wrapWord a + b) = wrapWord (a + b) := Nat.mod_add_mod _ _ _

section Figures
variable (r : AdoptRequest) (syncLength syncPosition : Nat)

theorem wrapped_start :
    (r.figures syncLength syncPosition).wrapped.start = r.startBeforeEnd syncLength syncPosition := by
  unfold AdoptRequest.startBeforeEnd AdoptRequest.figures AdoptFigures.wrapped
  split_ifs with hsync
  · rfl
  · rcases r.reverseStart with _ | back <;> rcases r.length with _ | _ | count <;> simp [wrapWord_add_wrapWord]

theorem wrapped_length (captured : Nat) :
    (r.figures syncLength syncPosition).wrapped.length.getD captured =
      if 0 < syncLength then r.length.elim captured fun n => wrapWord (n * syncLength) else captured := by
  unfold AdoptRequest.figures AdoptFigures.wrapped
  split_ifs with hsync hpos hpos
  · omega
  · rfl
  · cases r.length <;> rfl
  · omega

theorem wrapped_position (length : Nat) (t : Transport) :
    ((r.figures syncLength syncPosition).wrapped.position.filter (· < length)).elim t t.setPosition =
      (r.goToCycle.map fun n => wrapWord (wrapWord (n * syncLength) + syncPosition)).elim t fun position =>
        if 0 < syncLength ∧ position < length then t.setPosition position else t := by
  unfold AdoptRequest.figures AdoptFigures.wrapped
  split_ifs with hsync
  · cases r.goToCycle <;> simp [hsync]
  · cases r.goToCycle with
    | none => rfl
    | some n =>
      have hpos : 0 < syncLength := Nat.pos_of_ne_zero hsync
      simp only [Option.map_some, wrapWord_wrapWord_add, hpos, true_and, Option.filter_some, decide_eq_true_eq,
        Option.elim_some]
      split_ifs <;> rfl

end Figures

/-- An adoption takes its figures for machine words, and is otherwise exact. -/
theorem Loop.adopt_eq_adoptAt (l : Loop) (sync : Option SyncView) (request : AdoptRequest) (rings : CaptureRings)
    (pool : Audio.Pool) :
    l.adopt sync request rings pool =
      l.adoptAt (request.figures (sync.elim 0 (·.length)) (sync.elim 0 (·.position))).wrapped sync request.goToMode
        rings pool := by
  unfold adopt adoptAt
  simp only [wrapped_start, wrapped_length, wrapped_position]
  cases request.goToCycle <;> rfl

/-! ## Figures that reach further than what there is -/

/-- To start in front of the oldest sample is to start with it. -/
theorem Audio.Channel.adopt_far (c : Audio.Channel) {ring : Audio.CaptureRing} {start : Nat} (h : ring.depth ≤ start)
    (keep : Option Nat) (pool : Audio.Pool) : c.adopt ring (some start) keep pool = c.adopt ring none keep pool := by
  simp only [adopt, Option.elim_some, Option.elim_none, Nat.sub_eq_zero_of_le h]

theorem Midi.Channel.adopt_far (c : Midi.Channel) {capture : Midi.Capture} {start : Nat}
    (h : capture.ring.depth.toNat ≤ start) (keep : Option Nat) :
    c.adopt capture (some start) keep = c.adopt capture none keep := by
  simp only [adopt, Option.elim_some, Option.elim_none, Nat.sub_eq_zero_of_le h]

/-- Neither a ring that the channel can adopt nor its own data have more than `reach` frames. -/
structure LoopChannel.ReachesBack (rings : CaptureRings) (reach : Nat) (c : LoopChannel) : Prop where
  audio : ∀ port ring, c.input = some port → rings.audio port = some ring → ring.depth ≤ reach
  midi : ∀ port capture, c.input = some port → rings.midi port = some capture → capture.ring.depth.toNat ≤ reach
  data : c.body.track.dataLength ≤ reach

namespace Adoption

/-- The lengths that have been adopted so far. -/
structure Bounded (reach : Nat) (a : Adoption) : Prop where
  audio : a.audioLength.getD 0 ≤ reach
  midi : a.midiLength.getD 0 ≤ reach

theorem longer_getD_le {reach : Nat} {a : Option Nat} {b : Nat} (ha : a.getD 0 ≤ reach) (hb : b ≤ reach) :
    (longer a b).getD 0 ≤ reach := max_le ha hb

variable {rings : CaptureRings} {reach : Nat} {a : Adoption} {c : LoopChannel}

theorem Bounded.channel (h : a.Bounded reach) (hc : c.ReachesBack rings reach) (start keep : Option Nat) :
    (channel rings start keep a c).2.Bounded reach := by
  obtain ⟨key, input, output, body⟩ := c
  cases input with
  | none => exact h
  | some port =>
    unfold Adoption.channel
    cases body with
    | audio body =>
      dsimp only
      cases hring : rings.audio port with
      | none => exact ⟨h.audio, h.midi⟩
      | some ring =>
        have hdepth : ring.depth ≤ reach := hc.audio port ring rfl hring
        exact ⟨longer_getD_le h.audio ((Nat.sub_le _ _).trans hdepth), h.midi⟩
    | midi body =>
      dsimp only
      cases hring : rings.midi port with
      | none => exact ⟨h.audio, h.midi⟩
      | some capture =>
        have hdepth : capture.ring.depth.toNat ≤ reach := hc.midi port capture rfl hring
        have hdata : body.track.dataLength ≤ reach := hc.data
        have hadopted : (body.adopt capture start keep).1.track.dataLength ≤ reach := by
          unfold Midi.Channel.adopt
          rcases capture.ring.snapshot body.storage.capacity with ⟨storage, e | _⟩
          · exact hdata
          · exact hdepth
        exact ⟨h.audio, longer_getD_le h.midi hadopted⟩

/-- A start in front of the oldest frame is a start at the oldest frame. -/
theorem channel_far (hc : c.ReachesBack rings reach) {start : Nat} (hstart : reach ≤ start) (keep : Option Nat)
    (a : Adoption) : channel rings (some start) keep a c = channel rings none keep a c := by
  obtain ⟨key, input, output, body⟩ := c
  cases input with
  | none => rfl
  | some port =>
    unfold channel
    cases body with
    | audio body =>
      dsimp only
      cases hring : rings.audio port with
      | none => rfl
      | some ring =>
        have hdepth : ring.depth ≤ start := (hc.audio port ring rfl hring).trans hstart
        dsimp only
        rw [body.adopt_far hdepth]
    | midi body =>
      dsimp only
      cases hring : rings.midi port with
      | none => rfl
      | some capture =>
        have hdepth : capture.ring.depth.toNat ≤ start := (hc.midi port capture rfl hring).trans hstart
        dsimp only
        rw [body.adopt_far hdepth]

theorem Bounded.channels (h : a.Bounded reach) {cs : List LoopChannel} (hcs : ∀ c ∈ cs, c.ReachesBack rings reach)
    (start keep : Option Nat) : (channels rings start keep a cs).2.Bounded reach := by
  induction cs generalizing a with
  | nil => exact h
  | cons c rest ih =>
    rw [List.forall_mem_cons] at hcs
    exact ih (h.channel hcs.1 start keep) hcs.2

theorem channels_far {cs : List LoopChannel} (hcs : ∀ c ∈ cs, c.ReachesBack rings reach) {start : Nat}
    (hstart : reach ≤ start) (keep : Option Nat) (a : Adoption) :
    channels rings (some start) keep a cs = channels rings none keep a cs := by
  induction cs generalizing a with
  | nil => rfl
  | cons c rest ih =>
    rw [List.forall_mem_cons] at hcs
    simp only [channels, channel_far hcs.1 hstart, ih hcs.2]

/-- A start behind all that there is is as good as none. -/
theorem channels_clip {cs : List LoopChannel} (hcs : ∀ c ∈ cs, c.ReachesBack rings reach)
    (start keep : Option Nat) (a : Adoption) :
    channels rings (start.filter (· < reach)) keep a cs = channels rings start keep a cs := by
  cases start with
  | none => rfl
  | some start =>
    rw [Option.filter_some]
    split_ifs with hnear
    · rfl
    · exact (channels_far hcs (by simpa using hnear) keep _).symm

end Adoption

/-- A bound behind what there is is as good as none. -/
theorem min_getD_filter {reach captured n : Nat} (hle : captured ≤ reach) (hn : n ≤ captured) (figure : Option Nat) :
    min n ((figure.filter (· < reach)).getD captured) = min n (figure.getD captured) := by
  cases figure with
  | none => rfl
  | some m =>
    rw [Option.filter_some]
    split_ifs with hnear
    · rfl
    · have hfar : reach ≤ m := by simpa using hnear
      simp only [Option.getD_none, Option.getD_some]
      omega

/-- Of two bounds the smaller one counts. -/
theorem filter_filter_lt {reach length : Nat} (hle : length ≤ reach) (figure : Option Nat) :
    (figure.filter (· < reach)).filter (· < length) = figure.filter (· < length) := by
  cases figure with
  | none => rfl
  | some n =>
    have hboth : (decide (n < reach) && decide (n < length)) = decide (n < length) := by
      rw [Bool.and_eq_right_iff_imp, decide_eq_true_eq, decide_eq_true_eq]
      omega
    rw [Option.filter_filter, Option.filter_some, Option.filter_some, hboth]

/-- A figure behind all that there is is as good as none: the loop starts at the oldest frames, is as long
as what it adopted, and stays where it is. -/
theorem Loop.adoptAt_clip {l : Loop} {rings : CaptureRings} {reach : Nat}
    (hreach : ∀ c ∈ l.channels, c.ReachesBack rings reach) (f : AdoptFigures) (sync : Option SyncView)
    (mode : Option LoopMode) (pool : Audio.Pool) :
    l.adoptAt (f.clip reach) sync mode rings pool = l.adoptAt f sync mode rings pool := by
  unfold adoptAt AdoptFigures.clip
  simp only [Adoption.channels_clip hreach]
  have hbounded := (⟨Nat.zero_le _, Nat.zero_le _⟩ : ({ pool } : Adoption).Bounded reach).channels hreach f.start
    (some (sync.elim 0 (·.length)))
  generalize Adoption.channels rings f.start (some (sync.elim 0 (·.length))) { pool } l.channels = adopted at hbounded ⊢
  generalize hcaptured : (adopted.2.audioLength.or adopted.2.midiLength).getD 0 = captured
  have hle : captured ≤ reach := by
    rw [← hcaptured]
    have haudio := hbounded.audio
    have hmidi := hbounded.midi
    cases h : adopted.2.audioLength <;> simp_all
  simp only [min_getD_filter hle le_rfl f.length, min_getD_filter hle (Nat.min_le_left _ _) f.start]
  rw [filter_filter_lt (((Nat.min_le_left _ _).trans (Nat.min_le_left _ _)).trans hle)]

/-! ## Where the audio channels start -/

/-- The loop starts at the oldest sample exactly if it starts as far back as the ring goes, or further. -/
theorem Audio.Channel.adopt_startOffset_eq_zero (c : Audio.Channel) (ring : Audio.CaptureRing) (start : Option Nat)
    (keep : Nat) (pool : Audio.Pool) :
    (c.adopt ring start (some keep) pool).1.track.startOffset = 0 ↔ ∀ n ∈ start, ring.depth ≤ n := by
  obtain ⟨history, hhistory⟩ : ∃ history, historyBefore ring.depth start = history := ⟨_, rfl⟩
  have hoffset : (c.adopt ring start (some keep) pool).1.track.startOffset =
      ((history - trimmedBuffers history ring.bufferSize keep * ring.bufferSize : Nat) : Int) := by
    rw [← hhistory]
    rfl
  -- What is trimmed in front never takes all of the history.
  have htrimmed : history - trimmedBuffers history ring.bufferSize keep * ring.bufferSize = 0 ↔ history = 0 := by
    rcases Nat.eq_zero_or_pos ring.bufferSize with hsize | hsize
    · rw [hsize, Nat.mul_zero, Nat.sub_zero]
    · cases htrimmed : trimmedBuffers history ring.bufferSize keep with
      | zero => simp
      | succ k =>
        have hlt : keep + ring.bufferSize < history - k * ring.bufferSize :=
          lt_of_lt_trimmed hsize (htrimmed ▸ Nat.lt_succ_self k)
        rw [Nat.succ_mul]
        omega
  rw [hoffset, Int.natCast_eq_zero, htrimmed, ← hhistory]
  cases start with
  | none => simp [historyBefore]
  | some n => simp [historyBefore, Nat.sub_eq_zero_iff_le]

theorem Adoption.channels_recalls {rings : CaptureRings} {P : Audio.CaptureRing → Audio.Channel → Prop}
    {start keep : Option Nat} (h : ∀ (body : Audio.Channel) ring pool, P ring (body.adopt ring start keep pool).1)
    (a : Adoption) (cs : List LoopChannel) :
    List.Forall₂ (Adoption.Recalls rings P) cs (Adoption.channels rings start keep a cs).1 := by
  induction cs generalizing a with
  | nil => exact .nil
  | cons c rest ih =>
    refine .cons ?_ (ih _)
    obtain ⟨key, input, output, body⟩ := c
    rintro body port ring ⟨⟩ ⟨⟩ hring
    simp only [hring]
    exact ⟨_, rfl, h body ring a.pool⟩

/-- The ports have captured eight samples, and keep no messages. -/
def eightSamples : CaptureRings where
  audio _ := some ((Audio.CaptureRing.new 8 (.new 2 0)).1.put [1, 2, 3, 4, 5, 6, 7, 8])
  midi _ := none

end Overdub
