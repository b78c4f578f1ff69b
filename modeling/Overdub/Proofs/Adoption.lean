import Overdub.Loop.Adoption
import Overdub.Proofs.AudioWindow
import Overdub.Proofs.Clock
import Overdub.Proofs.Deferral
/-!
# Adopting what was captured

An audio channel that adopts a ring holds the end of the ring's window: all of
it, except for whole buffers in front that it has no need to keep
(`Channel.adopt_data`). How many are left out depends on the ring and on the
request only, so the channels of a loop that record from rings of one depth stay
of one length, and that becomes the length of the loop. With a sync source the
loop is aligned to the cycles of that source (`Loop.adopt_cycle_aligned`).
-/

namespace Overdub

namespace Audio

theorem Buffer.take_fit {b : Buffer} {m n : Nat} (h : m ≤ n) : (fit n b).take m = fit m b := by
  rw [fit, fit, List.take_append, List.take_take, Nat.min_eq_left h, silence, List.take_replicate, List.length_take,
    silence]
  congr 2
  omega

/-- What was just written in front is read back. -/
theorem Buffer.fit_overwrite {b source : Buffer} (h : source.length ≤ b.length) :
    fit source.length (overwrite b 0 source) = source := by
  simp [fit, overwrite, silence, List.take_of_length_le h]

namespace Channel

/-- The samples of a window that come before the start of the loop. -/
def historyBefore (depth : Nat) (reverseStart : Option Nat) : Nat := reverseStart.elim 0 (depth - ·)

/-- How many whole buffers are left out of a history of which `keep` samples are
to be kept. -/
def trimmedBuffers (history size keep : Nat) : Nat := blocksFor (history - (keep + size)) size

/-- Buffers are left out only while more than `keep` samples and a buffer come
before the start, -/
theorem lt_of_lt_trimmed {history size keep k : Nat} (hsize : 0 < size) (h : k < trimmedBuffers history size keep) :
    keep + size < history - k * size := by
  have hlt := lt_of_lt_blocksFor hsize h
  omega

/-- and then no more than that do. -/
theorem history_trimmed_le (history keep : Nat) {size : Nat} (hsize : 0 < size) :
    history - trimmedBuffers history size keep * size ≤ keep + size := by
  have hle := Tape.le_blocksFor_mul (history - (keep + size)) hsize
  unfold trimmedBuffers
  omega

theorem trimmed_mul_le (history keep : Nat) {size : Nat} (hsize : 0 < size) :
    trimmedBuffers history size keep * size ≤ history := by
  cases hk : trimmedBuffers history size keep with
  | zero => simp
  | succ k =>
    have hlt : keep + size < history - k * size := lt_of_lt_trimmed hsize (by omega)
    rw [Nat.succ_mul]
    omega

/-- How many samples are left out in front. -/
def trimmedFront (history size : Nat) (keepBefore : Option Nat) : Nat :=
  keepBefore.elim 0 fun keep => trimmedBuffers history size keep * size

/-- As far as its store goes, a channel holds the window of the ring, trimmed in
front, and it goes that far if there is room. -/
theorem adopt_fitting {c : Channel} {pool : Pool} (hc : c.Backed pool) {ring : CaptureRing} (hring : ring.Sound)
    (reverseStart keepBefore : Option Nat) :
    let history := historyBefore ring.depth reverseStart
    let trimmed := trimmedFront history ring.bufferSize keepBefore
    let adopted := (c.adopt ring reverseStart keepBefore pool).1
    let fitting := min (ring.depth - trimmed) adopted.store.capacity
    adopted.data.take fitting = (ring.window.drop trimmed).take fitting ∧
      adopted.track.dataLength = ring.depth - trimmed ∧
      adopted.track.startOffset = ((history - trimmed : Nat) : Int) ∧
      (ring.depth ≤ c.store.reserved → ring.depth - trimmed ≤ adopted.store.capacity) := by
  intro history trimmed adopted fitting
  have hreleased := hc.store.release
  obtain ⟨grown, hstore⟩ : ∃ grown, grown =
    ((c.store.release pool).1.growWithinReserve (ring.depth - trimmed) (c.store.release pool).2).1 := ⟨_, rfl⟩
  have hgrown := Store.growWithinReserve_tape hreleased (ring.depth - trimmed)
  have hsound : grown.Sound := hstore ▸ (hreleased.push _).toSound
  have hadopted : adopted.store = grown.putAt 0 (ring.read trimmed (min (ring.depth - trimmed) grown.capacity)) := by
    rw [hstore]
    rfl
  rw [← hstore] at hgrown
  have hcapacity : adopted.store.capacity = grown.capacity := by
    rw [hadopted, ← (hsound.putAt _ _).length_tape, ← hsound.length_tape, Store.putAt_tape, Buffer.length_overwrite]
  have hlength : (ring.window.drop trimmed).length = ring.depth - trimmed := by
    rw [List.length_drop, hring.length_window]
  have hread : ring.read trimmed (min (ring.depth - trimmed) grown.capacity) =
      (ring.window.drop trimmed).take fitting := by
    rw [CaptureRing.read, Buffer.fit, hlength, Nat.sub_eq_zero_of_le (Nat.min_le_left _ _), silence,
      List.replicate_zero, List.append_nil, ← hcapacity]
  have hsource : ((ring.window.drop trimmed).take fitting).length = fitting := by
    rw [List.length_take, hlength]
    exact Nat.min_eq_left (Nat.min_le_left _ _)
  refine ⟨?_, rfl, rfl, fun hroom => ?_⟩
  · have hdata : adopted.data = Buffer.fit (ring.depth - trimmed)
        (Buffer.overwrite grown.tape.samples 0 ((ring.window.drop trimmed).take fitting)) := by
      show Store.toBuffer adopted.store (ring.depth - trimmed) = _
      rw [hadopted, hread, Store.toBuffer, Store.read, Store.gather_eq, List.drop_zero, Store.putAt,
        Store.spread_flatten]
      rfl
    have hroom : ((ring.window.drop trimmed).take fitting).length ≤ grown.tape.samples.length := by
      rw [hsource, hsound.length_tape, ← hcapacity]
      exact Nat.min_le_right _ _
    have hwritten := Buffer.fit_overwrite hroom
    rw [hsource] at hwritten
    rw [hdata, Buffer.take_fit (Nat.min_le_left _ _), hwritten]
  · have hblocks := Tape.le_blocksFor_mul (ring.depth - trimmed) hc.store.size_pos
    rw [hcapacity, ← hsound.length_tape, hgrown, Tape.length_grow]
    refine Nat.le_trans ?_ (Nat.le_max_right _ _)
    show ring.depth - trimmed ≤ min (blocksFor _ c.store.bufferSize * c.store.bufferSize) c.store.reserved
    omega

/-- A channel that has room for it holds the window of the ring, trimmed in front. -/
theorem adopt_data {c : Channel} {pool : Pool} (hc : c.Backed pool) {ring : CaptureRing} (hring : ring.Sound)
    (hroom : ring.depth ≤ c.store.reserved) (reverseStart : Option Nat) (keep : Nat) :
    let history := historyBefore ring.depth reverseStart
    let trimmed := trimmedBuffers history ring.bufferSize keep * ring.bufferSize
    let adopted := (c.adopt ring reverseStart (some keep) pool).1
    adopted.data = ring.window.drop trimmed ∧ adopted.track.dataLength = ring.depth - trimmed ∧
      adopted.track.startOffset = ((history - trimmed : Nat) : Int) := by
  intro history trimmed adopted
  obtain ⟨hdata, hlength, hstart, hfits⟩ := adopt_fitting hc hring reverseStart (some keep)
  have hwindow : (ring.window.drop trimmed).length = ring.depth - trimmed := by
    rw [List.length_drop, hring.length_window]
  have hall : adopted.data.length = ring.depth - trimmed := by
    show (Store.toBuffer _ _).length = _
    rw [Store.toBuffer, Store.read, Store.gather_eq, Buffer.length_fit]
    rfl
  have hdata : adopted.data.take (ring.depth - trimmed) = (ring.window.drop trimmed).take (ring.depth - trimmed) := by
    rwa [Nat.min_eq_left (hfits hroom)] at hdata
  refine ⟨?_, hlength, hstart⟩
  rwa [List.take_of_length_le hall.le, List.take_of_length_le hwindow.le] at hdata

end Channel

end Audio

/-! ## All channels of a loop -/

open Audio.Channel (historyBefore trimmedBuffers lt_of_lt_trimmed history_trimmed_le trimmed_mul_le)

/-- Whether this is an audio channel that records from a port. -/
def LoopChannel.recordsAudio (c : LoopChannel) : Bool := c.body.dataType = .audio && c.input.isSome

/-- As an audio channel it records from a ring of this depth and buffer size, if
from any, and has room for the window of it. -/
def LoopChannel.Adopts (rings : CaptureRings) (depth size : Nat) (pool : Audio.Pool) (c : LoopChannel) : Prop :=
  ∀ body port, c.body = .audio body → c.input = some port →
    body.Backed pool ∧ depth ≤ body.store.reserved ∧
      ∃ ring, rings.audio port = some ring ∧ ring.Reachable ∧ ring.depth = depth ∧ ring.bufferSize = size

/-- A new channel with room for the window adopts it. -/
theorem LoopChannel.adopts_new {rings : CaptureRings} {port : PortKey} {ring : Audio.CaptureRing}
    (hring : rings.audio port = some ring) (hreachable : ring.Reachable) {depth size : Nat}
    (hdepth : ring.depth = depth) (hsize : ring.bufferSize = size)
    (key : ChannelKey) (output : Option PortKey) (mode : ChannelMode)
    {samples : Nat} (target : Nat) (hroom : depth ≤ (Audio.Store.withRoom size samples).reserved) :
    LoopChannel.Adopts rings depth size (Audio.Pool.new size target)
      ⟨key, some port, output, .audio (.new size mode (some samples))⟩ := by
  rintro _ _ ⟨⟩ ⟨⟩
  exact ⟨Audio.Channel.new_backed (Audio.Pool.new_sound size target) rfl mode (some samples), hroom, ring, hring,
    hreachable, hdepth, hsize⟩

theorem LoopChannel.Adopts.pool_sound {rings : CaptureRings} {depth size : Nat} {pool : Audio.Pool} {c : LoopChannel}
    (h : c.Adopts rings depth size pool) (haudio : c.recordsAudio) : pool.Sound ∧ 0 < size := by
  obtain ⟨key, input, output, body⟩ := c
  obtain ⟨hbody, hinput⟩ := Bool.and_eq_true_iff.mp haudio
  obtain ⟨port, rfl⟩ := Option.isSome_iff_exists.mp hinput
  cases body with
  | midi body => exact absurd hbody nofun
  | audio body =>
    obtain ⟨hbacked, _, ring, _, hreachable, _, rfl⟩ := h body port rfl rfl
    exact ⟨hbacked.store.silent, hreachable.sound.size_pos⟩

namespace Adoption

/-- `P` relates the ring that a channel records audio from to the channel as it
is afterwards. -/
def Recalls (rings : CaptureRings) (P : Audio.CaptureRing → Audio.Channel → Prop) (c c' : LoopChannel) : Prop :=
  ∀ body port ring, c.body = .audio body → c.input = some port → rings.audio port = some ring →
    ∃ body', c'.body = .audio body' ∧ P ring body'

/-- What adopting a window, trimmed in front, makes of a channel. -/
def HoldsTrimmed (depth history trimmed : Nat) (ring : Audio.CaptureRing) (c : Audio.Channel) : Prop :=
  ring.window.length = depth ∧ c.data = ring.window.drop trimmed ∧ c.track.dataLength = depth - trimmed ∧
    c.track.startOffset = ((history - trimmed : Nat) : Int)

theorem longer_longer (a : Option Nat) (n : Nat) : longer (longer a n) n = longer a n := by simp [longer]

variable {rings : CaptureRings} {depth size : Nat}

/-- A channel that records audio adopts its window and contributes its length;
what it does to the pool does not matter to the others. -/
theorem channel_audio (reverseStart : Option Nat) (keep : Nat) {a : Adoption} {c : LoopChannel}
    (hc : c.Adopts rings depth size a.pool) (haudio : c.recordsAudio) :
    let history := historyBefore depth reverseStart
    let trimmed := trimmedBuffers history size keep * size
    let adopted := channel rings reverseStart (some keep) a c
    Recalls rings (HoldsTrimmed depth history trimmed) c adopted.1 ∧ adopted.2.pool.Sound ∧
      adopted.2.pool.bufferSize = a.pool.bufferSize ∧
      adopted.2.audioLength = longer a.audioLength (depth - trimmed) := by
  obtain ⟨key, input, output, body⟩ := c
  cases body with
  | midi body => exact absurd haudio nofun
  | audio body =>
    obtain ⟨port, rfl⟩ : ∃ port, input = some port :=
      Option.isSome_iff_exists.mp (by simpa [LoopChannel.recordsAudio, ChannelBody.dataType] using haudio)
    obtain ⟨hbacked, hroom, ring, hring, hreachable, rfl, rfl⟩ := hc body port rfl rfl
    have hadopt : channel rings reverseStart (some keep) a ⟨key, some port, output, .audio body⟩ =
        (⟨key, some port, output, .audio (body.adopt ring reverseStart (some keep) a.pool).1⟩,
          { a with
            pool := (body.adopt ring reverseStart (some keep) a.pool).2
            audioLength := longer a.audioLength
              (body.adopt ring reverseStart (some keep) a.pool).1.track.dataLength }) := by
      simp only [channel, hring]
    have hadopted := Audio.Channel.adopt_backed hbacked ring reverseStart (some keep)
    rw [hadopt]
    refine ⟨?_, hadopted.store.silent, hadopted.preRecord.size.symm.trans hbacked.preRecord.size, rfl⟩
    rintro _ _ _ ⟨⟩ ⟨⟩ hring'
    obtain rfl := Option.some_inj.mp (hring.symm.trans hring')
    exact ⟨_, rfl, hreachable.sound.length_window,
      Audio.Channel.adopt_data hbacked hreachable.sound hroom reverseStart keep⟩

/-- Any other channel does not touch what the audio channels adopt. -/
theorem channel_other (rings : CaptureRings) (reverseStart keepBefore : Option Nat) (a : Adoption) {c : LoopChannel}
    (hother : ¬ c.recordsAudio) :
    let adopted := channel rings reverseStart keepBefore a c
    adopted.2.pool = a.pool ∧ adopted.2.audioLength = a.audioLength := by
  obtain ⟨key, input, output, body⟩ := c
  cases input with
  | none => exact ⟨rfl, rfl⟩
  | some port =>
    cases body with
    | audio body => exact absurd rfl hother
    | midi body =>
      unfold channel
      dsimp only
      split <;> exact ⟨rfl, rfl⟩

theorem recalls_of_other {P : Audio.CaptureRing → Audio.Channel → Prop} {c : LoopChannel} (hother : ¬ c.recordsAudio)
    (c' : LoopChannel) : Recalls rings P c c' := by
  intro body port ring hbody hinput _
  exact absurd (by simp [LoopChannel.recordsAudio, hbody, hinput, ChannelBody.dataType]) hother

/-- All channels that record audio adopt their windows, which sets the length. -/
theorem channels_recall (reverseStart : Option Nat) (keep : Nat) {a : Adoption} (hpool : a.pool.Sound)
    {channels : List LoopChannel} (hchannels : ∀ c ∈ channels, c.Adopts rings depth size a.pool) :
    let history := historyBefore depth reverseStart
    let trimmed := trimmedBuffers history size keep * size
    let adopted := Adoption.channels rings reverseStart (some keep) a channels
    List.Forall₂ (Recalls rings (HoldsTrimmed depth history trimmed)) channels adopted.1 ∧
      adopted.2.audioLength =
        if channels.any (·.recordsAudio) then longer a.audioLength (depth - trimmed) else a.audioLength := by
  intro history trimmed adopted
  induction channels generalizing a with
  | nil => exact ⟨.nil, rfl⟩
  | cons c rest ih =>
    rw [List.forall_mem_cons] at hchannels
    obtain ⟨hc, hrest⟩ := hchannels
    by_cases haudio : c.recordsAudio
    -- The others find a pool that is as good as the one before.
    · obtain ⟨hrecalls, hpool', hsize, hlength⟩ := channel_audio reverseStart keep hc haudio
      obtain ⟨hothers, hall⟩ := ih hpool' fun c' hc' body port hbody hinput =>
        have ⟨hbacked, hrecords⟩ := hrest c' hc' body port hbody hinput
        ⟨⟨hbacked.store.of_pool hpool' hsize, hbacked.preRecord.of_pool hpool' hsize⟩, hrecords⟩
      refine ⟨.cons hrecalls hothers, hall.trans ?_⟩
      rw [List.any_cons, haudio, Bool.true_or, if_pos rfl, hlength]
      split_ifs
      · exact longer_longer _ _
      · rfl
    · obtain ⟨hkept, hlength⟩ := channel_other rings reverseStart (some keep) a haudio
      obtain ⟨hothers, hall⟩ := ih (a := (channel rings reverseStart (some keep) a c).2) (hkept ▸ hpool)
        (hkept ▸ hrest)
      refine ⟨.cons (recalls_of_other haudio _) hothers, hall.trans ?_⟩
      rw [List.any_cons, Bool.eq_false_iff.mpr haudio, Bool.false_or, hlength]

/-- The channel holds the end of the window of its ring, all but `trimmed` samples
in front. The loop starts where `back` samples of the window are left and has
`length` of them. -/
def Holds (back length trimmed : Nat) (ring : Audio.CaptureRing) (c : Audio.Channel) : Prop :=
  ∃ start : Nat, c.track.startOffset = start ∧ start + length ≤ c.track.dataLength ∧
    (c.data.drop start).take length = (ring.window.rtake back).take length ∧
    c.data.take start = (ring.window.rdrop back).drop trimmed

theorem holds_of_trimmed {depth r length trimmed : Nat} (hlength : length ≤ min r depth)
    (htrimmed : trimmed ≤ depth - r)
    {ring : Audio.CaptureRing} {c : Audio.Channel} (h : HoldsTrimmed depth (depth - r) trimmed ring c) :
    Holds (min r depth) length trimmed ring c := by
  obtain ⟨hwindow, hdata, hlen, hstart⟩ := h
  have hfront : depth - min r depth = depth - r := by omega
  refine ⟨depth - r - trimmed, hstart, by omega, ?_, ?_⟩
  · rw [hdata, List.drop_drop, List.rtake, hwindow, hfront, Nat.add_sub_cancel' htrimmed]
  · rw [hdata, List.rdrop, hwindow, hfront, List.drop_take]

end Adoption

namespace Transport

/-- A change of mode at once takes the length away only if a recording begins by it. -/
theorem length_plan_at_once (t : Transport) (mode : LoopMode) (hasSyncSource : Bool) :
    (t.plan mode 0 false hasSyncSource).length =
      if mode = .recording ∧ t.mode ≠ .recording then 0 else t.length := by
  have hlength := congrArg Clock.length (t.clock_transition mode)
  refine hlength.trans ?_
  rw [Clock.transition, clock_mode]
  by_cases hmode : t.mode = mode
  · subst hmode
    simp
  · have hother : mode = .recording → t.mode ≠ .recording := fun h => h ▸ hmode
    rw [if_neg hmode]
    by_cases hrecording : mode = .recording <;> simp [hrecording, hother]

@[simp] theorem length_setPosition (t : Transport) (position : Nat) : (t.setPosition position).length = t.length :=
  congrArg Clock.length (t.clock_setPosition position)

theorem setLength_length (t : Transport) (length : Nat) : (t.setLength length).length = length := by
  unfold setLength
  dsimp only
  split_ifs with hsame
  · exact hsame.symm
  · exact length_setPosition _ _
  · rfl

theorem setLength_mode (t : Transport) (length : Nat) : (t.setLength length).mode = t.mode := by
  unfold setLength
  dsimp only
  split_ifs
  · rfl
  · exact congrArg Clock.mode (clock_setPosition { t with length } (length - 1))
  · rfl

end Transport

namespace AdoptRequest

/-- Asks for `count` cycles, the first of which begins `back` cycles before the
running one. -/
def Asks (request : AdoptRequest) (count back : Nat) : Prop :=
  request.length = some count ∧
    (request.reverseStart = some back ∨ request.reverseStart = none ∧ count = back + 1)

theorem Asks.startBeforeEnd {request : AdoptRequest} {count back : Nat} (h : request.Asks count back)
    {syncLength syncPosition : Nat} (hsync : 0 < syncLength) (hword : syncPosition + syncLength * back < UInt64.size) :
    request.startBeforeEnd syncLength syncPosition = some (syncPosition + syncLength * back) := by
  obtain ⟨hlength, hback⟩ := h
  have hword : wrapWord (syncPosition + wrapWord (syncLength * back)) = syncPosition + syncLength * back := by
    rw [wrapWord, wrapWord, Nat.mod_eq_of_lt (by omega : syncLength * back < UInt64.size), Nat.mod_eq_of_lt hword]
  unfold AdoptRequest.startBeforeEnd
  rcases hback with hback | ⟨hback, rfl⟩
  · simp [hlength, hback, hword, hsync.ne']
  · simp [hlength, hback, hword, hsync.ne']

end AdoptRequest

namespace Loop

/-- The length of the loop is what was asked for and captured, until a recording begins. -/
theorem length_adopt {l : Loop} {sync : SyncView} {request : AdoptRequest} {rings : CaptureRings}
    {pool : Audio.Pool} {r count captured : Nat} (hsync : 0 < sync.length) (hask : request.length = some count)
    (hcount : count * sync.length < UInt64.size)
    (hstart : request.startBeforeEnd sync.length sync.position = some r)
    (haudio : (Adoption.channels rings (some r) (some sync.length) { pool } l.channels).2.audioLength = some captured) :
    (l.adopt (some sync) request rings pool).1.transport.length =
      if request.goToMode = some .recording ∧ l.transport.mode ≠ .recording then 0
      else min (min captured (count * sync.length)) r := by
  -- Where the position goes last does not matter.
  have hplaced : (l.adopt (some sync) request rings pool).1.transport.length =
      (request.goToMode.elim (l.transport.setLength (min (min captured (count * sync.length)) r)) fun mode =>
        (l.transport.setLength (min (min captured (count * sync.length)) r)).plan mode 0 false true).length := by
    unfold Loop.adopt
    simp only [hstart, haudio, hask, Option.elim_some, Option.getD_some, hsync, if_true, true_and, Option.isSome_some,
      wrapWord, Nat.mod_eq_of_lt hcount]
    split
    · split_ifs
      · exact Transport.length_setPosition _ _
      · rfl
    · rfl
  rw [hplaced]
  cases hmode : request.goToMode with
  | none => simp [Transport.setLength_length]
  | some mode =>
    rw [Option.elim_some, Transport.length_plan_at_once, Transport.setLength_mode, Transport.setLength_length]
    simp

end Loop

end Overdub
