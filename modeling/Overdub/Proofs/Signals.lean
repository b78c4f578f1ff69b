import Mathlib
import Overdub.Session.Cycle
/-!
# What the ports of a cycle carry

The signals of a cycle, said without the order in which they come about. A port
carries its gain times what arrives at it (`Audio.Port.finish_buffer`); what
channels and other ports bring is added up (`Audio.Buffer.add`). The playback of
an audio channel is a list of pieces that depends neither on what is in the
output already nor on what is added to it later (`Audio.Channel.playback`).
-/

namespace Overdub

/-! ## Samples -/

namespace Audio

/-- A buffer under a gain. Gain one passes the samples on as they are. -/
def scale (gain : Sample) (b : Buffer) : Buffer := if gain == 1 then b else b.map (· * gain)

/-- Adds samples to a buffer from a frame on. -/
def Buffer.add (b : Buffer) (frame : Nat) (samples : Buffer) : Buffer :=
  overwrite b frame (List.zipWith (· + ·) (b.drop frame) samples)

namespace Buffer

@[simp] theorem length_add (b : Buffer) (frame : Nat) (samples : Buffer) : (add b frame samples).length = b.length :=
  length_overwrite ..

theorem fit_nil (n : Nat) : fit n [] = silence n := by
  simp [fit]

theorem fit_of_length {n : Nat} {b : Buffer} (h : b.length = n) : fit n b = b := by
  simp [fit, silence, h, List.take_of_length_le]

/-- Nothing is added by no samples. -/
theorem add_nil (b : Buffer) (frame : Nat) : add b frame [] = b := by
  simp [add, overwrite]

/-- Samples that are added as far as the named frames reach. -/
theorem add_take (b : Buffer) (frame : Nat) {samples : Buffer} {n : Nat} (h : samples.length ≤ n) :
    overwrite b frame (List.zipWith (· + ·) ((b.drop frame).take n) samples) = add b frame samples := by
  have hzip : List.zipWith (· + ·) ((b.drop frame).take n) samples = List.zipWith (· + ·) (b.drop frame) samples := by
    conv_lhs => rw [← List.take_of_length_le h]
    rw [← List.take_zipWith, List.take_of_length_le]
    rw [List.length_zipWith]
    exact (Nat.min_le_right _ _).trans h
  rw [hzip, add]

end Buffer

theorem length_silence (n : Nat) : (silence n).length = n := List.length_replicate

theorem length_scale (gain : Sample) (b : Buffer) : (scale gain b).length = b.length := by
  unfold scale
  split_ifs
  · rfl
  · exact List.length_map _

/-- A cycle of at most 8192 frames has room for all of them. -/
theorem cycleSilence_of_le {frames : Nat} (h : frames ≤ maxCycleFrames) : cycleSilence frames = silence frames :=
  congrArg silence (Nat.min_eq_left h)

namespace Port

theorem finish_buffer (p : Port) : p.finish.buffer = scale p.level p.buffer := rfl

theorem mix_buffer (p : Port) (source : Buffer) : (p.mix source).buffer = p.buffer.add 0 source := by
  have hlength : (List.zipWith (· + ·) p.buffer source).length ≤ p.buffer.length := by
    rw [List.length_zipWith]
    exact Nat.min_le_left _ _
  have hdrop : p.buffer.drop (min p.buffer.length source.length) = p.buffer.drop source.length := by
    rcases Nat.le_total p.buffer.length source.length with h | h
    · rw [Nat.min_eq_left h, List.drop_length, List.drop_of_length_le h]
    · rw [Nat.min_eq_right h]
  simp only [mix, Buffer.add, Buffer.overwrite, List.drop_zero, List.take_zero, List.nil_append, Nat.sub_zero, Nat.zero_add,
    List.take_of_length_le hlength, List.length_zipWith, hdrop]

theorem fill_buffer (p : Port) (source : Buffer) : (p.fill source).buffer = Buffer.fit p.buffer.length source := rfl

theorem prepare_buffer (p : Port) {frames : Nat} (h : frames ≤ maxCycleFrames) :
    (p.prepare frames).buffer = silence frames := cycleSilence_of_le h

end Port

/-! ## Playback of a channel -/

theorem Store.length_read (s : Store) (position n : Nat) : (s.read position n).length = n := by
  unfold Store.read
  induction s.buffers generalizing position n with
  | nil => exact length_silence n
  | cons b rest ih =>
    unfold Store.gather
    split_ifs with hn hb
    · exact hn.symm
    · exact ih _ _
    · simp only [List.length_append, ih, List.length_take, List.length_drop]
      omega

namespace Channel

namespace Finish

/-- What a command plays in a cycle of so many frames: the samples, and the frame
they start at. -/
def piece? (frames : Nat) (s : Finish) : Command → Option (Nat × Buffer)
  | .playback frame position n gain =>
    if frame + n ≤ frames then
      some (frame, (s.store.read position (min n (s.store.capacity - position))).map (· * gain))
    else none
  | _ => none

/-- What commands play, one after the other. -/
def pieces (input : Option Buffer) (frames : Nat) : Finish → List Command → List (Nat × Buffer)
  | _, [] => []
  | s, c :: rest => (s.piece? frames c).toList ++ pieces input frames (s.run input c) rest

/-- The same data, with whatever output. -/
structure Alike (s s' : Finish) : Prop where
  store : s.store = s'.store
  preRecord : s.preRecord = s'.preRecord
  pool : s.pool = s'.pool

/-- What is in the output has no influence on the data. -/
theorem Alike.run {s s' : Finish} (h : Alike s s') (input : Option Buffer) (c : Command) :
    Alike (s.run input c) (s'.run input c) := by
  obtain ⟨hstore, hpre, hpool⟩ := h
  have hplay : ∀ (s : Finish) frame position n gain, Alike (s.play frame position n gain) s := by
    intro s frame position n gain
    unfold play
    split
    · exact ⟨rfl, rfl, rfl⟩
    · split <;> exact ⟨rfl, rfl, rfl⟩
  cases c with
  | copy target frame position n =>
    cases input with
    | none => exact ⟨hstore, hpre, hpool⟩
    | some input =>
      unfold Finish.run copy
      dsimp only
      cases cycleSlice "recording source" input frame n with
      | error e => exact ⟨hstore, hpre, hpool⟩
      | ok samples => cases target <;> constructor <;> simp only [hstore, hpre, hpool]
  | playback frame position n gain =>
    obtain ⟨h₁, h₂, h₃⟩ := hplay s frame position n gain
    obtain ⟨h₁', h₂', h₃'⟩ := hplay s' frame position n gain
    exact ⟨h₁.trans (hstore.trans h₁'.symm), h₂.trans (hpre.trans h₂'.symm), h₃.trans (hpool.trans h₃'.symm)⟩
  | promotePreRecord => constructor <;> simp only [Finish.run, hstore, hpre, hpool]
  | discardPreRecord => constructor <;> simp only [Finish.run, hstore, hpre, hpool]

theorem Alike.foldl_run {s s' : Finish} (h : Alike s s') (input : Option Buffer) (commands : List Command) :
    Alike (commands.foldl (Finish.run input) s) (commands.foldl (Finish.run input) s') := by
  induction commands generalizing s s' with
  | nil => exact h
  | cons c rest ih => exact ih (h.run input c)

/-- A command adds its piece to the output. -/
theorem run_output {s : Finish} {b : Buffer} (hb : s.output = some b) (input : Option Buffer) (c : Command) :
    (s.run input c).output = some ((s.piece? b.length c).toList.foldl (fun b piece => b.add piece.1 piece.2) b) := by
  cases c with
  | copy target frame position n =>
    cases input with
    | none => exact hb
    | some input =>
      unfold Finish.run copy
      dsimp only
      cases cycleSlice "recording source" input frame n with
      | error e => exact hb
      | ok samples => cases target <;> exact hb
  | playback frame position n gain =>
    simp only [Finish.run, play, hb, cycleSlice, Buffer.slice?, piece?]
    split_ifs with hfits
    · have hlength : ((s.store.read position (min n (s.store.capacity - position))).map (· * gain)).length ≤ n := by
        rw [List.length_map, Store.length_read]
        exact Nat.min_le_left _ _
      have hmixed := b.add_take frame hlength
      rw [List.zipWith_map_right] at hmixed
      simp only [Option.toList_some, List.foldl_cons, List.foldl_nil, ← hmixed]
    · exact hb
  | promotePreRecord => exact hb
  | discardPreRecord => exact hb

/-- Commands add their pieces to the output, whatever was in it. -/
theorem Alike.foldl_run_output {s s' : Finish} (h : Alike s s') {b : Buffer} (hb : s.output = some b) (input : Option Buffer)
    (commands : List Command) :
    (commands.foldl (Finish.run input) s).output =
      some ((pieces input b.length s' commands).foldl (fun b piece => b.add piece.1 piece.2) b) := by
  induction commands generalizing s s' b with
  | nil => exact hb
  | cons c rest ih =>
    have hpiece : s.piece? b.length c = s'.piece? b.length c := by
      cases c <;> simp only [piece?, h.store]
    have hout := run_output hb input c
    rw [hpiece] at hout
    have hlength : ((s'.piece? b.length c).toList.foldl (fun b piece => b.add piece.1 piece.2) b).length = b.length := by
      cases s'.piece? b.length c <;> simp
    rw [List.foldl_cons, ih (h.run input c) hout, hlength, pieces, List.foldl_append]

end Finish

/-- The end of a cycle before any command is carried out. -/
def begin (c : Channel) (output : Option Buffer) (pool : Pool) : Finish :=
  ⟨c.store, c.preRecord, pool, output, 0, .ok ()⟩

/-- What a channel plays in a cycle of so many frames. -/
def playback (c : Channel) (input : Option Buffer) (pool : Pool) (frames : Nat) : List (Nat × Buffer) :=
  Finish.pieces input frames (c.begin none pool) c.commands

theorem finalize_output (c : Channel) (input : Option Buffer) (b : Buffer) (pool : Pool) :
    (c.finalize input (some b) pool).2.1 =
      some ((c.playback input pool b.length).foldl (fun b piece => b.add piece.1 piece.2) b) := by
  have halike : Finish.Alike (c.begin (some b) pool) (c.begin none pool) := ⟨rfl, rfl, rfl⟩
  exact halike.foldl_run_output rfl input c.commands

/-- What a channel takes from the pool has nothing to do with the output. -/
theorem pool_finalize (c : Channel) (input output output' : Option Buffer) (pool : Pool) :
    (c.finalize input output pool).2.2.1 = (c.finalize input output' pool).2.2.1 := by
  have halike : Finish.Alike (c.begin output pool) (c.begin output' pool) := ⟨rfl, rfl, rfl⟩
  exact (halike.foldl_run input c.commands).pool

end Channel

end Audio

theorem Port.direction_prepare (q : Port) (frames : Nat) : (q.prepare frames).direction = q.direction := by
  cases q <;> rfl

/-! ## What a channel does with its ports -/

namespace LoopChannel

/-- What a channel brings to a port that it plays into. -/
def playInto (c : LoopChannel) (input : Option Port) (pool : Audio.Pool) (q : Port) : Port :=
  match c.body, q with
  | .audio a, .audio q =>
    .audio { q with buffer := (a.finalize ((input.bind Port.audio?).map (·.buffer)) (some q.buffer) pool).2.1.getD q.buffer }
  | .midi m, .midi q =>
    .midi { q with pending := (m.finalize ((input.bind Port.midi?).map (·.messages)) (some q.pending)).2.1.getD q.pending }
  | _, q => q

/-- A channel at the end of a cycle. -/
def finished (c : LoopChannel) (input output : Option Port) (pool : Audio.Pool) : LoopChannel :=
  { c with body := match c.body with
    | .audio a =>
      .audio (a.finalize ((input.bind Port.audio?).map (·.buffer)) ((output.bind Port.audio?).map (·.buffer)) pool).1
    | .midi m =>
      .midi (m.finalize ((input.bind Port.midi?).map (·.messages)) ((output.bind Port.midi?).map (·.pending))).1 }

/-- The pool when a channel has taken from it what it records into. -/
def poolAfter (c : LoopChannel) (input : Option Port) (pool : Audio.Pool) : Audio.Pool :=
  match c.body with
  | .audio a => (a.finalize ((input.bind Port.audio?).map (·.buffer)) none pool).2.2.1
  | .midi _ => pool

/-- What an audio channel plays; a MIDI channel plays no samples. -/
def playback (c : LoopChannel) (input : Option Port) (pool : Audio.Pool) (frames : Nat) : List (Nat × Audio.Buffer) :=
  match c.body with
  | .audio a => a.playback ((input.bind Port.audio?).map (·.buffer)) pool frames
  | .midi _ => []

@[simp] theorem finished_key (c : LoopChannel) (input output : Option Port) (pool : Audio.Pool) :
    (c.finished input output pool).key = c.key := rfl

theorem direction_playInto (c : LoopChannel) (input : Option Port) (pool : Audio.Pool) (q : Port) :
    (c.playInto input pool q).direction = q.direction := by
  unfold playInto
  cases c.body <;> cases q <;> rfl

theorem playInto_audio (c : LoopChannel) (input : Option Port) (pool : Audio.Pool) (q : Audio.Port) :
    c.playInto input pool (.audio q) =
      .audio { q with
        buffer := (c.playback input pool q.buffer.length).foldl (fun b piece => b.add piece.1 piece.2) q.buffer } := by
  unfold playInto playback
  cases c.body with
  | audio a => simp only [Audio.Channel.finalize_output, Option.getD_some]
  | midi m => rfl

end LoopChannel

/-! ## What a cycle makes of its ports -/

/-- The node is that of a channel. -/
def channelOf? : NodeId → Option ChannelKey
  | .channel key => some key
  | _ => none

theorem eq_of_channelOf? {id : NodeId} {key : ChannelKey} (h : channelOf? id = some key) : id = .channel key := by
  cases id with
  | channel k => exact congrArg _ (Option.some.inj h)
  | _ => cases h

theorem channelOf?_of_coProcessed {id : NodeId} (h : id.coProcessed = true) : channelOf? id = none := by
  cases id with
  | loop key => rfl
  | _ => cases h

namespace Schedule

/-- The nodes of a schedule in its order. -/
def nodes (s : Schedule) : List NodeId := s.steps.flatMap (·.nodes)

def loops (s : Schedule) : List LoopKey := s.nodes.filterMap Engine.loopOf?

/-- The channels in the order in which they end the cycle. -/
def channels (s : Schedule) : List ChannelKey := s.nodes.filterMap channelOf?

end Schedule

namespace Engine

def port? (e : Engine) (key : PortKey) : Option Port := (e.ports.get? key).map (·.port)

/-- The port that a channel records from. -/
def inputOf (e : Engine) (c : LoopChannel) : Option Port := c.input.bind e.port?

/-- Mixes another port of the engine into a port. -/
def mixFrom (e : Engine) (q : Port) (source : PortKey) : Port := (e.port? source).elim q q.mix

/-- The pool when some channels have recorded from the ports of `e` one after the
other. -/
def poolThrough (e : Engine) (cs : List LoopChannel) (pool : Audio.Pool) : Audio.Pool :=
  cs.foldl (fun pool c => c.poolAfter (e.inputOf c) pool) pool

/-- Channels that record from the ports of `e` one after the other, each with the
pool as it finds it. -/
def turns (e : Engine) : Audio.Pool → List LoopChannel → List (LoopChannel × Audio.Pool)
  | _, [] => []
  | pool, c :: rest => (c, pool) :: e.turns (c.poolAfter (e.inputOf c) pool) rest

/-- A port with what those of some channels bring to it that play into it. -/
def mixed (e : Engine) (turns : List (LoopChannel × Audio.Pool)) (key : PortKey) (q : Port) : Port :=
  turns.foldl (fun q turn => if turn.1.output = some key then turn.1.playInto (e.inputOf turn.1) turn.2 q else q) q

theorem turns_append (e : Engine) (pool : Audio.Pool) (cs ds : List LoopChannel) :
    e.turns pool (cs ++ ds) = e.turns pool cs ++ e.turns (e.poolThrough cs pool) ds := by
  induction cs generalizing pool with
  | nil => rfl
  | cons c cs ih => exact congrArg _ (ih _)

theorem poolThrough_concat (e : Engine) (cs : List LoopChannel) (c : LoopChannel) (pool : Audio.Pool) :
    e.poolThrough (cs ++ [c]) pool = c.poolAfter (e.inputOf c) (e.poolThrough cs pool) := by
  rw [poolThrough, List.foldl_append]
  rfl

theorem mixed_append (e : Engine) (turns later : List (LoopChannel × Audio.Pool)) (key : PortKey) (q : Port) :
    e.mixed (turns ++ later) key q = e.mixed later key (e.mixed turns key q) := List.foldl_append

theorem mixed_singleton (e : Engine) (pool : Audio.Pool) (c : LoopChannel) (key : PortKey) (q : Port) :
    e.mixed (e.turns pool [c]) key q = if c.output = some key then c.playInto (e.inputOf c) pool q else q := rfl

/-- Channels that play elsewhere bring nothing. -/
theorem mixed_of_ne {e : Engine} {key : PortKey} {pool : Audio.Pool} {cs : List LoopChannel}
    (h : ∀ c ∈ cs, c.output ≠ some key) (q : Port) : e.mixed (e.turns pool cs) key q = q := by
  induction cs generalizing pool with
  | nil => rfl
  | cons c cs ih =>
    rw [List.forall_mem_cons] at h
    rw [turns, mixed, List.foldl_cons, if_neg h.1]
    exact ih h.2

theorem direction_mixed (e : Engine) (turns : List (LoopChannel × Audio.Pool)) (key : PortKey) (q : Port) :
    (e.mixed turns key q).direction = q.direction := by
  unfold mixed
  refine List.foldlRecOn (motive := fun q' : Port => q'.direction = q.direction) turns _ rfl fun q' h turn _ => ?_
  split_ifs
  · exact (turn.1.direction_playInto _ _ q').trans h
  · exact h

end Engine

end Overdub
