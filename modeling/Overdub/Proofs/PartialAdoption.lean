import Overdub.Proofs.Adoption
/-!
# Channels that cannot adopt

A channel cannot adopt if its port keeps no ring, or if the messages of a MIDI ring
find no room or are out of order (`failure`). Such a channel does not stand in the way
of the others: they adopt what they would if it were not there, in the same order and
out of the same pool, and the loop takes its length from them
(`channels_without_failing`). What is reported is the last failure
(`adopt_spares_failing`).
-/

namespace Overdub

/-- A ring whose messages cannot be stored leaves all but the events as it was. -/
theorem Midi.Channel.adopt_cases (c : Midi.Channel) (capture : Midi.Capture) (reverseStart keepBefore : Option Nat) :
    (∃ e storage, (capture.ring.snapshot c.storage.capacity).2 = .error e ∧
        c.adopt capture reverseStart keepBefore = ({ c with storage }, .error (.midi e))) ∨
      (capture.ring.snapshot c.storage.capacity).2 = .ok () ∧ (c.adopt capture reverseStart keepBefore).2 = .ok () := by
  unfold adopt
  rcases capture.ring.snapshot c.storage.capacity with ⟨storage, e | _⟩
  · exact .inl ⟨e, storage, rfl, rfl⟩
  · exact .inr ⟨rfl, rfl⟩

namespace Adoption
variable {rings : CaptureRings}

/-- Why a channel cannot adopt, if it cannot. -/
def failure (rings : CaptureRings) (c : LoopChannel) : Option Error :=
  match c.input, c.body with
  | none, _ => none
  | some port, .audio _ =>
    if (rings.audio port).isSome then none else some (.missingBuffer "audio capture ring")
  | some port, .midi body =>
    match rings.midi port with
    | none => some (.missingBuffer "MIDI capture ring")
    | some capture =>
      match (capture.ring.snapshot body.storage.capacity).2 with
      | .ok () => none
      | .error e => some (.midi e)

def fails (rings : CaptureRings) (c : LoopChannel) : Bool := (failure rings c).isSome

/-- The channel has a MIDI ring that it cannot adopt. -/
def refuses (rings : CaptureRings) (c : LoopChannel) : Bool :=
  fails rings c && c.input.any fun port => c.body.dataType = .midi && (rings.midi port).isSome

/-- A channel that fails keeps all it has, except perhaps for the events of a MIDI
channel that refuses its ring. -/
def Spared (rings : CaptureRings) (c c' : LoopChannel) : Prop :=
  c' = c ∨ refuses rings c = true ∧ ∃ body storage, c.body = .midi body ∧ c' = { c with body := .midi { body with storage } }

section Channel
variable (reverseStart keepBefore : Option Nat) (a : Adoption) {c : LoopChannel}

/-- A channel that fails is spared, and leaves the pool and the audio length alone. -/
theorem channel_of_failure {e : Error} (h : failure rings c = some e) :
    let adopted := channel rings reverseStart keepBefore a c
    Spared rings c adopted.1 ∧ (adopted.2.pool = a.pool ∧ adopted.2.audioLength = a.audioLength) ∧
      adopted.2.result = .error e ∧ (refuses rings c = false → adopted.2.midiLength = a.midiLength) := by
  have hfails : fails rings c = true := by rw [fails, h]; rfl
  obtain ⟨key, input, output, body⟩ := c
  cases input with
  | none => cases h
  | some port =>
    cases body with
    | audio body =>
      unfold failure at h
      unfold channel
      dsimp only at h ⊢
      cases hring : rings.audio port with
      | some ring => rw [hring] at h; cases h
      | none =>
        rw [hring] at h
        cases h
        exact ⟨.inl rfl, ⟨rfl, rfl⟩, rfl, fun _ => rfl⟩
    | midi body =>
      unfold failure at h
      unfold channel
      dsimp only at h ⊢
      cases hring : rings.midi port with
      | none =>
        rw [hring] at h
        cases h
        exact ⟨.inl rfl, ⟨rfl, rfl⟩, rfl, fun _ => rfl⟩
      | some capture =>
        rw [hring] at h
        have hrefuses : refuses rings ⟨key, some port, output, .midi body⟩ = true := by
          simp [refuses, hfails, ChannelBody.dataType, hring]
        rcases body.adopt_cases capture reverseStart keepBefore with ⟨e', storage, hsnapshot, hadopt⟩ | ⟨hsnapshot, -⟩
        · dsimp only at h ⊢
          rw [hsnapshot] at h
          rw [hadopt]
          cases h
          exact ⟨.inr ⟨hrefuses, body, storage, rfl, rfl⟩, ⟨rfl, rfl⟩, rfl, fun hnot => absurd hrefuses (by simp [hnot])⟩
        · dsimp only at h
          rw [hsnapshot] at h
          cases h

/-- What a channel adopts depends on the pool only, and what it adds to the lengths
on the lengths. -/
theorem channel_of_sound (h : failure rings c = none) {b : Adoption} (hpool : a.pool = b.pool)
    (haudio : a.audioLength = b.audioLength) :
    let adopted := channel rings reverseStart keepBefore a c
    let alone := channel rings reverseStart keepBefore b c
    adopted.1 = alone.1 ∧ (adopted.2.pool = alone.2.pool ∧ adopted.2.audioLength = alone.2.audioLength) ∧
      (adopted.2.result = a.result ∧ alone.2.result = b.result) ∧
      (a.midiLength = b.midiLength → adopted.2.midiLength = alone.2.midiLength) := by
  obtain ⟨key, input, output, body⟩ := c
  cases input with
  | none => exact ⟨rfl, ⟨hpool, haudio⟩, ⟨rfl, rfl⟩, id⟩
  | some port =>
    cases body with
    | audio body =>
      unfold failure at h
      unfold channel
      dsimp only at h ⊢
      cases hring : rings.audio port with
      | none => rw [hring] at h; cases h
      | some ring =>
        dsimp only
        rw [hpool, haudio]
        exact ⟨rfl, ⟨rfl, rfl⟩, ⟨rfl, rfl⟩, id⟩
    | midi body =>
      unfold failure at h
      unfold channel
      dsimp only at h ⊢
      cases hring : rings.midi port with
      | none => rw [hring] at h; cases h
      | some capture =>
        rw [hring] at h
        rcases body.adopt_cases capture reverseStart keepBefore with ⟨e, storage, hsnapshot, -⟩ | ⟨-, hok⟩
        · dsimp only at h
          rw [hsnapshot] at h
          cases h
        · dsimp only
          rw [hok]
          exact ⟨rfl, ⟨hpool, haudio⟩, ⟨rfl, rfl⟩, fun hmidi => congrArg (longer · _) hmidi⟩

end Channel

/-! ## All channels of a loop -/

section Channels
variable (rings) (reverseStart keepBefore : Option Nat)

/-- The channels that do not fail adopt what they would on their own. -/
theorem channels_without_failing {a b : Adoption} (hpool : a.pool = b.pool) (haudio : a.audioLength = b.audioLength)
    (cs : List LoopChannel) :
    let adopted := channels rings reverseStart keepBefore a cs
    let alone := channels rings reverseStart keepBefore b (cs.filter fun c => !fails rings c)
    ((cs.zip adopted.1).filter fun x => !fails rings x.1).map Prod.snd = alone.1 ∧
      List.Forall₂ (fun c c' => fails rings c = true → Spared rings c c') cs adopted.1 ∧
      (adopted.2.pool = alone.2.pool ∧ adopted.2.audioLength = alone.2.audioLength) ∧
      (adopted.2.result = (cs.filterMap (failure rings)).getLast?.elim a.result .error ∧ alone.2.result = b.result) ∧
      (a.midiLength = b.midiLength → (∀ c ∈ cs, refuses rings c = false) → adopted.2.midiLength = alone.2.midiLength) := by
  induction cs generalizing a b with
  | nil => exact ⟨rfl, .nil, ⟨hpool, haudio⟩, ⟨rfl, rfl⟩, fun h _ => h⟩
  | cons c rest ih =>
    cases hfailure : failure rings c with
    | some e =>
      have hfails : fails rings c = true := by rw [fails, hfailure]; rfl
      obtain ⟨hspared, ⟨hpool', haudio'⟩, hresult, hmidi⟩ := channel_of_failure reverseStart keepBefore a hfailure
      obtain ⟨hsame, hall, hkept, ⟨hresults, halone⟩, hlengths⟩ := ih (hpool'.trans hpool) (haudio'.trans haudio)
      have hfilter : (c :: rest).filter (fun c => !fails rings c) = rest.filter fun c => !fails rings c :=
        List.filter_cons_of_neg (by simp [hfails])
      rw [hfilter]
      refine ⟨?_, .cons (fun _ => hspared) hall, hkept, ⟨?_, halone⟩, fun hlength hnone => ?_⟩
      · rw [← hsame]
        exact congrArg (List.map Prod.snd) (List.filter_cons_of_neg (by simp [hfails]))
      · refine hresults.trans ?_
        rw [List.filterMap_cons_some hfailure, List.getLast?_cons, hresult]
        cases (rest.filterMap (failure rings)).getLast? <;> rfl
      · rw [List.forall_mem_cons] at hnone
        exact hlengths ((hmidi hnone.1).trans hlength) hnone.2
    | none =>
      have hfails : fails rings c = false := by rw [fails, hfailure]; rfl
      obtain ⟨hsame', ⟨hpool', haudio'⟩, ⟨hresult, hresult'⟩, hmidi⟩ :=
        channel_of_sound reverseStart keepBefore a hfailure hpool haudio
      obtain ⟨hsame, hall, hkept, ⟨hresults, halone⟩, hlengths⟩ := ih hpool' haudio'
      have hfilter : (c :: rest).filter (fun c => !fails rings c) = c :: rest.filter fun c => !fails rings c :=
        List.filter_cons_of_pos (by simp [hfails])
      rw [hfilter]
      refine ⟨?_, .cons (fun h => absurd h (by simp [hfails])) hall, hkept, ⟨?_, halone.trans hresult'⟩,
        fun hlength hnone => ?_⟩
      · refine (congrArg (List.map Prod.snd) (List.filter_cons_of_pos (by simp [hfails]))).trans ?_
        exact congrArg₂ List.cons hsame' hsame
      · refine hresults.trans ?_
        rw [List.filterMap_cons_none hfailure, hresult]
      · rw [List.forall_mem_cons] at hnone
        exact hlengths (hmidi hlength) hnone.2

theorem channel_audioLength {a : Adoption} {c : LoopChannel}
    (h : a.audioLength.isSome = true ∨ c.recordsAudio = true ∧ fails rings c = false) :
    (channel rings reverseStart keepBefore a c).2.audioLength.isSome = true := by
  obtain ⟨key, input, output, body⟩ := c
  cases input with
  | none => exact h.resolve_right fun hrecords => by simp [LoopChannel.recordsAudio] at hrecords
  | some port =>
    unfold channel
    cases body with
    | midi body =>
      have hlength := h.resolve_right fun hrecords => by
        simp [LoopChannel.recordsAudio, ChannelBody.dataType] at hrecords
      dsimp only
      split <;> exact hlength
    | audio body =>
      dsimp only
      cases hring : rings.audio port with
      | none => exact h.resolve_right fun hfails => by simp [fails, failure, hring] at hfails
      | some ring => rfl

/-- If a channel that records audio does not fail, there is an audio length. -/
theorem channels_audioLength {a : Adoption} {cs : List LoopChannel}
    (h : a.audioLength.isSome = true ∨ ∃ c ∈ cs, c.recordsAudio = true ∧ fails rings c = false) :
    (channels rings reverseStart keepBefore a cs).2.audioLength.isSome = true := by
  induction cs generalizing a with
  | nil => exact h.resolve_right (by simp)
  | cons c rest ih =>
    refine ih ?_
    rcases h with hlength | ⟨c', hmem, hc'⟩
    · exact .inl (channel_audioLength rings reverseStart keepBefore (.inl hlength))
    · rcases List.mem_cons.mp hmem with rfl | hrest
      · exact .inl (channel_audioLength rings reverseStart keepBefore (.inr hc'))
      · exact .inr ⟨c', hrest, hc'⟩

end Channels

end Adoption

/-- What a loop adopts without the channels that fail is what it adopts with them: they
keep what they had, the others and the pool do not notice, and the last failure is the
one reported. The transport does not notice either, if no channel refuses its ring or
if audio is adopted. -/
theorem Loop.adopt_spares_failing (l : Loop) (sync : Option SyncView) (request : AdoptRequest) (rings : CaptureRings)
    (pool : Audio.Pool) :
    let able : Loop := { l with channels := l.channels.filter fun c => !Adoption.fails rings c }
    let adopted := l.adopt sync request rings pool
    let alone := able.adopt sync request rings pool
    adopted.2.2 = (l.channels.filterMap (Adoption.failure rings)).getLast?.elim (.ok ()) .error ∧ alone.2.2 = .ok () ∧
      adopted.2.1 = alone.2.1 ∧ adopted.1.syncSource = l.syncSource ∧
      List.Forall₂ (fun c c' => Adoption.fails rings c = true → Adoption.Spared rings c c') l.channels adopted.1.channels ∧
      ((l.channels.zip adopted.1.channels).filter fun x => !Adoption.fails rings x.1).map Prod.snd = alone.1.channels ∧
      ((∀ c ∈ l.channels, Adoption.refuses rings c = false) ∨
          (∃ c ∈ l.channels, c.recordsAudio = true ∧ Adoption.fails rings c = false) →
        adopted.1.transport = alone.1.transport) := by
  intro able adopted alone
  let start := request.startBeforeEnd (sync.elim 0 (·.length)) (sync.elim 0 (·.position))
  let keep := some (sync.elim 0 (·.length))
  obtain ⟨hsame, hall, ⟨hpool, haudio⟩, ⟨hresult, halone⟩, hmidi⟩ :=
    Adoption.channels_without_failing rings start keep (a := { pool }) (b := { pool }) rfl rfl l.channels
  refine ⟨hresult, halone, hpool, rfl, hall, hsame, fun hor => ?_⟩
  -- The transport depends on the lengths that were adopted, and on those of MIDI only without audio.
  have hcaptured : let with_ := (Adoption.channels rings start keep { pool } l.channels).2
      let without := (Adoption.channels rings start keep { pool } able.channels).2
      with_.audioLength.or with_.midiLength = without.audioLength.or without.midiLength := by
    intro with_ without
    rcases hor with hnone | hsome
    · rw [show with_.audioLength = without.audioLength from haudio, show with_.midiLength = without.midiLength from
        hmidi rfl hnone]
    · obtain ⟨length, hlength⟩ := Option.isSome_iff_exists.mp
        (Adoption.channels_audioLength rings start keep (a := { pool }) (.inr hsome))
      rw [show without.audioLength = with_.audioLength from haudio.symm, show with_.audioLength = some length from hlength]
      rfl
  show (l.adopt sync request rings pool).1.transport = (able.adopt sync request rings pool).1.transport
  unfold Loop.adopt
  dsimp only at hcaptured ⊢
  rw [hcaptured]

/-- The ports have captured four samples of audio, and no MIDI. -/
def audioOnly : CaptureRings where
  audio _ := some ((Audio.CaptureRing.new 4 (.new 2 0)).1.put [1, 2, 3, 4])
  midi _ := none

/-- A loop of eight frames with an audio and a MIDI channel. -/
def mixedLoop : Loop where
  transport := Transport.new.setLength 8
  channels := [⟨⟨0, 0⟩, some ⟨0, 0⟩, none, .audio (.new 2 .direct (some 8))⟩,
    ⟨⟨1, 0⟩, some ⟨1, 0⟩, none, .midi (.new 8 .direct)⟩]

/-- Without its MIDI channel, the loop has the same transport afterwards. -/
theorem Loop.adopt_spares_failing_audio :
    let adopted := mixedLoop.adopt none {} audioOnly (.new 2 0)
    let audio : Loop := { mixedLoop with channels := mixedLoop.channels.take 1 }
    adopted.2.2 = .error (.missingBuffer "MIDI capture ring") ∧
      adopted.1.transport = (audio.adopt none {} audioOnly (.new 2 0)).1.transport := by
  intro adopted audio
  obtain ⟨hresult, -, -, -, -, -, htransport⟩ := mixedLoop.adopt_spares_failing none {} audioOnly (.new 2 0)
  exact ⟨hresult, htransport (.inr ⟨_, List.mem_cons_self, rfl, rfl⟩)⟩

/-- The MIDI channel fails, but the audio channel has adopted, and the loop has its length. -/
theorem Loop.audio_adopted_beside_failure :
    let adopted := mixedLoop.adopt none {} audioOnly (.new 2 0)
    adopted.2.2 = .error (.missingBuffer "MIDI capture ring") ∧
      (mixedLoop.transport.length = 8 ∧ adopted.1.transport.length = 4) ∧
      mixedLoop.channels.map (·.body.track.dataLength) = [0, 0] ∧
        adopted.1.channels.map (·.body.track.dataLength) = [4, 0] := by
  decide

end Overdub
