import Overdub.Midi.Channel
import Overdub.Midi.Port
import Overdub.Proofs.Chronicle
import Overdub.Proofs.Merge
import Overdub.Proofs.Sequence
/-!
# What a capture retains

A capture keeps the state of all that has left its ring. With what is still in the
ring, that is the state of all that it ever captured (`Capture.state`), whatever
happens to the port. Adoption takes over less than that: the messages of the
window. A message in the ring that is older than the depth is neither in the
window nor in the state of what has left, so adoption forgets it.

There is no such message if the depth is not below the length of the current cycle
nor below the depth at its start. Ages are compared on a count modulo `2 ^ 32`, so
this rests on the messages standing in the order of their ages
(`CaptureRing.Ranked`), none of which reaches `2 ^ 31` frames before it is dropped.
-/

namespace Overdub.Midi

/-! ## States -/

namespace Capture

/-- The state after all that was captured: what has left the ring and what is in it. -/
def state (c : Capture) : Tracker := c.ring.events.foldl Tracker.feedMessage c.tail

/-- The state after what has left the ring and what lies in the window. -/
def windowState (c : Capture) : Tracker :=
  (c.ring.events.filter fun m => c.ring.age m ≤ c.ring.depth).foldl Tracker.feedMessage c.tail

theorem state_nextCycle (c : Capture) (frames : UInt32) : (c.nextCycle frames).state = c.state := by
  unfold nextCycle CaptureRing.nextCycle state
  dsimp only
  rw [← List.foldl_append, List.takeWhile_append_dropWhile]

/-- A message that is captured counts, and so does the one it drives out. -/
theorem state_put {c : Capture} (h : 0 < c.ring.capacity) (m : Message) : (c.put m).state = c.state.feedMessage m := by
  have hroom : c.ring.capacity ≠ 0 := Nat.ne_of_gt h
  unfold put CaptureRing.put state
  dsimp only
  rw [if_neg hroom, List.foldl_append]
  split_ifs with hfull
  · cases hevents : c.ring.events with
    | nil => exact absurd (hevents ▸ hfull) (by simpa using hroom)
    | cons first rest => rfl
  · rfl

theorem windowState_eq {c : Capture} (h : ∀ m ∈ c.ring.events, c.ring.age m ≤ c.ring.depth) :
    c.windowState = c.state := by
  unfold windowState state
  rw [List.filter_eq_self.mpr fun m hm => decide_eq_true (h m hm)]

end Capture

namespace Channel

/-- The state that the recorded data leads a listener to. -/
def contentState (c : Channel) : Tracker := c.storage.events.foldl Tracker.feedMessage c.startState

/-- Adoption recalls what has left the ring and what lies in the window. -/
theorem contentState_adopt {c : Channel} {capture : Capture} {reverseStart keepBefore : Option Nat}
    (h : (c.adopt capture reverseStart keepBefore).2 = .ok ()) :
    (c.adopt capture reverseStart keepBefore).1.contentState = capture.windowState := by
  unfold adopt at h ⊢
  cases hsnapshot : capture.ring.snapshot c.storage.capacity with
  | mk storage result =>
    rw [hsnapshot] at h
    cases result with
    | error e => cases h
    | ok _ =>
      have hevents : storage.events = capture.ring.window := Storage.appendAll_ok hsnapshot
      unfold Capture.windowState contentState Storage.dropBefore
      dsimp only [modifyTrack, publish]
      rw [← List.foldl_append, List.takeWhile_append_dropWhile, hevents, CaptureRing.window, List.foldl_map]
      rfl

end Channel

/-! ## Ages in the ring -/

namespace CaptureRing

/-- The messages stand in the order of their ages, and are all younger than
`2 ^ 31` frames. -/
structure Ranked (r : CaptureRing) : Prop where
  ordered : r.events.Pairwise fun m m' => (r.age m').toNat ≤ (r.age m).toNat
  young : ∀ m ∈ r.events, (r.age m).toNat < 2 ^ 31

/-- At the start of a cycle all that is left in the ring is within the depth, and
as old as the cycle is long. -/
theorem Ranked.nextCycle {r : CaptureRing} (h : r.Ranked) (hdepth : r.depth.toNat < 2 ^ 31) {frames : UInt32}
    (hframes : frames.toNat < 2 ^ 31) :
    let r' := (r.nextCycle frames).1
    r'.Ranked ∧ ∀ m ∈ r'.events, frames.toNat ≤ (r'.age m).toNat ∧ (r'.age m).toNat ≤ r.depth.toNat := by
  intro r'
  have hage : ∀ m ∈ r.events, (r'.age m).toNat = (r.age m).toNat + frames.toNat := by
    intro m hm
    have hyoung := h.young m hm
    have hsum : r'.age m = r.age m + frames := by
      show r.stop + frames - m.time = r.stop - m.time + frames
      grind
    rw [hsum, UInt32.toNat_add, Nat.mod_eq_of_lt (by omega)]
  have hsub : r'.events.Sublist r.events := List.dropWhile_sublist _
  have hordered : r.events.Pairwise fun m m' => (r'.age m').toNat ≤ (r'.age m).toNat :=
    h.ordered.imp_of_mem fun {m m'} hm hm' hle => by
      rw [hage m hm, hage m' hm']
      omega
  have hinside : ∀ m ∈ r'.events, (r'.age m).toNat ≤ r.depth.toNat := fun m hm =>
    mem_dropWhile_sorted (f := fun m => (r'.age m).toNat) hordered hm
  refine ⟨⟨hordered.sublist hsub, fun m hm => Nat.lt_of_le_of_lt (hinside m hm) hdepth⟩, fun m hm => ⟨?_, hinside m hm⟩⟩
  rw [hage m (hsub.subset hm)]
  omega

theorem put_sublist (r : CaptureRing) (m : Message) :
    (r.put m).1.events.Sublist (r.events ++ [m.withTime (r.start + m.time)]) := by
  have hkept : (if r.capacity ≤ r.events.length then r.events.tail else r.events).Sublist r.events := by
    by_cases hfull : r.capacity ≤ r.events.length
    · rw [if_pos hfull]
      exact List.tail_sublist _
    · rw [if_neg hfull]
  unfold put
  dsimp only
  by_cases hnone : r.capacity = 0
  · rw [if_pos hnone]
    exact hkept.trans (List.sublist_append_left _ _)
  · rw [if_neg hnone]
    exact hkept.append_right _

/-- A message captured in the cycle is as old as what is left of the cycle. -/
theorem age_put (r : CaptureRing) {m : Message} (h : m.time < r.length) :
    (r.age (m.withTime (r.start + m.time))).toNat = r.length.toNat - m.time.toNat := by
  have hle : m.time ≤ r.length := UInt32.le_of_lt h
  have hage : r.age (m.withTime (r.start + m.time)) = r.length - m.time := by
    show r.start + r.length - (r.start + m.time) = _
    grind
  rw [hage, UInt32.toNat_sub_of_le _ _ hle]

/-- Capturing changes neither the cycle nor the depth. -/
theorem putAll_clock (r : CaptureRing) (messages : List Message) :
    let r' := messages.foldl (fun r m => (r.put m).1) r
    r'.age = r.age ∧ r'.length = r.length ∧ r'.depth = r.depth := by
  induction messages generalizing r with
  | nil => exact ⟨rfl, rfl, rfl⟩
  | cons m rest ih => exact ih (r.put m).1

/-- The messages of a cycle come behind those that were in the ring before. -/
theorem Ranked.putAll {r : CaptureRing} (h : r.Ranked) (hlength : r.length.toNat < 2 ^ 31) {messages : List Message}
    (hordered : Ascending (·.time.toNat) messages) (hinside : ∀ m ∈ messages, m.time < r.length)
    (holder : ∀ e ∈ r.events, ∀ m ∈ messages, r.length.toNat - m.time.toNat ≤ (r.age e).toNat) :
    let r' := messages.foldl (fun r m => (r.put m).1) r
    r'.Ranked ∧ ∀ e ∈ r'.events, e ∈ r.events ∨ (r.age e).toNat ≤ r.length.toNat := by
  induction messages generalizing r with
  | nil => exact ⟨h, fun e he => .inl he⟩
  | cons m rest ih =>
    obtain ⟨hfirst, hrest⟩ := List.pairwise_cons.mp hordered
    rw [List.forall_mem_cons] at hinside
    have hage := r.age_put hinside.1
    have hmem : ∀ e ∈ (r.put m).1.events, e ∈ r.events ∨ (r.age e).toNat = r.length.toNat - m.time.toNat := by
      intro e he
      rcases List.mem_append.mp ((r.put_sublist m).subset he) with he | he
      · exact .inl he
      · exact .inr (List.mem_singleton.mp he ▸ hage)
    have hranked : (r.put m).1.Ranked := by
      refine ⟨List.Pairwise.sublist (r.put_sublist m)
        (List.pairwise_append.mpr ⟨h.ordered, List.pairwise_singleton _ _, fun e he e' he' => ?_⟩), fun e he => ?_⟩
      · rw [List.mem_singleton.mp he']
        exact hage.trans_le (holder e he m List.mem_cons_self)
      · show (r.age e).toNat < 2 ^ 31
        rcases hmem e he with hold | hnew
        · exact h.young e hold
        · omega
    obtain ⟨hdone, hsource⟩ := ih hranked hlength hrest hinside.2 (by
      intro e he m' hm'
      rcases hmem e he with hold | hnew
      · exact holder e hold m' (List.mem_cons_of_mem _ hm')
      · have hlater : m.time.toNat ≤ m'.time.toNat := hfirst m' hm'
        show r.length.toNat - m'.time.toNat ≤ (r.age e).toNat
        omega)
    refine ⟨hdone, fun e he => ?_⟩
    rcases hsource e he with hin | hyoung
    · exact (hmem e hin).imp_right fun hnew => hnew.trans_le (Nat.sub_le _ _)
    · exact .inr hyoung

end CaptureRing

/-! ## Ports -/

/-- What can happen to a port. -/
inductive PortAction where
  | prepare (frames : UInt32)
  | write (m : Message)
  /-- A channel plays a message into the port. -/
  | play (m : Message)
  | finish
  | mute (muted : Bool)
  /-- Input is kept for so many frames. -/
  | keep (depth : UInt32)

namespace PortAction

def run (p : Port) : PortAction → Port
  | prepare frames => p.prepare frames.toNat
  | write m => p.write m
  | play m => { p with pending := (p.pending.push m).1 }
  | finish => p.finish
  | mute muted => p.setMuted muted
  | keep depth => p.setCaptured depth

/-- The action begins a cycle. -/
def begins : PortAction → Bool
  | prepare _ => true
  | _ => false

/-- Cycles and depths are below `2 ^ 31` frames, messages lie in the cycle, and a
cycle ends once, as far as it lets something pass. -/
def Regular (p : Port) : PortAction → Prop
  | prepare frames => frames.toNat < 2 ^ 31
  | write m | play m => m.time < p.capture.ring.length
  | finish => p.messages = []
  | mute _ => True
  | keep depth => depth.toNat < 2 ^ 31

instance (p : Port) : (a : PortAction) → Decidable (a.Regular p)
  | prepare _ | keep _ => Nat.decLt _ _
  | write m | play m => inferInstanceAs (Decidable (m.time < p.capture.ring.length))
  | finish => inferInstanceAs (Decidable (p.messages = []))
  | mute _ => .isTrue trivial

end PortAction

namespace Port

/-- The port after some actions. -/
def after (p : Port) (actions : List PortAction) : Port := actions.foldl PortAction.run p

/-- Each action is regular where it happens. -/
def Regular : List PortAction → Port → Prop
  | [], _ => True
  | a :: rest, p => a.Regular p ∧ Regular rest (a.run p)

instance decidableRegular : (actions : List PortAction) → (p : Port) → Decidable (Regular actions p)
  | [], _ => .isTrue trivial
  | a :: rest, p =>
    have := decidableRegular rest (a.run p)
    inferInstanceAs (Decidable (a.Regular p ∧ Regular rest (a.run p)))

theorem regular_append {actions more : List PortAction} {p : Port} :
    Regular (actions ++ more) p ↔ Regular actions p ∧ Regular more (p.after actions) := by
  induction actions generalizing p with
  | nil => exact ⟨fun h => ⟨trivial, h⟩, And.right⟩
  | cons a rest ih => exact (and_congr_right fun _ => ih).trans and_assoc.symm

/-! ### Ending a cycle -/

theorem foldl_hear (p : Port) (messages : List Message) :
    messages.foldl hear p = { p with
      inputState := messages.foldl Tracker.feedMessage p.inputState
      capture := messages.foldl Capture.put p.capture } := by
  induction messages generalizing p with
  | nil => rfl
  | cons m rest ih => exact ih (p.hear m)

/-- Writing touches nothing but the merge buffer. -/
theorem writeAll_eq (p : Port) (messages : List Message) :
    p.writeAll messages = { p with merge := (p.writeAll messages).merge } := by
  induction messages generalizing p with
  | nil => rfl
  | cons m rest ih => exact ih (p.write m)

/-- What was written is what the buffer held and some of the messages. -/
theorem mem_writeAll {p : Port} {messages : List Message} {m : Message}
    (h : m ∈ (p.writeAll messages).merge.entries) : m ∈ p.merge.entries ∨ m ∈ messages := by
  induction messages generalizing p with
  | nil => exact .inl h
  | cons first rest ih =>
    rcases ih h with h | h
    · have hwritten : (p.write first).merge.entries = p.merge.entries ∨
          (p.write first).merge.entries = p.merge.entries ++ [first] := by
        unfold write MergeBuffer.write
        split_ifs
        · exact .inl rfl
        · exact .inr rfl
      rcases hwritten with hsame | hmore
      · exact .inl (hsame ▸ h)
      · rw [hmore, List.mem_append, List.mem_singleton] at h
        exact h.imp_right fun hfirst => List.mem_cons.mpr (.inl hfirst)
    · exact .inr (List.mem_cons_of_mem _ h)

/-- What an input port lets pass at the end of a cycle. -/
def passed (p : Port) : List Message :=
  p.messages ++ if p.muted then [] else (p.writeAll p.pending.messages).merge.sort.entries

/-- An input port follows all that it lets pass. -/
theorem finish_input {p : Port} (h : p.direction = .input) :
    p.finish = { p with
      merge := (p.writeAll p.pending.messages).merge.sort
      pending := { p.pending with messages := [] }
      messages := p.passed
      inputState := p.passed.foldl Tracker.feedMessage p.inputState
      capture := p.passed.foldl Capture.put p.capture
      status := p.status.countEvents p.passed.length 0 } := by
  unfold finish passed
  rw [writeAll_eq]
  dsimp only
  rw [h]
  dsimp only
  rw [foldl_hear]

/-! ### Nothing is lost by the port -/

/-- What an input port has heard is what its capture has. -/
structure Remembers (p : Port) : Prop where
  input : p.direction = .input
  room : 0 < p.capture.ring.capacity
  state : p.capture.state = p.inputState

end Port

theorem Capture.state_putAll {c : Capture} (h : 0 < c.ring.capacity) (messages : List Message) :
    0 < (messages.foldl put c).ring.capacity ∧
      (messages.foldl put c).state = messages.foldl Tracker.feedMessage c.state := by
  induction messages generalizing c with
  | nil => exact ⟨h, rfl⟩
  | cons m rest ih =>
    have hrest := ih (c := c.put m) h
    rwa [state_put h m] at hrest

namespace Port

theorem Remembers.run {p : Port} (h : p.Remembers) (a : PortAction) : (a.run p).Remembers := by
  cases a with
  | prepare frames => exact ⟨h.input, h.room, (Capture.state_nextCycle _ _).trans h.state⟩
  | write m => exact ⟨h.input, h.room, h.state⟩
  | play m => exact ⟨h.input, h.room, h.state⟩
  | finish =>
    obtain ⟨hroom, hstate⟩ := Capture.state_putAll h.room p.passed
    show p.finish.Remembers
    rw [finish_input h.input]
    exact ⟨h.input, hroom, h.state ▸ hstate⟩
  | mute muted => exact ⟨h.input, h.room, h.state⟩
  | keep depth => exact ⟨h.input, h.room, h.state⟩

theorem Remembers.after {p : Port} (h : p.Remembers) (actions : List PortAction) : (p.after actions).Remembers := by
  induction actions generalizing p with
  | nil => exact h
  | cons a rest ih => exact ih (h.run a)

theorem new_remembers (mergeCapacity : Nat) {ringCapacity : Nat} (h : 0 < ringCapacity) :
    (new .input mergeCapacity ringCapacity).Remembers := ⟨rfl, h, rfl⟩

/-! ### What lies outside of the window -/

/-- A port in a regular run. -/
structure Keeps (p : Port) : Prop where
  input : p.direction = .input
  depth : p.capture.ring.depth.toNat < 2 ^ 31
  length : p.capture.ring.length.toNat < 2 ^ 31
  ranked : p.capture.ring.Ranked
  /-- What is to pass lies in the cycle. -/
  written : ∀ m ∈ p.merge.entries, m.time < p.capture.ring.length
  pending : ∀ m ∈ p.pending.messages, m.time < p.capture.ring.length
  /-- As long as nothing has passed, all that is in the ring is from earlier cycles. -/
  earlier : p.messages = [] → ∀ e ∈ p.capture.ring.events,
    p.capture.ring.length.toNat ≤ (p.capture.ring.age e).toNat

theorem ring_putAll (c : Capture) (messages : List Message) :
    (messages.foldl Capture.put c).ring = messages.foldl (fun r m => (r.put m).1) c.ring := by
  induction messages generalizing c with
  | nil => rfl
  | cons m rest ih => exact ih (c.put m)

/-- What passes at the end of a cycle is in order and lies in the cycle. -/
theorem Keeps.passed {p : Port} (h : p.Keeps) (hfirst : p.messages = []) :
    Ascending (·.time.toNat) p.passed ∧ ∀ m ∈ p.passed, m.time < p.capture.ring.length := by
  unfold Port.passed
  rw [hfirst, List.nil_append]
  split_ifs
  · exact ⟨List.Pairwise.nil, List.forall_mem_nil _⟩
  · refine ⟨(MergeBuffer.sort_spec _).1, fun m hm => ?_⟩
    rcases mem_writeAll (MergeBuffer.mem_sort.mp hm) with hm | hm
    · exact h.written m hm
    · exact h.pending m hm

/-- Ending a cycle for the first time adds messages no older than the cycle. -/
theorem Keeps.finish {p : Port} (h : p.Keeps) (hfirst : p.messages = []) :
    p.finish.Keeps ∧ p.finish.capture.ring.age = p.capture.ring.age ∧
      p.finish.capture.ring.length = p.capture.ring.length ∧ p.finish.capture.ring.depth = p.capture.ring.depth ∧
      ∀ e ∈ p.finish.capture.ring.events, e ∈ p.capture.ring.events ∨
        (p.capture.ring.age e).toNat ≤ p.capture.ring.length.toNat := by
  obtain ⟨hordered, hinside⟩ := h.passed hfirst
  obtain ⟨hage, hlength, hdepth⟩ := p.capture.ring.putAll_clock p.passed
  obtain ⟨hranked, hsource⟩ := h.ranked.putAll h.length hordered hinside fun e he m _ =>
    (Nat.sub_le _ _).trans (h.earlier hfirst e he)
  rw [finish_input h.input]
  dsimp only
  rw [ring_putAll]
  refine ⟨⟨h.input, ?_, ?_, ?_, ?_, List.forall_mem_nil _, ?_⟩, hage, hlength, hdepth, hsource⟩
  all_goals dsimp only; rw [ring_putAll]
  · exact hdepth ▸ h.depth
  · exact hlength ▸ h.length
  · exact hranked
  · intro m hm
    rw [hlength]
    rcases mem_writeAll (MergeBuffer.mem_sort.mp hm) with hm | hm
    · exact h.written m hm
    · exact h.pending m hm
  · intro hnone e he
    rw [hnone] at he ⊢
    exact h.earlier hfirst e he

theorem Keeps.write {p : Port} (h : p.Keeps) {m : Message} (hm : m.time < p.capture.ring.length) :
    (p.write m).Keeps := by
  refine ⟨h.input, h.depth, h.length, h.ranked, fun e he => ?_, h.pending, h.earlier⟩
  rcases mem_writeAll (show e ∈ (p.writeAll [m]).merge.entries from he) with he | he
  · exact h.written e he
  · exact List.mem_singleton.mp he ▸ hm

theorem Keeps.play {p : Port} (h : p.Keeps) {m : Message} (hm : m.time < p.capture.ring.length) :
    ({ p with pending := (p.pending.push m).1 } : Port).Keeps := by
  refine ⟨h.input, h.depth, h.length, h.ranked, h.written, fun e he => ?_, h.earlier⟩
  unfold Outbox.push at he
  split_ifs at he
  · rcases List.mem_append.mp he with he | he
    · exact h.pending e he
    · exact List.mem_singleton.mp he ▸ hm
  · exact h.pending e he

/-- A new cycle leaves nothing in the ring that is older than the depth. -/
theorem Keeps.prepare {p : Port} (h : p.Keeps) {frames : UInt32} (hframes : frames.toNat < 2 ^ 31) :
    (p.prepare frames.toNat).Keeps ∧ (p.prepare frames.toNat).capture.ring.length = frames ∧
      ∀ e ∈ (p.prepare frames.toNat).capture.ring.events,
        ((p.prepare frames.toNat).capture.ring.age e).toNat ≤ p.capture.ring.depth.toNat := by
  obtain ⟨hranked, hages⟩ := h.ranked.nextCycle h.depth hframes
  unfold Port.prepare Capture.nextCycle
  rw [UInt32.ofNat_toNat]
  exact ⟨⟨h.input, h.depth, hframes, hranked, List.forall_mem_nil _, List.forall_mem_nil _,
    fun _ e he => (hages e he).1⟩, rfl, fun e he => (hages e he).2⟩

theorem Keeps.run {p : Port} (h : p.Keeps) {a : PortAction} (ha : a.Regular p) : (a.run p).Keeps := by
  cases a with
  | prepare frames => exact (h.prepare ha).1
  | write m => exact h.write ha
  | play m => exact h.play ha
  | finish => exact (h.finish ha).1
  | mute muted => exact ⟨h.input, h.depth, h.length, h.ranked, h.written, h.pending, h.earlier⟩
  | keep depth =>
    exact ⟨h.input, ha, h.length, ⟨h.ranked.ordered, h.ranked.young⟩, h.written, h.pending, h.earlier⟩

theorem Keeps.after {p : Port} (h : p.Keeps) {actions : List PortAction} (hregular : Regular actions p) :
    (p.after actions).Keeps := by
  induction actions generalizing p with
  | nil => exact h
  | cons a rest ih => exact ih (h.run hregular.1) hregular.2

theorem new_keeps (mergeCapacity ringCapacity : Nat) : (new .input mergeCapacity ringCapacity).Keeps where
  input := rfl
  depth := Nat.two_pow_pos 31
  length := Nat.two_pow_pos 31
  ranked := ⟨List.Pairwise.nil, List.forall_mem_nil _⟩
  written := List.forall_mem_nil _
  pending := List.forall_mem_nil _
  earlier := fun _ => List.forall_mem_nil _

/-- All that is in the ring is within a bound, and so is the cycle. -/
structure Within (p : Port) (bound : Nat) : Prop where
  events : ∀ e ∈ p.capture.ring.events, (p.capture.ring.age e).toNat ≤ bound
  length : p.capture.ring.length.toNat ≤ bound

/-- Until the next cycle begins nothing goes out of bounds. -/
theorem Within.run {p : Port} {bound : Nat} (h : p.Within bound) (hkeeps : p.Keeps) {a : PortAction}
    (hregular : a.Regular p) (hcycle : a.begins = false) : (a.run p).Within bound := by
  cases a with
  | prepare frames => cases hcycle
  | write m => exact ⟨h.events, h.length⟩
  | play m => exact ⟨h.events, h.length⟩
  | finish =>
    obtain ⟨-, hage, hlength, -, hsource⟩ := hkeeps.finish hregular
    refine ⟨fun e he => ?_, (congrArg UInt32.toNat hlength).trans_le h.length⟩
    show (p.finish.capture.ring.age e).toNat ≤ bound
    rw [hage]
    exact (hsource e he).elim (h.events e) fun hyoung => hyoung.trans h.length
  | mute muted => exact ⟨h.events, h.length⟩
  | keep depth => exact ⟨h.events, h.length⟩

theorem Within.after {p : Port} {bound : Nat} (h : p.Within bound) (hkeeps : p.Keeps) {actions : List PortAction}
    (hregular : Regular actions p) (hcycle : ∀ a ∈ actions, a.begins = false) : (p.after actions).Within bound := by
  induction actions generalizing p with
  | nil => exact h
  | cons a rest ih =>
    rw [List.forall_mem_cons] at hcycle
    exact ih (h.run hkeeps hregular.1 hcycle.1) (hkeeps.run hregular.1) hregular.2 hcycle.2

end Port

/-! ## Adoption -/

namespace Channel

/-- A port and its capture agree on all that was ever heard, and adoption recalls what has
left the ring and what lies in the window. That is all, unless the depth is now
below the length of the cycle or below what it was at the start of the cycle. -/
theorem adoption_recalls_window {ringCapacity : Nat} (hcapacity : 0 < ringCapacity) (mergeCapacity : Nat)
    (actions : List PortAction) (c : Channel) (reverseStart keepBefore : Option Nat) :
    let fresh := Port.new .input mergeCapacity ringCapacity
    let p := fresh.after actions
    let adopted := c.adopt p.capture reverseStart keepBefore
    p.inputState = p.capture.state ∧
      (adopted.2 = .ok () → adopted.1.contentState = p.capture.windowState) ∧
        ∀ earlier frames later, actions = earlier ++ .prepare frames :: later →
          (∀ a ∈ later, a.begins = false) → Port.Regular actions fresh →
          frames ≤ p.capture.ring.depth → (fresh.after earlier).capture.ring.depth ≤ p.capture.ring.depth →
          adopted.2 = .ok () → adopted.1.contentState = p.inputState := by
  intro fresh p adopted
  have hremembers := (Port.new_remembers mergeCapacity hcapacity).after actions
  refine ⟨hremembers.state.symm, contentState_adopt, ?_⟩
  rintro earlier frames later rfl hcycle hregular hframes hdepth hok
  obtain ⟨hearlier, hprepare, hlater⟩ := Port.regular_append.mp hregular
  have hkept := (Port.new_keeps mergeCapacity ringCapacity).after hearlier
  obtain ⟨hkeeps, hlength, hages⟩ := hkept.prepare hprepare
  have hp : p = ((fresh.after earlier).prepare frames.toNat).after later := List.foldl_append
  have hwithin : p.Within p.capture.ring.depth.toNat := by
    have hstart : ((fresh.after earlier).prepare frames.toNat).Within p.capture.ring.depth.toNat :=
      ⟨fun e he => (hages e he).trans (UInt32.le_iff_toNat_le.mp hdepth),
        (congrArg UInt32.toNat hlength).trans_le (UInt32.le_iff_toNat_le.mp hframes)⟩
    have hend := hstart.after hkeeps hlater hcycle
    rwa [← hp] at hend
  rw [contentState_adopt hok, Capture.windowState_eq fun m hm => UInt32.le_iff_toNat_le.mpr (hwithin.events m hm)]
  exact hremembers.state

/-- A ring keeps a message of the last cycle when its depth is lowered, but the
message is out of the window at once: what is adopted before the next cycle does not
know of it. With the depth raised again it does. -/
theorem adoption_recalls_window_shrunk :
    let volume : Message := .short 1 0xB0 7 80
    let cycle : List PortAction := [.keep 16, .prepare 8, .write volume, .finish]
    let fresh := Port.new .input 4 4
    let shrunk := fresh.after (cycle ++ [.keep 4])
    let c := Channel.new 4 .direct
    let forgetful := (c.adopt shrunk.capture none none).1
    let mindful := (c.adopt (fresh.after (cycle ++ [.keep 4, .keep 16])).capture none none).1
    0 < 4 ∧ shrunk.inputState.control 0 7 = some 80 ∧ forgetful.contentState.control 0 7 = none ∧
      mindful.contentState = shrunk.inputState := by
  intro volume cycle fresh shrunk c forgetful mindful
  obtain ⟨-, hwindow, -⟩ := adoption_recalls_window (show 0 < 4 by decide) 4 (cycle ++ [.keep 4]) c none none
  obtain ⟨-, -, hall⟩ :=
    adoption_recalls_window (show 0 < 4 by decide) 4 (cycle ++ [.keep 4, .keep 16]) c none none
  have hforgot : forgetful.contentState = shrunk.capture.windowState := hwindow (by decide +kernel)
  have hrecalled : mindful.contentState = shrunk.inputState :=
    hall [.keep 16] 8 [.write volume, .finish, .keep 4, .keep 16] rfl (by decide) (by decide +kernel)
      (by decide +kernel) (by decide +kernel) (by decide +kernel)
  refine ⟨by decide, by decide +kernel, ?_, hrecalled⟩
  rw [hforgot]
  decide +kernel

end Channel

end Overdub.Midi
