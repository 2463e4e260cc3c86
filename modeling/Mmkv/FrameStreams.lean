import Mmkv.ByteReaders

/-!
# Streams of frames that arrive in chunks

A receiver keeps the bytes that have arrived and not been used.  Each arrival runs a
loop over them, whose step takes a frame off the front, or stops.  If the step takes
whole frames and stops at parts of one, then how the stream is divided into chunks makes
no difference.
-/

namespace FrameStreams

open List

variable {S P : Type}

/-- The end of a step: the loop stops or goes on, with the unused bytes and the state of
the application, or the run fails. -/
inductive Step (S : Type) where
  | stop (buffer : Bytes) (state : S)
  | next (buffer : Bytes) (state : S)
  | fail

def Step.Ends (I : S → Prop) : Step S → Prop
  | .stop _ s => I s
  | .next _ s => I s
  | .fail => True

/-- One state after another, with the relation that each element prescribes. -/
def Chain (R : P → S → S → Prop) : List P → S → S → Prop
  | [], s, t => s = t
  | p :: ps, s, t => ∃ s', R p s s' ∧ Chain R ps s' t

theorem Chain.append {R : P → S → S → Prop} {ps qs : List P} {s t u : S}
    (h : Chain R ps s t) (h' : Chain R qs t u) : Chain R (ps ++ qs) s u := by
  induction ps generalizing s with
  | nil =>
    cases h
    exact h'
  | cons p ps ih =>
    obtain ⟨s', hs', h⟩ := h
    exact ⟨s', hs', ih h⟩

structure Receiver (S : Type) where
  limit : Nat
  overflow : S → S
  step : Bytes → S → Step S

namespace Receiver

variable (receiver : Receiver S)

def loop : Nat → Bytes → S → Option (Bytes × S)
  | 0, _, _ => none
  | fuel + 1, buffer, s =>
    match receiver.step buffer s with
    | .stop buffer s => some (buffer, s)
    | .next buffer s => loop fuel buffer s
    | .fail => none

/-- The callback of a connection, with the bytes that can be read. -/
def onReadable (buffer : Bytes) (s : S) : Option (Bytes × S) :=
  if receiver.limit ≤ buffer.length then some ([], receiver.overflow s)
  else receiver.loop (buffer.length + 1) buffer s

def receiveAll : List Bytes → Bytes → S → Option (Bytes × S)
  | [], buffer, s => some (buffer, s)
  | chunk :: chunks, buffer, s => do
    let (buffer, s) ← receiver.onReadable (buffer ++ chunk) s
    receiveAll chunks buffer s

def Below : List Bytes → Bytes → S → Prop
  | [], _, _ => True
  | chunk :: chunks, buffer, s =>
    (buffer ++ chunk).length < receiver.limit ∧
      ∀ buffer' s', receiver.onReadable (buffer ++ chunk) s = some (buffer', s') →
        Below chunks buffer' s'

structure Keeps (I : S → Prop) : Prop where
  overflow : ∀ s, I s → I (receiver.overflow s)
  step : ∀ buffer s, I s → (receiver.step buffer s).Ends I

/-- The step takes a whole frame and hands its content over, and it waits for the rest
of a frame. -/
structure Delivers (frame : P → Bytes) (Handles : P → S → S → Prop) (Good : P → Prop) :
    Prop where
  whole : ∀ p rest s, Good p →
    ∃ s', receiver.step (frame p ++ rest) s = .next rest s' ∧ Handles p s s'
  part : ∀ p k s, Good p → k < (frame p).length →
    receiver.step ((frame p).take k) s = .stop ((frame p).take k) s
  empty : ∀ s, receiver.step [] s = .stop [] s

variable {receiver} {frame : P → Bytes} {Handles : P → S → S → Prop} {Good : P → Prop}
  {I : S → Prop} {buffer buffer' : Bytes} {s s' : S}

theorem Keeps.loop (h : receiver.Keeps I) (fuel : Nat) (hs : I s)
    (hloop : receiver.loop fuel buffer s = some (buffer', s')) : I s' := by
  induction fuel generalizing buffer s with
  | zero => cases hloop
  | succ fuel ih =>
    have hstep := h.step buffer s hs
    rw [Receiver.loop] at hloop
    cases hnext : receiver.step buffer s with
    | stop buffer1 s1 =>
      rw [hnext] at hloop hstep
      cases hloop
      exact hstep
    | next buffer1 s1 =>
      rw [hnext] at hloop hstep
      exact ih hstep hloop
    | fail =>
      rw [hnext] at hloop
      cases hloop

/-- What the overflow and each step keep, a read event keeps. -/
theorem Keeps.onReadable (h : receiver.Keeps I) (hs : I s)
    (hread : receiver.onReadable buffer s = some (buffer', s')) : I s' := by
  unfold Receiver.onReadable at hread
  split at hread
  next =>
    cases hread
    exact h.overflow s hs
  next => exact h.loop _ hs hread

def Waiting (frame : P → Bytes) (buffer : Bytes) : List P → Prop
  | [] => buffer = []
  | p :: _ => buffer.length < (frame p).length

section

variable (h : receiver.Delivers frame Handles Good)

include h

theorem Delivers.length_frame_pos {p : P} (hp : Good p) (s : S) : 0 < (frame p).length := by
  apply length_pos_of_ne_nil
  intro hnil
  obtain ⟨s', hwhole, -⟩ := h.whole p [] s hp
  rw [hnil, append_nil, h.empty] at hwhole
  cases hwhole

theorem Delivers.loop_frames (ps : List P)
    (hgood : ∀ p ∈ ps, Good p) {fuel : Nat} {future : Bytes} (s : S)
    (hstream : buffer ++ future = ps.flatMap frame) (hfuel : buffer.length < fuel) :
    ∃ done rest buffer' s', ps = done ++ rest ∧
      receiver.loop fuel buffer s = some (buffer', s') ∧ Chain Handles done s s' ∧
      buffer' ++ future = rest.flatMap frame ∧ Waiting frame buffer' rest := by
  induction ps generalizing fuel buffer s with
  | nil =>
    obtain ⟨fuel, rfl⟩ := Nat.exists_eq_succ_of_ne_zero (Nat.ne_zero_of_lt hfuel)
    obtain ⟨rfl, rfl⟩ := append_eq_nil_iff.1 hstream
    refine ⟨[], [], [], s, rfl, ?_, rfl, rfl, rfl⟩
    rw [loop, h.empty]
  | cons p ps ih =>
    obtain ⟨fuel, rfl⟩ := Nat.exists_eq_succ_of_ne_zero (Nat.ne_zero_of_lt hfuel)
    have hp := hgood p mem_cons_self
    rw [flatMap_cons] at hstream
    by_cases hlength : buffer.length < (frame p).length
    · -- only a part of the first frame has arrived
      have hpart : buffer = (frame p).take buffer.length := by
        have htake := congrArg (List.take buffer.length) hstream
        grind
      refine ⟨[], p :: ps, buffer, s, rfl, ?_, rfl, hstream, hlength⟩
      rw [loop, hpart, h.part p _ s hp hlength]
    · have hwhole : buffer = frame p ++ buffer.drop (frame p).length := by
        have htake := congrArg (List.take (frame p).length) hstream
        rw [take_left, take_append_of_le_length (Nat.le_of_not_lt hlength)] at htake
        conv_lhs => rw [← take_append_drop (frame p).length buffer, htake]
      have hrest : buffer.drop (frame p).length ++ future = ps.flatMap frame := by
        rw [hwhole, append_assoc] at hstream
        exact append_cancel_left hstream
      have hshorter : (buffer.drop (frame p).length).length < fuel := by
        have hpos := h.length_frame_pos hp s
        rw [length_drop]
        omega
      obtain ⟨s1, hstep, hs1⟩ := h.whole p (buffer.drop (frame p).length) s hp
      obtain ⟨done, rest, buffer', s', rfl, hloop, hchain, hleft, hwaiting⟩ :=
        ih (fun q hq => hgood q (mem_cons_of_mem _ hq)) s1 hrest hshorter
      refine ⟨p :: done, rest, buffer', s', rfl, ?_, ⟨s1, hs1, hchain⟩, hleft, hwaiting⟩
      rw [loop, hwhole, hstep]
      exact hloop

/-- Below the size limit each frame is handled once and in order, however the bytes arrive. -/
theorem Delivers.receiveAll_frames (chunks : List Bytes)
    {ps : List P} (hgood : ∀ p ∈ ps, Good p) (hstream : buffer ++ chunks.flatten = ps.flatMap frame)
    (hwaiting : Waiting frame buffer ps) (hbelow : receiver.Below chunks buffer s) :
    ∃ s', receiver.receiveAll chunks buffer s = some ([], s') ∧ Chain Handles ps s s' := by
  induction chunks generalizing ps buffer s with
  | nil =>
    cases ps with
    | nil =>
      refine ⟨s, ?_, rfl⟩
      rw [show buffer = [] from hwaiting]
      rfl
    | cons p ps =>
      have hlength : buffer.length < (frame p).length := hwaiting
      grind
  | cons chunk chunks ih =>
    obtain ⟨hlimit, hbelow⟩ := hbelow
    rw [flatten_cons, ← append_assoc] at hstream
    obtain ⟨done, rest, buffer', s1, rfl, hloop, hchain, hleft, hwaiting'⟩ :=
      h.loop_frames ps hgood s hstream (Nat.lt_succ_self _)
    have hreadable : receiver.onReadable (buffer ++ chunk) s = some (buffer', s1) := by
      rw [onReadable, if_neg (Nat.not_le_of_lt hlimit)]
      exact hloop
    obtain ⟨s', hrest, hchain'⟩ := ih (fun q hq => hgood q (mem_append_right _ hq))
      hleft hwaiting' (hbelow _ _ hreadable)
    refine ⟨s', ?_, hchain.append hchain'⟩
    rw [receiveAll, hreadable]
    exact hrest

end

end Receiver

end FrameStreams
