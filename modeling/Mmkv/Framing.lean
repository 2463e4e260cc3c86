import Mmkv.VarintCodes
import Mmkv.FrameStreams

/-!
# Frames of the MMBP codec

A frame is the size of what follows, the tag, the payload and a checksum over tag and
payload.  `MmbpCodec::SerializeTo` writes it, the loop of `SetUpConnection` takes it off
the bytes that have arrived.  `XXH32` is an arbitrary function here.
-/

namespace Mmkv

open FrameStreams List

namespace MmbpCodec

def maxSize : Nat := 67108864

def tag : Bytes := [77, 77, 66, 80]

def minSize : Nat := 8

inductive ErrorCode where
  | invalidSizeHeader
  | invalidCheckSum
  | invalidMessage
  deriving Repr, DecidableEq

section Frame

variable (kvarint : VarintCode) (xxh32 : Bytes → UInt32)

def body (payload : Bytes) : Bytes :=
  tag ++ payload

def checkSum (payload : Bytes) : Bytes :=
  bigEndian 4 (xxh32 (body payload)).toNat

/-- `SerializeTo`, for the bytes of a message. -/
def frame (payload : Bytes) : Bytes :=
  let buffer := body payload ++ checkSum xxh32 payload
  kvarint.encode .w32 (buffer.length % 2 ^ 32) ++ buffer

def Accepted (payload : Bytes) : Prop :=
  payload.length + minSize + (kvarint.encode .w32 (payload.length + minSize)).length < maxSize

instance (payload : Bytes) : Decidable (Accepted kvarint payload) :=
  inferInstanceAs (Decidable (_ < _))

/-! ## The receive loop -/

inductive Found where
  | wait
  | error (code : ErrorCode) (buffer : Bytes)
  | message (length : Nat) (buffer : Bytes)
  deriving Repr, DecidableEq

def verifyCheckSum (buffer : Bytes) (size : Nat) : Bool :=
  (xxh32 (buffer.take (size - 4))).toNat = ofBigEndian ((buffer.drop (size - 4)).take 4)

/-- A message is found with the length of its payload and the buffer from the payload
on. -/
def find (buffer : Bytes) : Found :=
  match kvarint.decode .w32 buffer with
  | .invalid => .error .invalidMessage buffer
  | .short => .wait
  | .ok length size =>
    if size < minSize ∨ maxSize - length ≤ size then .error .invalidSizeHeader buffer
    else if buffer.length - length < size then .wait
    else
      let buffer := buffer.drop length
      if verifyCheckSum xxh32 buffer size = false then .error .invalidCheckSum buffer
      else if buffer.take 4 ≠ tag then .error .invalidMessage buffer
      else .message (size - minSize) (buffer.drop 4)

end Frame

/-- The callbacks of a codec.  That of a message reads from the buffer; there is no
result if it fails. -/
structure Callbacks (S : Type) where
  message : Nat → Bytes → S → Option (Bytes × S)
  error : ErrorCode → S → S

section Receive

variable {S : Type} (kvarint : VarintCode) (xxh32 : Bytes → UInt32) (callbacks : Callbacks S)

/-- One round of the loop.  After the callback the checksum is skipped. -/
def step (buffer : Bytes) (s : S) : Step S :=
  match find kvarint xxh32 buffer with
  | .wait => .stop buffer s
  | .error code buffer => .stop buffer (callbacks.error code s)
  | .message length buffer =>
    match callbacks.message length buffer s with
    | none => .fail
    | some (buffer, s) => if buffer.length < 4 then .fail else .next (buffer.drop 4) s

/-- `SetUpConnection`. -/
def receiver : Receiver S where
  limit := maxSize
  overflow := callbacks.error .invalidSizeHeader
  step := step kvarint xxh32 callbacks

end Receive

/-! ## Frames and their parts -/

section Lemmas

variable {kvarint : VarintCode} {xxh32 : Bytes → UInt32}

theorem length_body (payload : Bytes) : (body payload).length = payload.length + 4 := by
  simp only [body, tag, length_append, length_cons, length_nil]
  omega

theorem length_checkSum (payload : Bytes) : (checkSum xxh32 payload).length = 4 :=
  length_bigEndian 4 _

variable {payload : Bytes}

theorem Accepted.lt (h : Accepted kvarint payload) : payload.length + minSize < 2 ^ 32 := by
  unfold Accepted maxSize at h
  omega

theorem frame_eq (h : Accepted kvarint payload) : frame kvarint xxh32 payload =
      kvarint.encode .w32 (payload.length + minSize) ++
        (body payload ++ checkSum xxh32 payload) := by
  have hlength : (body payload ++ checkSum xxh32 payload).length = payload.length + minSize := by
    rw [length_append, length_body, length_checkSum]
    rfl
  rw [frame, hlength, Nat.mod_eq_of_lt h.lt]

theorem length_frame (h : Accepted kvarint payload) : (frame kvarint xxh32 payload).length =
      (kvarint.encode .w32 (payload.length + minSize)).length +
        (payload.length + minSize) := by
  rw [frame_eq h, length_append, length_append, length_body, length_checkSum]
  rfl

theorem verifyCheckSum_frame (payload rest : Bytes) :
    verifyCheckSum xxh32 (body payload ++ (checkSum xxh32 payload ++ rest))
      (payload.length + minSize) = true := by
  have hsize : payload.length + minSize - 4 = (body payload).length := by
    rfl
  have hsum : (checkSum xxh32 payload ++ rest).take 4 = checkSum xxh32 payload := by
    rw [take_append_of_le_length (Nat.le_of_eq (length_checkSum payload).symm),
      take_of_length_le (Nat.le_of_eq (length_checkSum payload))]
  rw [verifyCheckSum, hsize, take_left, drop_left, hsum, checkSum,
    ofBigEndian_bigEndian (xxh32 (body payload)).toNat_lt]
  simp

variable (hinc : kvarint.Incremental)

include hinc

theorem find_frame (h : Accepted kvarint payload) (rest : Bytes) :
    find kvarint xxh32 (frame kvarint xxh32 payload ++ rest) =
      .message payload.length (payload ++ (checkSum xxh32 payload ++ rest)) := by
  have hdecode := hinc.decode_encode _ (body payload ++ (checkSum xxh32 payload ++ rest)) h.lt
  have hsize : ¬ (payload.length + minSize < minSize ∨ maxSize -
      (kvarint.encode .w32 (payload.length + minSize)).length ≤ payload.length + minSize) := by
    unfold Accepted at h
    omega
  have hlong : ¬ (body payload ++ (checkSum xxh32 payload ++ rest)).length <
      payload.length + minSize := by
    rw [length_append, length_append, length_body, length_checkSum, minSize]
    omega
  have htag : (body payload ++ (checkSum xxh32 payload ++ rest)).take 4 = tag := rfl
  have hpayload : (body payload ++ (checkSum xxh32 payload ++ rest)).drop 4 =
      payload ++ (checkSum xxh32 payload ++ rest) := rfl
  have hreadable : ¬ (kvarint.encode .w32 (payload.length + minSize) ++
      (body payload ++ (checkSum xxh32 payload ++ rest))).length -
        (kvarint.encode .w32 (payload.length + minSize)).length < payload.length + minSize := by
    rw [length_append, Nat.add_sub_cancel_left]
    exact hlong
  rw [frame_eq h, append_assoc, append_assoc, find, hdecode]
  dsimp only
  rw [if_neg hsize, if_neg hreadable, drop_left, verifyCheckSum_frame, htag, hpayload]
  simp

theorem find_part (h : Accepted kvarint payload) {k : Nat}
    (hk : k < (frame kvarint xxh32 payload).length) :
    find kvarint xxh32 ((frame kvarint xxh32 payload).take k) = .wait := by
  have hlength : (frame kvarint xxh32 payload).length = _ := length_frame h
  rw [frame_eq h]
  by_cases hheader : k < (kvarint.encode .w32 (payload.length + minSize)).length
  · rw [take_append_of_le_length (Nat.le_of_lt hheader), find, hinc.decode_take _ _ h.lt hheader]
  · obtain ⟨j, rfl⟩ := Nat.exists_eq_add_of_le (Nat.le_of_not_lt hheader)
    have hsize : ¬ (payload.length + minSize < minSize ∨ maxSize -
        (kvarint.encode .w32 (payload.length + minSize)).length ≤ payload.length + minSize) := by
      unfold Accepted at h
      omega
    have hshort : ((body payload ++ checkSum xxh32 payload).take j).length <
        payload.length + minSize := by
      rw [length_take]
      omega
    rw [take_length_add_append, find, hinc.decode_encode _ _ h.lt]
    grind

theorem find_nil : find kvarint xxh32 [] = .wait := by
  have hpos := hinc.length_encode_pos (n := 0) (by decide)
  have hshort := hinc.decode_take 0 0 (by decide) hpos
  rw [take_zero] at hshort
  rw [find, hshort]

def Takes {S : Type} (callbacks : Callbacks S) (payload : Bytes) : Prop :=
  ∀ rest s, ∃ s', callbacks.message payload.length (payload ++ rest) s = some (rest, s')

def Handles {S : Type} (callbacks : Callbacks S) (payload : Bytes) (s s' : S) : Prop :=
  ∃ rest, callbacks.message payload.length (payload ++ rest) s = some (rest, s')

variable {S : Type}

theorem receiver_delivers (xxh32 : Bytes → UInt32) (callbacks : Callbacks S) :
    (receiver kvarint xxh32 callbacks).Delivers (frame kvarint xxh32) (Handles callbacks)
      (fun payload => Accepted kvarint payload ∧ Takes callbacks payload) where
  whole payload rest s h := by
    have hchecksum : ¬ (checkSum xxh32 payload ++ rest).length < 4 := by
      rw [length_append, length_checkSum]
      omega
    have hdrop : (checkSum xxh32 payload ++ rest).drop 4 = rest := by
      have hlength : (checkSum xxh32 payload).length = 4 := length_checkSum payload
      rw [← hlength, drop_left]
    obtain ⟨s', hs'⟩ := h.2 (checkSum xxh32 payload ++ rest) s
    refine ⟨s', ?_, _, hs'⟩
    simp only [receiver, step, find_frame hinc h.1, hs', if_neg hchecksum, hdrop]
  part payload k s h hk := by
    simp only [receiver, step, find_part hinc h.1 hk]
  empty s := by
    simp only [receiver, step, find_nil hinc]

theorem receiveAll_frames {callbacks : Callbacks S} {payloads chunks : List Bytes} {s : S}
    (haccepted : ∀ payload ∈ payloads, Accepted kvarint payload)
    (htakes : ∀ payload ∈ payloads, Takes callbacks payload)
    (hchunks : chunks.flatten = payloads.flatMap (frame kvarint xxh32))
    (hbelow : (receiver kvarint xxh32 callbacks).Below chunks [] s) :
    ∃ s', (receiver kvarint xxh32 callbacks).receiveAll chunks [] s = some ([], s') ∧
      Chain (Handles callbacks) payloads s s' := by
  have hdelivers := receiver_delivers hinc xxh32 callbacks
  have hgood : ∀ payload ∈ payloads, Accepted kvarint payload ∧ Takes callbacks payload :=
    fun payload hmem => ⟨haccepted payload hmem, htakes payload hmem⟩
  refine hdelivers.receiveAll_frames chunks hgood hchunks ?_ hbelow
  cases payloads with
  | nil => rfl
  | cons payload payloads =>
    exact hdelivers.length_frame_pos (hgood payload mem_cons_self) s

end Lemmas

/-! ## Traces of callbacks -/

/-- A call of one of the callbacks, with the buffer at the time of the call. -/
inductive Call where
  | message (length : Nat) (buffer : Bytes)
  | error (code : ErrorCode)
  deriving Repr, DecidableEq

def Callbacks.traced {S : Type} (callbacks : Callbacks S) : Callbacks (S × List Call) where
  message length buffer s :=
    (callbacks.message length buffer s.1).map fun x =>
      (x.1, x.2, s.2 ++ [.message length buffer])
  error code s := (callbacks.error code s.1, s.2 ++ [.error code])

/-- The call hands the payload over: with its length, and at its first byte. -/
def HandsOver (payload : Bytes) (call : Call) : Prop :=
  ∃ rest, call = .message payload.length (payload ++ rest)

theorem trace_of_chain {callbacks : Callbacks S} {payloads : List Bytes}
    {s t : S × List Call} (h : Chain (Handles callbacks.traced) payloads s t) :
    ∃ calls, t.2 = s.2 ++ calls ∧ List.Forall₂ HandsOver payloads calls := by
  induction payloads generalizing s with
  | nil =>
    cases h
    exact ⟨[], (append_nil _).symm, .nil⟩
  | cons payload payloads ih =>
    obtain ⟨s', ⟨_, hs'⟩, h⟩ := h
    obtain ⟨⟨rest, s1⟩, -, hx⟩ := Option.map_eq_some_iff.1 hs'
    cases hx
    obtain ⟨calls, ht, hcalls⟩ := ih h
    refine ⟨.message payload.length (payload ++ rest) :: calls, ?_, ?_⟩
    · rw [ht, append_assoc]
      rfl
    · exact .cons ⟨rest, rfl⟩ hcalls

end MmbpCodec

open MmbpCodec

/-- However the stream is divided, the calls are one of the message callback for each
message, in their order, and the buffer is empty in the end. -/
theorem framing_chunks {kvarint : VarintCode} (hinc : kvarint.Incremental)
    (xxh32 : Bytes → UInt32) {S : Type} (callbacks : MmbpCodec.Callbacks S)
    (payloads chunks : List Bytes) (s : S)
    (htakes : ∀ payload ∈ payloads, MmbpCodec.Takes callbacks payload)
    (haccepted : ∀ payload ∈ payloads, MmbpCodec.Accepted kvarint payload)
    (hchunks : chunks.flatten = payloads.flatMap (frame kvarint xxh32))
    (hbelow : (receiver kvarint xxh32 callbacks.traced).Below chunks [] (s, [])) :
    ∃ s' calls, (receiver kvarint xxh32 callbacks.traced).receiveAll chunks []
        (s, []) = some ([], s', calls) ∧
      List.Forall₂ MmbpCodec.HandsOver payloads calls := by
  have htraced : ∀ payload ∈ payloads, MmbpCodec.Takes callbacks.traced payload := by
    intro payload hmem rest t
    obtain ⟨s', hs'⟩ := htakes payload hmem rest t.1
    refine ⟨(s', t.2 ++ [.message payload.length (payload ++ rest)]), ?_⟩
    exact congrArg (Option.map _) hs'
  obtain ⟨⟨s', calls⟩, hreceive, hchain⟩ :=
    receiveAll_frames hinc haccepted htraced hchunks hbelow
  obtain ⟨calls', heq, hcalls⟩ := trace_of_chain hchain
  grind

/-- Two messages that arrive in three pieces, the second of which ends in the size of the
second message. -/
theorem twoFrames_threeChunks :
    ∃ s' calls, (receiver leb128 (fun _ => 0)
        (MmbpCodec.Callbacks.traced ⟨fun n buffer s => some (buffer.drop n, s + n),
          fun _ s => s⟩)).receiveAll
        [[11, 77, 77], [66, 80, 1, 2, 3, 0, 0, 0, 0, 9], [77, 77, 66, 80, 4, 0, 0, 0, 0]] []
        (0, []) = some ([], s', calls) ∧
      List.Forall₂ MmbpCodec.HandsOver [[1, 2, 3], [4]] calls := by
  refine framing_chunks leb128_incremental (fun _ => 0)
    ⟨fun n buffer s => some (buffer.drop n, s + n), fun _ s => s⟩ [[1, 2, 3], [4]] _ 0
    ?_ ?_ ?_ ?_
  · exact fun payload _ rest s => ⟨s + payload.length, by simp⟩
  · intro payload hmem
    rcases mem_pair.1 hmem with rfl | rfl <;> decide
  · decide
  · refine ⟨by decide, fun buffer s h => ?_⟩
    cases h
    refine ⟨by decide, fun buffer s h => ?_⟩
    cases h
    exact ⟨by decide, fun _ _ _ => trivial⟩

end Mmkv
