import Mmkv.ServerMessages

/-!
# What the peer makes of the replies

The replies of the message callback leave in frames, and the peer's receive loop gets
them back.  The response of the error callback leaves without a frame: the bytes sent are
a stream of frames as long as the error callback has not been called.
-/

namespace Mmkv

open Reader FrameStreams List MmbpCodec Response

/-! ## The server over a connection -/

/-- Bytes that become readable, with the time and with the bytes that lie in front of
the payloads. -/
structure Arrival where
  recvTime : UInt64
  stale : Bytes
  chunk : Bytes
  deriving Repr, DecidableEq

def ServerState.new {A : Type} (app : A) : ServerState A :=
  ⟨app, [], [], [], []⟩

namespace MmkvServer

variable {A : Type} (kvarint : VarintCode) (xxh32 : Bytes → UInt32) (config : ServerConfig)
  (fresh : Request) (execute : UInt64 → Request → A → Option (Response × A))

def serveAll : List Arrival → Bytes → ServerState A → Option (Bytes × ServerState A)
  | [], buffer, s => some (buffer, s)
  | arrival :: arrivals, buffer, s => do
    let receiver := receiver kvarint xxh32
      (callbacks kvarint xxh32 config fresh execute arrival.recvTime arrival.stale)
    let (buffer, s) ← receiver.onReadable (buffer ++ arrival.chunk) s
    serveAll arrivals buffer s

/-- Without a call of the error callback, the bytes sent are the frames of the replies. -/
def Framed (s : ServerState A) : Prop :=
  s.errors = [] →
    s.sent = (s.replies.map (serialize · kvarint)).flatMap
      (frame kvarint xxh32)

variable {kvarint xxh32 config fresh execute} {s : ServerState A}

theorem Framed.reply (h : Framed kvarint xxh32 s) (handled : Handled A) :
    Framed kvarint xxh32 (reply kvarint xxh32 handled s) := by
  intro herrors
  have hsent := h herrors
  simp only [MmkvServer.reply, map_append, flatMap_append, hsent, map_cons,
    map_nil, flatMap_cons, flatMap_nil, append_nil]

theorem framed_of_errors (h : s.errors ≠ []) : Framed kvarint xxh32 s :=
  fun herrors => absurd herrors h

theorem receiver_framed (recvTime : UInt64) (stale : Bytes) : (receiver kvarint xxh32
      (callbacks kvarint xxh32 config fresh execute recvTime stale)).Keeps
        (Framed kvarint xxh32) where
  overflow _ _ := framed_of_errors (append_ne_nil_of_right_ne_nil _ (cons_ne_nil _ _))
  step buffer s h := by
    unfold receiver step
    dsimp only
    split
    next => exact h
    next => exact framed_of_errors (append_ne_nil_of_right_ne_nil _ (cons_ne_nil _ _))
    next length rest _ =>
      split
      next => trivial
      next rest' s' hmessage =>
        obtain ⟨handled, -, hx⟩ := Option.map_eq_some_iff.1 hmessage
        cases hx
        split
        next => trivial
        next => exact h.reply handled

theorem serveAll_framed (arrivals : List Arrival) {buffer buffer' : Bytes}
    {s s' : ServerState A} (h : Framed kvarint xxh32 s)
    (hserve : serveAll kvarint xxh32 config fresh execute arrivals buffer s = some (buffer', s')) :
    Framed kvarint xxh32 s' := by
  induction arrivals generalizing buffer s with
  | nil =>
    cases hserve
    exact h
  | cons arrival arrivals ih =>
    obtain ⟨⟨buffer1, s1⟩, hread, hrest⟩ := Option.bind_eq_some_iff.1 hserve
    exact ih ((receiver_framed _ _).onReadable h hread) hrest

end MmkvServer

/-! ## The peer -/

structure PeerState where
  responses : List Response
  errors : List MmbpCodec.ErrorCode
  deriving Repr, DecidableEq

/-- The callbacks of the peer, which parses into a new response with any count. -/
def peerCallbacks (kvarint : VarintCode) (count : UInt64) : MmbpCodec.Callbacks PeerState where
  message _ buffer s :=
    (parseFrom kvarint (.new count) buffer).map fun x =>
      (x.2, { s with responses := s.responses ++ [x.1] })
  error code s := { s with errors := s.errors ++ [code] }

structure Response.Deliverable (kvarint : VarintCode) (response : Response) : Prop where
  short : response.ShortStrings
  single : response.SingleContent
  list : response.listLength response.content < 2 ^ 32
  frame : MmbpCodec.Accepted kvarint (response.serialize kvarint)

section Peer

variable {kvarint : VarintCode} (hkv : kvarint.Lawful) (count : UInt64)

include hkv

theorem peer_message {response : Response} (h : response.Deliverable kvarint) (length : Nat)
    (rest : Bytes) (s : PeerState) :
    (peerCallbacks kvarint count).message length (response.serialize kvarint ++ rest) s =
      some (rest, { s with
        responses := s.responses ++ [response.received (.new count)] }) := by
  have hread := reads_parseFrom hkv (.new count) h.short h.list rfl rfl rfl rest
  simp only [peerCallbacks, hread, Option.map_some]

theorem peer_of_chain {responses : List Response} {s t : PeerState}
    (hdeliverable : ∀ r ∈ responses, r.Deliverable kvarint)
    (h : Chain (MmbpCodec.Handles (peerCallbacks kvarint count))
      (responses.map (serialize · kvarint)) s t) :
    t.errors = s.errors ∧
      t.responses = s.responses ++ responses.map (received · (.new count)) := by
  induction responses generalizing s with
  | nil =>
    cases h
    exact ⟨rfl, (append_nil _).symm⟩
  | cons response responses ih =>
    obtain ⟨s', ⟨rest, hs'⟩, h⟩ := h
    rw [peer_message hkv count (hdeliverable response mem_cons_self)] at hs'
    grind

end Peer

/-- If the error callback has not been called and every reply fits, the peer decodes the
bytes sent into the replies, however they arrive. -/
theorem replies_decoded {kvarint : VarintCode} (hinc : kvarint.Incremental)
    (hkv : kvarint.Lawful) (xxh32 : Bytes → UInt32) {A : Type} (config : ServerConfig)
    (fresh : Request) (execute : UInt64 → Request → A → Option (Response × A)) (app : A)
    (arrivals : List Arrival) (buffer : Bytes) (s : ServerState A)
    (hserve : MmkvServer.serveAll kvarint xxh32 config fresh execute arrivals []
      (.new app) = some (buffer, s))
    (herrors : s.errors = []) (hdeliverable : ∀ r ∈ s.replies, r.Deliverable kvarint)
    (count : UInt64) (chunks : List Bytes) (hchunks : chunks.flatten = s.sent)
    (hbelow : (receiver kvarint xxh32 (peerCallbacks kvarint count)).Below chunks
      [] ⟨[], []⟩) :
    ∃ responses, (receiver kvarint xxh32 (peerCallbacks kvarint count)).receiveAll
        chunks [] ⟨[], []⟩ = some ([], ⟨responses, []⟩) ∧
      List.Forall₂ Response.SetFieldsEq s.replies responses := by
  have hframed : MmkvServer.Framed kvarint xxh32 s :=
    MmkvServer.serveAll_framed arrivals (fun _ => rfl) hserve
  rw [hframed herrors] at hchunks
  have haccepted : ∀ payload ∈ s.replies.map (serialize · kvarint),
      MmbpCodec.Accepted kvarint payload := by
    intro payload hpayload
    obtain ⟨r, hr, rfl⟩ := mem_map.1 hpayload
    exact (hdeliverable r hr).frame
  have htakes : ∀ payload ∈ s.replies.map (serialize · kvarint),
      MmbpCodec.Takes (peerCallbacks kvarint count) payload := by
    intro payload hpayload rest t
    obtain ⟨r, hr, rfl⟩ := mem_map.1 hpayload
    exact ⟨_, peer_message hkv count (hdeliverable r hr) _ rest t⟩
  obtain ⟨⟨responses, errors⟩, hreceive, hchain⟩ :=
    receiveAll_frames hinc haccepted htakes hchunks hbelow
  obtain ⟨rfl, hresponses⟩ := peer_of_chain hkv count hdeliverable hchain
  refine ⟨responses, hreceive, ?_⟩
  rw [show responses = _ from hresponses, nil_append, forall₂_map_right_iff, forall₂_same]
  exact fun r hr => received_setFieldsEq (hdeliverable r hr).single _

/-- One request, and its reply that arrives in two pieces. -/
theorem strGet_reply_decoded :
    ∃ responses, (receiver leb128 (fun _ => 0) (peerCallbacks leb128 7)).receiveAll
        [[11, 77, 77, 66], [80, 255, 1, 0, 0, 0, 0, 0]] [] ⟨[], []⟩ =
          some ([], ⟨responses, []⟩) ∧
      List.Forall₂ Response.SetFieldsEq [.new 0] responses := by
  refine replies_decoded leb128_incremental leb128_lawful (fun _ => 0) ⟨false, false⟩
    (.new 0 0 0) (fun _ _ _ => some (.new 0, ())) ()
    [⟨0, [], frame leb128 (fun _ => 0) [2, 1, 1, 107]⟩] []
    ⟨(), [], [11, 77, 77, 66, 80, 255, 1, 0, 0, 0, 0, 0], [.new 0], []⟩ rfl rfl ?_ 7 _ rfl ?_
  · intro r hr
    obtain rfl := mem_singleton.1 hr
    constructor
    · constructor <;> decide
    · intro c d
      cases c <;> cases d <;> decide
    · decide
    · decide
  · refine ⟨by decide, fun buffer s h => ?_⟩
    cases h
    exact ⟨by decide, fun _ _ _ => trivial⟩

/-- A bad size is answered without a frame, and the answer is a bad size to the peer. -/
theorem errorResponse_unframed :
    ∃ s : ServerState Unit, MmkvServer.serveAll leb128 (fun _ => 0) ⟨false, false⟩ (.new 0 0 0)
        (fun _ _ _ => some (.new 0, ())) [⟨0, [], [0]⟩] [] (.new ()) = some ([0], s) ∧
      s.sent = MmkvServer.errorResponse.serialize leb128 ∧
      (receiver leb128 (fun _ => 0) (peerCallbacks leb128 0)).receiveAll [s.sent] []
        ⟨[], []⟩ = some (s.sent, ⟨[], [.invalidSizeHeader]⟩) :=
  ⟨_, rfl, rfl, rfl⟩

end Mmkv
