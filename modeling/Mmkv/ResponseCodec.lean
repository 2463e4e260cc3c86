import Mmkv.MessageComponents
import Mmkv.Requests

/-!
# The codec of responses

`MmbpResponse::SerializeTo` is written once for a `Buffer` and once, with the same
text, for a `ChunkList`; here it is one function over an output.  A response comes back
from its bytes unless a list has more elements than its count can tell.
-/

namespace Mmkv

open Reader List Response

namespace Response

variable (response : Response)

def has (field : ResponseField) : Bool :=
  response.hasBits.test field.bit

def content : Option ResponseField :=
  if response.hasValue then some .value
  else if response.hasValues then some .values
  else if response.hasKvs then some .kvs
  else if response.hasCount then some .count
  else if response.hasVmembers then some .vmembers
  else none

/-! ## Serializing -/

section Serialize

variable (kvarint : VarintCode)

def serializeContent : ResponseField → List Bytes
  | .value => serializeStr kvarint .w32 response.value
  | .values => serializeValues kvarint response.values
  | .kvs => serializeKvs kvarint response.kvs
  | .count => serializeNumber kvarint .w64 response.count.toNat
  | .vmembers => serializeVmembers kvarint response.vmembers

def serializeSelected : List Bytes :=
  match response.content with
  | some field => response.serializeContent kvarint field
  | none => []

def serializePieces : List Bytes :=
  serializeNumber kvarint .w8 response.status.toNat ++
  serializeNumber kvarint .w8 response.hasBits.toNat ++
  response.serializeSelected kvarint

def serialize : Bytes :=
  (response.serializePieces kvarint).flatten

/-- `SerializeTo`, for a `Buffer` and for a `ChunkList`. -/
def serializeTo {B : Type} (out : Sink B) (b : B) : B :=
  out.appendAll b (response.serializePieces kvarint)

end Serialize

/-! ## Parsing -/

section Parse

variable {σ : Type} (src : Source σ)

def parseStatus : StateT σ Option Response := do
  let status ← src.number .w8
  return { response with status := UInt8.ofNat status }

def parseHasBits : StateT σ Option Response := do
  let bits ← src.number .w8
  return { response with hasBits := UInt8.ofNat bits }

def parseContent : Option ResponseField → StateT σ Option Response
  | some .value => do
    let value ← parseStr src .w32
    return { response with value }
  | some .values => do
    let values ← parseValues src response.values
    return { response with values }
  | some .kvs => do
    let kvs ← parseKvs src response.kvs
    return { response with kvs }
  | some .count => do
    let count ← src.number .w64
    return { response with count := UInt64.ofNat count }
  | some .vmembers => do
    let vmembers ← parseVmembers src response.vmembers
    return { response with vmembers }
  | none => return response

end Parse

/-- `ParseFrom(Buffer&)`. -/
def parseFrom (kvarint : VarintCode) (response : Response) :
    StateT Bytes Option Response := do
  let response ← parseStatus response (.buffer kvarint)
  let response ← parseHasBits response (.buffer kvarint)
  parseContent response (.buffer kvarint) response.content

/-! ## What a parsed response holds -/

def withContent (into : Response) : Option ResponseField → Response
  | some .value => { into with value := response.value }
  | some .values => { into with values := response.values }
  | some .kvs => { into with kvs := response.kvs }
  | some .count => { into with count := response.count }
  | some .vmembers => { into with vmembers := response.vmembers }
  | none => into

def received (fresh : Response) : Response :=
  response.withContent
    { fresh with status := response.status, hasBits := response.hasBits } response.content

structure ShortStrings : Prop where
  value : response.hasValue → response.value.length < 2 ^ 32
  values : response.hasValues → ∀ s ∈ response.values, s.length < 2 ^ 32
  kvs : response.hasKvs →
    ∀ kv ∈ response.kvs, kv.key.length < 2 ^ 16 ∧ kv.value.length < 2 ^ 32
  vmembers : response.hasVmembers → ∀ wm ∈ response.vmembers, wm.value.length < 2 ^ 32

def SingleContent : Prop :=
  ∀ c d, response.has c → response.has d → c = d

def listLength : Option ResponseField → Nat
  | some .values => response.values.length
  | some .kvs => response.kvs.length
  | some .vmembers => response.vmembers.length
  | _ => 0

structure SetFieldsEq (response' : Response) : Prop where
  status : response'.status = response.status
  hasBits : response'.hasBits = response.hasBits
  value : response.hasValue → response'.value = response.value
  values : response.hasValues → response'.values = response.values
  kvs : response.hasKvs → response'.kvs = response.kvs
  count : response.hasCount → response'.count = response.count
  vmembers : response.hasVmembers → response'.vmembers = response.vmembers

variable {response} {c : ResponseField}

theorem has_of_content (h : response.content = some c) : response.has c := by
  unfold content at h
  split_ifs at h <;> cases h <;> assumption

theorem content_of_has (hone : response.SingleContent)
    (h : response.has c) : response.content = some c := by
  cases hcontent : response.content with
  | some d => rw [hone d c (has_of_content hcontent) h]
  | none =>
    unfold content at hcontent
    split_ifs at hcontent
    cases c <;> contradiction

theorem content_congr {response' : Response} (h : response'.hasBits = response.hasBits) :
    response'.content = response.content := by
  cases response
  cases h
  rfl

variable {kvarint : VarintCode}

theorem bytes_serializeTo {B : Type} (out : Sink B) (b : B) :
    out.bytes (response.serializeTo kvarint out b) =
      out.bytes b ++ response.serialize kvarint :=
  out.bytes_appendAll b _

/-! ## The round trip -/

section RoundTrip

variable (hkv : kvarint.Lawful) {into : Response}

include hkv

theorem reads_status (response into : Response) : Reads (parseStatus into (.buffer kvarint))
      (serializeNumber kvarint .w8 response.status.toNat).flatten
      { into with status := response.status } := by
  have hread := (reads_number hkv .w8 response.status.toNat_lt).map fun status =>
    { into with status := UInt8.ofNat status }
  rwa [UInt8.ofNat_toNat] at hread

theorem reads_hasBits (response into : Response) : Reads (parseHasBits into (.buffer kvarint))
      (serializeNumber kvarint .w8 response.hasBits.toNat).flatten
      { into with hasBits := response.hasBits } := by
  have hread := (reads_number hkv .w8 response.hasBits.toNat_lt).map fun bits =>
    { into with hasBits := UInt8.ofNat bits }
  rwa [UInt8.ofNat_toNat] at hread

theorem reads_content (hc : response.has c)
    (hshort : response.ShortStrings) (hlist : response.listLength (some c) < 2 ^ 32)
    (hvalues : into.values = []) (hkvs : into.kvs = []) (hvmembers : into.vmembers = []) :
    Reads (parseContent into (.buffer kvarint) (some c))
      (response.serializeContent kvarint c).flatten (response.withContent into (some c)) := by
  cases c with
  | value =>
    exact (reads_str hkv .w32 (hshort.value hc)).map fun value => { into with value }
  | values =>
    have hread := reads_values hkv hlist (hshort.values hc) into.values
    rw [overlay_values_iff.2 (by simp [hvalues])] at hread
    exact hread.map fun values => { into with values }
  | kvs =>
    have hread := reads_kvs hkv hlist (hshort.kvs hc) into.kvs
    rw [overlay_kvs_iff.2 (by simp [hkvs])] at hread
    exact hread.map fun kvs => { into with kvs }
  | count =>
    have hread := (reads_number hkv .w64 response.count.toNat_lt).map fun count =>
      { into with count := UInt64.ofNat count }
    rwa [UInt64.ofNat_toNat] at hread
  | vmembers =>
    have hread := reads_vmembers hkv hlist (hshort.vmembers hc) into.vmembers
    rw [overlay_vmembers_iff.2 (by simp [hvmembers])] at hread
    exact hread.map fun vmembers => { into with vmembers }

theorem reads_selected (hbits : into.hasBits = response.hasBits)
    (hshort : response.ShortStrings)
    (hlist : response.listLength response.content < 2 ^ 32)
    (hvalues : into.values = []) (hkvs : into.kvs = []) (hvmembers : into.vmembers = []) :
    Reads (parseContent into (.buffer kvarint) into.content)
      (response.serializeSelected kvarint).flatten
      (response.withContent into response.content) := by
  rw [content_congr hbits, serializeSelected]
  cases hcontent : response.content with
  | none => exact Reads.pure into
  | some c =>
    rw [hcontent] at hlist
    exact reads_content hkv (has_of_content hcontent) hshort hlist hvalues hkvs hvmembers

theorem reads_parseFrom (fresh : Response) (hshort : response.ShortStrings)
    (hlist : response.listLength response.content < 2 ^ 32)
    (hvalues : fresh.values = []) (hkvs : fresh.kvs = []) (hvmembers : fresh.vmembers = []) :
    Reads (parseFrom kvarint fresh) (response.serialize kvarint)
      (response.received fresh) := by
  simp only [serialize, serializePieces, flatten_append, append_assoc]
  refine (reads_status hkv response fresh).bind ?_
  refine (reads_hasBits hkv response _).bind ?_
  refine reads_selected hkv ?_ hshort hlist ?_ ?_ ?_
  · rfl
  · exact hvalues
  · exact hkvs
  · exact hvmembers

theorem parseFrom_values {values : List Str} (h : values.length % 2 ^ 32 = 0) :
    parseFrom kvarint (.new 0) (serialize ⟨0, 2, 0, [], values, [], []⟩ kvarint) =
      some (⟨0, 2, 0, [], [], [], []⟩, (values.flatMap (serializeStr kvarint .w32)).flatten) := by
  have hcount := reads_number_mod hkv .w32 values.length
  rw [Width.bits, h] at hcount
  have hcontent : (⟨0, 2, 0, [], values, [], []⟩ : Response).content =
      (⟨0, 2, 0, [], [], [], []⟩ : Response).content := content_congr rfl
  rw [show (⟨0, 2, 0, [], [], [], []⟩ : Response).content = some .values from rfl] at hcontent
  simp only [serialize, serializePieces, serializeSelected, hcontent, serializeContent,
    serializeValues, flatten_append, append_assoc]
  refine (bind_of_some (reads_status hkv ⟨0, 2, 0, [], [], [], []⟩ _ _)).trans ?_
  refine (bind_of_some (reads_hasBits hkv ⟨0, 2, 0, [], [], [], []⟩ _ _)).trans ?_
  exact bind_of_some (bind_of_some (hcount _))

end RoundTrip

theorem received_setFieldsEq (hone : response.SingleContent) (fresh : Response) :
    response.SetFieldsEq (response.received fresh) := by
  have hselected {c : ResponseField} (h : response.has c) : response.received fresh =
      response.withContent
        { fresh with status := response.status, hasBits := response.hasBits } (some c) := by
    rw [received, content_of_has hone h]
  constructor
  case status =>
    unfold received
    cases response.content with
    | none => rfl
    | some c => cases c <;> rfl
  case hasBits =>
    unfold received
    cases response.content with
    | none => rfl
    | some c => cases c <;> rfl
  case value =>
    intro h
    rw [hselected (c := .value) h]
    rfl
  case values =>
    intro h
    rw [hselected (c := .values) h]
    rfl
  case kvs =>
    intro h
    rw [hselected (c := .kvs) h]
    rfl
  case count =>
    intro h
    rw [hselected (c := .count) h]
    rfl
  case vmembers =>
    intro h
    rw [hselected (c := .vmembers) h]
    rfl

end Response

/-- A response comes back from the bytes that either writer appends. -/
theorem response_roundTrip (hkv : kvarint.Lawful) {B : Type}
    (out : Sink B) (b : B) (response : Response) (hshort : response.ShortStrings)
    (hone : response.SingleContent) (hlist : response.listLength response.content < 2 ^ 32)
    (count : UInt64) :
    ∃ bytes response', out.bytes (response.serializeTo kvarint out b) = out.bytes b ++ bytes ∧
      Reads (parseFrom kvarint (.new count)) bytes response' ∧
      response.SetFieldsEq response' :=
  ⟨_, _, bytes_serializeTo out b, reads_parseFrom hkv _ hshort hlist rfl rfl rfl,
    received_setFieldsEq hone _⟩

/-- A response with a value only, written to chunks. -/
theorem valueResponse_roundTrip :
    ∃ bytes response',
      (Sink.chunkList 4096).bytes (serializeTo ⟨0, 1, 0, [118], [], [], []⟩ leb128
        (Sink.chunkList 4096) []) = (Sink.chunkList 4096).bytes [] ++ bytes ∧
      Reads (parseFrom leb128 (.new 7)) bytes response' ∧
      Response.SetFieldsEq ⟨0, 1, 0, [118], [], [], []⟩ response' := by
  refine response_roundTrip leb128_lawful (Sink.chunkList 4096) [] _ ?_ ?_ ?_ 7
  · constructor <;> decide
  · intro c d
    cases c <;> cases d <;> decide
  · decide

/-- A list of `2 ^ 32` empty values comes back empty. -/
theorem longResponse_shortened :
    ∃ rest, rest ≠ [] ∧ parseFrom leb128 (.new 0)
      (serialize ⟨0, 2, 0, [], List.replicate (2 ^ 32) [], [], []⟩ leb128) =
        some (⟨0, 2, 0, [], [], [], []⟩, rest) := by
  refine ⟨_, ?_, parseFrom_values leb128_lawful ?_⟩
  · intro hnil
    have hpos := length_serializeNumber_pos leb128_lawful .w32 ([] : Str).length
    rw [show (2 : Nat) ^ 32 = (2 ^ 32 - 1) + 1 by decide, replicate_succ,
      flatMap_cons, flatten_append, append_eq_nil_iff] at hnil
    rw [serializeStr, flatten_append, append_eq_nil_iff] at hnil
    rw [hnil.1.1] at hpos
    cases hpos
  · rw [length_replicate, Nat.mod_self]

end Mmkv
