import Mmkv.MessageComponents
import Mmkv.Requests

/-!
# The codec of requests

`MmbpRequest::SerializeTo` and the two `ParseFrom`.  The bounds of a range are
written as unsigned numbers and read as signed ones, and the weights of a sorted set
are written as words and read by the raw parser as numbers of variable length.
Everything else comes back as it was.
-/

namespace Mmkv

open Reader List Request Source

inductive RequestContent where
  | value
  | values
  | kvs
  | count
  | range
  | vmembers
  deriving Repr, DecidableEq

namespace Request

variable (r : Request)

def has : RequestContent → Bool
  | .value => r.hasValue
  | .values => r.hasValues
  | .kvs => r.hasKvs
  | .count => r.hasCount
  | .range => r.hasRange
  | .vmembers => r.hasVmembers

def content : Option RequestContent :=
  if r.hasValue then some .value
  else if r.hasValues then some .values
  else if r.hasKvs then some .kvs
  else if r.hasCount then some .count
  else if r.hasRange then some .range
  else if r.hasVmembers then some .vmembers
  else none

/-! ## Serializing -/

section Serialize

variable (kvarint : VarintCode)

def serializeContent : RequestContent → List Bytes
  | .value => serializeStr kvarint .w32 r.value
  | .values => serializeValues kvarint r.values
  | .kvs => serializeKvs kvarint r.kvs
  | .count => serializeNumber kvarint .w32 r.count.toNat
  | .range => serializeNumber kvarint .w64 r.left.toNat ++
      serializeNumber kvarint .w64 r.right.toNat
  | .vmembers => serializeVmembers kvarint r.vmembers

def serializeSelected : List Bytes :=
  match r.content with
  | some content => r.serializeContent kvarint content
  | none => []

def serializeFields : List Bytes :=
  (if r.hasKey then serializeStr kvarint .w16 r.key else []) ++
  r.serializeSelected kvarint ++
  (if r.hasExpireTime then serializeNumber kvarint .w64 r.expireTime.toNat else [])

def serializeTo : List Bytes :=
  serializeNumber kvarint .w16 r.command.toNat ++
  serializeNumber kvarint .w8 r.hasBits.toNat ++
  r.serializeFields kvarint

def serialize : Bytes :=
  (r.serializeTo kvarint).flatten

end Serialize

/-! ## Parsing -/

def signedWord (i : Int) : UInt64 :=
  UInt64.ofNat (toSize i)

def setCount (n : Nat) (r : Request) : Request :=
  { r with left := UInt64.ofNat (r.left.toNat / 2 ^ 32 * 2 ^ 32 + n) }

section Parse

variable {σ : Type} (src : Source σ)

def parseKey (r : Request) : StateT σ Option Request :=
  if r.hasKey then do
    let key ← parseStr src .w16
    return { r with key }
  else return r

def parseContent (r : Request) : Option RequestContent → StateT σ Option Request
  | some .value => do
    let value ← parseStr src .w32
    return { r with value }
  | some .values => do
    let values ← parseValues src r.values
    return { r with values }
  | some .kvs => do
    let kvs ← parseKvs src r.kvs
    return { r with kvs }
  | some .count => do
    let count ← src.number .w32
    return r.setCount count
  | some .range => do
    let left ← src.signed
    let right ← src.signed
    return { r with left := signedWord left, right := signedWord right }
  | some .vmembers => do
    let vmembers ← parseVmembers src r.vmembers
    return { r with vmembers }
  | none => return r

def parseExpireTime (r : Request) : StateT σ Option Request :=
  if r.hasExpireTime then do
    let time ← src.number .w64
    return { r with expireTime := UInt64.ofNat time }
  else return r

def parseFields (r : Request) : StateT σ Option Request := do
  let r ← parseKey src r
  let r ← parseContent src r r.content
  parseExpireTime src r

def parseCommand (r : Request) : StateT σ Option Request := do
  let command ← src.number .w16
  return { r with command := UInt16.ofNat command }

def parseHasBits (r : Request) : StateT σ Option Request := do
  let bits ← src.number .w8
  return { r with hasBits := UInt8.ofNat bits }

end Parse

variable (kvarint : VarintCode)

/-- `ParseFrom(Buffer&)`. -/
def parseFrom (r : Request) : StateT Bytes Option Request := do
  let r ← parseCommand (buffer kvarint) r
  let r ← parseHasBits (buffer kvarint) r
  parseFields (buffer kvarint) r

def ifLeft (n : Nat) (r : Request) (parse : StateT Source.RawState Option Request) :
    StateT Source.RawState Option Request := fun s =>
  if n ≤ s.2 then parse s else some (r, s)

/-- `ParseFrom(void const**, size_t)`. -/
def parseRaw (r : Request) : StateT Source.RawState Option Request :=
  ifLeft 2 r do
    let r ← parseCommand (raw kvarint) r
    ifLeft 1 r do
      let r ← parseHasBits (raw kvarint) r
      parseFields (raw kvarint) r

/-- The same for the caller, who passes the number of bytes and keeps the pointer. -/
def parseFromRaw (size : Nat) (r : Request) : StateT Bytes Option Request := fun data =>
  (parseRaw kvarint r (data, size)).map fun x => (x.1, x.2.1)

/-! ## What a parsed request holds -/

/-- The content of `r` as it is read into another request, behind what its lists hold. -/
def withContent (r into : Request) : Option RequestContent → Request
  | some .value => { into with value := r.value }
  | some .values => { into with values := overlay (· ++ ·) [] into.values r.values }
  | some .kvs => { into with kvs := overlay joinKv ⟨[], []⟩ into.kvs r.kvs }
  | some .count => into.setCount r.count.toNat
  | some .range => { into with
      left := signedWord (unzigzag r.left.toNat)
      right := signedWord (unzigzag r.right.toNat) }
  | some .vmembers =>
    { into with vmembers := overlay joinVmember ⟨⟨0⟩, []⟩ into.vmembers r.vmembers }
  | none => into

/-- The fields that are sent, and otherwise those of the request that they are read
into. -/
def receivedFields (r into : Request) : Request :=
  let key := if r.hasKey then r.key else into.key
  { r.withContent { into with key } r.content with
    expireTime := if r.hasExpireTime then r.expireTime else into.expireTime }

def received (r fresh : Request) : Request :=
  r.receivedFields { fresh with command := r.command, hasBits := r.hasBits }

structure ShortStrings (r : Request) : Prop where
  key : r.hasKey → r.key.length < 2 ^ 16
  value : r.hasValue → r.value.length < 2 ^ 32
  values : r.hasValues → ∀ s ∈ r.values, s.length < 2 ^ 32
  kvs : r.hasKvs → ∀ kv ∈ r.kvs, kv.key.length < 2 ^ 16 ∧ kv.value.length < 2 ^ 32
  vmembers : r.hasVmembers → ∀ wm ∈ r.vmembers, wm.value.length < 2 ^ 32

def SingleContent (r : Request) : Prop :=
  ∀ c d, r.has c → r.has d → c = d

def listLength (r : Request) : Option RequestContent → Nat
  | some .values => r.values.length
  | some .kvs => r.kvs.length
  | some .vmembers => r.vmembers.length
  | _ => 0

/-- The elements that a content is read into are empty.  Elements behind the length of the list
that is read do not count, because the list is resized first. -/
def Spent (q r : Request) : Option RequestContent → Prop
  | some .values => ∀ s ∈ q.values.take r.values.length, s = []
  | some .kvs => ∀ kv ∈ q.kvs.take r.kvs.length, kv = ⟨[], []⟩
  | some .vmembers => ∀ wm ∈ q.vmembers.take r.vmembers.length, wm.value = []
  | _ => True

theorem spent_new {expireTime left right : UInt64} (r : Request) (c : Option RequestContent) :
    (new expireTime left right).Spent r c := by
  cases c with
  | none => trivial
  | some c => cases c <;> simp [Spent, new]

/-- Every field that is set in `r` has the same value in `r'`. -/
structure SetFieldsEq (r r' : Request) : Prop where
  command : r'.command = r.command
  hasBits : r'.hasBits = r.hasBits
  key : r.hasKey → r'.key = r.key
  value : r.hasValue → r'.value = r.value
  values : r.hasValues → r'.values = r.values
  kvs : r.hasKvs → r'.kvs = r.kvs
  count : r.hasCount → r'.count = r.count
  range : r.hasRange → r'.left = r.left ∧ r'.right = r.right
  vmembers : r.hasVmembers → r'.vmembers = r.vmembers
  expireTime : r.hasExpireTime → r'.expireTime = r.expireTime

variable {r : Request} {c : RequestContent}

theorem has_of_content (h : r.content = some c) : r.has c := by
  unfold content at h
  split_ifs at h <;> cases h <;> assumption

theorem content_of_has (hone : r.SingleContent) (h : r.has c) : r.content = some c := by
  cases hcontent : r.content with
  | some d => rw [hone d c (has_of_content hcontent) h]
  | none =>
    unfold content at hcontent
    split_ifs at hcontent
    cases c <;> contradiction

theorem content_congr {q : Request} (h : q.hasBits = r.hasBits) : q.content = r.content := by
  cases r
  cases h
  rfl

structure SameHeader (r r' : Request) : Prop where
  command : r'.command = r.command
  hasBits : r'.hasBits = r.hasBits
  key : r'.key = r.key
  expireTime : r'.expireTime = r.expireTime

theorem setCount_header (n : Nat) (r : Request) : r.SameHeader (r.setCount n) := by
  unfold setCount
  exact ⟨rfl, rfl, rfl, rfl⟩

theorem withContent_header (r into : Request) (c : Option RequestContent) :
    into.SameHeader (r.withContent into c) := by
  cases c with
  | none => exact ⟨rfl, rfl, rfl, rfl⟩
  | some c =>
    cases c with
    | count => exact setCount_header _ into
    | _ => exact ⟨rfl, rfl, rfl, rfl⟩

theorem command_received (r fresh : Request) : (r.received fresh).command = r.command :=
  (withContent_header r _ r.content).command

/-! ## The round trip -/

section RoundTrip

variable {kvarint : VarintCode} (hkv : kvarint.Lawful)

include hkv

theorem reads_command (r into : Request) : Reads (parseCommand (buffer kvarint) into)
      (serializeNumber kvarint .w16 r.command.toNat).flatten
      { into with command := r.command } := by
  have hread := (reads_number hkv .w16 r.command.toNat_lt).map fun command =>
    { into with command := UInt16.ofNat command }
  rwa [UInt16.ofNat_toNat] at hread

theorem reads_hasBits (r into : Request) : Reads (parseHasBits (buffer kvarint) into)
      (serializeNumber kvarint .w8 r.hasBits.toNat).flatten
      { into with hasBits := r.hasBits } := by
  have hread := (reads_number hkv .w8 r.hasBits.toNat_lt).map fun bits =>
    { into with hasBits := UInt8.ofNat bits }
  rwa [UInt8.ofNat_toNat] at hread

variable {r into : Request}

theorem reads_key (hbits : into.hasBits = r.hasBits) (h : r.hasKey → r.key.length < 2 ^ 16) :
    Reads (parseKey (buffer kvarint) into)
      (if r.hasKey then serializeStr kvarint .w16 r.key else []).flatten
      { into with key := if r.hasKey then r.key else into.key } := by
  have hhas : into.hasKey = r.hasKey := by simp only [hasKey, hbits]
  unfold parseKey
  rw [hhas]
  cases hkey : r.hasKey with
  | true => exact (reads_str hkv .w16 (h hkey)).map fun key => { into with key }
  | false => exact Reads.pure into

theorem reads_expireTime (hbits : into.hasBits = r.hasBits) :
    Reads (parseExpireTime (buffer kvarint) into)
      (if r.hasExpireTime then serializeNumber kvarint .w64 r.expireTime.toNat else []).flatten
      { into with
        expireTime := if r.hasExpireTime then r.expireTime else into.expireTime } := by
  have hhas : into.hasExpireTime = r.hasExpireTime := by simp only [hasExpireTime, hbits]
  unfold parseExpireTime
  rw [hhas]
  cases r.hasExpireTime with
  | true =>
    have hread := (reads_number hkv .w64 r.expireTime.toNat_lt).map fun time =>
      { into with expireTime := UInt64.ofNat time }
    rwa [UInt64.ofNat_toNat] at hread
  | false => exact Reads.pure into

theorem reads_bound (n : UInt64) :
    Reads (buffer kvarint).signed (serializeNumber kvarint .w64 n.toNat).flatten
      (unzigzag n.toNat) := by
  have hmod : n.toNat % 2 ^ 64 = n.toNat := Nat.mod_eq_of_lt n.toNat_lt
  rw [serializeNumber, flatten_singleton, Width.bits, hmod]
  exact hkv.readsSigned n.toNat_lt

theorem reads_content (hc : r.has c) (hshort : r.ShortStrings)
    (hlist : r.listLength (some c) < 2 ^ 32) :
    Reads (parseContent (buffer kvarint) into (some c))
      (r.serializeContent kvarint c).flatten (r.withContent into (some c)) := by
  cases c with
  | value =>
    exact (reads_str hkv .w32 (hshort.value hc)).map fun value => { into with value }
  | values =>
    have hread := reads_values hkv hlist (hshort.values hc) into.values
    exact hread.map fun values => { into with values }
  | kvs =>
    have hread := reads_kvs hkv hlist (hshort.kvs hc) into.kvs
    exact hread.map fun kvs => { into with kvs }
  | count => exact (reads_number hkv .w32 r.count.toNat_lt).map fun n => into.setCount n
  | range =>
    rw [serializeContent, flatten_append]
    refine (reads_bound hkv r.left).bind ?_
    exact (reads_bound hkv r.right).map fun right => { into with
      left := signedWord (unzigzag r.left.toNat), right := signedWord right }
  | vmembers =>
    have hread := reads_vmembers hkv hlist (hshort.vmembers hc) into.vmembers
    exact hread.map fun vmembers => { into with vmembers }

theorem reads_selected (hbits : into.hasBits = r.hasBits) (hshort : r.ShortStrings)
    (hlist : r.listLength r.content < 2 ^ 32) :
    Reads (parseContent (buffer kvarint) into into.content)
      (r.serializeSelected kvarint).flatten (r.withContent into r.content) := by
  rw [content_congr hbits, serializeSelected]
  cases hcontent : r.content with
  | none => exact Reads.pure into
  | some c =>
    rw [hcontent] at hlist
    exact reads_content hkv (has_of_content hcontent) hshort hlist

theorem reads_fields (into : Request) (hbits : into.hasBits = r.hasBits) (hshort : r.ShortStrings)
    (hlist : r.listLength r.content < 2 ^ 32) :
    Reads (parseFields (buffer kvarint) into) (r.serializeFields kvarint).flatten
      (r.receivedFields into) := by
  simp only [serializeFields, flatten_append, append_assoc]
  refine (reads_key hkv hbits hshort.key).bind ?_
  refine Reads.bind (reads_selected hkv hbits hshort hlist) ?_
  have hheader := withContent_header r
    { into with key := if r.hasKey then r.key else into.key } r.content
  have hexpire := reads_expireTime hkv (r := r) (hheader.hasBits.trans hbits)
  rwa [hheader.expireTime] at hexpire

theorem reads_parseFrom (fresh : Request) (hshort : r.ShortStrings)
    (hlist : r.listLength r.content < 2 ^ 32) :
    Reads (parseFrom kvarint fresh) (r.serialize kvarint) (r.received fresh) := by
  simp only [serialize, serializeTo, flatten_append, append_assoc]
  refine (reads_command hkv r fresh).bind ?_
  refine (reads_hasBits hkv r _).bind ?_
  exact reads_fields hkv _ rfl hshort hlist

variable {r' : Request} {tail rest : Bytes}

theorem listLength_of_parseContent (h : parseContent (buffer kvarint) into (some c)
      ((r.serializeContent kvarint c).flatten ++ tail) = some (r', rest)) :
    r'.listLength (some c) = r.listLength (some c) % 2 ^ 32 := by
  cases c with
  | values =>
    obtain ⟨values, rest', hlist, h⟩ := bind_eq_some.1 h
    cases h
    rw [serializeContent, serializeValues, flatten_append, append_assoc] at hlist
    exact length_of_list hkv hlist
  | kvs =>
    obtain ⟨kvs, rest', hlist, h⟩ := bind_eq_some.1 h
    cases h
    rw [serializeContent, serializeKvs, flatten_append, append_assoc] at hlist
    exact length_of_list hkv hlist
  | vmembers =>
    obtain ⟨vmembers, rest', hlist, h⟩ := bind_eq_some.1 h
    cases h
    rw [serializeContent, serializeVmembers, flatten_append, append_assoc] at hlist
    exact length_of_list hkv hlist
  | value => rfl
  | count => rfl
  | range => rfl

omit hkv in
theorem listLength_of_parseExpireTime {bs : Bytes}
    (h : parseExpireTime (buffer kvarint) into bs = some (r', rest))
    (c : Option RequestContent) : r'.listLength c = into.listLength c := by
  unfold parseExpireTime at h
  split at h
  next =>
    obtain ⟨time, rest', -, h⟩ := bind_eq_some.1 h
    cases h
    rfl
  next =>
    cases h
    rfl

theorem listLength_of_parseFields (hbits : into.hasBits = r.hasBits)
    (hkey : r.hasKey → r.key.length < 2 ^ 16) (h : parseFields (buffer kvarint) into
      ((r.serializeFields kvarint).flatten ++ tail) = some (r', rest)) :
    r'.listLength r.content = r.listLength r.content % 2 ^ 32 := by
  cases hcontent : r.content with
  | none => rfl
  | some c =>
    simp only [serializeFields, serializeSelected, hcontent, flatten_append, append_assoc] at h
    unfold parseFields at h
    rw [bind_of_some (reads_key hkv hbits hkey _)] at h
    obtain ⟨mid, rest', hparsed, hexpire⟩ := bind_eq_some.1 h
    have hselected := content_congr (r := r)
      (q := { into with key := if r.hasKey then r.key else into.key }) hbits
    rw [hselected, hcontent] at hparsed
    rw [listLength_of_parseExpireTime hexpire]
    exact listLength_of_parseContent hkv hparsed

theorem listLength_of_parseFrom {fresh : Request} (hkey : r.hasKey → r.key.length < 2 ^ 16)
    (h : parseFrom kvarint fresh (r.serialize kvarint ++ tail) = some (r', rest)) :
    r'.listLength r.content = r.listLength r.content % 2 ^ 32 := by
  simp only [serialize, serializeTo, flatten_append, append_assoc] at h
  unfold parseFrom at h
  rw [bind_of_some (reads_command hkv r fresh _), bind_of_some (reads_hasBits hkv r _ _)] at h
  refine listLength_of_parseFields hkv ?_ hkey h
  rfl

end RoundTrip

/-! ## Locality -/

section Locality

variable {kvarint : VarintCode} (hkv : kvarint.Local)

include hkv

variable (into : Request)

end Locality

/-! ## Bounds of ranges -/

variable {n : Nat}

theorem toSize_natCast (h : n < 2 ^ 64) : toSize n = n := by
  unfold toSize
  omega

theorem toSize_negSucc (h : n < 2 ^ 64) : toSize (-(n : Int) - 1) = 2 ^ 64 - 1 - n := by
  unfold toSize
  omega

theorem toSize_unzigzag (h : n < 2 ^ 64) :
    toSize (unzigzag n) = if n % 2 = 0 then n / 2 else 2 ^ 64 - 1 - n / 2 := by
  unfold unzigzag
  split
  · exact toSize_natCast (by omega)
  · exact toSize_negSucc (by omega)

theorem signedWord_unzigzag_eq_iff (n : UInt64) : signedWord (unzigzag n.toNat) = n ↔ n = 0 := by
  have hlt := n.toNat_lt
  constructor
  · intro h
    have hnat := congrArg UInt64.toNat h
    rw [signedWord, UInt64.toNat_ofNat', toSize_unzigzag hlt] at hnat
    have hzero : n.toNat = 0 := by grind
    exact UInt64.toNat_inj.1 hzero
  · rintro rfl
    simp [signedWord, unzigzag, toSize]

theorem setCount_count (n : Nat) (r : Request) : (r.setCount n).count = UInt32.ofNat n := by
  have hlt := r.left.toNat_lt
  apply UInt32.toNat_inj.1
  simp only [count, setCount, UInt64.toNat_toUInt32, UInt64.toNat_ofNat', UInt32.toNat_ofNat']
  omega

/-- A request is received as it was sent if its range is zero and it is read into empty
elements. -/
theorem received_setFieldsEq_iff (hone : r.SingleContent) (fresh : Request) :
    r.SetFieldsEq (r.received fresh) ↔
      (r.hasRange → r.left = 0 ∧ r.right = 0) ∧ fresh.Spent r r.content := by
  have hselected (c : RequestContent) (h : r.has c) : r.received fresh =
      { r.withContent { fresh with
          command := r.command
          hasBits := r.hasBits
          key := if r.hasKey then r.key else fresh.key } (some c) with
        expireTime := if r.hasExpireTime then r.expireTime else fresh.expireTime } := by
    rw [received, receivedFields, content_of_has hone h]
  constructor
  · intro h
    constructor
    · intro hrange
      obtain ⟨hleft, hright⟩ := h.range hrange
      rw [hselected .range hrange] at hleft hright
      exact ⟨(signedWord_unzigzag_eq_iff _).1 hleft, (signedWord_unzigzag_eq_iff _).1 hright⟩
    · cases hcontent : r.content with
      | none => trivial
      | some c =>
        have hhas := has_of_content hcontent
        have heq := hselected c hhas
        cases c with
        | values => exact overlay_values_iff.1 ((congrArg values heq).symm.trans (h.values hhas))
        | kvs => exact overlay_kvs_iff.1 ((congrArg kvs heq).symm.trans (h.kvs hhas))
        | vmembers =>
          exact overlay_vmembers_iff.1 ((congrArg vmembers heq).symm.trans (h.vmembers hhas))
        | _ => trivial
  · rintro ⟨h, hspent⟩
    have hheader := withContent_header r { fresh with
      command := r.command
      hasBits := r.hasBits
      key := if r.hasKey then r.key else fresh.key } r.content
    have hempty (c : RequestContent) (hc : r.has c) : fresh.Spent r (some c) := by
      rwa [content_of_has hone hc] at hspent
    constructor
    case command => exact hheader.command
    case hasBits => exact hheader.hasBits
    case key =>
      intro hkey
      refine hheader.key.trans ?_
      simp [hkey]
    case value =>
      intro hc
      rw [hselected .value hc]
      rfl
    case values =>
      intro hc
      rw [hselected .values hc]
      exact overlay_values_iff.2 (hempty .values hc)
    case kvs =>
      intro hc
      rw [hselected .kvs hc]
      exact overlay_kvs_iff.2 (hempty .kvs hc)
    case count =>
      intro hc
      rw [hselected .count hc]
      exact (setCount_count r.count.toNat _).trans UInt32.ofNat_toNat
    case range =>
      intro hc
      obtain ⟨hleft, hright⟩ := h hc
      rw [hselected .range hc]
      exact ⟨(signedWord_unzigzag_eq_iff _).2 hleft, (signedWord_unzigzag_eq_iff _).2 hright⟩
    case vmembers =>
      intro hc
      rw [hselected .vmembers hc]
      exact overlay_vmembers_iff.2 (hempty .vmembers hc)
    case expireTime =>
      intro hexpire
      simp [received, receivedFields, hexpire]

theorem SetFieldsEq.listLength_eq {r' : Request} (h : r.SetFieldsEq r') :
    r'.listLength r.content = r.listLength r.content := by
  cases hcontent : r.content with
  | none => rfl
  | some c =>
    have hhas := has_of_content hcontent
    cases c with
    | values => exact congrArg List.length (h.values hhas)
    | kvs => exact congrArg List.length (h.kvs hhas)
    | vmembers => exact congrArg List.length (h.vmembers hhas)
    | _ => rfl

end Request

/-- A request comes back from its bytes exactly when its range is zero, if it has one,
and its list has fewer elements than a count can tell. -/
theorem request_roundTrip_iff {kvarint : VarintCode} (hkv : kvarint.Lawful) (r : Request)
    (hshort : r.ShortStrings) (hone : r.SingleContent) (expireTime left right : UInt64) :
    (∃ r', Reads (parseFrom kvarint (.new expireTime left right))
        (r.serialize kvarint) r' ∧ r.SetFieldsEq r') ↔
      (r.hasRange → r.left = 0 ∧ r.right = 0) ∧ r.listLength r.content < 2 ^ 32 := by
  constructor
  · rintro ⟨r', hread, heq⟩
    have hlist : r.listLength r.content < 2 ^ 32 := by
      have hlength := listLength_of_parseFrom hkv hshort.key (hread [])
      rw [heq.listLength_eq] at hlength
      grind
    have hreceived := reads_parseFrom hkv (.new expireTime left right) hshort hlist
    rw [hread.unique hreceived] at heq
    exact ⟨((received_setFieldsEq_iff hone _).1 heq).1, hlist⟩
  · rintro ⟨hrange, hlist⟩
    exact ⟨_, reads_parseFrom hkv _ hshort hlist,
      (received_setFieldsEq_iff hone _).2 ⟨hrange, spent_new r _⟩⟩

/-- `MADD k f v`. -/
theorem madd_roundTrip :
    ∃ r', Reads (parseFrom leb128 (.new 0 0 0))
      (serialize ⟨30, 17, [107], [], [], [⟨[102], [118]⟩], [], 0, 0, 0⟩ leb128) r' ∧
      Request.SetFieldsEq ⟨30, 17, [107], [], [], [⟨[102], [118]⟩], [], 0, 0, 0⟩ r' := by
  refine (request_roundTrip_iff leb128_lawful _ ?_ ?_ 0 0 0).2 ⟨by decide, by decide⟩
  · constructor <;> decide
  · intro c d
    cases c <;> cases d <;> decide

/-- `LGETRANGE k 1 2` arrives as `LGETRANGE k -1 1`. -/
theorem lgetrange_bounds_lost :
    (parseFrom leb128 (.new 0 0 0)
      (serialize ⟨12, 65, [107], [], [], [], [], 0, 1, 2⟩ leb128)).map
        (fun x => (x.1.rangeLeft, x.1.rangeRight, x.2)) = some (-1, 1, []) := by
  decide +kernel

end Mmkv
