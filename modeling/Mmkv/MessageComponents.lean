import Mmkv.VarintCodes
import Mmkv.Vset

/-!
# Components of MMBP messages

`SerializeComponent` appends a component to a buffer, here as the list of the
appended pieces; `ParseComponent` reads it back.  There are two families of parsers,
one over a `Buffer` and one over a raw pointer with the number of bytes that are
left.  Both are one family here, over the operations of a source; the two sources
differ where the two families do.
-/

namespace Mmkv

open Reader Nat List

/-! ## Sources -/

/-- `text` reads the bytes of a single string and `element` those of a string in a
list. -/
structure Source (σ : Type) where
  number : Width → StateT σ Option Nat
  signed : StateT σ Option Int
  weight : StateT σ Option Weight
  text : Nat → StateT σ Option Str
  element : Nat → StateT σ Option Str

namespace Source

/-- A failed assertion and an access behind the last byte end the run. -/
def buffer (kvarint : VarintCode) : Source Bytes where
  number := kvarint.read
  signed := kvarint.readSigned
  weight := do
    let n ← word 8
    return ⟨UInt64.ofNat n⟩
  text := takeBytes
  element := takeBytes

/-- The bytes from the pointer on, and `*p_size`. -/
abbrev RawState : Type :=
  Bytes × Nat

def rawReader {α : Type} (decode : Bytes → Decoded α) : StateT RawState Option α :=
  fun (data, size) =>
    match decode (data.take size) with
    | .ok length value =>
      if length ≤ data.length then
        some (value, data.drop length, toSize (size - length))
      else none
    | .invalid => none
    | .short => none

/-- The parser of a single string leaves `*p_size` as it is. -/
def rawText (n : Nat) : StateT RawState Option Str := fun (data, size) =>
  if n ≤ data.length then some (data.take n, data.drop n, size) else none

def rawElement (n : Nat) : StateT RawState Option Str := fun (data, size) =>
  if n ≤ data.length then some (data.take n, data.drop n, toSize (size - n)) else none

def raw (kvarint : VarintCode) : Source RawState where
  number w := rawReader (kvarint.decode w)
  signed := rawReader kvarint.decodeSigned
  weight := do
    let n ← rawReader (kvarint.decode .w64)
    return ⟨UInt64.ofNat n⟩
  text := rawText
  element := rawElement

end Source

open Source

/-! ## `SerializeComponent` -/

section Serialize

variable (kvarint : VarintCode)

def serializeNumber (w : Width) (n : Nat) : List Bytes :=
  [kvarint.encode w (n % 2 ^ w.bits)]

def serializeStr (w : Width) (s : Str) : List Bytes :=
  serializeNumber kvarint w s.length ++ [s]

def serializeValues (values : List Str) : List Bytes :=
  serializeNumber kvarint .w32 values.length ++
    values.flatMap (serializeStr kvarint .w32)

def serializeKv (kv : KeyValue Str) : List Bytes :=
  serializeStr kvarint .w16 kv.key ++ serializeStr kvarint .w32 kv.value

def serializeKvs (kvs : List (KeyValue Str)) : List Bytes :=
  serializeNumber kvarint .w32 kvs.length ++ kvs.flatMap (serializeKv kvarint)

def serializeVmember (wm : WeightValue) : List Bytes :=
  bigEndian 8 wm.key.bits.toNat :: serializeStr kvarint .w32 wm.value

def serializeVmembers (vmembers : List WeightValue) : List Bytes :=
  serializeNumber kvarint .w32 vmembers.length ++
    vmembers.flatMap (serializeVmember kvarint)

end Serialize

/-! ## `ParseComponent` -/

/-- `std::vector::resize`. -/
def resize {α : Type} (n : Nat) (fill : α) (l : List α) : List α :=
  l.take n ++ replicate (n - l.length) fill

variable {α : Type} {n : Nat}

theorem resize_nil (n : Nat) (fill : α) : resize n fill [] = replicate n fill := by
  simp [resize]

theorem length_resize (n : Nat) (fill : α) (l : List α) : (resize n fill l).length = n := by
  simp only [resize, length_append, length_take, length_replicate]
  omega

/-- The elements of a list, each behind what `resize` has left in its place. -/
def overlay (join : α → α → α) (fill : α) (old l : List α) : List α :=
  zipWith join (resize l.length fill old) l

theorem overlay_eq_iff {join : α → α → α} {fill : α} {old l : List α} {Empty : α → Prop}
    (hjoin : ∀ x y, join x y = y ↔ Empty x) (hfill : Empty fill) :
    overlay join fill old l = l ↔ ∀ x ∈ old.take l.length, Empty x := by
  induction l generalizing old with
  | nil => simp [overlay]
  | cons y l ih =>
    have hrest := @ih old.tail
    unfold overlay resize at hrest ⊢
    cases old with
    | nil => simp_all [replicate_succ]
    | cons x old => simp_all

def joinKv (old kv : KeyValue Str) : KeyValue Str :=
  ⟨old.key ++ kv.key, old.value ++ kv.value⟩

def joinVmember (old wm : WeightValue) : WeightValue :=
  ⟨wm.key, old.value ++ wm.value⟩

theorem overlay_values_iff {old values : List Str} :
    overlay (· ++ ·) [] old values = values ↔ ∀ s ∈ old.take values.length, s = [] :=
  overlay_eq_iff (by simp) rfl

theorem overlay_kvs_iff {old kvs : List (KeyValue Str)} :
    overlay joinKv ⟨[], []⟩ old kvs = kvs ↔ ∀ kv ∈ old.take kvs.length, kv = ⟨[], []⟩ := by
  refine overlay_eq_iff (fun x y => ?_) rfl
  cases x
  cases y
  simp [joinKv]

theorem overlay_vmembers_iff {old vmembers : List WeightValue} :
    overlay joinVmember ⟨⟨0⟩, []⟩ old vmembers = vmembers ↔
      ∀ wm ∈ old.take vmembers.length, wm.value = [] := by
  refine overlay_eq_iff (fun x y => ?_) rfl
  cases y
  simp [joinVmember]

section Parse

variable {σ : Type} (src : Source σ)

def parseStr (w : Width) : StateT σ Option Str := do
  let length ← src.number w
  src.text length

def parseElement (old : Str) : StateT σ Option Str := do
  let length ← src.number .w64
  let bytes ← src.element length
  return old ++ bytes

def parseValues (old : List Str) : StateT σ Option (List Str) := do
  let count ← src.number .w32
  each (parseElement src) (resize count [] old)

def parseKv (old : KeyValue Str) : StateT σ Option (KeyValue Str) := do
  let key ← parseElement src old.key
  let value ← parseElement src old.value
  return ⟨key, value⟩

def parseKvs (old : List (KeyValue Str)) : StateT σ Option (List (KeyValue Str)) := do
  let count ← src.number .w32
  each (parseKv src) (resize count ⟨[], []⟩ old)

def parseVmember (old : WeightValue) : StateT σ Option WeightValue := do
  let weight ← src.weight
  let value ← parseElement src old.value
  return ⟨weight, value⟩

def parseVmembers (old : List WeightValue) : StateT σ Option (List WeightValue) := do
  let count ← src.number .w32
  each (parseVmember src) (resize count ⟨⟨0⟩, []⟩ old)

end Parse

/-! ## Round trips over a buffer -/

section RoundTrips

variable {kvarint : VarintCode} (hkv : kvarint.Lawful)

include hkv

variable (w : Width)

theorem reads_number {n : Nat} (h : n < 2 ^ w.bits) :
    Reads ((buffer kvarint).number w) (serializeNumber kvarint w n).flatten n := by
  have hread := hkv.reads w h
  simpa [serializeNumber, buffer, mod_eq_of_lt h] using hread

theorem reads_number_mod (n : Nat) :
    Reads ((buffer kvarint).number w) (serializeNumber kvarint w n).flatten
      (n % 2 ^ w.bits) := by
  have hread := hkv.reads w (Nat.mod_lt n (Nat.two_pow_pos w.bits))
  simpa [serializeNumber, buffer] using hread

theorem length_serializeNumber_pos (n : Nat) :
    0 < (serializeNumber kvarint w n).flatten.length := by
  rw [serializeNumber, flatten_singleton]
  exact hkv.length_encode_pos w (Nat.mod_lt n (Nat.two_pow_pos w.bits))

variable {s : Str}

theorem reads_str (h : s.length < 2 ^ w.bits) :
    Reads (parseStr (buffer kvarint) w) (serializeStr kvarint w s).flatten s := by
  rw [serializeStr, flatten_append, flatten_singleton]
  exact (reads_number hkv w h).bind (Reads.takeBytes s)

theorem reads_element {w : Width} (hw : w = .w16 ∨ w = .w32) (h : s.length < 2 ^ w.bits)
    (old : Str) :
    Reads (parseElement (buffer kvarint) old) (serializeStr kvarint w s).flatten
      (old ++ s) := by
  have hlength : Reads (kvarint.read .w64) (kvarint.encode w s.length) s.length := by
    rcases hw with rfl | rfl
    · exact hkv.reads_w16 h
    · exact hkv.reads_w32 h
  rw [serializeStr, serializeNumber, mod_eq_of_lt h, flatten_append,
    flatten_singleton, flatten_singleton]
  exact hlength.bind ((Reads.takeBytes s).map fun bytes => old ++ bytes)

theorem reads_kv {kv : KeyValue Str} (hkey : kv.key.length < 2 ^ 16)
    (hvalue : kv.value.length < 2 ^ 32) (old : KeyValue Str) :
    Reads (parseKv (buffer kvarint) old) (serializeKv kvarint kv).flatten
      (joinKv old kv) := by
  rw [serializeKv, flatten_append]
  refine (reads_element hkv (.inl rfl) hkey old.key).bind ?_
  exact (reads_element hkv (.inr rfl) hvalue old.value).map fun value =>
    KeyValue.mk (old.key ++ kv.key) value

omit hkv in
theorem reads_weight (w : Weight) : Reads (buffer kvarint).weight (bigEndian 8 w.bits.toNat) w := by
  have hword : Reads (word 8) (bigEndian 8 w.bits.toNat) w.bits.toNat := Reads.word w.bits.toNat_lt
  have hread := hword.map fun n => Weight.mk (UInt64.ofNat n)
  rwa [UInt64.ofNat_toNat] at hread

theorem reads_vmember {wm : WeightValue} (hvalue : wm.value.length < 2 ^ 32)
    (old : WeightValue) :
    Reads (parseVmember (buffer kvarint) old) (serializeVmember kvarint wm).flatten
      (joinVmember old wm) := by
  refine (reads_weight wm.key).bind ?_
  exact (reads_element hkv (.inr rfl) hvalue old.value).map fun value =>
    WeightValue.mk wm.key value

variable {α : Type} {fill : α} {p : α → StateT Bytes Option α} {l old : List α}

theorem reads_list {encode : α → List Bytes} {join : α → α → α} (hlength : l.length < 2 ^ 32)
    (h : ∀ start, ∀ x ∈ l, Reads (p start) (encode x).flatten (join start x)) :
    Reads (do let count ← (buffer kvarint).number .w32; each p (resize count fill old))
      (serializeNumber kvarint .w32 l.length ++ l.flatMap encode).flatten
      (overlay join fill old l) := by
  have hbytes : (l.flatMap encode).flatten = l.flatMap fun x => (encode x).flatten := by
    simp only [flatten_eq_flatMap, flatMap_assoc]
  rw [flatten_append, hbytes]
  exact (reads_number hkv .w32 hlength).bind (Reads.each _ l (length_resize _ _ _) h)

theorem reads_values {values : List Str} (hlength : values.length < 2 ^ 32)
    (h : ∀ s ∈ values, s.length < 2 ^ 32) (old : List Str) :
    Reads (parseValues (buffer kvarint) old) (serializeValues kvarint values).flatten
      (overlay (· ++ ·) [] old values) :=
  reads_list hkv hlength fun start s hs => reads_element hkv (.inr rfl) (h s hs) start

theorem reads_kvs {kvs : List (KeyValue Str)} (hlength : kvs.length < 2 ^ 32)
    (h : ∀ kv ∈ kvs, kv.key.length < 2 ^ 16 ∧ kv.value.length < 2 ^ 32)
    (old : List (KeyValue Str)) :
    Reads (parseKvs (buffer kvarint) old) (serializeKvs kvarint kvs).flatten
      (overlay joinKv ⟨[], []⟩ old kvs) :=
  reads_list hkv hlength fun start kv hmem => reads_kv hkv (h kv hmem).1 (h kv hmem).2 start

theorem reads_vmembers {vmembers : List WeightValue} (hlength : vmembers.length < 2 ^ 32)
    (h : ∀ wm ∈ vmembers, wm.value.length < 2 ^ 32) (old : List WeightValue) :
    Reads (parseVmembers (buffer kvarint) old)
      (serializeVmembers kvarint vmembers).flatten (overlay joinVmember ⟨⟨0⟩, []⟩ old vmembers) :=
  reads_list hkv hlength fun start wm hmem => reads_vmember hkv (h wm hmem) start

theorem length_of_list {l' : List α} {tail rest : Bytes} (h : (do
        let count ← (buffer kvarint).number .w32
        each p (resize count fill old) : StateT Bytes Option (List α))
      ((serializeNumber kvarint .w32 l.length).flatten ++ tail) = some (l', rest)) :
    l'.length = l.length % 2 ^ 32 := by
  rw [bind_of_some (reads_number_mod hkv .w32 l.length tail)] at h
  rw [each_length _ h, length_resize]
  rfl

end RoundTrips

/-! ## Parsers that look at their own bytes only -/

section Locality

variable {kvarint : VarintCode} (hkv : kvarint.Local)

include hkv

end Locality

/-! ## The two sources -/

/-- The raw parser stands at the same byte, and believes to have at least the bytes
that are there. -/
def RawAt (bs : Bytes) (s : Source.RawState) : Prop :=
  s.1 = bs ∧ bs.length ≤ s.2 ∧ s.2 < 2 ^ 64

variable {size : Nat}

theorem toSize_sub (hn : n ≤ size) (hsize : size < 2 ^ 64) :
    toSize ((size : Int) - n) = size - n := by
  unfold toSize
  omega

theorem RawAt.drop {bs data : Bytes} (h : RawAt bs (data, size)) (hn : n ≤ bs.length) :
    RawAt (bs.drop n) (data.drop n, toSize (size - n)) := by
  have hdata : data = bs := h.1
  have hle : bs.length ≤ size := h.2.1
  have hlt : size < 2 ^ 64 := h.2.2
  rw [toSize_sub (le_trans hn hle) hlt]
  refine ⟨by rw [hdata], ?_, lt_of_le_of_lt (sub_le _ _) hlt⟩
  grind

namespace Source

/-- Reading at a raw pointer is reading from the list of the bytes behind it. -/
theorem reader_simulates {α : Type} (decode : Bytes → Decoded α) :
    Simulates RawAt (VarintCode.reader decode) (rawReader decode) := by
  intro bs s h
  obtain ⟨data, size⟩ := s
  have hdata : data = bs := h.1
  have htake : data.take size = bs := by
    rw [hdata]
    exact take_of_length_le h.2.1
  unfold VarintCode.reader rawReader
  dsimp only
  rw [htake]
  cases decode bs with
  | ok length value =>
    rw [hdata]
    by_cases hlength : length ≤ bs.length
    · simp only [hlength, if_true]
      refine .some ⟨rfl, ?_⟩
      have hdrop := h.drop hlength
      rwa [hdata] at hdrop
    · simp only [hlength, if_false]
      exact .none
  | invalid => exact .none
  | short => exact .none

theorem text_simulates (n : Nat) : Simulates RawAt (takeBytes n) (rawText n) := by
  intro bs s h
  obtain ⟨data, size⟩ := s
  obtain ⟨rfl, hle, hlt⟩ := h
  unfold takeBytes rawText
  by_cases hn : n ≤ data.length
  · simp only [hn, if_true]
    refine .some ⟨rfl, rfl, ?_, hlt⟩
    grind
  · simp only [hn, if_false]
    exact .none

theorem element_simulates (n : Nat) : Simulates RawAt (takeBytes n) (rawElement n) := by
  intro bs s h
  obtain ⟨data, size⟩ := s
  have hdata : data = bs := h.1
  unfold takeBytes rawElement
  rw [hdata]
  by_cases hn : n ≤ bs.length
  · simp only [hn, if_true]
    refine .some ⟨rfl, ?_⟩
    have hdrop := h.drop hn
    rwa [hdata] at hdrop
  · simp only [hn, if_false]
    exact .none

end Source

section TwoSources

variable (kvarint : VarintCode)

theorem parseStr_simulates (w : Width) :
    Simulates RawAt (parseStr (buffer kvarint) w) (parseStr (raw kvarint) w) :=
  (reader_simulates _).bind text_simulates

theorem parseElement_simulates (old : Str) :
    Simulates RawAt (parseElement (buffer kvarint) old)
      (parseElement (raw kvarint) old) :=
  (reader_simulates _).bind fun length =>
    (element_simulates length).bind fun _ => .pure _

theorem parseValues_simulates (old : List Str) :
    Simulates RawAt (parseValues (buffer kvarint) old)
      (parseValues (raw kvarint) old) :=
  (reader_simulates _).bind fun _ => .each (parseElement_simulates kvarint) _

theorem parseKvs_simulates (old : List (KeyValue Str)) :
    Simulates RawAt (parseKvs (buffer kvarint) old)
      (parseKvs (raw kvarint) old) := by
  refine (reader_simulates _).bind fun count => .each (fun kv => ?_) _
  exact (parseElement_simulates kvarint kv.key).bind fun _ =>
    (parseElement_simulates kvarint kv.value).bind fun _ => .pure _

end TwoSources

end Mmkv
