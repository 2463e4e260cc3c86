import Mmkv.ByteReaders
import Mathlib.Algebra.Group.Int.Defs

/-!
# Codes of variable length for integers

A code has an encoder and a decoder for each width.  The laws are kept apart from
the code, so that a development can say which of them it assumes.  `leb128` is the
usual code with seven bits to the byte; `marked` shows how far the laws leave the
code open.
-/

inductive Width where
  | w8
  | w16
  | w32
  | w64
  deriving Repr, DecidableEq

def Width.bits : Width → Nat
  | .w8 => 8
  | .w16 => 16
  | .w32 => 32
  | .w64 => 64

/-- The answer of a decoder: a value with the length of its encoding, or the reason
why there is none. -/
inductive Decoded (α : Type) where
  | ok (length : Nat) (value : α)
  | invalid
  | short
  deriving Repr, DecidableEq

def Decoded.map {α β : Type} (f : α → β) : Decoded α → Decoded β
  | .ok length value => .ok length (f value)
  | .invalid => .invalid
  | .short => .short

/-- The unsigned encodings of all widths and the signed one of 64 bits. -/
structure VarintCode where
  encode : Width → Nat → Bytes
  decode : Width → Bytes → Decoded Nat
  encodeSigned : Int → Bytes
  decodeSigned : Bytes → Decoded Int

/-! ## ZigZag -/

def zigzag (i : Int) : Nat :=
  if 0 ≤ i then (2 * i).toNat else (-2 * i - 1).toNat

def unzigzag (n : Nat) : Int :=
  if n % 2 = 0 then (n / 2 : Nat) else -((n / 2 : Nat) : Int) - 1

theorem zigzag_unzigzag (n : Nat) : zigzag (unzigzag n) = n := by
  unfold zigzag unzigzag
  split <;> split <;> omega

theorem unzigzag_zigzag (i : Int) : unzigzag (zigzag i) = i := by
  unfold zigzag unzigzag
  split <;> split <;> omega

theorem unzigzag_range {n : Nat} (h : n < 2 ^ 64) : -2 ^ 63 ≤ unzigzag n ∧ unzigzag n < 2 ^ 63 := by
  unfold unzigzag
  split <;> omega

theorem zigzag_lt {i : Int} (hleft : -2 ^ 63 ≤ i) (hright : i < 2 ^ 63) : zigzag i < 2 ^ 64 := by
  unfold zigzag
  split <;> omega

namespace VarintCode

variable (code : VarintCode)

/-! ## Laws -/

structure Lawful : Prop where
  decode_encode : ∀ w n rest, n < 2 ^ w.bits →
    code.decode w (code.encode w n ++ rest) = .ok (code.encode w n).length n
  decodeSigned_encodeSigned : ∀ i rest, -2 ^ 63 ≤ i → i < 2 ^ 63 →
    code.decodeSigned (code.encodeSigned i ++ rest) = .ok (code.encodeSigned i).length i
  encode_w16 : ∀ n, n < 2 ^ 16 → code.encode .w16 n = code.encode .w32 n
  encode_w32 : ∀ n, n < 2 ^ 32 → code.encode .w32 n = code.encode .w64 n
  encodeSigned_eq : ∀ i, -2 ^ 63 ≤ i → i < 2 ^ 63 →
    code.encodeSigned i = code.encode .w64 (zigzag i)

/-- A number at the front of the bytes that have arrived is decoded, and one of which a
part has arrived is recognised as such. -/
structure Incremental : Prop where
  decode_encode : ∀ n rest, n < 2 ^ 32 →
    code.decode .w32 (code.encode .w32 n ++ rest) = .ok (code.encode .w32 n).length n
  decode_take : ∀ n k, n < 2 ^ 32 → k < (code.encode .w32 n).length →
    code.decode .w32 ((code.encode .w32 n).take k) = .short

structure Local : Prop where
  decode : ∀ w bs length n, code.decode w bs = .ok length n → length ≤ bs.length →
    ∀ rest, code.decode w (bs.take length ++ rest) = .ok length n
  decodeSigned : ∀ bs length i, code.decodeSigned bs = .ok length i → length ≤ bs.length →
    ∀ rest, code.decodeSigned (bs.take length ++ rest) = .ok length i

/-! ## Readers -/

/-- The reader of a decoder; it fails on an encoding that is invalid or short. -/
def reader {α : Type} (decode : Bytes → Decoded α) : StateT Bytes Option α := fun bs =>
  match decode bs with
  | .ok length value => if length ≤ bs.length then some (value, bs.drop length) else none
  | .invalid => none
  | .short => none

def read (w : Width) : StateT Bytes Option Nat :=
  reader (code.decode w)

def readSigned : StateT Bytes Option Int :=
  reader code.decodeSigned

open Reader

variable {α : Type} {decode : Bytes → Decoded α}

theorem reads_reader {bs : Bytes} {a : α} (h : ∀ rest, decode (bs ++ rest) = .ok bs.length a) :
    Reads (reader decode) bs a := by
  intro rest
  simp [reader, h rest]

theorem local_reader (h : ∀ bs length a, decode bs = .ok length a → length ≤ bs.length →
      ∀ rest, decode (bs.take length ++ rest) = .ok length a) : Reader.Local (reader decode) := by
  intro bs a rest hread
  unfold reader at hread
  split at hread
  next length value hok =>
    split at hread
    next hle =>
      cases hread
      refine ⟨bs.take length, (List.take_append_drop length bs).symm, reads_reader ?_⟩
      grind
    next => cases hread
  next => cases hread
  next => cases hread

variable {n : Nat}

theorem length_pos_of_decodes {bound : Nat} {encode : Nat → Bytes} {decode : Bytes → Decoded Nat}
    (hbound : 1 < bound)
    (h : ∀ n rest, n < bound → decode (encode n ++ rest) = .ok (encode n).length n)
    (hn : n < bound) :
    0 < (encode n).length := by
  apply List.length_pos_of_ne_nil
  intro hnil
  obtain ⟨m, hm, hne⟩ : ∃ m, m < bound ∧ m ≠ n := by
    by_cases hzero : n = 0
    · exact ⟨1, hbound, by omega⟩
    · exact ⟨0, by omega, by omega⟩
  have hdecode := h n (encode m) hn
  have hdecode' := h m [] hm
  grind

variable {code}

theorem Incremental.length_encode_pos (h : code.Incremental) (hn : n < 2 ^ 32) :
    0 < (code.encode .w32 n).length :=
  length_pos_of_decodes (by decide) h.decode_encode hn

theorem Local.read (h : code.Local) (w : Width) : Reader.Local (code.read w) :=
  local_reader (h.decode w)

theorem Local.readSigned (h : code.Local) : Reader.Local code.readSigned :=
  local_reader h.decodeSigned

namespace Lawful

variable (h : code.Lawful)

include h

variable {n : Nat}

theorem reads (w : Width) (hn : n < 2 ^ w.bits) : Reads (code.read w) (code.encode w n) n :=
  reads_reader fun rest => h.decode_encode w n rest hn

theorem reads_w32 (hn : n < 2 ^ 32) : Reads (code.read .w64) (code.encode .w32 n) n := by
  rw [h.encode_w32 n hn]
  exact h.reads .w64 (by simp only [Width.bits]; omega)

theorem reads_w16 (hn : n < 2 ^ 16) : Reads (code.read .w64) (code.encode .w16 n) n := by
  rw [h.encode_w16 n hn]
  exact h.reads_w32 (by omega)

theorem readsSigned (hn : n < 2 ^ 64) :
    Reads code.readSigned (code.encode .w64 n) (unzigzag n) := by
  obtain ⟨hleft, hright⟩ := unzigzag_range hn
  have heq := h.encodeSigned_eq _ hleft hright
  rw [zigzag_unzigzag] at heq
  rw [← heq]
  exact reads_reader fun rest => h.decodeSigned_encodeSigned _ rest hleft hright

theorem length_encode_pos (w : Width) (hn : n < 2 ^ w.bits) : 0 < (code.encode w n).length :=
  length_pos_of_decodes (by cases w <;> decide) (h.decode_encode w) hn

end Lawful

end VarintCode

/-! ## LEB128 -/

namespace Leb128

/-- At most the given number of groups of seven bits, lowest first. -/
def encode : Nat → Nat → Bytes
  | 0, _ => []
  | groups + 1, n =>
    if n < 128 then [UInt8.ofNat n]
    else UInt8.ofNat (n % 128 + 128) :: encode groups (n / 128)

def decode : Nat → Bytes → Decoded Nat
  | 0, _ => .invalid
  | _ + 1, [] => .short
  | groups + 1, b :: bs =>
    if b.toNat < 128 then .ok 1 b.toNat
    else
      match decode groups bs with
      | .ok length n => .ok (length + 1) (b.toNat - 128 + 128 * n)
      | .invalid => .invalid
      | .short => .short

def groups : Width → Nat
  | .w8 => 2
  | .w16 => 3
  | .w32 => 5
  | .w64 => 10

def decodeWidth (w : Width) (bs : Bytes) : Decoded Nat :=
  match decode (groups w) bs with
  | .ok length n => if n < 2 ^ w.bits then .ok length n else .invalid
  | .invalid => .invalid
  | .short => .short

theorem pow_bits_le (w : Width) : 2 ^ w.bits ≤ 128 ^ groups w := by
  cases w <;> decide

variable {n : Nat}

theorem toNat_byte (h : n < 256) : (UInt8.ofNat n).toNat = n := UInt8.toNat_ofNat_of_lt' h

variable {g : Nat}

theorem decode_encode (h : n < 128 ^ (g + 1)) (rest : Bytes) :
    decode (g + 1) (encode (g + 1) n ++ rest) = .ok (encode (g + 1) n).length n := by
  induction g generalizing n with
  | zero =>
    have hn : n < 128 := by simpa using h
    have hbyte : (UInt8.ofNat n).toNat = n := toNat_byte (by omega)
    simp [encode, decode, hn, hbyte]
  | succ g ih =>
    by_cases hn : n < 128
    · have hbyte : (UInt8.ofNat n).toNat = n := toNat_byte (by omega)
      rw [encode, if_pos hn]
      simp [decode, hbyte, hn]
    · have hdiv : n / 128 < 128 ^ (g + 1) := by grind
      have hbyte : (UInt8.ofNat (n % 128 + 128)).toNat = n % 128 + 128 := toNat_byte (by omega)
      have hvalue : n % 128 + 128 * (n / 128) = n := Nat.mod_add_div n 128
      rw [encode, if_neg hn, List.cons_append, decode, hbyte, if_neg (by omega), ih hdiv]
      simp [hvalue]

theorem decode_take {k : Nat} (hk : k < (encode (g + 1) n).length) :
    decode (g + 1) ((encode (g + 1) n).take k) = .short := by
  induction g generalizing n k with
  | zero =>
    have hzero : k = 0 := by
      rw [encode] at hk
      split at hk <;> simp [encode] at hk <;> exact hk
    simp [hzero, decode]
  | succ g ih =>
    cases k with
    | zero => rfl
    | succ k =>
      rw [encode] at hk ⊢
      split at hk
      next hn => simp at hk
      next hn =>
        have hbyte : (UInt8.ofNat (n % 128 + 128)).toNat = n % 128 + 128 := toNat_byte (by omega)
        rw [if_neg hn, List.take_succ_cons, decode, hbyte, if_neg (by omega),
          ih (by simpa using hk)]

variable {bs : Bytes} {length : Nat}

theorem encode_succ (h : n < 128 ^ (g + 1)) : encode (g + 1) n = encode (g + 2) n := by
  induction g generalizing n with
  | zero =>
    have hn : n < 128 := by simpa using h
    simp [encode, hn]
  | succ g ih =>
    by_cases hn : n < 128
    · simp [encode, hn]
    · have hdiv : n / 128 < 128 ^ (g + 1) := by grind
      rw [encode, if_neg hn, ih hdiv]
      conv_rhs => rw [encode, if_neg hn]

theorem encode_add (h : n < 128 ^ (g + 1)) (d : Nat) : encode (g + 1) n = encode (g + 1 + d) n := by
  induction d with
  | zero => rfl
  | succ d ih =>
    have hle : 128 ^ (g + 1) ≤ 128 ^ (g + d + 1) := Nat.pow_le_pow_right (by omega) (by omega)
    have hstep := encode_succ (g := g + d) (Nat.lt_of_lt_of_le h hle)
    grind

theorem decodeWidth_encode (w : Width) (h : n < 2 ^ w.bits) (rest : Bytes) :
    decodeWidth w (encode (groups w) n ++ rest) = .ok (encode (groups w) n).length n := by
  have hn := Nat.lt_of_lt_of_le h (pow_bits_le w)
  obtain ⟨g, hg⟩ : ∃ g, groups w = g + 1 := ⟨groups w - 1, by cases w <;> rfl⟩
  rw [hg] at hn
  rw [decodeWidth, hg, decode_encode hn]
  simp [h]

end Leb128

open Leb128

open Leb128 in
def leb128 : VarintCode where
  encode w n := encode (groups w) n
  decode := decodeWidth
  encodeSigned i := encode (groups .w64) (zigzag i)
  decodeSigned bs := (decodeWidth .w64 bs).map unzigzag

/-- Groups of seven bits satisfy the laws that the message formats need. -/
theorem leb128_lawful : leb128.Lawful where
  decode_encode w _ rest h := decodeWidth_encode w h rest
  decodeSigned_encodeSigned i rest hleft hright := by
    have hdecode := decodeWidth_encode .w64 (zigzag_lt hleft hright) rest
    simp only [leb128, hdecode, Decoded.map, unzigzag_zigzag]
  encode_w16 n h := encode_add (Nat.lt_of_lt_of_le h (pow_bits_le .w16)) 2
  encode_w32 n h := encode_add (Nat.lt_of_lt_of_le h (pow_bits_le .w32)) 5
  encodeSigned_eq _ _ _ := rfl

theorem leb128_incremental : leb128.Incremental where
  decode_encode _ rest h := decodeWidth_encode .w32 h rest
  decode_take n k _ hk := by
    have hshort := decode_take hk
    simp only [leb128, decodeWidth, groups] at hshort ⊢
    rw [hshort]

namespace Marked

def encode (mark : UInt8) (n : Nat) : Bytes :=
  mark :: bigEndian 8 n

def decode (mark : UInt8) : Bytes → Decoded Nat
  | [] => .short
  | b :: bs =>
    if b = mark then
      if bs.length < 8 then .short else .ok 9 (ofBigEndian (bs.take 8))
    else .invalid

theorem decode_encode (mark : UInt8) {n : Nat} (h : n < 2 ^ 64) (rest : Bytes) :
    decode mark (encode mark n ++ rest) = .ok (encode mark n).length n := by
  have htake : (bigEndian 8 n ++ rest).take 8 = bigEndian 8 n := by
    rw [List.take_append_of_le_length (by simp), List.take_of_length_le (by simp)]
  have hlong : ¬ (bigEndian 8 n ++ rest).length < 8 := by simp
  rw [encode, List.cons_append, decode, if_pos rfl, if_neg hlong, htake, ofBigEndian_bigEndian h]
  simp

end Marked

def marked (mark : UInt8) : VarintCode where
  encode _ n := Marked.encode mark n
  decode _ := Marked.decode mark
  encodeSigned i := Marked.encode mark (zigzag i)
  decodeSigned bs := (Marked.decode mark bs).map unzigzag

theorem marked_lawful (mark : UInt8) : (marked mark).Lawful where
  decode_encode w n rest h := by
    refine Marked.decode_encode mark (Nat.lt_of_lt_of_le h ?_) rest
    exact Nat.pow_le_pow_right (by omega) (by cases w <;> decide)
  decodeSigned_encodeSigned i rest hleft hright := by
    have hdecode := Marked.decode_encode mark (zigzag_lt hleft hright) rest
    simp only [marked, hdecode, Decoded.map, unzigzag_zigzag]
  encode_w16 _ _ := rfl
  encode_w32 _ _ := rfl
  encodeSigned_eq _ _ _ := rfl
