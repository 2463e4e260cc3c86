import Mmkv.AvlTree
import Mathlib.Algebra.Group.Int.Defs
import Mathlib.Algebra.Group.Nat.Defs

/-!
# The comparators of the trees

`Comparator` is an `int` for two keys: the difference of signed integers and of pointers, and
-1, 0 or 1 for unsigned integers.  A difference of more than 32 bits is cut, and one that
overflows its type is undefined.
-/

namespace Mmkv

/-! ## The function -/

/-- Integers by their number of bits, and pointers by the size of what they point to. -/
inductive KeyType where
  | signed (bits : Nat)
  | unsigned (bits : Nat)
  | pointer (size : Nat)

namespace KeyType

abbrev Value : KeyType → Type
  | .signed bits => BitVec bits
  | .unsigned bits => BitVec bits
  | .pointer _ => BitVec 64

def toInt : (T : KeyType) → T.Value → Int
  | .signed _, x => BitVec.toInt x
  | .unsigned _, x => BitVec.toNat x
  | .pointer _, x => BitVec.toNat x

end KeyType

/-- A difference in a signed type of so many bits, as an `int`. -/
def narrowed (bits : Nat) (d : Int) : Option Int :=
  if -2 ^ (bits - 1) ≤ d ∧ d < 2 ^ (bits - 1) then some (d.bmod (2 ^ 32)) else none

/-- Operands with fewer bits than an `int` are promoted to it.  The difference of pointers
counts elements of an array. -/
def comparator : (T : KeyType) → T.Value → T.Value → Option Int
  | .signed bits, x, y => narrowed (max bits 32) (BitVec.toInt x - BitVec.toInt y)
  | .unsigned _, x, y =>
    some (if BitVec.toNat x < BitVec.toNat y then -1 else if x = y then 0 else 1)
  | .pointer size, x, y =>
    let d : Int := BitVec.toNat x - BitVec.toNat y
    if (size : Int) ∣ d then narrowed 64 (d / size) else none

/-! ## Where it is an order -/

/-- The difference fits, and its low 32 bits have its sign. -/
def KeepsSign (bits : Nat) (d : Int) : Prop :=
  (-2 ^ (bits - 1) ≤ d ∧ d < 2 ^ (bits - 1)) ∧
    (0 < d → 0 < d % 2 ^ 32 ∧ d % 2 ^ 32 < 2 ^ 31) ∧ (d < 0 → 2 ^ 31 ≤ d % 2 ^ 32)

def KeyType.Comparable : (T : KeyType) → T.Value → T.Value → Prop
  | .signed bits, x, y => bits < 32 ∨ KeepsSign bits (BitVec.toInt x - BitVec.toInt y)
  | .unsigned _, _, _ => True
  | .pointer size, x, y =>
    let d : Int := BitVec.toNat x - BitVec.toNat y
    (size : Int) ∣ d ∧ KeepsSign 64 (d / size)

/-- The result has the sign of the number. -/
def HasSign (r : Option Int) (d : Int) : Prop :=
  ∃ n, r = some n ∧ (n < 0 ↔ d < 0) ∧ (n = 0 ↔ d = 0) ∧ (0 < n ↔ 0 < d)

theorem narrowed_hasSign_iff (bits : Nat) (d : Int) :
    HasSign (narrowed bits d) d ↔ KeepsSign bits d := by
  unfold narrowed HasSign KeepsSign
  split
  next hfits =>
    have hlower : -2147483648 ≤ d.bmod (2 ^ 32) := Int.le_bmod (by decide)
    have hupper : d.bmod (2 ^ 32) < 2147483648 := Int.bmod_lt (by decide)
    have hmod : d.bmod (2 ^ 32) % 4294967296 = d % 4294967296 := Int.bmod_emod
    simp only [hfits, Option.some.injEq, exists_eq_left', true_and, and_true]
    omega
  next hfits => simp [hfits]

theorem keepsSign_of_lt {bits : Nat} (hbits : bits < 32) (x y : BitVec bits) :
    KeepsSign 32 (x.toInt - y.toInt) := by
  have hpow : (2 : Int) ^ (bits - 1) ≤ 2 ^ 30 := by
    exact_mod_cast Nat.pow_le_pow_right (by decide : 0 < 2) (by omega)
  have hx := x.toInt_lt
  have hx' := x.le_toInt
  have hy := y.toInt_lt
  have hy' := y.le_toInt
  unfold KeepsSign
  omega

theorem hasSign_ediv {size d : Int} (hsize : 0 ≤ size) (hd : size ∣ d) (r : Option Int) :
    HasSign r (d / size) ↔ HasSign r d := by
  obtain ⟨e, rfl⟩ := hd
  rcases Int.lt_or_eq_of_le hsize with hpos | rfl
  · rw [Int.mul_ediv_cancel_left e (Int.ne_of_gt hpos)]
    have hneg : e < 0 → size * e < 0 := Int.mul_neg_of_pos_of_neg hpos
    have hzero : e = 0 → size * e = 0 := fun h => by rw [h, Int.mul_zero]
    have hpos : 0 < e → 0 < size * e := Int.mul_pos hpos
    refine exists_congr fun n => and_congr_right fun _ => ?_
    omega
  · simp

theorem KeyType.toInt_inj {T : KeyType} {x y : T.Value} : T.toInt x = T.toInt y ↔ x = y := by
  cases T with
  | signed bits => exact BitVec.toInt_inj
  | unsigned bits => exact Int.ofNat_inj.trans BitVec.toNat_inj
  | pointer size => exact Int.ofNat_inj.trans BitVec.toNat_inj

theorem comparator_hasSign_iff (T : KeyType) (x y : T.Value) :
    HasSign (comparator T x y) (T.toInt x - T.toInt y) ↔ T.Comparable x y := by
  cases T with
  | signed bits =>
    refine (narrowed_hasSign_iff _ _).trans ?_
    by_cases hbits : bits < 32
    · rw [Nat.max_eq_right (Nat.le_of_lt hbits)]
      exact iff_of_true (keepsSign_of_lt hbits x y) (.inl hbits)
    · rw [Nat.max_eq_left (Nat.not_lt.1 hbits)]
      exact (or_iff_right hbits).symm
  | unsigned bits =>
    refine iff_of_true ⟨_, rfl, ?_⟩ trivial
    have hinj : BitVec.toNat x = BitVec.toNat y ↔ x = y := BitVec.toNat_inj
    simp only [KeyType.toInt, ← hinj]
    split
    next => omega
    next => split <;> omega
  | pointer size =>
    simp only [comparator, KeyType.Comparable, KeyType.toInt]
    by_cases hd : (size : Int) ∣ BitVec.toNat x - BitVec.toNat y
    · rw [if_pos hd, ← hasSign_ediv (Int.natCast_nonneg size) hd, narrowed_hasSign_iff]
      exact (and_iff_right hd).symm
    · simp [HasSign, hd]

/-- The result is negative, zero or positive as the first key is less than, equal to or greater
than the second one if and only if the keys are comparable. -/
theorem comparator_orders_iff (T : KeyType) (x y : T.Value) :
    (∃ n, comparator T x y = some n ∧ (n < 0 ↔ T.toInt x < T.toInt y) ∧ (n = 0 ↔ x = y) ∧
      (0 < n ↔ T.toInt y < T.toInt x)) ↔ T.Comparable x y := by
  rw [← comparator_hasSign_iff]
  refine exists_congr fun n => and_congr_right fun _ => ?_
  rw [← KeyType.toInt_inj]
  omega

/-- Two pointers that are `2 ^ 32` elements apart are equal to a tree, which refuses the second
one.  A large positive difference of words is negative, and one of `int`s overflows. -/
theorem comparator_loses_order :
    ∃ x y : BitVec 64, x ≠ y ∧ comparator (.pointer 32) x y = some 0 ∧
      (AvlTree.insertWithDuplicate
        (fun x y => compare ((comparator (.pointer 32) x y).getD 0) 0) id y
        (.leaf (AvlTree.createNode x))).1 = some x ∧
      comparator (.signed 64) 0x80000000#64 0#64 = some (-0x80000000) ∧
      comparator (.signed 32) 0x7fffffff#32 (-1#32) = none :=
  ⟨0x2000001000#64, 0x1000#64, by decide +kernel⟩

end Mmkv
