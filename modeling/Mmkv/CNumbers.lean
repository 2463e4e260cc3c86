import Mmkv.CStrings
import Mathlib.Algebra.Ring.Int.Defs
import Mathlib.Data.List.TakeWhile
import Mathlib.Data.UInt

/-!
# Numbers in C strings

`strtoull` and `strtol` read the number at the start of a text behind white space, and
tell how far they have read.  A text that spells an integer and nothing else is read to
its end.
-/

namespace Mmkv

def isSpace (b : UInt8) : Bool :=
  b == 32 || (9 ≤ b && b ≤ 13)

def isDigit (b : UInt8) : Bool :=
  48 ≤ b && b ≤ 57

def decimalValue (digits : Str) : Nat :=
  digits.foldl (fun n d => 10 * n + (d.toNat - 48)) 0

/-- Whether a minus sign comes first, and what comes behind the sign. -/
def splitSign : Str → Bool × Str
  | [] => (false, [])
  | b :: s => if b = 45 then (true, s) else if b = 43 then (false, s) else (false, b :: s)

def signed (negative : Bool) (n : Nat) : Int :=
  if negative then -n else n

def numeral (s : Str) : Option Int :=
  let (negative, digits) := splitSign s
  if digits ≠ [] ∧ digits.all isDigit then some (signed negative (decimalValue digits))
  else none

/-- The integer at the start of a text, and the bytes up to its end. -/
def scanInteger (s : Str) : Option (Int × Nat) :=
  let (negative, rest) := splitSign (s.dropWhile isSpace)
  let digits := rest.takeWhile isDigit
  if digits = [] then none
  else some (signed negative (decimalValue digits), s.length - rest.length + digits.length)

/-- A text without a number is not read at all.  A number with a minus sign is taken
modulo the word. -/
def strtoull (s : Str) : UInt64 × Nat :=
  match scanInteger s with
  | none => (0, 0)
  | some (n, consumed) =>
    (if 2 ^ 64 ≤ n.natAbs then 2 ^ 64 - 1 else UInt64.ofNat (n % 2 ^ 64).toNat, consumed)

/-- A `long` has 64 bits. -/
def strtol (s : Str) : Int × Nat :=
  match scanInteger s with
  | none => (0, 0)
  | some (n, consumed) => (max (-2 ^ 63) (min n (2 ^ 63 - 1)), consumed)

/-! ## Numerals -/

theorem splitSign_cases (b : UInt8) (s : Str) :
    (b = 45 ∧ splitSign (b :: s) = (true, s)) ∨ (b = 43 ∧ splitSign (b :: s) = (false, s)) ∨
      splitSign (b :: s) = (false, b :: s) := by
  by_cases hminus : b = 45
  · exact .inl ⟨hminus, by simp [splitSign, hminus]⟩
  · by_cases hplus : b = 43
    · exact .inr (.inl ⟨hplus, by simp [splitSign, hplus]⟩)
    · exact .inr (.inr (by simp [splitSign, hminus, hplus]))

structure Numeral (s : Str) (n : Int) : Prop where
  nonempty : (splitSign s).2 ≠ []
  digits : ∀ b ∈ (splitSign s).2, isDigit b = true
  value : n = signed (splitSign s).1 (decimalValue (splitSign s).2)

variable {s : Str} {n : Int}

theorem numeral_of_some (h : numeral s = some n) : Numeral s n := by
  unfold numeral at h
  simp only [Option.ite_none_right_eq_some, Option.some.injEq] at h
  obtain ⟨⟨hne, hdigits⟩, hn⟩ := h
  exact ⟨hne, List.all_eq_true.mp hdigits, hn.symm⟩

theorem Numeral.mem (h : Numeral s n) : ∀ b ∈ s, b = 45 ∨ b = 43 ∨ isDigit b = true := by
  cases s with
  | nil => simp
  | cons b s =>
    obtain ⟨hb, hsplit⟩ | ⟨hb, hsplit⟩ | hsplit := splitSign_cases b s
    all_goals
      have hdigits := h.digits
      rw [hsplit] at hdigits
      intro c hc
    · grind
    · grind
    · exact .inr (.inr (hdigits c hc))

theorem Numeral.not_space (h : Numeral s n) {b : UInt8} (hb : b ∈ s) : isSpace b = false := by
  obtain rfl | rfl | hdigit := h.mem b hb
  · rfl
  · rfl
  · simp only [isDigit, isSpace, Bool.and_eq_true, decide_eq_true_eq, Bool.or_eq_false_iff,
      UInt8.le_iff_toNat_le] at hdigit ⊢
    refine ⟨?_, ?_⟩
    · simp only [beq_eq_false_iff_ne, ne_eq]
      rintro rfl
      simp at hdigit
    · grind

theorem Numeral.nulFree (h : Numeral s n) : cString s = s := by
  refine cString_of_nulFree fun hmem => ?_
  obtain h | h | h := h.mem 0 hmem <;> cases h

theorem Numeral.length_pos (h : Numeral s n) : 0 < s.length := by
  cases s with
  | nil => exact absurd rfl h.nonempty
  | cons b s => simp

theorem Numeral.scanInteger (h : Numeral s n) : scanInteger s = some (n, s.length) := by
  have hspace : s.dropWhile isSpace = s := by
    cases s with
    | nil => rfl
    | cons b s =>
      simp [h.not_space (List.mem_cons_self)]
  have hdigits : (splitSign s).2.takeWhile isDigit = (splitSign s).2 :=
    List.takeWhile_eq_self_iff.mpr h.digits
  have hle : (splitSign s).2.length ≤ s.length := by
    cases s with
    | nil => exact Nat.le_refl 0
    | cons b s =>
      obtain ⟨_, hsplit⟩ | ⟨_, hsplit⟩ | hsplit := splitSign_cases b s <;> simp [hsplit]
  unfold Mmkv.scanInteger
  simp only [hspace, hdigits]
  rw [if_neg h.nonempty, ← h.value, Nat.sub_add_cancel hle]

theorem strtoull_of_numeral {n : Nat} (h : Numeral s n) (hn : n < 2 ^ 64) :
    strtoull s = (UInt64.ofNat n, s.length) := by
  have hmod : ((n : Int) % 2 ^ 64).toNat = n := by omega
  unfold strtoull
  rw [h.scanInteger]
  grind

theorem strtol_of_numeral (h : Numeral s n) (hn : -2 ^ 63 ≤ n ∧ n < 2 ^ 63) :
    strtol s = (n, s.length) := by
  have hclamp : max (-2 ^ 63) (min n (2 ^ 63 - 1)) = n := by omega
  unfold strtol
  rw [h.scanInteger]
  simp only [hclamp]

end Mmkv
