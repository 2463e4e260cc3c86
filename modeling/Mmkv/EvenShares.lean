import Mathlib.Algebra.BigOperators.Group.List.Basic
import Mathlib.Algebra.Ring.Nat

/-!
# Even shares

Lists of sizes that differ by at most one, and what they say about the quotient and the
remainder of their total.
-/

def EvenShares (sizes : List Nat) : Prop :=
  ∀ x ∈ sizes, ∀ y ∈ sizes, x ≤ y + 1

namespace EvenShares

open Nat

open List

instance (sizes : List Nat) : Decidable (EvenShares sizes) :=
  inferInstanceAs (Decidable (∀ x ∈ sizes, ∀ y ∈ sizes, x ≤ y + 1))

variable {sizes : List Nat} {a : Nat} {x : Nat}

/-- The number of sizes above `a`. -/
def above (a : Nat) (sizes : List Nat) : Nat :=
  sizes.countP fun x => decide (a < x)

theorem above_cons_of_lt (h : a < x) : above a (x :: sizes) = above a sizes + 1 := by
  simp [above, h]

theorem above_cons_of_le (h : x ≤ a) : above a (x :: sizes) = above a sizes := by
  simp [above, not_lt.2 h]

theorem of_two_values (h : ∀ x ∈ sizes, x = a ∨ x = a + 1) : EvenShares sizes := by
  intro x hx y hy
  grind

theorem sum_le (h : ∀ x ∈ sizes, x ≤ a) : sizes.sum ≤ sizes.length * a := by
  induction sizes with
  | nil => simp
  | cons x sizes ih =>
    have hx := h x mem_cons_self
    have hrest := ih fun y hy => h y (mem_cons_of_mem _ hy)
    rw [sum_cons, length_cons, add_mul]
    omega

theorem sum_lt (h : ∀ x ∈ sizes, x ≤ a) (hlow : ∃ x ∈ sizes, x < a) :
    sizes.sum < sizes.length * a := by
  induction sizes with
  | nil => grind
  | cons x sizes ih =>
    have hx := h x mem_cons_self
    have hrest : ∀ y ∈ sizes, y ≤ a := fun y hy => h y (mem_cons_of_mem _ hy)
    rw [sum_cons, length_cons, add_mul]
    obtain ⟨y, hy, hlow⟩ := hlow
    rcases mem_cons.1 hy with rfl | hy
    · have hle := sum_le hrest
      omega
    · have hlt := ih hrest ⟨y, hy, hlow⟩
      omega

theorem sum_of_two_values (h : ∀ x ∈ sizes, x = a ∨ x = a + 1) :
    sizes.sum = sizes.length * a + above a sizes := by
  induction sizes with
  | nil => simp [above]
  | cons x sizes ih =>
    have hrest := ih fun y hy => h y (mem_cons_of_mem _ hy)
    rw [sum_cons, length_cons, add_mul]
    rcases h x mem_cons_self with rfl | rfl
    · rw [above_cons_of_le (le_refl _)]
      omega
    · rw [above_cons_of_lt (lt_succ_self _)]
      omega

theorem exists_le_of_above_lt (h : above a sizes < sizes.length) : ∃ x ∈ sizes, x ≤ a := by
  by_contra hnone
  push Not at hnone
  have hall : above a sizes = sizes.length := by
    rw [above, countP_eq_length]
    intro x hx
    simpa using hnone x hx
  omega

/-- When one more joins, no share has to grow. -/
theorem quotient_le (h : EvenShares sizes) (hx : x ∈ sizes) :
    sizes.sum / (sizes.length + 1) ≤ x := by
  by_contra hlow
  have hupper : ∀ y ∈ sizes, y ≤ sizes.sum / (sizes.length + 1) := by
    intro y hy
    have := h y hy x hx
    omega
  have hsum := sum_lt hupper ⟨x, hx, by omega⟩
  have hquotient := div_mul_le_self sizes.sum (sizes.length + 1)
  grind

theorem remainder_le_above (h : EvenShares sizes) : sizes.sum % (sizes.length + 1) ≤
      above (sizes.sum / (sizes.length + 1)) sizes := by
  by_contra hfew
  have hremainder : sizes.sum % (sizes.length + 1) < sizes.length + 1 := mod_lt _ (succ_pos _)
  obtain ⟨x, hx, hlow⟩ : ∃ x ∈ sizes, x ≤ sizes.sum / (sizes.length + 1) :=
    exists_le_of_above_lt (by omega)
  have htwo : ∀ y ∈ sizes, y = sizes.sum / (sizes.length + 1) ∨
      y = sizes.sum / (sizes.length + 1) + 1 := by
    intro y hy
    have hy' := h y hy x hx
    have hle := h.quotient_le hy
    omega
  have hsum := sum_of_two_values htwo
  have hdivision := div_add_mod sizes.sum (sizes.length + 1)
  grind

end EvenShares
