import Mathlib.Data.Set.Basic
import Mathlib.Order.Compare

/-!
# Byte strings and `strcmp`

Keys are byte strings of any content, but they are compared through `c_str()`,
that is up to the first zero byte.  The comparison is a total preorder; it is
faithful on a set of strings that differ before their first zero byte.
-/

namespace Mmkv

abbrev Str : Type :=
  List UInt8

def cString (s : Str) : Str :=
  s.takeWhile (· ≠ 0)

/-- `Comparator<String>`. -/
def strcmp (x y : Str) : Ordering :=
  compare (cString x) (cString y)

instance : Std.TransCmp strcmp where
  eq_swap := Std.OrientedOrd.eq_swap
  isLE_trans := Std.TransOrd.isLE_trans

theorem strcmp_eq_iff {x y : Str} : strcmp x y = .eq ↔ cString x = cString y := by
  unfold strcmp
  exact Std.LawfulEqCmp.compare_eq_iff_eq

theorem strcmp_self (x : Str) : strcmp x x = .eq := strcmp_eq_iff.mpr rfl

/-- No two strings of the set are confused by `strcmp`. -/
def Separated (U : Set Str) : Prop :=
  ∀ x ∈ U, ∀ y ∈ U, strcmp x y = .eq → x = y

theorem cString_of_nulFree {s : Str} (hs : 0 ∉ s) : cString s = s := by
  induction s with
  | nil => rfl
  | cons b rest ih =>
    simp only [List.mem_cons, not_or] at hs
    have hb : b ≠ 0 := Ne.symm hs.1
    have hrest := ih hs.2
    simp only [cString] at hrest ⊢
    rw [List.takeWhile_cons_of_pos (by simpa using hb), hrest]

/-- `strcmp` tells strings without a NUL byte apart. -/
theorem separated_nulFree : Separated {s | 0 ∉ s} := by
  intro x hx y hy heq
  rw [strcmp_eq_iff, cString_of_nulFree hx, cString_of_nulFree hy] at heq
  exact heq

end Mmkv
