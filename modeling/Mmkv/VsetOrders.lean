import Mmkv.VsetRanges
import Mathlib.Data.Int.Init

/-!
# Positions in sorted sets

`GetRange`, `GetRRange` and `EraseRange` take the positions of a closed interval, where a
negative bound counts from the end.  `N2P` subtracts such a bound instead of adding it, and
the counts that are made of the bounds are not tested before a loop uses them.
-/

namespace Mmkv

open List Option Nat

/-! ## The positions that are asked for -/

section Positions

variable {α : Type} {l r : Int} {xs : List α}

def position (n : Nat) (x : Int) : Int :=
  if x < 0 then n + x else x

def firstPosition (n : Nat) (l : Int) : Nat :=
  (max (position n l) 0).toNat

/-- The number of positions from `l` to `r`. -/
def positions (n : Nat) (l r : Int) : Nat :=
  (min (position n r) (n - 1) + 1 - max (position n l) 0).toNat

def between (l r : Int) (xs : List α) : List α :=
  (xs.drop (firstPosition xs.length l)).take (positions xs.length l r)

def outside (l r : Int) (xs : List α) : List α :=
  xs.take (firstPosition xs.length l) ++
    xs.drop (firstPosition xs.length l + positions xs.length l r)

theorem length_between : (between l r xs).length = positions xs.length l r := by
  simp only [between, length_take, length_drop, firstPosition, positions, position]
  omega

theorem between_eq_nil : between l r xs = [] ↔ positions xs.length l r = 0 := by
  rw [← length_eq_zero_iff, length_between]

theorem eq_append_between : xs = xs.take (firstPosition xs.length l) ++ (between l r xs ++
      xs.drop (firstPosition xs.length l + positions xs.length l r)) := by
  rw [between, ← drop_drop, take_append_drop, take_append_drop]

theorem outside_of_nil (h : between l r xs = []) : outside l r xs = xs := by
  rw [outside, between_eq_nil.1 h, add_zero, take_append_drop]

end Positions

namespace Vset

variable {hash : Str → Nat} {v v' : Vset hash}

/-! ## Reads -/

variable {α : Type} {l r : Int} {right : Int}

theorem takeInt_eq_take (count : Int) (xs : List α) :
    takeInt count xs = xs.take (if count < 0 then xs.length else count.toNat) := by
  unfold takeInt
  grind

/-- A negative left bound is behind all entries, or too far behind for an `int64_t`. -/
theorem n2p_cases (hcount : v.count < 2 ^ 63) (hlow : -2 ^ 63 ≤ l) :
    (0 ≤ l ∧ v.n2p l = l) ∨ (l < 0 ∧ v.count - l < 2 ^ 63 ∧ v.n2p l = v.count - l) ∨
      (l < 0 ∧ ¬v.count - l < 2 ^ 63 ∧ v.n2p l < 0) := by
  unfold n2p
  by_cases hl : l < 0
  · rw [if_pos hl]
    by_cases hlt : v.count - l < 2 ^ 63
    · exact .inr (.inl ⟨hl, hlt, toInt64_of_lt (by omega) hlt⟩)
    · exact .inr (.inr ⟨hl, hlt, toInt64_neg (by omega) (by omega)⟩)
  · exact .inl ⟨Int.not_lt.1 hl, if_neg hl⟩

/-- A negative right bound is clamped like one behind all entries. -/
theorem min_n2p (hcount : v.count < 2 ^ 63) (hlow : -2 ^ 63 ≤ r) (hhigh : r < 2 ^ 63) :
    ∃ right : Int, (min (toSize (v.n2p r)) v.count : Int) = right ∧
      (r < 0 ∧ right = v.count ∨ 0 ≤ r ∧ right = min r v.count) := by
  refine ⟨_, rfl, ?_⟩
  by_cases hr : r < 0
  · rw [n2p, if_pos hr, toSize_toInt64 (by omega) (by omega)]
    omega
  · rw [n2p, if_neg hr, toSize]
    omega

/-- As many entries are read from the left bound on as the right one says. -/
theorem takeInt_eq_between {xs : List α} (hl : 0 ≤ l)
    (hright : r < 0 ∧ right = xs.length ∨ 0 ≤ r ∧ right = min r xs.length) :
    takeInt (right - l + 1) (xs.drop l.toNat) = between l r xs ↔
      xs.length ≤ l ∨ r = -1 ∨ 0 ≤ r ∧ l ≤ r + 1 := by
  have hfirst : firstPosition xs.length l = l.toNat := by
    rw [firstPosition, position, if_neg (Int.not_lt.2 hl), max_eq_left hl]
  rw [takeInt_eq_take, between, hfirst, take_eq_take_iff, length_drop]
  unfold positions position
  grind

section Bounds

variable (hcounted : v.Counted) (hcount : v.count < 2 ^ 63) (hllow : -2 ^ 63 ≤ l)
  (hlow : -2 ^ 63 ≤ r) (hhigh : r < 2 ^ 63)

include hcounted hcount hllow hlow hhigh

theorem getRange_eq_iff : v.getRange l r = some (between l r v.getAll) ↔
      (0 ≤ l ∧ (v.count ≤ l ∨ r = -1 ∨ 0 ≤ r ∧ l ≤ r + 1)) ∨
      (l < 0 ∧ v.count - l < 2 ^ 63 ∧ between l r v.getAll = []) := by
  obtain ⟨right, hmin, hright⟩ := min_n2p hcount hlow hhigh
  have hlength : v.count = v.getAll.length := hcounted
  unfold getRange
  rw [min_comm, hmin]
  obtain ⟨hl, heq⟩ | ⟨hl, hlt, heq⟩ | ⟨hl, hlt, hneg⟩ := n2p_cases hcount hllow
  · rw [hlength] at hright ⊢
    simp only [heq, countdown, if_neg (Int.not_lt.2 hl), map_some, some.injEq]
    refine (takeInt_eq_between hl hright).trans ?_
    omega
  · have hnil : v.tree.toList.drop (v.count - l).toNat = [] := by
      rw [drop_eq_nil_iff, ← hcounted]
      omega
    have hpos : ¬(v.count - l < 0) := by omega
    simp only [heq, countdown, if_neg hpos, map_some, some.injEq, hnil,
      takeInt_eq_take, take_nil]
    grind
  · simp only [countdown, if_pos hneg, map_none]
    grind

theorem getRRange_eq_iff : v.getRRange l r = some (between l r v.getAll.reverse) ↔
      (0 ≤ l ∧ l < v.count ∧ (r = -1 ∨ 0 ≤ r ∧ l ≤ r + 1)) ∨
      (l = v.count ∧ 0 ≤ r ∧ l = r + 1) ∨ (l = v.count + 1 ∧ (v.count ≤ r ∨ r < 0)) ∨
      (l = -1 ∧ v.count + 1 < 2 ^ 63 ∧ (v.count = 0 ∨ r < -1)) := by
  obtain ⟨right, hmin, hright⟩ := min_n2p hcount hlow hhigh
  have hlength : v.count = v.tree.toList.reverse.length := by rw [length_reverse, hcounted]
  unfold getRRange getAll
  rw [hmin]
  generalize v.tree.toList.reverse = xs at hlength ⊢
  dsimp only
  obtain ⟨hl, heq⟩ | ⟨hl, hlt, heq⟩ | ⟨hl, hlt, hneg⟩ := n2p_cases hcount hllow
  · rw [heq, countdown, if_neg (Int.not_lt.2 hl)]
    dsimp only
    by_cases hnil : xs.length ≤ l.toNat
    · have hzero : positions xs.length l r = 0 := by
        unfold positions position
        grind
      rw [drop_eq_nil_of_le hnil, between_eq_nil.2 hzero]
      by_cases hnone : right - l + 1 = 0
      · rw [if_neg fun h => h.1 hnone, takeInt_eq_take, take_nil]
        grind
      · grind
    · have hrest : xs.drop l.toNat ≠ [] := by simpa using hnil
      rw [hlength] at hright
      rw [if_neg fun h => hrest h.2, some.injEq, takeInt_eq_between hl hright]
      omega
  · have hnil : xs.drop (v.count - l).toNat = [] := by
      rw [drop_eq_nil_iff]
      omega
    rw [heq, countdown, if_neg (by omega)]
    dsimp only
    rw [hnil]
    by_cases hnone : right - (v.count - l) + 1 = 0
    · rw [if_neg fun h => h.1 hnone, takeInt_eq_take, take_nil, some.injEq, eq_comm,
        between_eq_nil]
      unfold positions position
      grind
    · grind
  · rw [countdown, if_pos hneg]
    grind

end Bounds

/-! ## Erasure -/

theorem iterate_nextIndex {n l : Nat} (hlt : l < n) : (nextIndex n)^[l] (some 0) = some l := by
  induction l with
  | zero => rfl
  | succ l ih =>
    rw [Function.iterate_succ_apply', ih (lt_of_succ_lt hlt)]
    exact if_pos hlt

theorem iterate_prevIndex (k i : Nat) : prevIndex^[k] (some (i + k)) = some i := by
  induction k with
  | zero => rfl
  | succ k ih =>
    exact ih

/-- `n` rounds erase the `n` entries up to the iterator. -/
theorem eraseRun_backward (a c b : List WeightValue) (ret : Nat)
    (hlist : v.tree.toList = a ++ (b ++ c)) :
    ∃ v' : Vset hash, v.eraseRun true b.length (prevIndex (some (a.length + b.length))) ret =
        (ret + b.length, v') ∧ v'.tree.toList = a ++ c := by
  induction b using List.reverseRecOn generalizing v ret with
  | nil => exact ⟨v, rfl, hlist⟩
  | append_singleton b x ih =>
    let i := a.length + b.length
    let v1 : Vset hash := { v with tree := v.tree.eraseIndex i, count := v.count - 1 }
    have hlist' : v.tree.toList = (a ++ b) ++ x :: c := by
      rw [hlist]
      simp
    have hi : i = (a ++ b).length := length_append.symm
    have hlt : i < v.tree.toList.length := by grind
    have hlist1 : v1.tree.toList = a ++ (b ++ c) := by
      rw [AvlTree.toList_eraseIndex hlt, hlist', hi,
        eraseIdx_append_of_length_le (Nat.le_refl _), Nat.sub_self, eraseIdx_cons_zero,
        append_assoc]
    obtain ⟨v', hrun, htree⟩ := ih (ret + 1) hlist1
    refine ⟨v', ?_, htree⟩
    rw [length_append, length_singleton, add_comm b.length, ← add_assoc ret, ← hrun, add_comm 1]
    rfl

/-- The entries of a closed interval go, the others keep their order. -/
def Erases (l r : Int) (v : Vset hash) : Prop :=
  ∃ v', v.eraseRange l r = some ((between l r v.getAll).length, v') ∧
    v'.getAll = outside l r v.getAll

/-- Bounds inside the set are walked to from either end. -/
theorem erases_inside (hcounted : v.Counted) (hsize : v.count < 2 ^ 63) {l r : Nat}
    (hlt : l < r) (hr : r < v.count) :
    v.Erases l r := by
  have hlength : v.count = v.getAll.length := hcounted
  have hleft : v.n2p l = l := if_neg (by omega)
  have hright : (min (toSize (v.n2p r)) v.count : Int) = r := by
    rw [n2p, if_neg (by omega), toSize]
    omega
  have hfirst : firstPosition v.getAll.length l = l := by
    rw [firstPosition, position, if_neg (by omega)]
    omega
  have hcount : positions v.getAll.length l r = r + 1 - l := by
    rw [positions, position, position, if_neg (by omega), if_neg (by omega)]
    omega
  have hlist : v.tree.toList = v.getAll.take l ++ (between l r v.getAll ++
      v.getAll.drop (l + (r + 1 - l))) := by
    have happend := @eq_append_between _ l r v.getAll
    rwa [hfirst, hcount] at happend
  have hbetween : (between (l : Int) r v.getAll).length = r + 1 - l := length_between.trans hcount
  have htake : (v.getAll.take l).length = l := by
    rw [length_take]
    omega
  have hrounds : countdown ((r : Int) - l + 1) = some (r + 1 - l) := by
    rw [countdown, if_neg (by omega)]
    congr 1
    omega
  unfold Erases eraseRange outside
  rw [hleft, hright, hfirst, hcount, hbetween]
  dsimp only
  rw [if_neg (by omega), hrounds]
  split
  · obtain ⟨v', hrun, htree, -⟩ := eraseRun_forward _ _ _ 0 hlist
    have hne : between (l : Int) r v.getAll ≠ [] := by grind
    rw [firstIndex_of_ne (by simp [hne]), htake, hbetween, zero_add] at hrun
    have hsteps : countdown (l : Int) = some l := if_neg (by omega)
    have hbegin : v.begin = some 0 := if_neg (by rw [← hcounted]; omega)
    refine ⟨v', ?_, htree⟩
    rw [hsteps, hbegin]
    change some (v.eraseRun false _ ((nextIndex _)^[l] _) 0) = _
    rw [iterate_nextIndex (by rw [← hcounted]; omega), hrun]
  · obtain ⟨v', hrun, htree⟩ := eraseRun_backward _ _ _ 0 hlist
    rw [htake, hbetween, Nat.zero_add, Nat.add_sub_cancel' (by omega)] at hrun
    have hsteps : countdown ((v.count : Int) - 1 - r) = some (v.count - 1 - r) := by
      rw [countdown, if_neg (by omega)]
      congr 1
      omega
    have hend : v.beforeEnd = some (r + (v.count - 1 - r)) := by
      rw [beforeEnd, ← hcounted, if_neg (by omega)]
      congr 1
      omega
    refine ⟨v', ?_, htree⟩
    rw [hsteps, hend]
    change some (v.eraseRun true _ (prevIndex^[_] _) 0) = _
    rw [iterate_prevIndex]
    exact congrArg some hrun

theorem erases_of_ge (hmin : (min (toSize (v.n2p r)) v.count : Int) = right)
    (hle : right ≤ v.n2p l) : v.Erases l r ↔ between l r v.getAll = [] := by
  have hrun : v.eraseRange l r = some (0, v) := by
    unfold eraseRange
    rw [hmin]
    exact if_pos hle
  unfold Erases
  rw [hrun]
  constructor
  · grind
  · intro hnil
    rw [hnil]
    exact ⟨v, rfl, (outside_of_nil hnil).symm⟩

/-- A loop that counts down from a negative number never ends. -/
theorem eraseRange_eq_none
    (hmin : (min (toSize (v.n2p r)) v.count : Int) = right) (hlt : v.n2p l < right)
    (hneg : v.n2p l < 0 ∨ right = v.count) : v.eraseRange l r = none := by
  have hnone : ∀ {x : Int}, x < 0 → countdown x = none := fun hx => if_pos hx
  unfold eraseRange
  grind

theorem erases_iff (hcounted : v.Counted) (hcount : v.count < 2 ^ 63) (hllow : -2 ^ 63 ≤ l)
    (hlow : -2 ^ 63 ≤ r) (hhigh : r < 2 ^ 63) :
    v.Erases l r ↔ (0 ≤ l ∧ l < r ∧ r < v.count) ∨
      (between l r v.getAll = [] ∧ (0 ≤ l → v.count ≤ l ∨ 0 ≤ r) ∧ v.count - l < 2 ^ 63) := by
  obtain ⟨right, hmin, hright⟩ := min_n2p hcount hlow hhigh
  have hcases := n2p_cases hcount hllow
  by_cases hinside : 0 ≤ l ∧ l < r ∧ r < v.count
  · obtain ⟨hl, hlt, hr⟩ := hinside
    lift l to Nat using hl
    lift r to Nat using by omega
    exact iff_of_true (erases_inside hcounted hcount (by omega) (by omega)) (.inl (by omega))
  · rw [or_iff_right hinside]
    by_cases hle : right ≤ v.n2p l
    · rw [erases_of_ge hmin hle]
      exact ⟨fun hnil => ⟨hnil, by omega⟩, And.left⟩
    · have hnone := eraseRange_eq_none hmin (Int.not_le.1 hle) (by omega)
      refine iff_of_false (fun ⟨v', hrun, _⟩ => ?_) fun ⟨hnil, hpos, hno⟩ => ?_
      · grind
      · have hl : 0 ≤ l := by omega
        have hr : 0 ≤ r := by omega
        rw [between_eq_nil, positions, position, position, if_neg (Int.not_lt.2 hl),
          if_neg (Int.not_lt.2 hr), show v.getAll.length = v.count from hcounted.symm] at hnil
        omega

/-! ## Ranges of positions in sets in agreement -/

section Agreement

variable (ha : v.Agrees) (hcount : v.count < 2 ^ 63) (l r : Int64)

include ha hcount

/-- The pairs of positions for which `getRange` returns the members between them. -/
theorem getRange_positions :
    v.getRange l.toInt r.toInt = some (between l.toInt r.toInt v.getAll) ↔
      (0 ≤ l.toInt ∧ (v.count ≤ l.toInt ∨ r.toInt = -1 ∨ 0 ≤ r.toInt ∧ l.toInt ≤ r.toInt + 1)) ∨
      (l.toInt < 0 ∧ v.count - l.toInt < 2 ^ 63 ∧ between l.toInt r.toInt v.getAll = []) :=
  getRange_eq_iff ha.length hcount l.le_toInt r.le_toInt r.toInt_lt

/-- The pairs of positions for which `getRRange` returns the members between them,
counted from the last one. -/
theorem getRRange_positions :
    v.getRRange l.toInt r.toInt = some (between l.toInt r.toInt v.getAll.reverse) ↔
      (0 ≤ l.toInt ∧ l.toInt < v.count ∧ (r.toInt = -1 ∨ 0 ≤ r.toInt ∧ l.toInt ≤ r.toInt + 1)) ∨
      (l.toInt = v.count ∧ 0 ≤ r.toInt ∧ l.toInt = r.toInt + 1) ∨
      (l.toInt = v.count + 1 ∧ (v.count ≤ r.toInt ∨ r.toInt < 0)) ∨
      (l.toInt = -1 ∧ v.count + 1 < 2 ^ 63 ∧ (v.count = 0 ∨ r.toInt < -1)) :=
  getRRange_eq_iff ha.length hcount l.le_toInt r.le_toInt r.toInt_lt

/-- The pairs of positions for which `eraseRange` erases exactly the members between them. -/
theorem eraseRange_positions :
    v.Erases l.toInt r.toInt ↔
      (0 ≤ l.toInt ∧ l.toInt < r.toInt ∧ r.toInt < v.count) ∨
      (between l.toInt r.toInt v.getAll = [] ∧
        (0 ≤ l.toInt → v.count ≤ l.toInt ∨ 0 ≤ r.toInt) ∧ v.count - l.toInt < 2 ^ 63) :=
  erases_iff ha.length hcount l.le_toInt r.le_toInt r.toInt_lt

end Agreement

theorem getRange_both :
    ∃ v : Vset (fun _ => 0), run twoMembers new = some v ∧
      v.getRange 0 1 = some [⟨one, [97]⟩, ⟨two, [98]⟩] := by
  obtain ⟨v, hrun, ha, -⟩ := exists_twoMembers
  cases hrun
  have hrange := (getRange_positions ha (by decide) 0 1).2
    (.inl ⟨by decide, .inr (.inr ⟨by decide, by decide⟩)⟩)
  exact ⟨_, rfl, hrange⟩

/-- The last entry is not read, and bounds in the wrong order read all entries from the left
one on. -/
theorem getRange_last_lost :
    ∃ v : Vset (fun _ => 0), run twoMembers new = some v ∧
      v.getRange (-1) (-1) = some [] ∧ between (-1) (-1) v.getAll = [⟨two, [98]⟩] ∧
      v.getRange 1 (-2) = some [⟨two, [98]⟩] ∧ between 1 (-2) v.getAll = [] :=
  ⟨_, rfl, by decide +kernel, rfl, by decide +kernel, rfl⟩

theorem getRRange_both :
    ∃ v : Vset (fun _ => 0), run twoMembers new = some v ∧
      v.getRRange 0 1 = some [⟨two, [98]⟩, ⟨one, [97]⟩] := by
  obtain ⟨v, hrun, ha, -⟩ := exists_twoMembers
  cases hrun
  have hrange := (getRRange_positions ha (by decide) 0 1).2
    (.inl ⟨by decide, by decide, .inr ⟨by decide, by decide⟩⟩)
  exact ⟨_, rfl, hrange⟩

/-- The null iterator of an empty set is dereferenced, and the one before the first entry. -/
theorem getRRange_null :
    (new : Vset (fun _ => 0)).getRRange 0 0 = none ∧
      ∃ v : Vset (fun _ => 0), run twoMembers new = some v ∧ v.getRRange (-2) (-1) = none ∧
        between (-2) (-1) v.getAll.reverse = [⟨two, [98]⟩, ⟨one, [97]⟩] :=
  ⟨rfl, _, rfl, by decide +kernel, rfl⟩

theorem eraseRange_both :
    ∃ v v' : Vset (fun _ => 0), run twoMembers new = some v ∧
      v.eraseRange 0 1 = some (2, v') ∧ v'.getAll = [] := by
  obtain ⟨v, hrun, ha, -⟩ := exists_twoMembers
  cases hrun
  obtain ⟨v', herase, hall⟩ := (eraseRange_positions ha (by decide) 0 1).2
    (.inl ⟨by decide, by decide, by decide⟩)
  exact ⟨_, v', rfl, herase, hall⟩

/-- A single entry is not erased, and the loop to the last one never ends. -/
theorem eraseRange_single_kept :
    ∃ v : Vset (fun _ => 0), run twoMembers new = some v ∧
      v.eraseRange 1 1 = some (0, v) ∧ (between 1 1 v.getAll).length = 1 ∧
      (v.eraseRange 0 (-1)).isNone :=
  ⟨_, rfl, rfl, rfl, by decide +kernel⟩

/-! ## Agreement in every run -/

variable {op : VsetOp} {w1 w2 : Weight}

theorem lowerBound_eq_none (ho : v.Ordered) :
    v.lowerBound w1 = none ↔ ∀ wm ∈ v.tree.toList, wm.key.compare w1 = .lt := by
  have hascends : Ascends (fun wm : WeightValue => decide (wm.key.compare w1 ≠ .lt))
      v.tree.toList := by
    refine List.pairwise_iff_forall_sublist.2 fun {x y} hsub hx => ?_
    have hxy := List.pairwise_iff_forall_sublist.1 ho.sorted hsub
    have hmem := hsub.subset
    cases hw : w1.isNaN with
    | true => simp [Weight.compare, Weight.gt, Weight.eq, hw] at hx
    | false =>
      rw [decide_eq_true_eq, Weight.compare_eq_rankOrder (ho.notNaN _ (hmem (by simp))) hw,
        rankOrder_ne_lt] at hx ⊢
      exact Int.le_trans hx hxy
  rw [lowerBound, AvlTree.bound_of_ascends hascends]
  simp [firstIndex]

theorem eraseRange_of_keeps {l r : Int64} (h : (VsetOp.eraseRange l r).Keeps v) :
    v.eraseRange l.toInt r.toInt = some (0, v) := by
  unfold eraseRange
  refine if_pos ?_
  simp only [VsetOp.Keeps] at h
  split at h
  next hl =>
    have hleft : v.n2p l.toInt = v.count - l.toInt := by
      rw [n2p, if_pos hl, toInt64_of_lt (by omega) h]
    omega
  next hl =>
    have hleft : v.n2p l.toInt = l.toInt := if_neg hl
    rcases h with h | ⟨hr, h⟩
    · omega
    · have hright : v.n2p r.toInt = r.toInt := if_neg (by omega)
      rw [hleft, hright, toSize]
      omega

theorem step_agrees (hv : v.Agrees) (ho : v.Ordered) (hweight : op.Weighted) (hkeeps : op.Keeps v)
    (hstep : v.step op = some v') : v'.Agrees := by
  cases op with
  | insert wm =>
    cases hstep
    exact (insert_agrees hv ho hweight).1
  | erase member =>
    obtain ⟨r, hrun, rfl⟩ := map_eq_some_iff.1 hstep
    exact (erase_agrees hv ho hkeeps hrun).1
  | eraseRange left right =>
    rw [step, eraseRange_of_keeps hkeeps] at hstep
    cases hstep
    exact hv
  | eraseRangeByWeight left right =>
    rw [step, eraseRangeByWeight, (lowerBound_eq_none ho).2 hkeeps] at hstep
    cases hstep
    exact hv

/-- A step that does not keep the agreement ends it, if it comes back. -/
theorem keeps_of_agrees (hv : v.Agrees) (ho : v.Ordered) (hcount : v.count < 2 ^ 63)
    (hstep : v.step op = some v') (hv' : v'.Agrees) : op.Keeps v := by
  cases op with
  | insert wm => trivial
  | erase member =>
    obtain ⟨r, hrun, rfl⟩ := map_eq_some_iff.1 hstep
    intro w i hlookup hfind wm hwm hmember
    have hdict := dict_erase hrun
    rw [erase_of_lookup hlookup] at hrun
    obtain ⟨v1, herase, rfl⟩ := map_eq_some_iff.1 hrun
    have htree : v1.tree = v.tree :=
      tree_eraseMember_of_left (v := { v with dict := (v.dict.extract member).2 }) hv.nodup
        hfind hwm hmember herase
    have hkept := (hv'.mem_iff w member).1 (htree ▸ (hv.mem_iff w member).2 hlookup)
    rw [hdict, (HashDict.extract_spec member v.dict).2.1, KeyedStore.remove_self] at hkept
    cases hkept
  | eraseRange left right =>
    obtain ⟨⟨n, v1⟩, hrun, rfl⟩ := map_eq_some_iff.1 hstep
    obtain ⟨hlength, hdict⟩ := (eraseRange_erasesFrom hrun).length
    obtain rfl := hv.erased_eq_zero hv' hlength hdict
    obtain ⟨right', hmin, hright⟩ := min_n2p hcount right.le_toInt right.toInt_lt
    have hcases := n2p_cases hcount left.le_toInt
    by_contra hnot
    have hlt : v.n2p left.toInt < right' := by
      simp only [VsetOp.Keeps] at hnot
      grind
    by_cases hinside : 0 ≤ left.toInt ∧ right' < v.count
    · obtain ⟨v2, hrun', -⟩ := erases_inside (l := left.toInt.toNat) (r := right.toInt.toNat)
        hv.length hcount (by omega) (by omega)
      rw [Int.toNat_of_nonneg (by omega), Int.toNat_of_nonneg (by omega), hrun] at hrun'
      have hzero := congrArg (fun o => o.map Prod.fst) hrun'
      simp only [map_some, some.injEq, length_between, positions, position] at hzero
      have hlength := hv.length
      unfold getAll at hzero
      omega
    · rw [eraseRange_eq_none hmin hlt (by omega)] at hrun
      cases hrun
  | eraseRangeByWeight left right =>
    obtain ⟨⟨n, v1⟩, hrun, rfl⟩ := map_eq_some_iff.1 hstep
    obtain ⟨hlength, hdict⟩ := (eraseRangeByWeight_erasesFrom hrun).length
    obtain rfl := hv.erased_eq_zero hv' hlength hdict
    refine (lowerBound_eq_none ho).1 ?_
    by_contra hbound
    obtain ⟨i, hi⟩ := ne_none_iff_exists'.1 hbound
    rw [eraseRangeByWeight, hi] at hrun
    obtain ⟨rounds, hrounds, hrun⟩ := map_eq_some_iff.1 hrun
    have hlt := AvlTree.bound_lt hi
    cases rounds with
    | zero =>
      unfold distancePos distance at hrounds
      grind
    | succ rounds =>
      have hle := le_eraseRun false rounds (if i < (v.tree.eraseIndex i).toList.length
        then some i else none) 1 { v with tree := v.tree.eraseIndex i, count := v.count - 1 }
      have hfst := congrArg Prod.fst hrun
      simp only [eraseRun] at hfst
      grind

inductive Reached : Vset hash → Prop where
  | start : Reached new
  | step {op : VsetOp} {v v' : Vset hash} (hv : Reached v) (hweight : op.Weighted)
      (hkeeps : op.Keeps v) (hstep : v.step op = some v') : Reached v'

theorem Reached.invariant (h : Reached v) : v.Agrees ∧ v.Ordered := by
  induction h with
  | start => exact ⟨new_agrees, new_ordered⟩
  | step _ hweight hkeeps hstep ih =>
    exact ⟨step_agrees ih.1 ih.2 hweight hkeeps hstep, ih.2.step hweight hstep⟩

/-- Tree and dictionary agree in all sets that are reached; so the sizes are equal,
`GetWeight` answers for what `GetAll` lists, and an erased member can be inserted again.
A step that does not keep the agreement ends it. -/
theorem Reached.agrees (h : Reached v) :
    v.Agrees ∧
      (∀ member w, (v.getWeight member).1 = some w ↔ ⟨w, member⟩ ∈ v.getAll) ∧
      (∀ member v' w, v.erase member = some (true, v') → (v'.insert ⟨w, member⟩).1 = true) ∧
      ∀ op v', op.Weighted → v.count < 2 ^ 63 → v.step op = some v' →
        (v'.Agrees ↔ op.Keeps v) := by
  obtain ⟨ha, ho⟩ := h.invariant
  refine ⟨ha, ha.getWeight_iff, fun _ _ w hrun => insert_erased hrun w,
    fun op v' hop hcount hstep => ⟨keeps_of_agrees ha ho hcount hstep, fun hkeeps => ?_⟩⟩
  exact step_agrees ha ho hop hkeeps hstep

/-- Two members are inserted and the first one is erased. -/
theorem member_erased_agrees :
    ∃ v : Vset (fun _ => 0),
      run [.insert ⟨one, [97]⟩, .insert ⟨two, [98]⟩, .erase [97]] new = some v ∧ v.Agrees := by
  refine ⟨_, rfl, ?_⟩
  refine (Reached.agrees (@Reached.step _ (.erase [97]) _ _
    (@Reached.step _ (.insert ⟨two, [98]⟩) _ _
      (@Reached.step _ (.insert ⟨one, [97]⟩) _ _ .start ?_ trivial rfl) ?_ trivial rfl)
    trivial ?_ rfl)).1
  · exact (by decide : one.isNaN = false)
  · exact (by decide : two.isNaN = false)
  · intro w i hlookup hfind wm hwm
    have hw : one = w := congrArg KeyValue.value (some.inj hlookup)
    subst hw
    have hi : 0 = i := some.inj hfind
    grind

/-- The range 0 to 1 is erased from the tree and stays in the dictionary. -/
theorem erased_range_kept :
    ∃ v : Vset (fun _ => 0),
      run [.insert ⟨one, [97]⟩, .insert ⟨two, [98]⟩, .eraseRange 0 1] new = some v ∧
      v.getAll = [] ∧ v.count = 0 ∧ v.dict.size = 2 ∧ (v.getWeight [97]).1 = some one ∧
      (v.insert ⟨one, [97]⟩).1 = false :=
  ⟨_, rfl, rfl, rfl, rfl, rfl, rfl⟩

/-- Three members share a weight.  The search begins at the first one, which has the third
one on its left, so that one stays in the tree. -/
example :
    ∃ v : Vset (fun _ => 0),
      run [.insert ⟨one, [97]⟩, .insert ⟨one, [98]⟩, .insert ⟨one, [99]⟩, .insert ⟨two, [100]⟩,
        .erase [99]] new = some v ∧
      ⟨one, [99]⟩ ∈ v.getAll ∧ (v.getWeight [99]).1 = none :=
  ⟨_, rfl, by decide, rfl⟩

end Vset

end Mmkv
