import Mathlib.Data.Nat.Fib.Basic
import Mmkv.Vset

/-!
# The balance of AVL trees

Rotations are decided by stored heights.  In a tree whose stored heights are right they
keep all subtrees balanced, and both fix-up loops bring a tree back to this state after
one subtree has grown or shrunk by one.

A path is balanced for a height if a balanced subtree of this height can be put at its
end.  The loops are followed along such paths.
-/

namespace Mmkv

open Nat

namespace AvlTree

variable {K V : Type}

/-! ## Heights -/

/-- The height of the tree itself, whatever is stored in its nodes. -/
def realHeight : AvlTree V → Nat
  | nil => 0
  | node left _ _ right => max left.realHeight right.realHeight + 1

def Balanced : AvlTree V → Prop
  | nil => True
  | node left _ _ right =>
    left.Balanced ∧ right.Balanced ∧ left.realHeight ≤ right.realHeight + 1 ∧
      right.realHeight ≤ left.realHeight + 1

def Exact : AvlTree V → Prop
  | nil => True
  | node left _ h right =>
    left.Exact ∧ right.Exact ∧ h = max left.realHeight right.realHeight + 1

instance decidableBalanced : (t : AvlTree V) → Decidable t.Balanced
  | nil => .isTrue trivial
  | node left _ _ right =>
    have := decidableBalanced left
    have := decidableBalanced right
    inferInstanceAs (Decidable (left.Balanced ∧ right.Balanced ∧
      left.realHeight ≤ right.realHeight + 1 ∧ right.realHeight ≤ left.realHeight + 1))

def Avl : AvlTree V → Prop
  | nil => True
  | node left _ h right =>
    left.Avl ∧ right.Avl ∧ h = max left.height right.height + 1 ∧
      left.height ≤ right.height + 1 ∧ right.height ≤ left.height + 1

variable {t : AvlTree V}

theorem Exact.height_eq (h : t.Exact) : t.height = t.realHeight := by
  cases t with
  | nil => rfl
  | node left value s right => exact h.2.2

theorem avl_iff (t : AvlTree V) : t.Avl ↔ t.Exact ∧ t.Balanced := by
  induction t with
  | nil => simp [Avl, Exact, Balanced]
  | node left value s right ihl ihr =>
    simp only [Avl, Exact, Balanced, ihl, ihr]
    constructor
    · rintro ⟨⟨hel, hbl⟩, ⟨her, hbr⟩, hs, hlr, hrl⟩
      rw [hel.height_eq, her.height_eq] at hs hlr hrl
      exact ⟨⟨hel, her, hs⟩, hbl, hbr, hlr, hrl⟩
    · rintro ⟨⟨hel, her, hs⟩, hbl, hbr, hlr, hrl⟩
      rw [← hel.height_eq, ← her.height_eq] at hs hlr hrl
      exact ⟨⟨hel, hbl⟩, ⟨her, hbr⟩, hs, hlr, hrl⟩

theorem Avl.height_eq (h : t.Avl) : t.height = t.realHeight := ((avl_iff t).1 h).1.height_eq

theorem Balanced.fib_le (h : t.Balanced) : Nat.fib (t.realHeight + 2) ≤ t.toList.length + 1 := by
  induction t with
  | nil => exact le_refl 1
  | node left value s right ihl ihr =>
    obtain ⟨hl, hr, hlr, hrl⟩ := h
    have hleft := ihl hl
    have hright := ihr hr
    have hlength : (node left value s right).toList.length =
        left.toList.length + right.toList.length + 1 := by
      simp only [toList, List.length_append, List.length_cons]
      omega
    rw [hlength]
    unfold realHeight
    generalize hmax : max left.realHeight right.realHeight + 1 = n
    have hadd : Nat.fib (n + 2) = Nat.fib n + Nat.fib (n + 1) := fib_add_two
    -- The higher subtree has the height `n - 1`, the lower one at least `n - 2`.
    by_cases hle : left.realHeight ≤ right.realHeight
    · have hlow : Nat.fib n ≤ Nat.fib (left.realHeight + 2) := fib_mono (by omega)
      grind
    · grind

theorem Avl.fib_le (h : t.Avl) : Nat.fib (t.height + 2) ≤ t.toList.length + 1 := by
  rw [h.height_eq]
  exact ((avl_iff t).1 h).2.fib_le

/-! ## Rotations -/

@[simp] theorem height_nil : (nil : AvlTree V).height = 0 := rfl

@[simp] theorem height_node (left : AvlTree V) (value : V) (s : Nat) (right : AvlTree V) :
    (node left value s right).height = s := rfl

def mk (left : AvlTree V) (value : V) (right : AvlTree V) : AvlTree V :=
  node left value (max left.height right.height + 1) right

@[simp] theorem height_mk (left : AvlTree V) (value : V) (right : AvlTree V) :
    (mk left value right).height = max left.height right.height + 1 := rfl

variable {left right : AvlTree V} {value : V}

theorem avl_mk (hl : left.Avl) (hr : right.Avl) (hlr : left.height ≤ right.height + 1)
    (hrl : right.height ≤ left.height + 1) : (mk left value right).Avl :=
  ⟨hl, hr, rfl, hlr, hrl⟩

variable {s : Nat}

theorem fixupLeftHeavy_single {ll lr : AvlTree V} {lv : V} {lh : Nat}
    (h : ¬ ll.height < lr.height) :
    fixupLeftHeavy (node (node ll lv lh lr) value s right) =
      mk ll lv (mk lr value right) := by
  change ((node (if ll.height < lr.height then _ else node ll lv lh lr) value s
    right).rotateRight.onRight updateHeight).updateHeight = _
  rw [if_neg h]
  rfl

theorem fixupLeftHeavy_double {ll a b : AvlTree V} {lv x : V} {lh xh : Nat} (h : ll.height < xh) :
    fixupLeftHeavy (node (node ll lv lh (node a x xh b)) value s right) =
      mk (mk ll lv a) x (mk b value right) := by
  change ((node (if ll.height < xh then
    ((node ll lv lh (node a x xh b)).rotateLeft.onLeft updateHeight).updateHeight else _) value
      s right).rotateRight.onRight updateHeight).updateHeight = _
  rw [if_pos h]
  rfl

theorem fixupRightHeavy_single {rl rr : AvlTree V} {rv : V} {rh : Nat}
    (h : ¬ rr.height < rl.height) :
    fixupRightHeavy (node left value s (node rl rv rh rr)) =
      mk (mk left value rl) rv rr := by
  change ((node left value s (if rr.height < rl.height then _
    else node rl rv rh rr)).rotateLeft.onLeft updateHeight).updateHeight = _
  rw [if_neg h]
  rfl

theorem fixupRightHeavy_double {a b rr : AvlTree V} {x rv : V} {xh rh : Nat} (h : rr.height < xh) :
    fixupRightHeavy (node left value s (node (node a x xh b) rv rh rr)) =
      mk (mk left value a) x (mk b rv rr) := by
  change ((node left value s (if rr.height < xh then
    ((node (node a x xh b) rv rh rr).rotateRight.onRight updateHeight).updateHeight
      else _)).rotateLeft.onLeft updateHeight).updateHeight = _
  rw [if_pos h]
  rfl

theorem fixupLeftHeavy_avl (value : V) (s : Nat) (hl : left.Avl) (hr : right.Avl)
    (hheavy : left.height = right.height + 2) :
    (fixupLeftHeavy (node left value s right)).Avl ∧
      left.height ≤ (fixupLeftHeavy (node left value s right)).height ∧
      (fixupLeftHeavy (node left value s right)).height ≤ left.height + 1 := by
  cases left with
  | nil => simp at hheavy
  | node ll lv lh lr =>
    obtain ⟨hll, hlr, hlh, hbal, hbal'⟩ := hl
    rw [height_node] at hheavy ⊢
    by_cases hinner : ll.height < lr.height
    · cases lr with
      | nil => simp at hinner
      | node a x xh b =>
        obtain ⟨ha, hb, hxh, hab, hba⟩ := hlr
        rw [height_node] at hinner hlh hbal hbal'
        rw [fixupLeftHeavy_double hinner]
        refine ⟨avl_mk (avl_mk hll ha ?_ ?_) (avl_mk hb hr ?_ ?_) ?_ ?_, ?_, ?_⟩
        all_goals
          try simp only [height_mk]
          omega
    · rw [fixupLeftHeavy_single hinner]
      refine ⟨avl_mk hll (avl_mk hlr hr ?_ ?_) ?_ ?_, ?_, ?_⟩
      all_goals
        try simp only [height_mk]
        omega

theorem fixupRightHeavy_avl (value : V) (s : Nat) (hl : left.Avl) (hr : right.Avl)
    (hheavy : right.height = left.height + 2) :
    (fixupRightHeavy (node left value s right)).Avl ∧
      right.height ≤ (fixupRightHeavy (node left value s right)).height ∧
      (fixupRightHeavy (node left value s right)).height ≤ right.height + 1 := by
  cases right with
  | nil => simp at hheavy
  | node rl rv rh rr =>
    obtain ⟨hrl, hrr, hrh, hbal, hbal'⟩ := hr
    rw [height_node] at hheavy ⊢
    by_cases hinner : rr.height < rl.height
    · cases rl with
      | nil => simp at hinner
      | node a x xh b =>
        obtain ⟨ha, hb, hxh, hab, hba⟩ := hrl
        rw [height_node] at hinner hrh hbal hbal'
        rw [fixupRightHeavy_double hinner]
        refine ⟨avl_mk (avl_mk hl ha ?_ ?_) (avl_mk hb hrr ?_ ?_) ?_ ?_, ?_, ?_⟩
        all_goals
          try simp only [height_mk]
          omega
    · rw [fixupRightHeavy_single hinner]
      refine ⟨avl_mk (avl_mk hl hrl ?_ ?_) hrr ?_ ?_, ?_, ?_⟩
      all_goals
        try simp only [height_mk]
        omega

theorem fixupHeavy_left (h : right.height + 2 ≤ left.height) :
    fixupHeavy (node left value s right) = fixupLeftHeavy (node left value s right) := by
  have hbf : (2 : Int) ≤ left.height - right.height := by omega
  exact if_pos hbf

theorem fixupHeavy_right (h : left.height + 2 ≤ right.height) :
    fixupHeavy (node left value s right) = fixupRightHeavy (node left value s right) := by
  have hleft : ¬ (2 : Int) ≤ left.height - right.height := by omega
  have hright : (left.height - right.height : Int) ≤ -2 := by omega
  exact (if_neg hleft).trans (if_pos hright)

theorem fixupHeavy_even (hlr : left.height ≤ right.height + 1)
    (hrl : right.height ≤ left.height + 1) :
    fixupHeavy (node left value s right) = node left value s right := by
  have hleft : ¬ (2 : Int) ≤ left.height - right.height := by omega
  have hright : ¬ (left.height - right.height : Int) ≤ -2 := by omega
  exact (if_neg hleft).trans (if_neg hright)

/-- Subtrees that differ by two at most are rebalanced, and the height is that of the
higher one or one more. -/
theorem fixupHeavy_avl (value : V) (hl : left.Avl) (hr : right.Avl)
    (hlr : left.height ≤ right.height + 2) (hrl : right.height ≤ left.height + 2) :
    (fixupHeavy (mk left value right)).Avl ∧
      max left.height right.height ≤ (fixupHeavy (mk left value right)).height ∧
      (fixupHeavy (mk left value right)).height ≤ max left.height right.height + 1 ∧
      (left.height ≤ right.height + 1 → right.height ≤ left.height + 1 →
        (fixupHeavy (mk left value right)).height = max left.height right.height + 1) := by
  unfold mk
  by_cases hleft : right.height + 2 ≤ left.height
  · rw [fixupHeavy_left hleft]
    obtain ⟨havl, hlow, hhigh⟩ := fixupLeftHeavy_avl value
      (max left.height right.height + 1) hl hr (by omega)
    exact ⟨havl, by omega, by omega, by omega⟩
  · by_cases hright : left.height + 2 ≤ right.height
    · rw [fixupHeavy_right hright]
      obtain ⟨havl, hlow, hhigh⟩ := fixupRightHeavy_avl value
        (max left.height right.height + 1) hl hr (by omega)
      exact ⟨havl, by omega, by omega, by omega⟩
    · have heven : left.height ≤ right.height + 1 ∧ right.height ≤ left.height + 1 := by omega
      rw [fixupHeavy_even heven.1 heven.2]
      exact ⟨avl_mk hl hr heven.1 heven.2, le_succ _, le_refl _, fun _ _ => rfl⟩

/-! ## One round of the loops -/

theorem insertFixupStep_node (left : AvlTree V) (value : V) (s : Nat) (right : AvlTree V) :
    insertFixupStep (node left value s right) =
      if s = max left.height right.height + 1 then none
      else some (mk left value right).fixupHeavy := rfl

theorem insertFixupStep_of_ne (h : s ≠ max left.height right.height + 1) :
    insertFixupStep (node left value s right) = some (mk left value right).fixupHeavy :=
  if_neg h

theorem eraseFixupStep_node (left : AvlTree V) (value : V) (s : Nat) (right : AvlTree V) :
    eraseFixupStep (node left value s right) =
      if s = max left.height right.height + 1 ∧ left.height ≤ right.height + 1 ∧
          right.height ≤ left.height + 1 then none
      else some (mk left value right).fixupHeavy := by
  have hnear : (-1 ≤ (left.height - right.height : Int) ∧ (left.height - right.height : Int) ≤ 1) ↔
        left.height ≤ right.height + 1 ∧ right.height ≤ left.height + 1 := by omega
  change (if s ≠ max left.height right.height + 1 then some (mk left value right).fixupHeavy
    else if -1 ≤ (left.height - right.height : Int) ∧
        (left.height - right.height : Int) ≤ 1 then none
    else some (node left value s right).fixupHeavy) = _
  by_cases hs : s = max left.height right.height + 1
  · subst hs
    simp only [ne_eq, not_true_eq_false, if_false, hnear, true_and]
    rfl
  · grind

/-! ## Balanced paths -/

end AvlTree

namespace Crumb

variable {V : Type}

def height : Crumb V → Nat
  | inLeft _ s _ => s
  | inRight _ _ s => s

def sibling : Crumb V → AvlTree V
  | inLeft _ _ right => right
  | inRight left _ _ => left

/-- A balanced subtree of height `n` can be put here. -/
structure Fits (c : Crumb V) (n : Nat) : Prop where
  sibling : c.sibling.Avl
  height : c.height = max n c.sibling.height + 1
  le : n ≤ c.sibling.height + 1
  le' : c.sibling.height ≤ n + 1

theorem height_fill (c : Crumb V) (t : AvlTree V) : (c.fill t).height = c.height := by
  cases c <;> rfl

theorem avl_fill (c : Crumb V) (t : AvlTree V) : (c.fill t).Avl ↔ t.Avl ∧ c.Fits t.height := by
  cases c with
  | inLeft value s right =>
    constructor
    · rintro ⟨hl, hr, hs, hlr, hrl⟩
      exact ⟨hl, hr, hs, hlr, hrl⟩
    · rintro ⟨hl, hr, hs, hlr, hrl⟩
      exact ⟨hl, hr, hs, hlr, hrl⟩
  | inRight left value s =>
    constructor
    · rintro ⟨hl, hr, hs, hlr, hrl⟩
      exact ⟨hr, hl, hs.trans (by rw [max_comm]; rfl), hrl, hlr⟩
    · rintro ⟨hr, hl, hs, hrl, hlr⟩
      exact ⟨hl, hr, Eq.trans hs (by rw [max_comm]; rfl), hlr, hrl⟩

end Crumb

namespace AvlTree

variable {K V : Type}

/-- A balanced subtree of height `n` can be put at the end of the path. -/
def PathFits : List (Crumb V) → Nat → Prop
  | [], _ => True
  | c :: path, n => c.Fits n ∧ PathFits path c.height

theorem avl_plug (path : List (Crumb V)) (t : AvlTree V) :
    (plug path t).Avl ↔ t.Avl ∧ PathFits path t.height := by
  induction path generalizing t with
  | nil => simp [plug, PathFits]
  | cons c path ih =>
    rw [plug, ih, Crumb.avl_fill, Crumb.height_fill, PathFits, and_assoc]

theorem plug_append (path path' : List (Crumb V)) (t : AvlTree V) :
    plug (path ++ path') t = plug path' (plug path t) := by
  induction path generalizing t with
  | nil => rfl
  | cons c path ih => exact ih _

variable {path : List (Crumb V)} {t : AvlTree V}

theorem pathFits_append {path' : List (Crumb V)} (ht : t.Avl) : PathFits (path ++ path') t.height ↔
      PathFits path t.height ∧ PathFits path' (plug path t).height := by
  have hwhole := avl_plug (path ++ path') t
  rw [plug_append, avl_plug, avl_plug] at hwhole
  grind

/-! ## The fix-up loops -/

/-- A round of a fix-up loop at an ancestor of a subtree that had the height `n` and now
has one that is near: it breaks where the ancestor is balanced, and otherwise leaves a
balanced subtree with a height near the one that the ancestor stored. -/
def Repairs (near : Nat → Nat → Prop) (round : AvlTree V → Option (AvlTree V)) : Prop :=
  ∀ (c : Crumb V) (t : AvlTree V) (n : Nat), c.Fits n → t.Avl → near n t.height →
    match round (c.fill t) with
    | none => (c.fill t).Avl
    | some t' => t'.Avl ∧ near c.height t'.height

variable {n : Nat}

theorem Repairs.fixup_avl {near : Nat → Nat → Prop} {round : AvlTree V → Option (AvlTree V)}
    (hround : Repairs near round) {c : Crumb V} (hfits : PathFits (c :: path) n) (ht : t.Avl)
    (hnear : near n t.height) : (fixup round path (c.fill t)).Avl := by
  induction path generalizing c t n with
  | nil =>
    have hstep := hround c t n hfits.1 ht hnear
    unfold fixup
    grind
  | cons c' path ih =>
    have hstep := hround c t n hfits.1 ht hnear
    unfold fixup
    cases hrun : round (c.fill t) with
    | none =>
      rw [hrun] at hstep
      have hplug : (plug (c' :: path) (c.fill t)).Avl := by
        rw [avl_plug, Crumb.height_fill]
        exact ⟨hstep, hfits.2⟩
      exact hplug
    | some t' =>
      rw [hrun] at hstep
      exact ih hfits.2 hstep.1 hstep.2

def Grown (n n' : Nat) : Prop :=
  n ≤ n' ∧ n' ≤ n + 1

def Shrunk (n n' : Nat) : Prop :=
  n' ≤ n ∧ n ≤ n' + 1

theorem fill_eq_node (c : Crumb V) (ht : t.Avl) (hsibling : c.sibling.Avl) :
    ∃ left value right, c.fill t = node left value c.height right ∧ left.Avl ∧ right.Avl ∧
      ((left.height = t.height ∧ right.height = c.sibling.height) ∨
        (left.height = c.sibling.height ∧ right.height = t.height)) := by
  cases c with
  | inLeft value s right => exact ⟨t, value, right, rfl, ht, hsibling, .inl ⟨rfl, rfl⟩⟩
  | inRight left value s => exact ⟨left, value, t, rfl, hsibling, ht, .inr ⟨rfl, rfl⟩⟩

theorem insertFixupStep_repairs : Repairs Grown (insertFixupStep : AvlTree V → _) := by
  intro c t n hfits ht hnear
  obtain ⟨left, value, right, hfill, hl, hr, hheights⟩ := fill_eq_node c ht hfits.sibling
  obtain ⟨-, hheight, hle, hle'⟩ := hfits
  obtain ⟨hlow, hhigh⟩ := hnear
  rw [hfill, insertFixupStep_node]
  by_cases hstored : c.height = max left.height right.height + 1
  · rw [if_pos hstored]
    exact ⟨hl, hr, hstored, by omega, by omega⟩
  · rw [if_neg hstored]
    obtain ⟨havl, hlow', hhigh', heven⟩ := fixupHeavy_avl value hl hr (by omega) (by omega)
    refine ⟨havl, ?_, ?_⟩ <;> omega

theorem eraseFixupStep_repairs : Repairs Shrunk (eraseFixupStep : AvlTree V → _) := by
  intro c t n hfits ht hnear
  obtain ⟨left, value, right, hfill, hl, hr, hheights⟩ := fill_eq_node c ht hfits.sibling
  obtain ⟨-, hheight, hle, hle'⟩ := hfits
  obtain ⟨hlow, hhigh⟩ := hnear
  rw [hfill, eraseFixupStep_node]
  by_cases hdone : c.height = max left.height right.height + 1 ∧
      left.height ≤ right.height + 1 ∧ right.height ≤ left.height + 1
  · rw [if_pos hdone]
    exact ⟨hl, hr, hdone⟩
  · rw [if_neg hdone]
    obtain ⟨havl, hlow', hhigh', heven⟩ := fixupHeavy_avl value hl hr (by omega) (by omega)
    refine ⟨havl, ?_, ?_⟩ <;> omega

/-! ## Insertion and removal -/

variable {value : V}

theorem linkSlot_avl (hfits : PathFits path 0) : (linkSlot (createNode value) path).Avl := by
  have hleaf : (leaf (createNode value)).Avl := ⟨trivial, trivial, rfl, zero_le _, zero_le _⟩
  cases path with
  | nil => exact hleaf
  | cons parent path =>
    exact insertFixupStep_repairs.fixup_avl hfits hleaf ⟨zero_le _, le_refl 1⟩

/-- Whether `PushEq` goes on in the left subtree. -/
def goesLeft (order : Ordering) (left right : AvlTree V) : Bool :=
  match order with
  | .gt => true
  | .lt => false
  | .eq => decide (left.height < right.height)

variable (cmp : K → K → Ordering) (key : V → K)

theorem slotEq_node (k : K) (left : AvlTree V) (value : V)
    (s : Nat) (right : AvlTree V) (path : List (Crumb V)) :
    slotEq cmp key k (node left value s right) path =
      if goesLeft (cmp (key value) k) left right then
        slotEq cmp key k left (.inLeft value s right :: path)
      else slotEq cmp key k right (.inRight left value s :: path) := rfl

theorem plug_slotEq (k : K) (t : AvlTree V)
    (path : List (Crumb V)) : plug (slotEq cmp key k t path) nil = plug path t := by
  induction t generalizing path with
  | nil => rfl
  | node left value s right ihl ihr =>
    rw [slotEq_node]
    split
    · exact ihl _
    · exact ihr _

theorem Avl.insertEq (h : t.Avl) (cmp : K → K → Ordering) (key : V → K) (value : V) :
    (t.insertEq cmp key value).Avl := by
  have hplug : (plug (slotEq cmp key (key value) t []) nil).Avl := by
    rw [plug_slotEq]
    exact h
  exact linkSlot_avl ((avl_plug _ _).1 hplug).2

theorem eraseOuter_avl {child : AvlTree V} (hfits : PathFits path n) (hchild : child.Avl)
    (hn : Shrunk n child.height) : (eraseOuter child path).Avl := by
  cases path with
  | nil => exact hchild
  | cons parent path => exact eraseFixupStep_repairs.fixup_avl hfits hchild hn

variable {left : AvlTree V} {s : Nat}

theorem Crumb.fits_inRight {value' : V} (h : (Crumb.inRight left value s).Fits n) :
    (Crumb.inRight left value' s).Fits n :=
  ⟨h.sibling, h.height, h.le, h.le'⟩

variable {right : AvlTree V}

theorem eraseInner_avl (value : V) (hfits : PathFits (.inRight left value s :: path) right.height)
    (hr : right.Avl) (hne : right ≠ nil) : (eraseInner left s right path).Avl := by
  obtain ⟨next, nh, rest, hmin⟩ := minimum_leftmost hne []
  have hplug := plug_minimum right []
  unfold eraseInner
  generalize minimum right [] = found at hmin hplug
  obtain ⟨found, spine⟩ := found
  subst hmin
  have hspine : (plug spine (node nil next nh rest)).Avl := by
    rw [hplug]
    exact hr
  obtain ⟨hnode, hspine⟩ := (avl_plug _ _).1 hspine
  have hrest : rest.Avl := hnode.2.1
  have hshrunk : Shrunk nh rest.height := by
    have hnh := hnode.2.2.1
    rw [height_nil] at hnh
    exact ⟨by omega, by omega⟩
  have hright : (plug spine (node nil next nh rest)).height = right.height :=
    congrArg AvlTree.height hplug
  cases spine with
  | nil =>
    have hpath : PathFits (.inRight left next s :: path) nh := by
      rw [show nh = right.height from hright]
      exact ⟨Crumb.fits_inRight hfits.1, hfits.2⟩
    exact eraseFixupStep_repairs.fixup_avl hpath hrest hshrunk
  | cons parent spine =>
    have hpath : PathFits ((parent :: spine) ++ .inRight left next s :: path)
        (node nil next nh rest).height := by
      rw [pathFits_append hnode, hright]
      exact ⟨hspine, Crumb.fits_inRight hfits.1, hfits.2⟩
    exact eraseFixupStep_repairs.fixup_avl hpath hrest hshrunk

theorem eraseAt_avl (h : (plug path t).Avl) : (eraseAt t path).Avl := by
  obtain ⟨ht, hpath⟩ := (avl_plug _ _).1 h
  unfold eraseAt
  split
  next => exact h
  next value s right =>
    obtain ⟨-, hr, hs, -, -⟩ := ht
    rw [height_nil] at hs
    rw [height_node] at hpath
    exact eraseOuter_avl hpath hr ⟨by omega, by omega⟩
  next left value s hne =>
    obtain ⟨hl, -, hs, -, -⟩ := ht
    rw [height_nil] at hs
    rw [height_node] at hpath
    exact eraseOuter_avl hpath hl ⟨by omega, by omega⟩
  next left value s right hne hne' =>
    obtain ⟨hl, hr, hs, hlr, hrl⟩ := ht
    refine eraseInner_avl value ⟨⟨hl, ?_, hrl, hlr⟩, hpath⟩ hr hne'
    change s = max right.height left.height + 1
    rw [hs, max_comm]

/-! ## Levels -/

theorem length_le_plug (path : List (Crumb V)) (t : AvlTree V) :
    path.length + t.realHeight ≤ (plug path t).realHeight := by
  induction path generalizing t with
  | nil => simp [plug]
  | cons c path ih =>
    have hfill : t.realHeight + 1 ≤ (c.fill t).realHeight := by
      cases c with
      | inLeft value s right => exact succ_le_succ (le_max_left _ _)
      | inRight left value s => exact succ_le_succ (le_max_right _ _)
    have := ih (c.fill t)
    rw [List.length_cons, plug]
    omega

theorem realHeight_left_lt (left : AvlTree V) (value : V) (s : Nat) (right : AvlTree V) :
    left.realHeight < (node left value s right).realHeight :=
  lt_succ_of_le (le_max_left _ _)

theorem realHeight_right_lt (left : AvlTree V) (value : V) (s : Nat) (right : AvlTree V) :
    right.realHeight < (node left value s right).realHeight :=
  lt_succ_of_le (le_max_right _ _)

/-- The end of a push at the position that the search has come to. -/
def pushAt (n : AvlNode V) (t : AvlTree V) : AvlTree V × List (Crumb V) → Option V × AvlTree V
  | (nil, path) => (none, linkSlot n path)
  | (node _ value _ _, _) => (some value, t)

theorem pushWithDuplicate_inner (n : AvlNode V) (value : V)
    (s : Nat) (hchild : left ≠ nil ∨ right ≠ nil) :
    pushWithDuplicate cmp key n (node left value s right) =
      pushAt n (node left value s right)
        (search cmp key (key n.value) (node left value s right) []) := by
  cases left with
  | nil =>
    cases right with
    | nil => exact absurd rfl (hchild.resolve_left (fun h => h rfl))
    | node rl rv k rr => rfl
  | node ll lv k lr => rfl

inductive Pushed (n : AvlNode V) : AvlTree V → Option V × AvlTree V → Prop
  | duplicate (t : AvlTree V) (value : V) : Pushed n t (some value, t)
  | first : Pushed n nil (none, leaf n)
  | left (value : V) (s : Nat) :
      Pushed n (node nil value s nil) (none, node (leaf n) value s nil)
  | right (value : V) (s : Nat) :
      Pushed n (node nil value s nil) (none, node nil value s (leaf n))
  | linked (path : List (Crumb V)) : Pushed n (plug path nil) (none, linkSlot n path)

theorem pushed_pushWithDuplicate (n : AvlNode V)
    (t : AvlTree V) : Pushed n t (pushWithDuplicate cmp key n t) := by
  cases t with
  | nil => exact .first
  | node left value s right =>
    by_cases hchild : left = nil ∧ right = nil
    · obtain ⟨rfl, rfl⟩ := hchild
      have hleaf : pushWithDuplicate cmp key n (node nil value s nil) =
          match cmp (key n.value) (key value) with
          | .gt => (none, node nil value s (leaf n))
          | .lt => (none, node (leaf n) value s nil)
          | .eq => (some value, node nil value s nil) := rfl
      rw [hleaf]
      cases cmp (key n.value) (key value) with
      | gt => exact .right value s
      | lt => exact .left value s
      | eq => exact .duplicate _ value
    · rw [pushWithDuplicate_inner cmp key n value s (not_and_or.1 hchild)]
      have hplug := @plug_search _ _ cmp key (key n.value) (node left value s right) []
      generalize search cmp key (key n.value) (node left value s right) [] = found at hplug
      obtain ⟨found, path⟩ := found
      cases found with
      | nil =>
        replace hplug : plug path nil = node left value s right := hplug
        rw [← hplug]
        exact .linked path
      | node l x k r => exact .duplicate _ x

/-- The levels that `_Erase` visits. -/
theorem length_minimum_le (left : AvlTree V) (value : V) (s : Nat) (right : AvlTree V)
    (path : List (Crumb V)) :
    path.length + (minimum right []).2.length + 1 ≤
      (plug path (node left value s right)).realHeight := by
  have hpath := length_le_plug path (node left value s right)
  have hspine := length_le_plug (minimum right []).2 (minimum right []).1
  rw [plug_minimum right [], plug] at hspine
  have hright := realHeight_right_lt left value s right
  omega

/-! ## A pair with a wrong height -/

/-- A root that may store any height, with one child that is a leaf. -/
inductive Pair (s : Nat) : AvlTree V → Prop
  | left (value child : V) : Pair s (node (leaf ⟨child, 1⟩) value s nil)
  | right (value child : V) : Pair s (node nil value s (leaf ⟨child, 1⟩))

theorem avl_leaf (value : V) : (leaf ⟨value, 1⟩).Avl :=
  ⟨trivial, trivial, rfl, zero_le _, zero_le _⟩

theorem avl_three (value left right : V) : (mk (leaf ⟨left, 1⟩) value (leaf ⟨right, 1⟩)).Avl :=
  avl_mk (avl_leaf left) (avl_leaf right) (le_succ 1) (le_succ 1)

theorem Pair.realHeight_eq (h : Pair s t) : t.realHeight = 2 := by
  cases h <;> rfl

theorem insertFixup_beside (value left right : V) (s : Nat) :
    (insertFixup [] (node (leaf ⟨left, 1⟩) value s (leaf ⟨right, 1⟩))).Avl := by
  change ((insertFixupStep _).getD _).Avl
  rw [insertFixupStep_node]
  split
  next hs =>
    subst hs
    exact avl_three value left right
  next => exact avl_three value left right

theorem insertFixup_below (hs : s ≠ 3) (c c' : Crumb V) (n : V) (h : Pair s t)
    (hplug : plug [c, c'] nil = t) : (insertFixup [c'] (c.fill (leaf ⟨n, 1⟩))).Avl := by
  cases h with
  | left root child =>
    rcases c with _ | _ <;> rcases c' with _ | _ <;> cases hplug
    · change ((insertFixupStep (node (node (leaf ⟨n, 1⟩) child 2 nil) root s nil)).getD _).Avl
      rw [insertFixupStep_of_ne]
      · exact avl_three _ _ _
      · exact hs
    · change ((insertFixupStep (node (node nil child 2 (leaf ⟨n, 1⟩)) root s nil)).getD _).Avl
      rw [insertFixupStep_of_ne]
      · exact avl_three _ _ _
      · exact hs
  | right root child =>
    rcases c with _ | _ <;> rcases c' with _ | _ <;> cases hplug
    · change ((insertFixupStep (node nil root s (node (leaf ⟨n, 1⟩) child 2 nil))).getD _).Avl
      rw [insertFixupStep_of_ne]
      · exact avl_three _ _ _
      · exact hs
    · change ((insertFixupStep (node nil root s (node nil child 2 (leaf ⟨n, 1⟩)))).getD _).Avl
      rw [insertFixupStep_of_ne]
      · exact avl_three _ _ _
      · exact hs

theorem Pair.linkSlot (hs : s ≠ 3) (value : V) (h : Pair s (plug path nil)) :
    (linkSlot (createNode value) path).Avl := by
  have hlength := length_le_plug path (nil : AvlTree V)
  rw [h.realHeight_eq, realHeight] at hlength
  generalize hplug : plug path nil = t at h
  rcases path with _ | ⟨c, _ | ⟨c', _ | ⟨c'', path⟩⟩⟩
  · cases hplug
    cases h
  · cases h with
    | left root child =>
      cases c with
      | inLeft v k r => cases hplug
      | inRight l v k =>
        cases hplug
        exact insertFixup_beside _ _ _ _
    | right root child =>
      cases c with
      | inLeft v k r =>
        cases hplug
        exact insertFixup_beside _ _ _ _
      | inRight l v k => cases hplug
  · exact insertFixup_below hs c c' value h hplug
  · grind

theorem Pair.eraseAt {k : Nat} (h : Pair s (plug path (node left value k right))) :
    (eraseAt (node left value k right) path).Avl := by
  have hlength := length_le_plug path (node left value k right)
  rw [h.realHeight_eq, realHeight] at hlength
  generalize hplug : plug path (node left value k right) = t at h
  rcases path with _ | ⟨c, _ | ⟨c', path⟩⟩
  · cases h with
    | left root child | right root child =>
      cases hplug
      exact avl_leaf _
  · -- The root is left, and its height is set.
    have hroot : ∀ v : V, (eraseFixup [] (node nil v s nil)).Avl := by
      intro v
      change ((eraseFixupStep (node nil v s nil)).getD _).Avl
      rw [eraseFixupStep_node]
      split
      next hdone =>
        rw [hdone.1]
        exact avl_leaf v
      next => exact avl_leaf v
    cases h with
    | left root child =>
      cases c with
      | inLeft v k r =>
        cases hplug
        exact hroot _
      | inRight l v k => cases hplug
    | right root child =>
      cases c with
      | inLeft v k r => cases hplug
      | inRight l v k =>
        cases hplug
        exact hroot _
  · grind

end AvlTree

end Mmkv
