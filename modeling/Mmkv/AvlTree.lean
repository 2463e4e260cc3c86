import Mathlib.Data.List.Basic
import Mathlib.Data.List.Perm.Basic

/-!
# The AVL tree of a hash bucket

`AvlTreeBase` keeps parent pointers and walks up through them after an
insertion or a removal.  Here a position in the tree is a subtree together
with the list of its ancestors (innermost first), and walking up is recursion
on that list.  Stored heights are data: a pushed node keeps the height it was
extracted with, exactly as `Push` leaves it.

The results of this module speak about the in-order sequence.  Every rotation
and both fix-up loops leave it alone, `search` splits it at the key it looks
for, and so insertion and removal act on it as on a strictly sorted list.
-/

namespace Mmkv

open List

structure AvlNode (V : Type) where
  value : V
  height : Nat
  deriving Repr, DecidableEq

inductive AvlTree (V : Type) where
  | nil
  | node (left : AvlTree V) (value : V) (height : Nat) (right : AvlTree V)
  deriving Repr, DecidableEq

inductive Crumb (V : Type) where
  | inLeft (value : V) (height : Nat) (right : AvlTree V)
  | inRight (left : AvlTree V) (value : V) (height : Nat)
  deriving Repr, DecidableEq

namespace AvlTree

variable {K V : Type}

def height : AvlTree V → Nat
  | nil => 0
  | node _ _ h _ => h

def leftHeight : AvlTree V → Nat
  | nil => 0
  | node left _ _ _ => left.height

def rightHeight : AvlTree V → Nat
  | nil => 0
  | node _ _ _ right => right.height

/-- `CreateNode`: a new leaf has height 1. -/
def createNode (value : V) : AvlNode V :=
  ⟨value, 1⟩

def leaf (n : AvlNode V) : AvlTree V :=
  node nil n.value n.height nil

def toList : AvlTree V → List V
  | nil => []
  | node left value _ right => left.toList ++ value :: right.toList

/-- The nodes in the order `ReuseAllNodes` hands them over: children before
their parent, heights reset. -/
def reuseAllNodes : AvlTree V → List (AvlNode V)
  | nil => []
  | node left value _ right =>
    left.reuseAllNodes ++ right.reuseAllNodes ++ [⟨value, 0⟩]

/-! ## Rotations and fix-up -/

def rotateLeft : AvlTree V → AvlTree V
  | node left value h (node rl rv rh rr) =>
    node (node left value h rl) rv rh rr
  | t => t

def rotateRight : AvlTree V → AvlTree V
  | node (node ll lv lh lr) value h right =>
    node ll lv lh (node lr value h right)
  | t => t

def updateHeight : AvlTree V → AvlTree V
  | nil => nil
  | node left value _ right =>
    node left value (max left.height right.height + 1) right

def onLeft (f : AvlTree V → AvlTree V) : AvlTree V → AvlTree V
  | nil => nil
  | node left value h right => node (f left) value h right

def onRight (f : AvlTree V → AvlTree V) : AvlTree V → AvlTree V
  | nil => nil
  | node left value h right => node left value h (f right)

def fixupLeftHeavy (t : AvlTree V) : AvlTree V :=
  let t := t.onLeft fun left =>
    if left.leftHeight < left.rightHeight then
      (left.rotateLeft.onLeft updateHeight).updateHeight
    else left
  (t.rotateRight.onRight updateHeight).updateHeight

def fixupRightHeavy (t : AvlTree V) : AvlTree V :=
  let t := t.onRight fun right =>
    if right.rightHeight < right.leftHeight then
      (right.rotateRight.onRight updateHeight).updateHeight
    else right
  (t.rotateLeft.onLeft updateHeight).updateHeight

def fixupHeavy (t : AvlTree V) : AvlTree V :=
  let bf : Int := t.leftHeight - t.rightHeight
  if 2 ≤ bf then t.fixupLeftHeavy
  else if bf ≤ -2 then t.fixupRightHeavy
  else t

/-- One round of `_InsertFixup`; `none` is its `break`. -/
def insertFixupStep (t : AvlTree V) : Option (AvlTree V) :=
  if t.height = max t.leftHeight t.rightHeight + 1 then none
  else some t.updateHeight.fixupHeavy

/-- One round of `_EraseFixup`; `none` is its `break`. -/
def eraseFixupStep (t : AvlTree V) : Option (AvlTree V) :=
  let bf : Int := t.leftHeight - t.rightHeight
  if t.height ≠ max t.leftHeight t.rightHeight + 1 then
    some t.updateHeight.fixupHeavy
  else if -1 ≤ bf ∧ bf ≤ 1 then none
  else some t.fixupHeavy

end AvlTree

namespace Crumb

variable {V : Type}

def fill : Crumb V → AvlTree V → AvlTree V
  | inLeft value h right, child => .node child value h right
  | inRight left value h, child => .node left value h child

end Crumb

namespace AvlTree

variable {K V : Type}

def plug : List (Crumb V) → AvlTree V → AvlTree V
  | [], t => t
  | c :: path, t => plug path (c.fill t)

/-- Walks from a subtree to the root, one `round` at each node, until a
round breaks. -/
def fixup (round : AvlTree V → Option (AvlTree V)) :
    List (Crumb V) → AvlTree V → AvlTree V
  | [], t => (round t).getD t
  | c :: path, t =>
    match round t with
    | none => plug path (c.fill t)
    | some t' => fixup round path (c.fill t')

def insertFixup : List (Crumb V) → AvlTree V → AvlTree V :=
  fixup insertFixupStep

def eraseFixup : List (Crumb V) → AvlTree V → AvlTree V :=
  fixup eraseFixupStep

/-! ## Search, insertion and removal -/

section Ordered

variable (cmp : K → K → Ordering) (key : V → K)

/-- The common descent of `FindNode`, `PushWithDuplicate` and
`_InsertWithDuplicate`: it stops at the node with an equal key or at the empty
slot where the key belongs. -/
def search (k : K) : AvlTree V → List (Crumb V) → AvlTree V × List (Crumb V)
  | nil, path => (nil, path)
  | node left value h right, path =>
    match cmp (key value) k with
    | .gt => search k left (.inLeft value h right :: path)
    | .lt => search k right (.inRight left value h :: path)
    | .eq => (node left value h right, path)

def findNode (k : K) (t : AvlTree V) : Option (AvlNode V) :=
  match (search cmp key k t []).1 with
  | nil => none
  | node _ value h _ => some ⟨value, h⟩

def find (k : K) (t : AvlTree V) : Option V :=
  (findNode cmp key k t).map AvlNode.value

/-- `_LinkSlot` followed by `_InsertFixup(parent)`. -/
def linkSlot (n : AvlNode V) : List (Crumb V) → AvlTree V
  | [] => leaf n
  | parent :: path => insertFixup path (parent.fill (leaf n))

/-- `PushWithDuplicate`: `none` when the node was linked, else the value
already stored under an equal key.  A root without children is compared the
other way round and gets its child without any fix-up. -/
def pushWithDuplicate (n : AvlNode V) : AvlTree V → Option V × AvlTree V
  | nil => (none, leaf n)
  | node nil value h nil =>
    match cmp (key n.value) (key value) with
    | .gt => (none, node nil value h (leaf n))
    | .lt => (none, node (leaf n) value h nil)
    | .eq => (some value, node nil value h nil)
  | t =>
    match search cmp key (key n.value) t [] with
    | (nil, path) => (none, linkSlot n path)
    | (node _ value _ _, _) => (some value, t)

def push (n : AvlNode V) (t : AvlTree V) : Bool × AvlTree V :=
  let r := pushWithDuplicate cmp key n t
  (r.1.isNone, r.2)

def insertWithDuplicate (value : V) (t : AvlTree V) : Option V × AvlTree V :=
  pushWithDuplicate cmp key (createNode value) t

end Ordered

def minimum : AvlTree V → List (Crumb V) → AvlTree V × List (Crumb V)
  | nil, path => (nil, path)
  | node nil value h right, path => (node nil value h right, path)
  | node left value h right, path => minimum left (.inLeft value h right :: path)

/-- `_Erase` on a node with two children: the minimum of the right subtree
takes over the place and the stored height of the node. -/
def eraseInner (left : AvlTree V) (h : Nat) (right : AvlTree V)
    (path : List (Crumb V)) : AvlTree V :=
  match minimum right [] with
  | (nil, _) => plug path left
  | (node _ next _ rest, []) => eraseFixup path (node left next h rest)
  | (node _ next _ rest, parent :: spine) =>
    eraseFixup (spine ++ .inRight left next h :: path) (parent.fill rest)

/-- `_Erase` on a node with at most one child, which takes its place. -/
def eraseOuter (child : AvlTree V) : List (Crumb V) → AvlTree V
  | [] => child
  | parent :: path => eraseFixup path (parent.fill child)

def eraseAt : AvlTree V → List (Crumb V) → AvlTree V
  | nil, path => plug path nil
  | node nil _ _ right, path => eraseOuter right path
  | node left _ _ nil, path => eraseOuter left path
  | node left _ h right, path => eraseInner left h right path

def extract (cmp : K → K → Ordering) (key : V → K) (k : K)
    (t : AvlTree V) : Option (AvlNode V) × AvlTree V :=
  match search cmp key k t [] with
  | (nil, _) => (none, t)
  | (node left value h right, path) =>
    (some ⟨value, h⟩, eraseAt (node left value h right) path)

/-- A write through the pointer that `Find` returns. -/
def modify (cmp : K → K → Ordering) (key : V → K) (k : K) (f : V → V) (t : AvlTree V) : AvlTree V :=
  match search cmp key k t [] with
  | (nil, _) => t
  | (node left value h right, path) => plug path (node left (f value) h right)

/-! ## Rotations and fix-ups keep the in-order sequence -/

variable (t : AvlTree V)

@[simp]
theorem toList_rotateLeft : t.rotateLeft.toList = t.toList := by
  unfold rotateLeft
  split <;> simp [toList]

@[simp]
theorem toList_rotateRight : t.rotateRight.toList = t.toList := by
  unfold rotateRight
  split <;> simp [toList]

@[simp]
theorem toList_updateHeight : t.updateHeight.toList = t.toList := by
  cases t <;> rfl

variable {f : AvlTree V → AvlTree V}

theorem toList_onLeft (hf : ∀ s, (f s).toList = s.toList) (t : AvlTree V) :
    (t.onLeft f).toList = t.toList := by
  cases t with
  | nil => rfl
  | node left value h right => simp [onLeft, toList, hf]

theorem toList_onRight (hf : ∀ s, (f s).toList = s.toList) (t : AvlTree V) :
    (t.onRight f).toList = t.toList := by
  cases t with
  | nil => rfl
  | node left value h right => simp [onRight, toList, hf]

theorem toList_fixupLeftHeavy : t.fixupLeftHeavy.toList = t.toList := by
  unfold fixupLeftHeavy
  rw [toList_updateHeight, toList_onRight toList_updateHeight, toList_rotateRight, toList_onLeft]
  intro left
  split
  · rw [toList_updateHeight, toList_onLeft toList_updateHeight, toList_rotateLeft]
  · rfl

theorem toList_fixupRightHeavy : t.fixupRightHeavy.toList = t.toList := by
  unfold fixupRightHeavy
  rw [toList_updateHeight, toList_onLeft toList_updateHeight, toList_rotateLeft, toList_onRight]
  intro right
  split
  · rw [toList_updateHeight, toList_onRight toList_updateHeight, toList_rotateRight]
  · rfl

theorem toList_fixupHeavy : t.fixupHeavy.toList = t.toList := by
  unfold fixupHeavy
  dsimp only
  split
  · exact toList_fixupLeftHeavy t
  · split
    · exact toList_fixupRightHeavy t
    · rfl

variable {t t' : AvlTree V}

theorem toList_insertFixupStep (hstep : insertFixupStep t = some t') : t'.toList = t.toList := by
  unfold insertFixupStep at hstep
  split at hstep
  · cases hstep
  · cases hstep
    rw [toList_fixupHeavy, toList_updateHeight]

theorem toList_eraseFixupStep (hstep : eraseFixupStep t = some t') : t'.toList = t.toList := by
  unfold eraseFixupStep at hstep
  dsimp only at hstep
  split at hstep
  · cases hstep
    rw [toList_fixupHeavy, toList_updateHeight]
  · split at hstep
    · cases hstep
    · cases hstep
      exact toList_fixupHeavy t

def before : List (Crumb V) → List V
  | [] => []
  | .inLeft _ _ _ :: path => before path
  | .inRight left value _ :: path => before path ++ left.toList ++ [value]

def after : List (Crumb V) → List V
  | [] => []
  | .inLeft value _ right :: path => value :: right.toList ++ after path
  | .inRight _ _ _ :: path => after path

variable (path : List (Crumb V))

theorem toList_plug (t : AvlTree V) :
    (plug path t).toList = before path ++ t.toList ++ after path := by
  induction path generalizing t with
  | nil => simp [plug, before, after]
  | cons crumb path ih =>
    cases crumb with
    | inLeft value h right => simp [plug, ih, Crumb.fill, toList, before, after]
    | inRight left value h => simp [plug, ih, Crumb.fill, toList, before, after]

theorem toList_fixup {round : AvlTree V → Option (AvlTree V)}
    (hround : ∀ {t t'}, round t = some t' → t'.toList = t.toList)
    (path : List (Crumb V)) (t : AvlTree V) :
    (fixup round path t).toList = before path ++ t.toList ++ after path := by
  induction path generalizing t with
  | nil =>
    cases hstep : round t with
    | none => simp [fixup, hstep, before, after]
    | some t' => simp [fixup, hstep, before, after, hround hstep]
  | cons crumb path ih =>
    have hplug := fun s : AvlTree V => (toList_plug path (crumb.fill s)).symm.trans
      (toList_plug (crumb :: path) s)
    cases hstep : round t with
    | none => simp only [fixup, hstep, toList_plug path, hplug]
    | some t' => simp only [fixup, hstep, ih, hplug, hround hstep]

theorem toList_insertFixup (t : AvlTree V) :
    (insertFixup path t).toList = before path ++ t.toList ++ after path :=
  toList_fixup toList_insertFixupStep path t

theorem toList_eraseFixup (t : AvlTree V) :
    (eraseFixup path t).toList = before path ++ t.toList ++ after path :=
  toList_fixup toList_eraseFixupStep path t

theorem reuseAllNodes_perm (t : AvlTree V) : (t.reuseAllNodes.map AvlNode.value).Perm t.toList := by
  induction t with
  | nil => exact .refl _
  | node left value h right ihl ihr =>
    simp only [reuseAllNodes, toList, map_append, map_cons, map_nil, append_assoc]
    exact ihl.append ((perm_append_singleton value _).trans (ihr.cons value))

theorem toList_linkSlot (n : AvlNode V) (path : List (Crumb V)) :
    (linkSlot n path).toList = before path ++ n.value :: after path := by
  cases path with
  | nil => rfl
  | cons parent path =>
    have hplug := toList_plug (parent :: path) (leaf n)
    rw [plug, toList_plug] at hplug
    rw [linkSlot, toList_insertFixup, hplug]
    simp [leaf, toList]

/-! ## Removal takes one entry out of the in-order sequence -/

theorem plug_minimum (t : AvlTree V) (path : List (Crumb V)) :
    plug (minimum t path).2 (minimum t path).1 = plug path t := by
  fun_induction minimum t path with
  | case1 => rfl
  | case2 => rfl
  | case3 _ _ _ _ _ _ ih => exact ih

theorem before_minimum (t : AvlTree V) (path : List (Crumb V)) :
    before (minimum t path).2 = before path := by
  fun_induction minimum t path with
  | case1 => rfl
  | case2 => rfl
  | case3 _ _ _ _ _ _ ih => exact ih

theorem minimum_leftmost (ht : t ≠ nil) (path : List (Crumb V)) :
    ∃ value h right, (minimum t path).1 = node nil value h right := by
  fun_induction minimum t path with
  | case1 => exact absurd rfl ht
  | case2 => exact ⟨_, _, _, rfl⟩
  | case3 _ _ _ _ _ hleft ih => exact ih hleft

theorem before_append (path path' : List (Crumb V)) :
    before (path ++ path') = before path' ++ before path := by
  induction path with
  | nil => simp [before]
  | cons crumb path ih => cases crumb <;> simp [before, ih]

theorem after_append (path path' : List (Crumb V)) :
    after (path ++ path') = after path ++ after path' := by
  induction path with
  | nil => simp [after]
  | cons crumb path ih => cases crumb <;> simp [after, ih]

theorem toList_eraseInner (left : AvlTree V) (h : Nat) {right : AvlTree V} (hright : right ≠ nil)
    (path : List (Crumb V)) :
    (eraseInner left h right path).toList =
      before path ++ left.toList ++ right.toList ++ after path := by
  obtain ⟨next, hn, rest, hmin⟩ := minimum_leftmost hright []
  have hbefore := before_minimum right []
  have hplug := congrArg toList (plug_minimum right [])
  simp only [eraseInner]
  generalize minimum right [] = found at hmin hbefore hplug
  obtain ⟨found, spine⟩ := found
  subst hmin
  rw [toList_plug, hbefore] at hplug
  have hright : right.toList = next :: rest.toList ++ after spine := by
    simpa [plug, toList, before] using hplug.symm
  cases spine with
  | nil => simp [toList_eraseFixup, toList, hright, after]
  | cons parent spine =>
    have hparent := toList_plug (parent :: spine) rest
    rw [plug, toList_plug, hbefore] at hparent
    have hsplit : before spine ++ (parent.fill rest).toList ++ after spine =
        rest.toList ++ after (parent :: spine) := by
      simpa [before] using hparent
    calc
      _ = before path ++ left.toList ++ next ::
            (before spine ++ (parent.fill rest).toList ++ after spine) ++ after path := by
        simp [toList_eraseFixup, before_append, after_append, before, after]
      _ = before path ++ left.toList ++ right.toList ++ after path := by
        rw [hsplit, hright]
        rfl

theorem toList_eraseOuter (child : AvlTree V) (path : List (Crumb V)) :
    (eraseOuter child path).toList = before path ++ child.toList ++ after path := by
  cases path with
  | nil => simp [eraseOuter, before, after]
  | cons parent path =>
    have hplug := toList_plug (parent :: path) child
    rw [plug, toList_plug] at hplug
    rw [eraseOuter, toList_eraseFixup, hplug]

theorem toList_eraseAt (left : AvlTree V) (value : V) (h : Nat) (right : AvlTree V)
    (path : List (Crumb V)) :
    (eraseAt (node left value h right) path).toList =
      before path ++ left.toList ++ right.toList ++ after path := by
  unfold eraseAt
  split
  · contradiction
  · rename_i heq
    cases heq
    simp [toList_eraseOuter, toList]
  · rename_i heq
    cases heq
    simp [toList_eraseOuter, toList]
  · rename_i hright heq
    cases heq
    exact toList_eraseInner _ _ hright _

/-! ## Search on a strictly sorted tree -/

section Ordered

variable (cmp : K → K → Ordering) (key : V → K)

def KeysIncreasing (l : List V) : Prop :=
  l.Pairwise fun a b => cmp (key a) (key b) = .lt

/-- The key belongs at the position: entries left of it have smaller keys,
entries right of it larger ones. -/
structure Brackets (k : K) (path : List (Crumb V)) : Prop where
  before_lt : ∀ x ∈ before path, cmp (key x) k = .lt
  after_gt : ∀ x ∈ after path, cmp (key x) k = .gt

variable {cmp key}

theorem Brackets.nil (k : K) : Brackets cmp key k ([] : List (Crumb V)) where
  before_lt := by simp [before]
  after_gt := by simp [after]

variable {k : K} {path : List (Crumb V)} {value : V} {h : Nat} {right : AvlTree V}

theorem Brackets.goLeft [Std.TransCmp cmp] (hpath : Brackets cmp key k path)
    (hright : ∀ x ∈ right.toList, cmp (key value) (key x) = .lt) (hgt : cmp (key value) k = .gt) :
    Brackets cmp key k (.inLeft value h right :: path) where
  before_lt := hpath.before_lt
  after_gt := by
    intro x hx
    rcases mem_append.mp hx with hx | hx
    · rcases mem_cons.mp hx with rfl | hx
      · exact hgt
      · have hxv := Std.OrientedCmp.gt_iff_lt.mpr (hright x hx)
        exact Std.TransCmp.gt_trans hxv hgt
    · exact hpath.after_gt x hx

variable {left : AvlTree V}

theorem Brackets.goRight [Std.TransCmp cmp] (hpath : Brackets cmp key k path)
    (hleft : ∀ x ∈ left.toList, cmp (key x) (key value) = .lt) (hlt : cmp (key value) k = .lt) :
    Brackets cmp key k (.inRight left value h :: path) where
  before_lt := by
    intro x hx
    simp only [before, mem_append, mem_singleton] at hx
    rcases hx with (hx | hx) | rfl
    · exact hpath.before_lt x hx
    · exact Std.TransCmp.lt_trans (hleft x hx) hlt
    · exact hlt
  after_gt := hpath.after_gt

variable {t : AvlTree V}

theorem search_brackets [Std.TransCmp cmp] (hsorted : KeysIncreasing cmp key t.toList)
    (hpath : Brackets cmp key k path) : Brackets cmp key k (search cmp key k t path).2 := by
  induction t generalizing path with
  | nil => exact hpath
  | node left value h right ihl ihr =>
    obtain ⟨hl, hr, hcross⟩ := pairwise_append.mp hsorted
    obtain ⟨hvr, hr⟩ := pairwise_cons.mp hr
    unfold search
    cases hcmp : cmp (key value) k with
    | gt => exact ihl hl (hpath.goLeft hvr hcmp)
    | lt =>
      have hlv := fun x hx => hcross x hx value mem_cons_self
      exact ihr hr (hpath.goRight hlv hcmp)
    | eq => exact hpath

theorem plug_search (k : K) (t : AvlTree V) (path : List (Crumb V)) :
    plug (search cmp key k t path).2 (search cmp key k t path).1 = plug path t := by
  induction t generalizing path with
  | nil => rfl
  | node left value h right ihl ihr =>
    unfold search
    cases cmp (key value) k with
    | gt => exact ihl _
    | lt => exact ihr _
    | eq => rfl

theorem search_root (hfound : (search cmp key k t path).1 = node left value h right) :
    cmp (key value) k = .eq := by
  induction t generalizing path with
  | nil => cases hfound
  | node left' value' h' right' ihl ihr =>
    unfold search at hfound
    grind

theorem toList_of_search_eq {s : AvlTree V} (hsearch : search cmp key k t [] = (s, path)) :
    t.toList = before path ++ s.toList ++ after path := by
  have hplug := @plug_search K V cmp key k t []
  rw [hsearch] at hplug
  rw [← toList_plug, hplug, plug]

theorem Brackets.ne_eq (hpath : Brackets cmp key k path) :
    ∀ x ∈ before path ++ after path, cmp (key x) k ≠ .eq := by
  intro x hx
  rcases mem_append.mp hx with hx | hx
  · simp [hpath.before_lt x hx]
  · simp [hpath.after_gt x hx]

theorem search_miss [Std.TransCmp cmp] (hsorted : KeysIncreasing cmp key t.toList)
    (hsearch : search cmp key k t [] = (nil, path)) :
    t.toList = before path ++ after path ∧ Brackets cmp key k path := by
  constructor
  · simpa [toList] using toList_of_search_eq hsearch
  · simpa [hsearch] using search_brackets hsorted (Brackets.nil k)

variable {l1 l2 : List V}

theorem KeysIncreasing.insert [Std.OrientedCmp cmp] (hsorted : KeysIncreasing cmp key (l1 ++ l2))
    (hl1 : ∀ x ∈ l1, cmp (key x) (key value) = .lt)
    (hl2 : ∀ x ∈ l2, cmp (key x) (key value) = .gt) :
    KeysIncreasing cmp key (l1 ++ value :: l2) := by
  obtain ⟨h1, h2, hcross⟩ := pairwise_append.mp hsorted
  refine pairwise_append.mpr ⟨h1, pairwise_cons.mpr ⟨?_, h2⟩, ?_⟩
  · intro x hx
    exact Std.OrientedCmp.gt_iff_lt.mp (hl2 x hx)
  · grind

theorem KeysIncreasing.remove {value : V} {l1 l2 : List V}
    (hsorted : KeysIncreasing cmp key (l1 ++ value :: l2)) :
    KeysIncreasing cmp key (l1 ++ l2) :=
  List.Pairwise.sublist ((sublist_cons_self value l2).append_left l1) hsorted

theorem KeysIncreasing.replace {old new : V} (hkey : key new = key old)
    (hsorted : KeysIncreasing cmp key (l1 ++ old :: l2)) :
    KeysIncreasing cmp key (l1 ++ new :: l2) := by
  obtain ⟨h1, h2, hcross⟩ := pairwise_append.mp hsorted
  obtain ⟨hold, h2⟩ := pairwise_cons.mp h2
  refine pairwise_append.mpr ⟨h1, pairwise_cons.mpr ⟨?_, h2⟩, ?_⟩
  · simpa [hkey] using hold
  · grind

variable {n : AvlNode V} {t' : AvlTree V}

theorem pushWithDuplicate_split [Std.TransCmp cmp] (hsorted : KeysIncreasing cmp key t.toList)
    (hpush : pushWithDuplicate cmp key n t = (none, t')) :
    ∃ l1 l2, t.toList = l1 ++ l2 ∧ t'.toList = l1 ++ n.value :: l2 ∧
      (∀ x ∈ l1, cmp (key x) (key n.value) = .lt) ∧
      ∀ x ∈ l2, cmp (key x) (key n.value) = .gt := by
  unfold pushWithDuplicate at hpush
  split at hpush
  · cases hpush
    exact ⟨[], [], rfl, rfl, by simp, by simp⟩
  · rename_i value h
    split at hpush
    · rename_i hcmp
      cases hpush
      have hlt := Std.OrientedCmp.gt_iff_lt.mp hcmp
      exact ⟨[value], [], rfl, rfl, by simpa using hlt, by simp⟩
    · rename_i hcmp
      cases hpush
      have hgt := Std.OrientedCmp.gt_iff_lt.mpr hcmp
      exact ⟨[], [value], rfl, rfl, by simp, by simpa using hgt⟩
    · cases hpush
  · split at hpush
    · rename_i path hsearch
      cases hpush
      obtain ⟨hlist, hpath⟩ := search_miss hsorted hsearch
      exact ⟨_, _, hlist, toList_linkSlot n path, hpath.before_lt, hpath.after_gt⟩
    · cases hpush

theorem pushWithDuplicate_linked [Std.TransCmp cmp] (hsorted : KeysIncreasing cmp key t.toList)
    (hpush : pushWithDuplicate cmp key n t = (none, t')) :
    KeysIncreasing cmp key t'.toList ∧ t'.toList.Perm (n.value :: t.toList) ∧
      ∀ x ∈ t.toList, cmp (key x) (key n.value) ≠ .eq := by
  obtain ⟨l1, l2, hlist, hlist', hl1, hl2⟩ := pushWithDuplicate_split hsorted hpush
  rw [hlist] at hsorted ⊢
  rw [hlist']
  refine ⟨hsorted.insert hl1 hl2, perm_middle, ?_⟩
  grind

theorem pushWithDuplicate_duplicate [Std.OrientedCmp cmp]
    (hpush : pushWithDuplicate cmp key n t = (some value, t')) :
    t' = t ∧ value ∈ t.toList ∧ cmp (key value) (key n.value) = .eq := by
  unfold pushWithDuplicate at hpush
  split at hpush
  · cases hpush
  · split at hpush
    · cases hpush
    · cases hpush
    · rename_i hcmp
      cases hpush
      exact ⟨rfl, by simp [toList], Std.OrientedCmp.eq_symm hcmp⟩
  · split at hpush
    · cases hpush
    · rename_i hsearch
      cases hpush
      refine ⟨rfl, ?_, search_root (congrArg Prod.fst hsearch)⟩
      rw [toList_of_search_eq hsearch]
      simp [toList]

/-- A search that finds nothing means that no entry has the key. -/
theorem find_eq_none [Std.TransCmp cmp] (hsorted : KeysIncreasing cmp key t.toList)
    (hfind : find cmp key k t = none) : ∀ x ∈ t.toList, cmp (key x) k ≠ .eq := by
  unfold find findNode at hfind
  cases hsearch : search cmp key k t [] with
  | mk s path =>
    rw [hsearch] at hfind
    cases s with
    | nil =>
      obtain ⟨hlist, hpath⟩ := search_miss hsorted hsearch
      rw [hlist]
      exact hpath.ne_eq
    | node left value h right => simp at hfind

theorem find_eq_some (hfind : find cmp key k t = some value) :
    value ∈ t.toList ∧ cmp (key value) k = .eq := by
  unfold find findNode at hfind
  cases hsearch : search cmp key k t [] with
  | mk s path =>
    rw [hsearch] at hfind
    cases s with
    | nil => simp at hfind
    | node left value' h right =>
      obtain rfl : value' = value := by simpa using hfind
      refine ⟨?_, search_root (congrArg Prod.fst hsearch)⟩
      rw [toList_of_search_eq hsearch]
      simp [toList]

section

variable (hsorted : KeysIncreasing cmp key t.toList)

include hsorted

theorem extract_eq_none [Std.TransCmp cmp] (hextract : extract cmp key k t = (none, t')) :
    t' = t ∧ ∀ x ∈ t.toList, cmp (key x) k ≠ .eq := by
  unfold extract at hextract
  split at hextract
  · rename_i path hsearch
    cases hextract
    obtain ⟨hlist, hpath⟩ := search_miss hsorted hsearch
    rw [hlist]
    exact ⟨rfl, hpath.ne_eq⟩
  · cases hextract

/-- The extracted node holds the one entry that is gone. -/
theorem extract_eq_some (hextract : extract cmp key k t = (some n, t')) :
    KeysIncreasing cmp key t'.toList ∧ t.toList.Perm (n.value :: t'.toList) ∧
      cmp (key n.value) k = .eq := by
  unfold extract at hextract
  split at hextract
  · cases hextract
  · rename_i left value h right path hsearch
    cases hextract
    have hlist := toList_of_search_eq hsearch
    have hsplit : t.toList =
        (before path ++ left.toList) ++ value :: (right.toList ++ after path) := by
      simp [hlist, toList]
    rw [toList_eraseAt, hsplit, append_assoc (before path ++ left.toList)]
    rw [hsplit] at hsorted
    exact ⟨hsorted.remove, perm_middle, search_root (congrArg Prod.fst hsearch)⟩

theorem modify_of_find {f : V → V}
    (hfind : find cmp key k t = some value) (hkey : key (f value) = key value) :
    KeysIncreasing cmp key (modify cmp key k f t).toList ∧
      ∃ rest, t.toList.Perm (value :: rest) ∧
        (modify cmp key k f t).toList.Perm (f value :: rest) := by
  unfold find findNode at hfind
  cases hsearch : search cmp key k t [] with
  | mk s path =>
    rw [hsearch] at hfind
    cases s with
    | nil => simp at hfind
    | node left value' h right =>
      have heq : value' = value := by simpa using hfind
      subst heq
      have hsplit : t.toList = (before path ++ left.toList) ++
          value' :: (right.toList ++ after path) := by
        simp [toList_of_search_eq hsearch, toList]
      have hmodify : (modify cmp key k f t).toList =
          (before path ++ left.toList) ++ f value' ::
            (right.toList ++ after path) := by
        simp [modify, hsearch, toList_plug, toList]
      rw [hmodify, hsplit]
      rw [hsplit] at hsorted
      exact ⟨hsorted.replace hkey, _, perm_middle, perm_middle⟩

end

end Ordered

end AvlTree

end Mmkv
