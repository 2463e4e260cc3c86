import Mmkv.AvlBalance
import Mmkv.BoundedLoops
import Mathlib.Logic.Function.Basic

/-!
# AVL trees in memory

The functions of `avl_util.h` and `AvlTreeBase` on nodes that are linked by pointers, one
assignment after the other.  A null pointer is `none`, and a function that dereferences
it, or a node that is not allocated, has no result.  Loops have a bound on their rounds.

A view connects the memory with a tree and a path in it: all pointers, those to the
parents too, are what the tree says.
-/

namespace Mmkv

open BoundedLoops List AvlTree

structure AvlBaseNode (P V : Type) where
  parent : Option P
  left : Option P
  right : Option P
  height : Nat
  value : V

/-- A `BaseNode **`: the root of the tree, or a child of a node. -/
inductive Slot (P : Type) where
  | root
  | left (p : P)
  | right (p : P)

structure AvlHeap (P V : Type) where
  node : P → Option (AvlBaseNode P V)
  root : Option P
  count : UInt64

namespace AvlHeap

variable {P K V : Type} [DecidableEq P]

/-! ## Assignments -/

section Assignments

variable (h : AvlHeap P V)

def update (p : P) (f : AvlBaseNode P V → AvlBaseNode P V) : Option (AvlHeap P V) :=
  (h.node p).map fun n => { h with node := Function.update h.node p (some (f n)) }

def setParent (p : P) (q : Option P) : Option (AvlHeap P V) :=
  h.update p fun n => { n with parent := q }

def setLeft (p : P) (q : Option P) : Option (AvlHeap P V) :=
  h.update p fun n => { n with left := q }

def setRight (p : P) (q : Option P) : Option (AvlHeap P V) :=
  h.update p fun n => { n with right := q }

def setHeight (p : P) (s : Nat) : Option (AvlHeap P V) :=
  h.update p fun n => { n with height := s }

/-- `if (child) child->parent = parent`. -/
def setParentOf (child : Option P) (parent : Option P) : Option (AvlHeap P V) :=
  match child with
  | none => some h
  | some p => h.setParent p parent

def childPlace (oldNode : P) (newNode : Option P) (parent : Option P) : Option (AvlHeap P V) :=
  match parent with
  | none => some { h with root := newNode }
  | some q => do
    let n ← h.node q
    if n.left = some oldNode then h.setLeft q newNode else h.setRight q newNode

/-- What a `BaseNode **` points to, and an assignment through it. -/
def readSlot : Slot P → Option (Option P)
  | .root => some h.root
  | .left p => (h.node p).map AvlBaseNode.left
  | .right p => (h.node p).map AvlBaseNode.right

def writeSlot (slot : Slot P) (q : Option P) : Option (AvlHeap P V) :=
  match slot with
  | .root => some { h with root := q }
  | .left p => h.setLeft p q
  | .right p => h.setRight p q

/-! ## Rotations and fix-up -/

def rotateLeft (p : P) : Option (P × AvlHeap P V) := do
  let n ← h.node p
  let right ← n.right
  let r ← h.node right
  let h ← h.setRight p r.left
  let h ← h.setParentOf r.left (some p)
  let h ← h.setLeft right (some p)
  let h ← h.setParent right n.parent
  let h ← h.setParent p (some right)
  let h ← h.childPlace p (some right) n.parent
  return (right, h)

def rotateRight (p : P) : Option (P × AvlHeap P V) := do
  let n ← h.node p
  let left ← n.left
  let l ← h.node left
  let h ← h.setLeft p l.right
  let h ← h.setParentOf l.right (some p)
  let h ← h.setRight left (some p)
  let h ← h.setParent left n.parent
  let h ← h.setParent p (some left)
  let h ← h.childPlace p (some left) n.parent
  return (left, h)

def heightOf (p : Option P) : Option Nat :=
  match p with
  | none => some 0
  | some q => (h.node q).map AvlBaseNode.height

def leftHeight (p : P) : Option Nat := do
  let n ← h.node p
  h.heightOf n.left

def rightHeight (p : P) : Option Nat := do
  let n ← h.node p
  h.heightOf n.right

def updateHeight (p : P) : Option (AvlHeap P V) := do
  let lh ← h.leftHeight p
  let rh ← h.rightHeight p
  h.setHeight p (max lh rh + 1)

/-- The inner rotation of `_FixupLeftHeavy`. -/
def rotateLeftChild (left : P) : Option (AvlHeap P V) := do
  let (left, h) ← h.rotateLeft left
  let l ← h.node left
  let ll ← l.left
  let h ← h.updateHeight ll
  h.updateHeight left

def rotateRightChild (right : P) : Option (AvlHeap P V) := do
  let (right, h) ← h.rotateRight right
  let r ← h.node right
  let rr ← r.right
  let h ← h.updateHeight rr
  h.updateHeight right

def fixupLeftHeavy (p : P) : Option (P × AvlHeap P V) := do
  let n ← h.node p
  let left ← n.left
  let lh ← h.leftHeight left
  let rh ← h.rightHeight left
  let h ← if lh < rh then h.rotateLeftChild left else some h
  let (p, h) ← h.rotateRight p
  let n ← h.node p
  let right ← n.right
  let h ← h.updateHeight right
  let h ← h.updateHeight p
  return (p, h)

def fixupRightHeavy (p : P) : Option (P × AvlHeap P V) := do
  let n ← h.node p
  let right ← n.right
  let lh ← h.leftHeight right
  let rh ← h.rightHeight right
  let h ← if rh < lh then h.rotateRightChild right else some h
  let (p, h) ← h.rotateLeft p
  let n ← h.node p
  let left ← n.left
  let h ← h.updateHeight left
  let h ← h.updateHeight p
  return (p, h)

/-- The two tests of `bf` at the end of a round. -/
def fixupHeavy (bf : Int) (p : P) : Option (P × AvlHeap P V) :=
  if 2 ≤ bf then h.fixupLeftHeavy p
  else if bf ≤ -2 then h.fixupRightHeavy p
  else some (p, h)

end Assignments

def ascend (r : P × AvlHeap P V) : Option (Round (Option P × AvlHeap P V)) := do
  let n ← r.2.node r.1
  return .next (n.parent, r.2)

def insertFixupRound (s : Option P × AvlHeap P V) : Option (Round (Option P × AvlHeap P V)) := do
  let p ← s.1
  let n ← s.2.node p
  let lh ← s.2.leftHeight p
  let rh ← s.2.rightHeight p
  if n.height = max lh rh + 1 then return .stop s
  else do
    let h ← s.2.setHeight p (max lh rh + 1)
    let r ← h.fixupHeavy (lh - rh) p
    ascend r

def eraseFixupRound (s : Option P × AvlHeap P V) : Option (Round (Option P × AvlHeap P V)) := do
  let p ← s.1
  let n ← s.2.node p
  let lh ← s.2.leftHeight p
  let rh ← s.2.rightHeight p
  if n.height ≠ max lh rh + 1 then do
    let h ← s.2.setHeight p (max lh rh + 1)
    let r ← h.fixupHeavy (lh - rh) p
    ascend r
  else if -1 ≤ (lh - rh : Int) ∧ (lh - rh : Int) ≤ 1 then return .stop s
  else do
    let r ← s.2.fixupHeavy (lh - rh) p
    ascend r

/-- The loop `for (; node; node = node->parent)` or `while (node)`. -/
def fixup (round : Option P × AvlHeap P V → Option (Round (Option P × AvlHeap P V)))
    (fuel : Nat) (p : Option P) (h : AvlHeap P V) : Option (AvlHeap P V) :=
  (whileDo (fun s => s.1.isSome) round fuel (p, h)).map Prod.snd

def insertFixup (fuel : Nat) : Option P → AvlHeap P V → Option (AvlHeap P V) :=
  fixup insertFixupRound fuel

def eraseFixup (fuel : Nat) : Option P → AvlHeap P V → Option (AvlHeap P V) :=
  fixup eraseFixupRound fuel

/-! ## Removal -/

/-- `while ((left = node->left)) node = left;`. -/
def minimum (fuel : Nat) (h : AvlHeap P V) (p : P) : Option P :=
  whileDo (fun p => ((h.node p).bind AvlBaseNode.left).isSome)
    (fun p => do
      let n ← h.node p
      let left ← n.left
      return .next left) fuel p

def eraseNext (n : AvlBaseNode P V) (oldNode next : P) (h : AvlHeap P V) :
    Option (Option P × AvlHeap P V) := do
  let h ← h.setLeft next n.left
  let left ← n.left
  let h ← h.setParent left (some next)
  let h ← h.setParent next n.parent
  let h ← h.setHeight next n.height
  let h ← h.childPlace oldNode (some next) n.parent
  return (some next, h)

/-- The minimum, taken out of its place, gets the links and the height of the node. -/
def takePlace (h : AvlHeap P V) (oldNode next : P) (parent : Option P) :
    Option (AvlHeap P V) := do
  let n ← h.node oldNode
  let right ← n.right
  let left ← n.left
  let h ← h.setRight next (some right)
  let h ← h.setParent right (some next)
  let h ← h.setLeft next (some left)
  let h ← h.setParent left (some next)
  let h ← h.setHeight next n.height
  let h ← h.setParent next parent
  h.childPlace oldNode (some next) parent

/-- `_ChildPlace` with a child, and the child's link back. -/
def replaceByChild (h : AvlHeap P V) (p : P) (child parent : Option P) :
    Option (AvlHeap P V) := do
  let h ← h.childPlace p child parent
  h.setParentOf child parent

def eraseDeep (n : AvlBaseNode P V) (oldNode next : P) (h : AvlHeap P V) :
    Option (Option P × AvlHeap P V) := do
  let m ← h.node next
  let h ← h.replaceByChild next m.right m.parent
  let h ← h.takePlace oldNode next n.parent
  return (m.parent, h)

def eraseSimple (n : AvlBaseNode P V) (p : P) (h : AvlHeap P V) :
    Option (Option P × AvlHeap P V) := do
  let h ← h.replaceByChild p (if n.left.isSome then n.left else n.right) n.parent
  return (n.parent, h)

/-- `_Erase` up to the fix-up, which begins at the returned node. -/
def unlink (fuel : Nat) (p : P) (h : AvlHeap P V) : Option (Option P × AvlHeap P V) := do
  let n ← h.node p
  match n.left, n.right with
  | some _, some right => do
    let next ← minimum fuel h right
    let m ← h.node next
    if m.parent = some p then eraseNext n p next h else eraseDeep n p next h
  | _, _ => eraseSimple n p h

def erase (fuel : Nat) (p : P) (h : AvlHeap P V) : Option (AvlHeap P V) := do
  let (q, h) ← unlink fuel p h
  eraseFixup fuel q h

end AvlHeap

namespace AvlHeap

variable {P K V : Type}

/-! ## Views -/

def ptr : AvlTree (P × V) → Option P
  | .nil => none
  | .node _ e _ _ => some e.1

def addrs (t : AvlTree (P × V)) : List P :=
  t.toList.map Prod.fst

/-- The memory has the nodes of the tree, linked to each other and to the parent. -/
def Holds (m : P → Option (AvlBaseNode P V)) : Option P → AvlTree (P × V) → Prop
  | _, .nil => True
  | parent, .node left e s right =>
    m e.1 = some ⟨parent, ptr left, ptr right, s, e.2⟩ ∧ Holds m (some e.1) left ∧
      Holds m (some e.1) right

end AvlHeap

def Crumb.entry {V : Type} : Crumb V → V
  | inLeft value _ _ => value
  | inRight _ value _ => value

theorem Crumb.fill_eq {V : Type} (c : Crumb V) (t : AvlTree V) :
    ∃ left s right, c.fill t = .node left c.entry s right := by
  cases c with
  | inLeft value s right => exact ⟨_, _, _, rfl⟩
  | inRight left value s => exact ⟨_, _, _, rfl⟩

namespace AvlTree

variable {V : Type}

def fixupAbove (round : AvlTree V → Option (AvlTree V)) :
    List (Crumb V) → AvlTree V → AvlTree V
  | [], t => t
  | c :: path, t => fixup round path (c.fill t)

variable {round : AvlTree V → Option (AvlTree V)} {c : Crumb V} {path : List (Crumb V)}
  {t t' : AvlTree V}

theorem fixupAbove_none (hround : round (c.fill t) = none) :
    fixupAbove round (c :: path) t = plug (c :: path) t := by
  cases path with
  | nil => simp [fixupAbove, fixup, plug, hround]
  | cons c' path => simp [fixupAbove, fixup, plug, hround]

theorem fixupAbove_some (hround : round (c.fill t) = some t') :
    fixupAbove round (c :: path) t = fixupAbove round path t' := by
  cases path with
  | nil => simp [fixupAbove, fixup, hround]
  | cons c' path => simp [fixupAbove, fixup, hround]

theorem linkSlot_eq (n : AvlNode V) (path : List (Crumb V)) :
    linkSlot n path = fixupAbove insertFixupStep path (leaf n) := by
  cases path with
  | nil => rfl
  | cons c path => rfl

theorem eraseOuter_eq (t : AvlTree V) (path : List (Crumb V)) :
    eraseOuter t path = fixupAbove eraseFixupStep path t := by
  cases path with
  | nil => rfl
  | cons c path => rfl

end AvlTree

namespace AvlHeap

variable {P K V : Type}

def pathPtr : List (Crumb (P × V)) → Option P
  | [] => none
  | c :: _ => some c.entry.1

def pathSlot : List (Crumb (P × V)) → Slot P
  | [] => .root
  | .inLeft e _ _ :: _ => .left e.1
  | .inRight _ e _ :: _ => .right e.1

def topPtr : List (Crumb (P × V)) → Option P → Option P
  | [], child => child
  | c :: path, _ => topPtr path (some c.entry.1)

def pathAddrs (path : List (Crumb (P × V))) : List P :=
  (before path ++ after path).map Prod.fst

/-- The memory has the nodes of a path, with this child at its end. -/
def HoldsPath (m : P → Option (AvlBaseNode P V)) :
    List (Crumb (P × V)) → Option P → Prop
  | [], _ => True
  | .inLeft e s right :: path, child =>
    m e.1 = some ⟨pathPtr path, child, ptr right, s, e.2⟩ ∧ Holds m (some e.1) right ∧
      HoldsPath m path (some e.1)
  | .inRight left e s :: path, child =>
    m e.1 = some ⟨pathPtr path, ptr left, child, s, e.2⟩ ∧ Holds m (some e.1) left ∧
      HoldsPath m path (some e.1)

/-- The memory has a tree, seen from a subtree at the end of a path, and beside it the
other nodes. -/
structure View (other : P → Option (AvlBaseNode P V)) (h : AvlHeap P V)
    (path : List (Crumb (P × V))) (t : AvlTree (P × V)) : Prop where
  subtree : Holds h.node (pathPtr path) t
  ancestors : HoldsPath h.node path (ptr t)
  root : h.root = topPtr path (ptr t)
  nodup : (addrs (plug path t)).Nodup
  rest : ∀ a ∉ addrs (plug path t), h.node a = other a

section Views

variable {m m' : P → Option (AvlBaseNode P V)} {h h' : AvlHeap P V}
  {other : P → Option (AvlBaseNode P V)} {path : List (Crumb (P × V))}
  {t t' left right : AvlTree (P × V)} {e : P × V} {s : Nat} {parent child : Option P}

@[simp] theorem addrs_nil : addrs (.nil : AvlTree (P × V)) = [] := rfl

@[simp] theorem ptr_node : ptr (.node left e s right) = some e.1 := rfl

variable {a : P}

@[simp] theorem mem_addrs_node :
    a ∈ addrs (.node left e s right) ↔ a ∈ addrs left ∨ a = e.1 ∨ a ∈ addrs right := by
  simp [addrs, toList]

theorem nodup_addrs_node (hnodup : (addrs (.node left e s right)).Nodup) :
    (addrs left).Nodup ∧ (addrs right).Nodup ∧ e.1 ∉ addrs left ∧ e.1 ∉ addrs right ∧
      ∀ a ∈ addrs left, a ∉ addrs right := by
  simp only [addrs, toList, map_append, map_cons, nodup_append, nodup_cons] at hnodup
  obtain ⟨hleft, ⟨hright, hnodup⟩, hdisjoint⟩ := hnodup
  refine ⟨hleft, hnodup, fun hmem => ?_, hright, fun a ha ha' => ?_⟩
  · exact hdisjoint _ hmem _ mem_cons_self rfl
  · exact hdisjoint _ ha _ (mem_cons_of_mem _ ha') rfl

theorem ptr_mem (hptr : ptr t = some a) : a ∈ addrs t := by
  cases t with
  | nil => cases hptr
  | node left e s right =>
    cases hptr
    simp

theorem addrs_plug (path : List (Crumb (P × V))) (t : AvlTree (P × V)) :
    (addrs (plug path t)).Perm (addrs t ++ pathAddrs path) := by
  unfold addrs pathAddrs
  rw [toList_plug, ← map_append]
  apply List.Perm.map
  rw [append_assoc]
  exact perm_append_comm_assoc _ _ _

theorem mem_addrs_plug : a ∈ addrs (plug path t) ↔ a ∈ addrs t ∨ a ∈ pathAddrs path := by
  rw [(addrs_plug path t).mem_iff, mem_append]

theorem nodup_plug (ht : (addrs t).Nodup) (hpath : (pathAddrs path).Nodup)
    (hdisjoint : ∀ a ∈ addrs t, a ∉ pathAddrs path) : (addrs (plug path t)).Nodup := by
  rw [(addrs_plug path t).nodup_iff, nodup_append]
  grind

theorem pathAddrs_cons (c : Crumb (P × V)) (path : List (Crumb (P × V))) :
    (pathAddrs (c :: path)).Perm (c.entry.1 :: (addrs c.sibling ++ pathAddrs path)) := by
  cases c with
  | inLeft e s right =>
    simp only [pathAddrs, addrs, AvlTree.before, AvlTree.after, Crumb.entry, Crumb.sibling,
      map_append, map_cons, cons_append]
    exact perm_middle.trans (.cons _ (perm_append_comm_assoc _ _ _))
  | inRight left e s =>
    simp only [pathAddrs, addrs, AvlTree.before, AvlTree.after, Crumb.entry, Crumb.sibling,
      map_append, map_cons, append_assoc, singleton_append]
    rw [← append_assoc]
    refine perm_middle.trans (.cons _ ?_)
    rw [append_assoc]
    exact perm_append_comm_assoc _ _ _

variable {c : Crumb (P × V)}

theorem mem_pathAddrs_cons : a ∈ pathAddrs (c :: path) ↔
      a = c.entry.1 ∨ a ∈ addrs c.sibling ∨ a ∈ pathAddrs path := by
  rw [(pathAddrs_cons c path).mem_iff, mem_cons, mem_append]

theorem nodup_pathAddrs_cons (hnodup : (pathAddrs (c :: path)).Nodup) :
    c.entry.1 ∉ addrs c.sibling ∧ c.entry.1 ∉ pathAddrs path := by
  rw [(pathAddrs_cons c path).nodup_iff, nodup_cons, mem_append, not_or] at hnodup
  exact hnodup.1

theorem Holds.congr (hm : Holds m parent t) (heq : ∀ a ∈ addrs t, m' a = m a) :
    Holds m' parent t := by
  induction t generalizing parent with
  | nil => trivial
  | node left e s right ihl ihr =>
    obtain ⟨he, hl, hr⟩ := hm
    refine ⟨?_, ihl hl fun a ha => heq a (by simp [ha]), ihr hr fun a ha => heq a (by simp [ha])⟩
    rw [heq e.1 (by simp)]
    exact he

theorem HoldsPath.congr (hm : HoldsPath m path child) (heq : ∀ a ∈ pathAddrs path, m' a = m a) :
    HoldsPath m' path child := by
  induction path generalizing child with
  | nil => trivial
  | cons c path ih =>
    have hc : ∀ a, a = c.entry.1 ∨ a ∈ addrs c.sibling ∨ a ∈ pathAddrs path → m' a = m a :=
      fun a ha => heq a (mem_pathAddrs_cons.2 ha)
    cases c with
    | inLeft e s right | inRight left e s =>
      obtain ⟨he, hsibling, hpath⟩ := hm
      refine ⟨?_, hsibling.congr fun a ha => hc a (.inr (.inl ha)),
        ih hpath fun a ha => hc a (.inr (.inr ha))⟩
      exact (hc e.1 (.inl rfl)).trans he

theorem Holds.heightOf (hm : Holds h.node parent t) : h.heightOf (ptr t) = some t.height := by
  cases t with
  | nil => rfl
  | node left e s right => simp [AvlHeap.heightOf, hm.1]

theorem View.leftHeight (hv : View other h path (.node left e s right)) :
    h.leftHeight e.1 = some left.height := by
  obtain ⟨he, hl, -⟩ := hv.subtree
  simp [AvlHeap.leftHeight, he, hl.heightOf]

theorem View.rightHeight (hv : View other h path (.node left e s right)) :
    h.rightHeight e.1 = some right.height := by
  obtain ⟨he, -, hr⟩ := hv.subtree
  simp [AvlHeap.rightHeight, he, hr.heightOf]

section

variable (hv : View other h path t)

include hv

theorem View.ascend {p : P} (hptr : ptr t = some p) :
    AvlHeap.ascend (p, h) = some (.next (pathPtr path, h)) := by
  cases t with
  | nil => cases hptr
  | node left e s right =>
    cases hptr
    simp [AvlHeap.ascend, hv.subtree.1]

theorem View.nodup_subtree : (addrs t).Nodup := by
  have hnodup := (addrs_plug path t).nodup_iff.1 hv.nodup
  exact (nodup_append.1 hnodup).1

theorem View.not_mem_path (ha : a ∈ addrs t) : a ∉ pathAddrs path := by
  have hnodup := (addrs_plug path t).nodup_iff.1 hv.nodup
  grind

theorem View.nodup_path : (pathAddrs path).Nodup := by
  have hnodup := (addrs_plug path t).nodup_iff.1 hv.nodup
  exact (nodup_append.1 hnodup).2.1

end

theorem view_fill (c : Crumb (P × V)) :
    View other h (c :: path) t ↔ View other h path (c.fill t) := by
  cases c with
  | inLeft e s right =>
    constructor
    · rintro ⟨ht, ⟨he, hright, hpath⟩, hroot, hnodup, hrest⟩
      exact ⟨⟨he, ht, hright⟩, hpath, hroot, hnodup, hrest⟩
    · rintro ⟨⟨he, ht, hright⟩, hpath, hroot, hnodup, hrest⟩
      exact ⟨ht, ⟨he, hright, hpath⟩, hroot, hnodup, hrest⟩
  | inRight left e s =>
    constructor
    · rintro ⟨ht, ⟨he, hleft, hpath⟩, hroot, hnodup, hrest⟩
      exact ⟨⟨he, hleft, ht⟩, hpath, hroot, hnodup, hrest⟩
    · rintro ⟨⟨he, hleft, ht⟩, hpath, hroot, hnodup, hrest⟩
      exact ⟨ht, ⟨he, hleft, hpath⟩, hroot, hnodup, hrest⟩

theorem view_plug : View other h path t ↔ View other h [] (plug path t) := by
  induction path generalizing t with
  | nil => rfl
  | cons c path ih => exact (view_fill c).trans ih

end Views

/-! ## What the assignments do -/

/-- Only the nodes of the list have changed, and neither the root nor the count. -/
structure Changes (ps : List P) (h h' : AvlHeap P V) : Prop where
  node : ∀ a ∉ ps, h'.node a = h.node a
  root : h'.root = h.root
  count : h'.count = h.count

variable {ps : List P} {h h' : AvlHeap P V}

theorem Changes.trans {qs : List P} {h'' : AvlHeap P V} (hc : Changes ps h h')
    (hc' : Changes qs h' h'') : Changes (ps ++ qs) h h'' where
  node a ha := by
    rw [mem_append, not_or] at ha
    rw [hc'.node a ha.2, hc.node a ha.1]
  root := hc'.root.trans hc.root
  count := hc'.count.trans hc.count

theorem Changes.holds {parent : Option P} {t : AvlTree (P × V)} (hc : Changes ps h h')
    (hm : Holds h.node parent t) (hps : ∀ a ∈ addrs t, a ∉ ps) : Holds h'.node parent t :=
  hm.congr fun a ha => hc.node a (hps a ha)

section Effects

variable [DecidableEq P] {h : AvlHeap P V} {other : P → Option (AvlBaseNode P V)}
  {path : List (Crumb (P × V))} {t left right : AvlTree (P × V)} {p : P} {e : P × V}
  {n : AvlBaseNode P V}

theorem update_spec (hp : h.node p = some n) (f : AvlBaseNode P V → AvlBaseNode P V) :
    ∃ h', h.update p f = some h' ∧ h'.node p = some (f n) ∧ Changes [p] h h' := by
  refine ⟨{ h with node := Function.update h.node p (some (f n)) }, ?_, ?_, ?_, rfl, rfl⟩
  · simp [update, hp]
  · simp
  · grind

variable {parent : Option P}

/-- `if (child) child->parent = parent` for the root of a subtree. -/
theorem setParentOf_spec (hm : Holds h.node parent t) (hnodup : (addrs t).Nodup)
    (parent' : Option P) :
    ∃ h', h.setParentOf (ptr t) parent' = some h' ∧ Holds h'.node parent' t ∧
      Changes (ptr t).toList h h' := by
  cases t with
  | nil => exact ⟨h, rfl, trivial, fun _ _ => rfl, rfl, rfl⟩
  | node left e s right =>
    obtain ⟨he, hl, hr⟩ := hm
    obtain ⟨-, -, hel, her, -⟩ := nodup_addrs_node hnodup
    obtain ⟨h', hset, hnode, hchanges⟩ := update_spec he fun n => { n with parent := parent' }
    exact ⟨h', hset, ⟨hnode, hchanges.holds hl (by grind), hchanges.holds hr (by grind)⟩, hchanges⟩

/-- A node gets a link to a subtree, and the subtree one back. -/
theorem Holds.hang (hm : Holds h.node parent t) (hnodup : (addrs t).Nodup) (hp : h.node p = some n)
    (hfree : p ∉ addrs t) (f : AvlBaseNode P V → AvlBaseNode P V) :
    ∃ h1 h2, h.update p f = some h1 ∧ h1.setParentOf (ptr t) (some p) = some h2 ∧
      h2.node p = some (f n) ∧ Holds h2.node (some p) t ∧ Changes (p :: addrs t) h h2 := by
  obtain ⟨h1, hrun1, hp1, hch1⟩ := update_spec hp f
  have hm1 := hch1.holds hm (by grind)
  obtain ⟨h2, hrun2, hm2, hch2⟩ := setParentOf_spec hm1 hnodup (some p)
  have hin : ∀ a, a ∉ addrs t → a ∉ (ptr t).toList :=
    fun a ha ha' => ha (ptr_mem (Option.mem_toList.1 ha'))
  refine ⟨h1, h2, hrun1, hrun2, (hch2.node p (hin p hfree)).trans hp1, hm2, fun a ha => ?_,
    hch2.root.trans hch1.root, hch2.count.trans hch1.count⟩
  exact (hch1.trans hch2).node a (by grind)

theorem writeSlot_spec {old : Option P} (hpath : HoldsPath h.node path old)
    (hroot : h.root = topPtr path old) (hnodup : (pathAddrs path).Nodup) (new : Option P) :
    ∃ h', h.writeSlot (pathSlot path) new = some h' ∧ HoldsPath h'.node path new ∧
      h'.root = topPtr path new ∧ h'.count = h.count ∧
      ∀ a ∉ pathAddrs path, h'.node a = h.node a := by
  cases path with
  | nil => exact ⟨_, rfl, trivial, rfl, rfl, fun _ _ => rfl⟩
  | cons c path =>
    obtain ⟨hsib, hanc⟩ := nodup_pathAddrs_cons hnodup
    have hframe : ∀ h', Changes [c.entry.1] h h' →
        (∀ a ∈ addrs c.sibling, h'.node a = h.node a) ∧
          (∀ a ∈ pathAddrs path, h'.node a = h.node a) ∧
          ∀ a ∉ pathAddrs (c :: path), h'.node a = h.node a := by
      rintro h' ⟨hnode, -, -⟩
      grind [mem_pathAddrs_cons]
    cases c with
    | inLeft e s right =>
      obtain ⟨he, hright, hpath⟩ := hpath
      obtain ⟨h', hset, hnode, hch⟩ := update_spec he fun n => { n with left := new }
      obtain ⟨hin, habove, hout⟩ := hframe h' hch
      exact ⟨h', hset, ⟨hnode, hright.congr hin, hpath.congr habove⟩, hch.root.trans hroot,
        hch.count, hout⟩
    | inRight left e s =>
      obtain ⟨he, hleft, hpath⟩ := hpath
      obtain ⟨h', hset, hnode, hch⟩ := update_spec he fun n => { n with right := new }
      obtain ⟨hin, habove, hout⟩ := hframe h' hch
      exact ⟨h', hset, ⟨hnode, hleft.congr hin, hpath.congr habove⟩, hch.root.trans hroot,
        hch.count, hout⟩

variable {old : P}

/-- `_ChildPlace` finds the slot from the parent. -/
theorem childPlace_eq (hpath : HoldsPath h.node path (some old)) (hold : old ∉ pathAddrs path)
    (new : Option P) : h.childPlace old new (pathPtr path) = h.writeSlot (pathSlot path) new := by
  cases path with
  | nil => rfl
  | cons c path =>
    cases c with
    | inLeft e s right =>
      simp only [childPlace, pathPtr, Crumb.entry, hpath.1, some_bind, if_true]
      rfl
    | inRight left e s =>
      have hother : ptr left ≠ some old :=
        fun hptr => hold (mem_pathAddrs_cons.2 (.inr (.inl (ptr_mem hptr))))
      simp only [childPlace, pathPtr, Crumb.entry, hpath.1, some_bind, if_neg hother]
      rfl

variable {h1 : AvlHeap P V} {t' : AvlTree (P × V)}

theorem View.place {other' : P → Option (AvlBaseNode P V)} (hv : View other h path t)
    (hptr : ptr t = some old) (hpath : ∀ a ∈ pathAddrs path, h1.node a = h.node a)
    (hroot : h1.root = h.root) (ht' : Holds h1.node (pathPtr path) t') (hnodup : (addrs t').Nodup)
    (hdisjoint : ∀ a ∈ addrs t', a ∉ pathAddrs path)
    (hrest : ∀ a ∉ addrs t', a ∉ pathAddrs path → h1.node a = other' a) :
    ∃ h2, h1.childPlace old (ptr t') (pathPtr path) = some h2 ∧ View other' h2 path t' ∧
      h2.count = h1.count := by
  have hold : old ∉ pathAddrs path := hv.not_mem_path (ptr_mem hptr)
  have hpath1 : HoldsPath h1.node path (some old) := by
    rw [← hptr]
    exact hv.ancestors.congr hpath
  have hroot1 : h1.root = topPtr path (some old) := by rw [hroot, hv.root, hptr]
  obtain ⟨h2, hrun, hpath2, hroot2, hcount2, hsame⟩ :=
    writeSlot_spec hpath1 hroot1 hv.nodup_path (ptr t')
  rw [← childPlace_eq hpath1 hold] at hrun
  refine ⟨h2, hrun, ⟨ht'.congr fun a ha => hsame a (hdisjoint a ha), hpath2, hroot2,
    nodup_plug hnodup hv.nodup_path hdisjoint, fun a ha => ?_⟩, hcount2⟩
  rw [mem_addrs_plug, not_or] at ha
  rw [hsame a ha.2, hrest a ha.1 ha.2]

theorem View.rearrange (hv : View other h path t) (hptr : ptr t = some old)
    (hlist : t'.toList = t.toList) (hinside : ∀ a ∉ addrs t, h1.node a = h.node a)
    (hroot : h1.root = h.root) (ht' : Holds h1.node (pathPtr path) t') :
    ∃ h2, h1.childPlace old (ptr t') (pathPtr path) = some h2 ∧ View other h2 path t' ∧
      h2.count = h1.count := by
  have haddrs : addrs t' = addrs t := congrArg (List.map Prod.fst) hlist
  have hpath : ∀ a ∈ pathAddrs path, h1.node a = h.node a :=
    fun a ha => hinside a fun ha' => hv.not_mem_path ha' ha
  refine hv.place hptr hpath hroot ht' ?_ ?_ ?_
  · rw [haddrs]
    exact hv.nodup_subtree
  · rw [haddrs]
    exact fun a ha => hv.not_mem_path ha
  · rw [haddrs]
    intro a ha ha'
    rw [hinside a ha]
    exact hv.rest a (by rw [mem_addrs_plug, not_or]; exact ⟨ha, ha'⟩)

variable {l rl rr : AvlTree (P × V)} {x y : P × V} {s s' : Nat}

theorem View.rotateLeft (hv : View other h path (.node l x s (.node rl y s' rr))) :
    ∃ h', h.rotateLeft x.1 = some (y.1, h') ∧
      View other h' path (.node (.node l x s rl) y s' rr) ∧ h'.count = h.count := by
  obtain ⟨hx, hl, hy, hrl, hrr⟩ := hv.subtree
  obtain ⟨-, hright, hxl, hxr, hlr⟩ := nodup_addrs_node hv.nodup_subtree
  obtain ⟨hrlnodup, -, hyl, hyr, hlr'⟩ := nodup_addrs_node hright
  simp only [mem_addrs_node, not_or] at hxr hlr
  -- The assignments, one after the other.
  obtain ⟨h1, h2, hrun1, hrun2, hx2, hrl2, hch2⟩ :=
    hrl.hang hrlnodup hx hxr.1 fun n => { n with right := ptr rl }
  obtain ⟨h3, hrun3, hy3, hch3⟩ :=
    update_spec ((hch2.node y.1 (by grind)).trans hy) fun n => { n with left := some x.1 }
  obtain ⟨h4, hrun4, hy4, hch4⟩ := update_spec hy3 fun n => { n with parent := pathPtr path }
  have hx4 := ((hch3.trans hch4).node x.1 (by grind)).trans hx2
  obtain ⟨h5, hrun5, hx5, hch5⟩ := update_spec hx4 fun n => { n with parent := some y.1 }
  have hlate := (hch3.trans hch4).trans hch5
  have hch := hch2.trans hlate
  have hnew : Holds h5.node (pathPtr path) (.node (.node l x s rl) y s' rr) :=
    ⟨(hch5.node y.1 (by grind)).trans hy4,
      ⟨hx5, hch.holds hl (by grind), hlate.holds hrl2 (by grind)⟩, hch.holds hrr (by grind)⟩
  obtain ⟨h6, hrun6, hview, hcount⟩ := hv.rearrange rfl (by simp [toList])
    (fun a ha => hch.node a (by grind [mem_addrs_node])) hch.root hnew
  refine ⟨h6, ?_, hview, hcount.trans hch.count⟩
  rw [ptr_node] at hrun6
  simp only [AvlHeap.rotateLeft, hx, hy, ptr_node, some_bind,
    setRight, setLeft, setParent, hrun1, hrun2, hrun3, hrun4, hrun5, hrun6]
  rfl

variable {ll lr r : AvlTree (P × V)}

theorem View.rotateRight (hv : View other h path (.node (.node ll y s' lr) x s r)) :
    ∃ h', h.rotateRight x.1 = some (y.1, h') ∧
      View other h' path (.node ll y s' (.node lr x s r)) ∧ h'.count = h.count := by
  obtain ⟨hx, ⟨hy, hll, hlr⟩, hr⟩ := hv.subtree
  obtain ⟨hleft, -, hxl, hxr, hdisjoint⟩ := nodup_addrs_node hv.nodup_subtree
  obtain ⟨-, hlrnodup, hyl, hyr, hdisjoint'⟩ := nodup_addrs_node hleft
  simp only [mem_addrs_node, not_or] at hxl hdisjoint
  obtain ⟨h1, h2, hrun1, hrun2, hx2, hlr2, hch2⟩ :=
    hlr.hang hlrnodup hx hxl.2.2 fun n => { n with left := ptr lr }
  obtain ⟨h3, hrun3, hy3, hch3⟩ :=
    update_spec ((hch2.node y.1 (by grind)).trans hy) fun n => { n with right := some x.1 }
  obtain ⟨h4, hrun4, hy4, hch4⟩ := update_spec hy3 fun n => { n with parent := pathPtr path }
  have hx4 := ((hch3.trans hch4).node x.1 (by grind)).trans hx2
  obtain ⟨h5, hrun5, hx5, hch5⟩ := update_spec hx4 fun n => { n with parent := some y.1 }
  have hlate := (hch3.trans hch4).trans hch5
  have hch := hch2.trans hlate
  have hnew : Holds h5.node (pathPtr path) (.node ll y s' (.node lr x s r)) :=
    ⟨(hch5.node y.1 (by grind)).trans hy4, hch.holds hll (by grind),
      ⟨hx5, hlate.holds hlr2 (by grind), hch.holds hr (by grind)⟩⟩
  obtain ⟨h6, hrun6, hview, hcount⟩ := hv.rearrange rfl (by simp [toList])
    (fun a ha => hch.node a (by grind [mem_addrs_node])) hch.root hnew
  refine ⟨h6, ?_, hview, hcount.trans hch.count⟩
  rw [ptr_node] at hrun6
  simp only [AvlHeap.rotateRight, hx, hy, ptr_node, some_bind,
    setRight, setLeft, setParent, hrun1, hrun2, hrun3, hrun4, hrun5, hrun6]
  rfl

/-! ## Fix-up -/

theorem View.setHeight (hv : View other h path (.node left e s right)) (s' : Nat) :
    ∃ h', h.setHeight e.1 s' = some h' ∧ View other h' path (.node left e s' right) ∧
      h'.count = h.count := by
  obtain ⟨he, hl, hr⟩ := hv.subtree
  obtain ⟨-, -, hel, her, -⟩ := nodup_addrs_node hv.nodup_subtree
  have hpath : e.1 ∉ pathAddrs path := hv.not_mem_path (by simp)
  obtain ⟨h', hrun, hnode, hchanges⟩ := update_spec he fun n => { n with height := s' }
  have hplug : addrs (plug path (.node left e s' right)) =
      addrs (plug path (.node left e s right)) := by
    simp [addrs, toList_plug, toList]
  refine ⟨h', hrun, ⟨⟨hnode, hchanges.holds hl (by grind), hchanges.holds hr (by grind)⟩,
    hv.ancestors.congr fun a ha => hchanges.node a (by grind), hchanges.root.trans hv.root,
    hplug ▸ hv.nodup, fun a ha => ?_⟩, hchanges.count⟩
  rw [hplug] at ha
  rw [hchanges.node a (by grind [mem_addrs_plug, mem_addrs_node]), hv.rest a ha]

theorem View.updateHeight (hv : View other h path (.node left e s right)) :
    ∃ h', h.updateHeight e.1 = some h' ∧ View other h' path (AvlTree.mk left e right) ∧
      h'.count = h.count := by
  obtain ⟨h', hrun, hview, hcount⟩ := hv.setHeight (max left.height right.height + 1)
  refine ⟨h', ?_, hview, hcount⟩
  simp only [AvlHeap.updateHeight, hv.leftHeight, hv.rightHeight, some_bind]
  exact hrun

theorem View.updateRight (hv : View other h path (.node ll y s' (.node lr x s r))) :
    ∃ h1 h2, h.updateHeight x.1 = some h1 ∧ h1.updateHeight y.1 = some h2 ∧
      View other h2 path (AvlTree.mk ll y (AvlTree.mk lr x r)) ∧ h2.count = h.count := by
  have hinner : View other h (.inRight ll y s' :: path) (.node lr x s r) := (view_fill _).2 hv
  obtain ⟨h1, hrun1, hv1, hcount1⟩ := hinner.updateHeight
  have houter : View other h1 path (.node ll y s' (AvlTree.mk lr x r)) := (view_fill _).1 hv1
  obtain ⟨h2, hrun2, hv2, hcount2⟩ := houter.updateHeight
  grind

theorem View.updateLeft (hv : View other h path (.node (.node l x s rl) y s' rr)) :
    ∃ h1 h2, h.updateHeight x.1 = some h1 ∧ h1.updateHeight y.1 = some h2 ∧
      View other h2 path (AvlTree.mk (AvlTree.mk l x rl) y rr) ∧ h2.count = h.count := by
  have hinner : View other h (.inLeft y s' rr :: path) (.node l x s rl) := (view_fill _).2 hv
  obtain ⟨h1, hrun1, hv1, hcount1⟩ := hinner.updateHeight
  have houter : View other h1 path (.node (AvlTree.mk l x rl) y s' rr) := (view_fill _).1 hv1
  obtain ⟨h2, hrun2, hv2, hcount2⟩ := houter.updateHeight
  grind

theorem View.rotateLeftChild (hv : View other h path (.node l x s (.node rl y s' rr))) :
    ∃ h', h.rotateLeftChild x.1 = some h' ∧
      View other h' path (AvlTree.mk (AvlTree.mk l x rl) y rr) ∧ h'.count = h.count := by
  obtain ⟨h1, hrun1, hv1, hcount1⟩ := hv.rotateLeft
  obtain ⟨h2, h3, hrun2, hrun3, hv3, hcount3⟩ := hv1.updateLeft
  refine ⟨h3, ?_, hv3, hcount3.trans hcount1⟩
  simp only [AvlHeap.rotateLeftChild, hrun1, hv1.subtree.1, ptr_node, some_bind, hrun2, hrun3]

theorem View.rotateRightChild (hv : View other h path (.node (.node ll y s' lr) x s r)) :
    ∃ h', h.rotateRightChild x.1 = some h' ∧
      View other h' path (AvlTree.mk ll y (AvlTree.mk lr x r)) ∧ h'.count = h.count := by
  obtain ⟨h1, hrun1, hv1, hcount1⟩ := hv.rotateRight
  obtain ⟨h2, h3, hrun2, hrun3, hv3, hcount3⟩ := hv1.updateRight
  refine ⟨h3, ?_, hv3, hcount3.trans hcount1⟩
  simp only [AvlHeap.rotateRightChild, hrun1, hv1.subtree.1, ptr_node, some_bind, hrun2, hrun3]

/-- The function on the memory does at the end of the path what the other does to the
tree, and it returns the root of the result. -/
def Does (f : AvlHeap P V → Option (P × AvlHeap P V)) (other : P → Option (AvlBaseNode P V))
    (h : AvlHeap P V) (path : List (Crumb (P × V))) (t : AvlTree (P × V)) : Prop :=
  ∃ p h', f h = some (p, h') ∧ ptr t = some p ∧ View other h' path t ∧ h'.count = h.count

theorem View.fixupLeftHeavy (hv : View other h path (.node (.node ll y s' lr) x s r)) :
    Does (AvlHeap.fixupLeftHeavy · x.1) other h path
      (AvlTree.fixupLeftHeavy (.node (.node ll y s' lr) x s r)) := by
  have hinner : View other h (.inLeft x s r :: path) (.node ll y s' lr) := (view_fill _).2 hv
  by_cases hlt : ll.height < lr.height
  · cases lr with
    | nil => simp at hlt
    | node a z k b =>
      have hk : ll.height < k := hlt
      rw [fixupLeftHeavy_double hk]
      obtain ⟨h1, hrun1, hv1, hcount1⟩ := hinner.rotateLeftChild
      have hv1' : View other h1 path (.node (AvlTree.mk (AvlTree.mk ll y a) z b) x s r) :=
        (view_fill _).1 hv1
      obtain ⟨h2, hrun2, hv2, hcount2⟩ := hv1'.rotateRight
      obtain ⟨h3, h4, hrun3, hrun4, hv4, hcount4⟩ := hv2.updateRight
      refine ⟨z.1, h4, ?_, rfl, hv4, by rw [hcount4, hcount2, hcount1]⟩
      simp only [AvlHeap.fixupLeftHeavy, hv.subtree.1, ptr_node, hinner.leftHeight,
        hinner.rightHeight, some_bind, if_pos hlt, hrun1, hrun2,
        hv2.subtree.1, hrun3, hrun4]
      rfl
  · rw [fixupLeftHeavy_single hlt]
    obtain ⟨h2, hrun2, hv2, hcount2⟩ := hv.rotateRight
    obtain ⟨h3, h4, hrun3, hrun4, hv4, hcount4⟩ := hv2.updateRight
    refine ⟨y.1, h4, ?_, rfl, hv4, by rw [hcount4, hcount2]⟩
    simp only [AvlHeap.fixupLeftHeavy, hv.subtree.1, ptr_node, hinner.leftHeight,
      hinner.rightHeight, some_bind, if_neg hlt, hrun2,
      hv2.subtree.1, hrun3, hrun4]
    rfl

theorem View.fixupRightHeavy (hv : View other h path (.node l x s (.node rl y s' rr))) :
    Does (AvlHeap.fixupRightHeavy · x.1) other h path
      (AvlTree.fixupRightHeavy (.node l x s (.node rl y s' rr))) := by
  have hinner : View other h (.inRight l x s :: path) (.node rl y s' rr) := (view_fill _).2 hv
  by_cases hlt : rr.height < rl.height
  · cases rl with
    | nil => simp at hlt
    | node a z k b =>
      have hk : rr.height < k := hlt
      rw [fixupRightHeavy_double hk]
      obtain ⟨h1, hrun1, hv1, hcount1⟩ := hinner.rotateRightChild
      have hv1' : View other h1 path (.node l x s (AvlTree.mk a z (AvlTree.mk b y rr))) :=
        (view_fill _).1 hv1
      obtain ⟨h2, hrun2, hv2, hcount2⟩ := hv1'.rotateLeft
      obtain ⟨h3, h4, hrun3, hrun4, hv4, hcount4⟩ := hv2.updateLeft
      refine ⟨z.1, h4, ?_, rfl, hv4, by rw [hcount4, hcount2, hcount1]⟩
      simp only [AvlHeap.fixupRightHeavy, hv.subtree.1, ptr_node, hinner.leftHeight,
        hinner.rightHeight, some_bind, if_pos hlt, hrun1, hrun2,
        hv2.subtree.1, hrun3, hrun4]
      rfl
  · rw [fixupRightHeavy_single hlt]
    obtain ⟨h2, hrun2, hv2, hcount2⟩ := hv.rotateLeft
    obtain ⟨h3, h4, hrun3, hrun4, hv4, hcount4⟩ := hv2.updateLeft
    refine ⟨y.1, h4, ?_, rfl, hv4, by rw [hcount4, hcount2]⟩
    simp only [AvlHeap.fixupRightHeavy, hv.subtree.1, ptr_node, hinner.leftHeight,
      hinner.rightHeight, some_bind, if_neg hlt, hrun2,
      hv2.subtree.1, hrun3, hrun4]
    rfl

theorem View.fixupHeavy (hv : View other h path (.node left e s right)) :
    Does (AvlHeap.fixupHeavy · (left.height - right.height) e.1) other h path
      (AvlTree.fixupHeavy (.node left e s right)) := by
  by_cases hleft : right.height + 2 ≤ left.height
  · rw [fixupHeavy_left hleft]
    have hbf : (2 : Int) ≤ left.height - right.height := by omega
    simp only [AvlHeap.fixupHeavy, if_pos hbf]
    cases left with
    | nil => simp at hleft
    | node ll y s' lr => exact hv.fixupLeftHeavy
  · have hbf : ¬ (2 : Int) ≤ left.height - right.height := by omega
    by_cases hright : left.height + 2 ≤ right.height
    · rw [fixupHeavy_right hright]
      have hbf' : (left.height - right.height : Int) ≤ -2 := by omega
      simp only [AvlHeap.fixupHeavy, if_neg hbf, if_pos hbf']
      cases right with
      | nil => simp at hright
      | node rl y s' rr => exact hv.fixupRightHeavy
    · have hbf' : ¬ (left.height - right.height : Int) ≤ -2 := by omega
      rw [fixupHeavy_even (by omega) (by omega)]
      simp only [AvlHeap.fixupHeavy, if_neg hbf, if_neg hbf']
      exact ⟨e.1, h, rfl, rfl, hv, rfl⟩

/-- A round on the memory does at the end of the path what the other does to the tree. -/
def Simulates (round : Option P × AvlHeap P V → Option (Round (Option P × AvlHeap P V)))
    (round' : AvlTree (P × V) → Option (AvlTree (P × V))) : Prop :=
  ∀ other h path left e s right, View other h path (.node left e s right) →
    match round' (.node left e s right) with
    | none => round (some e.1, h) = some (.stop (some e.1, h))
    | some t => ∃ h', round (some e.1, h) = some (.next (pathPtr path, h')) ∧
        View other h' path t ∧ h'.count = h.count

theorem insertFixupRound_simulates :
    Simulates (P := P) (V := V) insertFixupRound AvlTree.insertFixupStep := by
  intro other h path left e s right hv
  rw [insertFixupStep_node]
  by_cases hs : s = max left.height right.height + 1
  · simp only [if_pos hs, insertFixupRound, hv.subtree.1, hv.leftHeight, hv.rightHeight, some_bind]
    rfl
  · obtain ⟨h1, hrun1, hv1, hcount1⟩ := hv.setHeight (max left.height right.height + 1)
    obtain ⟨p, h2, hrun2, hptr, hv2, hcount2⟩ := hv1.fixupHeavy
    simp only [if_neg hs]
    refine ⟨h2, ?_, hv2, hcount2.trans hcount1⟩
    simp only [insertFixupRound, hv.subtree.1, hv.leftHeight, hv.rightHeight,
      some_bind, if_neg hs, hrun1, hrun2, hv2.ascend hptr]

theorem eraseFixupRound_simulates :
    Simulates (P := P) (V := V) eraseFixupRound AvlTree.eraseFixupStep := by
  intro other h path left e s right hv
  have hnear : (-1 ≤ (left.height - right.height : Int) ∧ (left.height - right.height : Int) ≤ 1) ↔
        left.height ≤ right.height + 1 ∧ right.height ≤ left.height + 1 := by omega
  rw [eraseFixupStep_node]
  by_cases hs : s = max left.height right.height + 1
  · by_cases hbf : left.height ≤ right.height + 1 ∧ right.height ≤ left.height + 1
    · subst hs
      rw [if_pos ⟨rfl, hbf⟩]
      simp only [eraseFixupRound, hv.subtree.1, hv.leftHeight, hv.rightHeight,
        some_bind, ne_eq, not_true_eq_false, if_false,
        if_pos (hnear.2 hbf)]
      rfl
    · subst hs
      obtain ⟨p, h2, hrun2, hptr, hv2, hcount2⟩ := hv.fixupHeavy
      simp only [if_neg fun h => hbf (And.right h)]
      refine ⟨h2, ?_, hv2, hcount2⟩
      simp only [eraseFixupRound, hv.subtree.1, hv.leftHeight, hv.rightHeight,
        some_bind, ne_eq, not_true_eq_false, if_false,
        if_neg fun h => hbf (hnear.1 h), hrun2, hv2.ascend hptr]
  · obtain ⟨h1, hrun1, hv1, hcount1⟩ := hv.setHeight (max left.height right.height + 1)
    obtain ⟨p, h2, hrun2, hptr, hv2, hcount2⟩ := hv1.fixupHeavy
    simp only [if_neg fun h => hs (And.left h)]
    refine ⟨h2, ?_, hv2, hcount2.trans hcount1⟩
    simp only [eraseFixupRound, hv.subtree.1, hv.leftHeight, hv.rightHeight,
      some_bind, ne_eq, hs, not_false_eq_true, if_true, hrun1,
      hrun2, hv2.ascend hptr]

omit [DecidableEq P] in
theorem Simulates.fixup {round : Option P × AvlHeap P V → Option (Round (Option P × AvlHeap P V))}
    {round' : AvlTree (P × V) → Option (AvlTree (P × V))} (hround : Simulates round round')
    (hv : View other h path t) {fuel : Nat} (hfuel : path.length ≤ fuel) :
    ∃ h', AvlHeap.fixup round fuel (pathPtr path) h = some h' ∧
      View other h' [] (fixupAbove round' path t) ∧ h'.count = h.count := by
  induction path generalizing h t fuel with
  | nil =>
    refine ⟨h, ?_, hv, rfl⟩
    exact congrArg (Option.map Prod.snd) (whileDo_exit rfl fuel)
  | cons c path ih =>
    obtain ⟨fuel, rfl⟩ := Nat.exists_eq_add_one_of_ne_zero (by simp at hfuel; omega : fuel ≠ 0)
    rw [length_cons, Nat.add_le_add_iff_right] at hfuel
    have hv' := (view_fill c).1 hv
    obtain ⟨left, s, right, hfill⟩ := c.fill_eq t
    have hstep := hround other h path left c.entry s right (hfill ▸ hv')
    rw [← hfill] at hstep
    cases hrun : round' (c.fill t) with
    | none =>
      rw [hrun] at hstep
      refine ⟨h, ?_, ?_, rfl⟩
      · exact congrArg (Option.map Prod.snd) (whileDo_stop rfl hstep fuel)
      · rw [fixupAbove_none hrun]
        exact view_plug.1 hv
    | some t' =>
      rw [hrun] at hstep
      obtain ⟨h1, hnext, hv1, hcount1⟩ := hstep
      obtain ⟨h', hloop, hview, hcount⟩ := ih hv1 hfuel
      refine ⟨h', ?_, ?_, hcount.trans hcount1⟩
      · rw [← hloop]
        exact congrArg (Option.map Prod.snd) (whileDo_next rfl hnext fuel)
      · rw [fixupAbove_some hrun]
        exact hview

end Effects

end AvlHeap

end Mmkv
