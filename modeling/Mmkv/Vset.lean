import Mathlib.Algebra.Group.Int.Defs
import Mmkv.AvlTree
import Mmkv.Dictionaries
import Mmkv.HashCollections

/-!
# Sorted sets

A `Vset` keeps its members in an AVL tree ordered by weight, in which several
members may share a weight, and in a dictionary from members to weights.  An
iterator of the tree is given by its position in the in-order sequence, and the
end iterator, a null pointer, by `none`.

A call that dereferences a null iterator or never comes back has no result.
-/

namespace Mmkv

/-! ## Weights -/

/-- A `double`, as its bit pattern. -/
structure Weight where
  bits : UInt64
  deriving Repr, DecidableEq

namespace Weight

def magnitude (w : Weight) : Nat :=
  w.bits.toNat % 2 ^ 63

def isNaN (w : Weight) : Bool :=
  decide (0x7ff0000000000000 < w.magnitude)

/-- The place of a number in the order of the doubles; both zeros are at 0. -/
def rank (w : Weight) : Int :=
  if w.bits.toNat < 2 ^ 63 then w.magnitude else -w.magnitude

def gt (x y : Weight) : Bool :=
  !x.isNaN && !y.isNaN && decide (y.rank < x.rank)

def eq (x y : Weight) : Bool :=
  !x.isNaN && !y.isNaN && decide (x.rank = y.rank)

/-- `DoubleComparator`. -/
def compare (x y : Weight) : Ordering :=
  if x.gt y then .gt else if x.eq y then .eq else .lt

end Weight

/-- An entry of the tree.  The source stores a pointer to the key of the member's dictionary
node, the model the bytes.  `Vset::Erase` frees that node even where it misses the entry, so
what is read from a set is the source's only if tree and dictionary agree. -/
structure WeightValue where
  key : Weight
  value : Str
  deriving Repr, DecidableEq

/-! ## Trees with equal keys -/

namespace AvlTree

variable {K V : Type}

section Ordered

variable (cmp : K → K → Ordering) (key : V → K)

/-- The descent of `PushEq` to an empty slot. -/
def slotEq (k : K) : AvlTree V → List (Crumb V) → List (Crumb V)
  | nil, path => path
  | node left value h right, path =>
    let goLeft :=
      match cmp (key value) k with
      | .gt => true
      | .lt => false
      | .eq => decide (left.height < right.height)
    if goLeft then slotEq k left (.inLeft value h right :: path)
    else slotEq k right (.inRight left value h :: path)

def insertEq (value : V) (t : AvlTree V) : AvlTree V :=
  linkSlot (createNode value) (slotEq cmp key (key value) t [])

/-- The position of the node that `FindNode` returns. -/
def findIndex (k : K) (t : AvlTree V) : Option Nat :=
  match search cmp key k t [] with
  | (nil, _) => none
  | (node left _ _ _, path) => some ((before path).length + left.toList.length)

/-- The loop of `Erase(key, pred)` from the position `i` on.  The successor is
compared before it is known not to be null. -/
def erasePosition (k : K) (pred : V → Bool) : Nat → List V → Option (Option Nat)
  | _, [] => none
  | i, v :: rest =>
    if pred v then some (some i)
    else
      match rest with
      | [] => none
      | w :: _ =>
        if cmp (key w) k = .eq then erasePosition k pred (i + 1) rest
        else some none

end Ordered

/-- The descent of `LowerBound` and `UpperBound`, with the position of the last
node that satisfied the test. -/
def bound (p : V → Bool) : AvlTree V → Nat → Option Nat → Option Nat
  | nil, _, track => track
  | node left value _ right, offset, track =>
    let i := offset + left.toList.length
    if p value then bound p left offset (some i) else bound p right (i + 1) track

def locate : Nat → AvlTree V → List (Crumb V) → AvlTree V × List (Crumb V)
  | _, nil, path => (nil, path)
  | i, node left value h right, path =>
    let n := left.toList.length
    if i < n then locate i left (.inLeft value h right :: path)
    else if i = n then (node left value h right, path)
    else locate (i - n - 1) right (.inRight left value h :: path)

def eraseIndex (i : Nat) (t : AvlTree V) : AvlTree V :=
  let (sub, path) := locate i t []
  eraseAt sub path

end AvlTree

/-! ## Iterators -/

/-- `++` in a tree of `n` nodes. -/
def nextIndex (n : Nat) : Option Nat → Option Nat
  | none => none
  | some i => if i + 1 < n then some (i + 1) else none

/-- `--`. -/
def prevIndex : Option Nat → Option Nat
  | none => none
  | some 0 => none
  | some (i + 1) => some i

/-- The rounds of `while (n--)`.  A negative counter runs past the least
`int64_t`. -/
def countdown (n : Int) : Option Nat :=
  if n < 0 then none else some n.toNat

def toInt64 (x : Int) : Int :=
  Int.bmod x (2 ^ 64)

def toSize (x : Int) : Nat :=
  (x % 2 ^ 64).toNat

variable {x : Int}

theorem toInt64_of_lt (hle : -2 ^ 63 ≤ x) (hlt : x < 2 ^ 63) : toInt64 x = x := by
  rw [toInt64, Int.bmod_def]
  omega

theorem toInt64_neg (hle : 2 ^ 63 ≤ x) (hlt : x < 2 ^ 64) : toInt64 x < 0 := by
  rw [toInt64, Int.bmod_def]
  omega

theorem toSize_toInt64 (hpos : 0 ≤ x) (hlt : x < 2 ^ 64) :
    (toSize (toInt64 x) : Int) = x := by
  rw [toInt64, toSize, Int.bmod_def]
  omega

/-! ## The sorted set -/

structure Vset (hash : Str → Nat) where
  tree : AvlTree WeightValue
  count : Nat
  dict : HashDict (KeyValue.key : KeyValue Weight → Str) hash

namespace Vset

variable {hash : Str → Nat}

def new : Vset hash :=
  ⟨.nil, 0, HashDict.new⟩

def insert (wm : WeightValue) (v : Vset hash) : Bool × Vset hash :=
  let r := v.dict.insert ⟨wm.value, wm.key⟩
  if r.1 then
    (true, ⟨v.tree.insertEq Weight.compare WeightValue.key wm, v.count + 1, r.2⟩)
  else (false, { v with dict := r.2 })

/-- `Erase(key, pred)` on the tree. -/
def eraseMember (w : Weight) (member : Str) (v : Vset hash) : Option (Vset hash) :=
  match v.tree.findIndex Weight.compare WeightValue.key w with
  | none => some v
  | some i =>
    match AvlTree.erasePosition Weight.compare WeightValue.key w
        (fun wm => decide (wm.value = member)) i (v.tree.toList.drop i) with
    | none => none
    | some none => some v
    | some (some j) => some { v with tree := v.tree.eraseIndex j, count := v.count - 1 }

def erase (member : Str) (v : Vset hash) : Option (Bool × Vset hash) :=
  let r := v.dict.extract member
  match r.1 with
  | none => some (false, { v with dict := r.2 })
  | some kv => (({ v with dict := r.2 } : Vset hash).eraseMember kv.value member).map
      fun v => (true, v)

/-- `N2P`: the subtraction is one of `size_t`. -/
def n2p (v : Vset hash) (x : Int) : Int :=
  if x < 0 then toInt64 (v.count - x) else x

/-- `n` rounds of `ret += tree_.Erase(iter++)`, or of the same with `iter--`. -/
def eraseRun (back : Bool) : Nat → Option Nat → Nat → Vset hash → Nat × Vset hash
  | 0, _, ret, v => (ret, v)
  | n + 1, none, ret, v => eraseRun back n none ret v
  | n + 1, some i, ret, v =>
    let v' := { v with tree := v.tree.eraseIndex i, count := v.count - 1 }
    let iter := if back then prevIndex (some i)
      else if i < v'.tree.toList.length then some i else none
    eraseRun back n iter (ret + 1) v'

def begin (v : Vset hash) : Option Nat :=
  if v.tree.toList.length = 0 then none else some 0

def beforeEnd (v : Vset hash) : Option Nat :=
  if v.tree.toList.length = 0 then none else some (v.tree.toList.length - 1)

def eraseRange (left right : Int) (v : Vset hash) : Option (Nat × Vset hash) :=
  let left := v.n2p left
  let right : Int := min (toSize (v.n2p right)) v.count
  if left ≥ right then some (0, v)
  else
    let count := right - left + 1
    let right := (v.count : Int) - 1 - right
    if left < right then do
      let steps ← countdown left
      let rounds ← countdown count
      return v.eraseRun false rounds ((nextIndex v.tree.toList.length)^[steps] v.begin) 0
    else do
      let steps ← countdown right
      let rounds ← countdown count
      return v.eraseRun true rounds (prevIndex^[steps] v.beforeEnd) 0

def lowerBound (w : Weight) (v : Vset hash) : Option Nat :=
  v.tree.bound (fun wm => decide (wm.key.compare w ≠ .lt)) 0 none

def upperBound (w : Weight) (v : Vset hash) : Option Nat :=
  v.tree.bound (fun wm => decide (wm.key.compare w = .gt)) 0 none

/-- The number of increments from the position `i` to the iterator `last`, which
is only met when it does not lie before `i`. -/
def distance (i : Nat) (last : Option Nat) (v : Vset hash) : Option Nat :=
  match last with
  | none => some (v.tree.toList.length - i)
  | some j => if i ≤ j then some (j - i) else none

/-- The same for a loop that tests after its body, so that it runs at least
once. -/
def distancePos (i : Nat) (last : Option Nat) (v : Vset hash) : Option Nat :=
  if last = some i then none else v.distance i last

def eraseRangeByWeight (left right : Weight) (v : Vset hash) : Option (Nat × Vset hash) :=
  match v.lowerBound left with
  | none => some (0, v)
  | some i =>
    (v.distancePos i (v.upperBound right)).map fun n => v.eraseRun false n (some i) 0

def getWeight (member : Str) (v : Vset hash) : Option Weight × Vset hash :=
  let r := v.dict.find member
  (r.1.map KeyValue.value, { v with dict := r.2 })

/-- The loop of `GetOrder` and `GetROrder` over the entries in their order. -/
def orderIn (w : Weight) (member : Str) (l : List WeightValue) : Option Nat :=
  l.findIdx? fun wm => wm.key.eq w && decide (wm.value = member)

def getOrder (reverse : Bool) (member : Str) (v : Vset hash) : Option (Option Nat × Vset hash) :=
  let r := v.getWeight member
  match r.1 with
  | none => some (none, r.2)
  | some w =>
    let l := if reverse then v.tree.toList.reverse else v.tree.toList
    (orderIn w member l).map fun i => (some i, r.2)

def getSizeByWeight (left right : Weight) (v : Vset hash) : Option Nat :=
  match v.lowerBound left with
  | none => some 0
  | some i => v.distance i (v.upperBound right)

/-- At most `count` of the elements, all of them for a negative counter. -/
def takeInt {α : Type} (count : Int) (l : List α) : List α :=
  if count < 0 then l else l.take count.toNat

def getRange (left right : Int) (v : Vset hash) : Option (List WeightValue) :=
  let left := v.n2p left
  let right : Int := min v.count (toSize (v.n2p right))
  (countdown left).map fun steps => takeInt (right - left + 1) (v.tree.toList.drop steps)

def getRangeByWeight (left right : Weight) (v : Vset hash) : Option (List WeightValue) :=
  match v.lowerBound left with
  | none => some []
  | some i =>
    (v.distancePos i (v.upperBound right)).map fun n => (v.tree.toList.drop i).take n

/-- The loop dereferences the iterator before it compares it with the first
one. -/
def getRRange (left right : Int) (v : Vset hash) : Option (List WeightValue) :=
  let left := v.n2p left
  let right : Int := min (toSize (v.n2p right)) v.count
  let count := right - left + 1
  match countdown left with
  | none => none
  | some steps =>
    let rest := v.tree.toList.reverse.drop steps
    if count ≠ 0 ∧ rest = [] then none else some (takeInt count rest)

/-- The upper bound is decremented and dereferenced before it is compared with
the lower bound. -/
def getRRangeByWeight (left right : Weight) (v : Vset hash) : Option (List WeightValue) :=
  match v.lowerBound left, v.upperBound right with
  | some i, some j =>
    if i < j then some ((v.tree.toList.drop i).take (j - i)).reverse else none
  | _, _ => none

def getAll (v : Vset hash) : List WeightValue :=
  v.tree.toList

/-! ## What a sorted set holds -/

structure Same (v v' : Vset hash) : Prop where
  tree : v'.tree = v.tree
  count : v'.count = v.count
  dict : HashDict.Same v.dict v'.dict

theorem Same.refl (v : Vset hash) : Same v v := ⟨rfl, rfl, .refl _⟩

theorem Same.trans {v1 v2 v3 : Vset hash} (h : Same v1 v2) (h' : Same v2 v3) : Same v1 v3 :=
  ⟨h'.tree.trans h.tree, h'.count.trans h.count, h.dict.trans h'.dict⟩

theorem getWeight_same (member : Str) (v : Vset hash) : Same v (v.getWeight member).2 :=
  ⟨rfl, rfl, (HashDict.find_spec member v.dict).2⟩

end Vset

end Mmkv
