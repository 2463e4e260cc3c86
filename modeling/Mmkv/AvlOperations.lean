import Mmkv.AvlRemoval

/-!
# The operations of `AvlTreeBase` in memory

Insertion, search and removal with their loops, on nodes linked by pointers.  An address
that an allocation returns is a parameter.  Every operation does to a viewed tree what the
function of the same name does to the tree, and its loops take no more rounds than the tree
has levels.
-/

namespace Mmkv

open BoundedLoops Function AvlTree AvlHeap

namespace AvlHeap

variable {P K V : Type} [DecidableEq P]

/-! ## The model -/

section Model

variable (h : AvlHeap P V)

def linkSlot (slot : Slot P) (p : P) (parent : Option P) : Option (AvlHeap P V) := do
  let h ← h.writeSlot slot (some p)
  h.setParent p parent

/-- `CreateNode` at the allocated address. -/
def createNode (a : P) (value : V) : AvlHeap P V :=
  { h with node := Function.update h.node a (some ⟨none, none, none, 1, value⟩) }

def dropNode (p : P) : AvlHeap P V :=
  { h with node := Function.update h.node p none }

/-- `slot[0]`, for a slot and its parent. -/
def slotFull (s : Slot P × Option P) : Bool :=
  h.readSlot s.1 ≠ some none

def increaseCount : AvlHeap P V :=
  { h with count := h.count + 1 }

def decreaseCount : AvlHeap P V :=
  { h with count := h.count - 1 }

end Model

section Ordered

variable (cmp : K → K → Ordering) (key : V → K)

/-- The child slot in which `PushEq` goes on. -/
def nextSlotEq (k : K) (h : AvlHeap P V) (q : P) (n : AvlBaseNode P V) : Option (Slot P) :=
  match cmp (key n.value) k with
  | .gt => some (.left q)
  | .lt => some (.right q)
  | .eq => do
    let lh ← h.leftHeight q
    let rh ← h.rightHeight q
    return if lh < rh then .left q else .right q

def slotEqRound (k : K) (h : AvlHeap P V) (s : Slot P × Option P) :
    Option (Round (Slot P × Option P)) := do
  let q ← ← h.readSlot s.1
  let n ← h.node q
  let slot ← nextSlotEq cmp key k h q n
  return .next (slot, some q)

/-- The loop `while (slot[0])` of `PushEq`, with the slot and its parent. -/
def slotEq (fuel : Nat) (k : K) (h : AvlHeap P V) :
    Slot P × Option P → Option (Slot P × Option P) :=
  whileDo h.slotFull (slotEqRound cmp key k h) fuel

def pushEq (fuel : Nat) (p : P) (h : AvlHeap P V) : Option (AvlHeap P V) :=
  match h.root with
  | none => some { h with root := some p }.increaseCount
  | some _ => do
    let n ← h.node p
    let (slot, parent) ← slotEq cmp key fuel (key n.value) h (.root, none)
    let h ← h.linkSlot slot p parent
    let h ← insertFixup fuel parent h
    return h.increaseCount

def insertEq (fuel : Nat) (a : P) (value : V) (h : AvlHeap P V) : Option (AvlHeap P V) :=
  pushEq cmp key fuel a (h.createNode a value)

def findNodeRound (k : K) (h : AvlHeap P V) (node : Option P) : Option (Round (Option P)) := do
  let q ← node
  let n ← h.node q
  return match cmp (key n.value) k with
    | .gt => .next n.left
    | .lt => .next n.right
    | .eq => .stop node

def findNode (fuel : Nat) (k : K) (h : AvlHeap P V) : Option (Option P) :=
  whileDo Option.isSome (findNodeRound cmp key k h) fuel h.root

/-- A round of `LowerBound` and `UpperBound`, with the last node that passed the test. -/
def boundRound (test : Ordering → Bool) (k : K) (h : AvlHeap P V) (s : Option P × Option P) :
    Option (Round (Option P × Option P)) := do
  let q ← s.1
  let n ← h.node q
  return if test (cmp (key n.value) k) then .next (n.left, s.1) else .next (n.right, s.2)

def bound (test : Ordering → Bool) (fuel : Nat) (k : K) (h : AvlHeap P V) : Option (Option P) :=
  (whileDo (fun s => s.1.isSome) (boundRound cmp key test k h) fuel (h.root, none)).map Prod.snd

def lowerBound (fuel : Nat) (k : K) (h : AvlHeap P V) : Option (Option P) :=
  bound cmp key (· != .lt) fuel k h

def upperBound (fuel : Nat) (k : K) (h : AvlHeap P V) : Option (Option P) :=
  bound cmp key (· == .gt) fuel k h

end Ordered

def eraseRoutine (fuel : Nat) (p : P) (h : AvlHeap P V) : Option (AvlHeap P V) := do
  let h ← erase fuel p h
  return (h.dropNode p).decreaseCount

/-- `EraseNode`, which `Erase` calls with the node of an iterator. -/
def eraseNode (fuel : Nat) (p : Option P) (h : AvlHeap P V) : Option (Bool × AvlHeap P V) :=
  match p with
  | none => some (false, h)
  | some p => do
    let h ← eraseRoutine fuel p h
    return (true, h)

section Ordered

variable (cmp : K → K → Ordering) (key : V → K)

/-- `Erase` with a key. -/
def eraseKey (fuel : Nat) (k : K) (h : AvlHeap P V) : Option (Bool × AvlHeap P V) := do
  let p ← findNode cmp key fuel k h
  eraseNode fuel p h

/-- `Extract` with a key.  The node keeps its height. -/
def extract (fuel : Nat) (k : K) (h : AvlHeap P V) : Option (Option P × AvlHeap P V) := do
  let r ← findNode cmp key fuel k h
  match r with
  | none => some (none, h)
  | some p => do
    let h ← erase fuel p h
    let h ← h.decreaseCount.update p fun n =>
      { n with parent := none, left := none, right := none }
    return (some p, h)

def slotOfRound (k : K) (h : AvlHeap P V) (s : Slot P × Option P) :
    Option (Round (Slot P × Option P)) := do
  let q ← ← h.readSlot s.1
  let n ← h.node q
  return match cmp (key n.value) k with
    | .gt => .next (.left q, some q)
    | .lt => .next (.right q, some q)
    | .eq => .stop s

/-- The loop `while (slot[0])` of `_InsertWithDuplicate`, which leaves it at a node with
an equal key. -/
def slotOf (fuel : Nat) (k : K) (h : AvlHeap P V) :
    Slot P × Option P → Option (Slot P × Option P) :=
  whileDo h.slotFull (slotOfRound cmp key k h) fuel

/-- The child of a root without children; neither the height of the root nor the count is
changed. -/
def insertSecond (a : P) (value : V) (root : P) (slot : Slot P) (h : AvlHeap P V) :
    Option (Bool × P × AvlHeap P V) := do
  let h ← (h.createNode a value).linkSlot slot a (some root)
  return (true, a, h)

/-- `_InsertWithDuplicate`: whether the value was inserted, and the entry for `dup`. -/
def insertWithDuplicate (fuel : Nat) (a : P) (value : V) (h : AvlHeap P V) :
    Option (Bool × P × AvlHeap P V) :=
  match h.root with
  | none => some (true, a, { h.createNode a value with root := some a }.increaseCount)
  | some root => do
    let n ← h.node root
    if n.left = none ∧ n.right = none then
      match cmp (key value) (key n.value) with
      | .gt => insertSecond a value root (.right root) h
      | .lt => insertSecond a value root (.left root) h
      | .eq => some (false, root, h)
    else do
      let (slot, parent) ← slotOf cmp key fuel (key value) h (.root, none)
      match ← h.readSlot slot with
      | some q => some (false, q, h)
      | none => do
        let h ← (h.createNode a value).linkSlot slot a parent
        let h ← insertFixup fuel parent h
        return (true, a, h.increaseCount)

def find (fuel : Nat) (k : K) (h : AvlHeap P V) : Option (Option V) := do
  let r ← findNode cmp key fuel k h
  match r with
  | none => some none
  | some p => do
    let n ← h.node p
    return some n.value

end Ordered

end AvlHeap

/-- The descent of `LowerBound` and `UpperBound`, with the last entry that passed the test. -/
def AvlTree.firstOf {V : Type} (p : V → Bool) : AvlTree V → Option V → Option V
  | nil, track => track
  | node left value _ right, track =>
    if p value then firstOf p left (some value) else firstOf p right track

theorem AvlTree.toList_eq_nil {V : Type} {t : AvlTree V} : t.toList = [] ↔ t = nil := by
  cases t with
  | nil => simp [toList]
  | node left value s right => simp [toList]

namespace AvlHeap

variable {P K V : Type} {h h' : AvlHeap P V}
  {other other' : P → Option (AvlBaseNode P V)} {path : List (Crumb (P × V))}
  {t left right : AvlTree (P × V)} {e : P × V} {s : Nat} (cmp : K → K → Ordering) (key : V → K)

/-! ## The loops -/

def entryKey (key : V → K) (e : P × V) : K :=
  key e.2

theorem View.readSlot (hv : View other h path t) : h.readSlot (pathSlot path) = some (ptr t) := by
  cases path with
  | nil => exact congrArg some hv.root
  | cons c path =>
    cases c with
    | inLeft e s right => simp [readSlot, pathSlot, hv.ancestors.1]
    | inRight left e s => simp [readSlot, pathSlot, hv.ancestors.1]

variable {n : AvlBaseNode P V}

theorem View.nextSlotEq (k : K) (hv : View other h path (.node left e s right))
    (hn : n.value = e.2) :
    AvlHeap.nextSlotEq cmp key k h e.1 n =
      some (if goesLeft (cmp (key e.2) k) left right then .left e.1 else .right e.1) := by
  unfold AvlHeap.nextSlotEq goesLeft
  rw [hn]
  cases cmp (key e.2) k with
  | gt => rfl
  | lt => rfl
  | eq =>
    simp only [hv.leftHeight, hv.rightHeight, some_bind, decide_eq_true_eq]
    rfl

theorem View.slotEqRound (k : K) (q : Option P) (hv : View other h path (.node left e s right)) :
    AvlHeap.slotEqRound cmp key k h (pathSlot path, q) =
      some (.next (if goesLeft (cmp (key e.2) k) left right then .left e.1
        else .right e.1, some e.1)) := by
  simp only [AvlHeap.slotEqRound, hv.readSlot, ptr_node, some_bind, hv.subtree.1]
  rw [hv.nextSlotEq cmp key k rfl]
  rfl

variable {fuel : Nat} {parent : Option P} {a p : P} {v : V} {k : Nat}

/-- `FindNode` comes to the node that the search in the tree finds. -/
theorem Holds.findNode (k : K) (hm : Holds h.node parent t) (hfuel : t.realHeight ≤ fuel)
    (path : List (Crumb (P × V))) :
    whileDo Option.isSome (findNodeRound cmp key k h) fuel (ptr t) =
      some (ptr (search cmp (entryKey key) k t path).1) := by
  induction t generalizing parent path fuel with
  | nil => exact whileDo_exit rfl fuel
  | node left e s right ihl ihr =>
    obtain ⟨he, hml, hmr⟩ := hm
    have hl := realHeight_left_lt left e s right
    have hr := realHeight_right_lt left e s right
    obtain ⟨fuel, rfl⟩ := Nat.exists_eq_add_one_of_ne_zero (by omega : fuel ≠ 0)
    have hround : findNodeRound cmp key k h (some e.1) =
        some (match cmp (key e.2) k with
          | .gt => .next (ptr left)
          | .lt => .next (ptr right)
          | .eq => .stop (some e.1)) := by
      simp only [findNodeRound, he, some_bind]
      rfl
    unfold search
    rw [entryKey, ptr_node]
    cases hcmp : cmp (key e.2) k with
    | gt =>
      rw [hcmp] at hround
      rw [whileDo_next rfl hround]
      exact ihl hml (by omega) _
    | lt =>
      rw [hcmp] at hround
      rw [whileDo_next rfl hround]
      exact ihr hmr (by omega) _
    | eq =>
      rw [hcmp] at hround
      rw [whileDo_stop rfl hround]
      rfl

theorem View.findNode (k : K) (hv : View other h [] t) (hfuel : t.realHeight ≤ fuel) :
    AvlHeap.findNode cmp key fuel k h =
      some (ptr (search cmp (entryKey key) k t []).1) := by
  rw [AvlHeap.findNode, hv.root]
  exact hv.subtree.findNode cmp key k hfuel []

theorem View.found (k : K) (hv : View other h [] t) (hfuel : t.realHeight ≤ fuel) :
    ((search cmp (entryKey key) k t []).1 = .nil ∧
      AvlHeap.findNode cmp key fuel k h = some none) ∨
    ∃ path left e s right, search cmp (entryKey key) k t [] = (.node left e s right, path) ∧
      plug path (.node left e s right) = t ∧ View other h path (.node left e s right) ∧
      AvlHeap.findNode cmp key fuel k h = some (some e.1) := by
  have hfind := hv.findNode cmp key k hfuel
  have hplug := @plug_search _ _ cmp (entryKey key) k t []
  cases hsearch : search cmp (entryKey key) k t [] with
  | mk found path =>
    rw [hsearch] at hfind hplug
    cases found with
    | nil => exact .inl ⟨rfl, hfind⟩
    | node left e s right =>
      have hv' : View other h path (.node left e s right) := view_plug.2 (hplug ▸ hv)
      exact .inr ⟨path, left, e, s, right, rfl, hplug, hv', hfind⟩

theorem Holds.bound (test : Ordering → Bool) (track : Option (P × V)) (k : K)
    (hm : Holds h.node parent t) (hfuel : t.realHeight ≤ fuel) :
    whileDo (fun s => s.1.isSome) (boundRound cmp key test k h) fuel
        (ptr t, track.map Prod.fst) =
      some (none, (t.firstOf (fun e => test (cmp (key e.2) k)) track).map Prod.fst) := by
  induction t generalizing parent track fuel with
  | nil => exact whileDo_exit rfl fuel
  | node left e s right ihl ihr =>
    obtain ⟨he, hml, hmr⟩ := hm
    have hl := realHeight_left_lt left e s right
    have hr := realHeight_right_lt left e s right
    obtain ⟨fuel, rfl⟩ := Nat.exists_eq_add_one_of_ne_zero (by omega : fuel ≠ 0)
    have hround : boundRound cmp key test k h (some e.1, track.map Prod.fst) =
        some (if test (cmp (key e.2) k) then .next (ptr left, some e.1)
          else .next (ptr right, track.map Prod.fst)) := by
      simp only [boundRound, he, some_bind]
      rfl
    rw [ptr_node, firstOf]
    cases htest : test (cmp (key e.2) k) with
    | true =>
      rw [htest] at hround
      rw [whileDo_next rfl hround]
      exact ihl (some e) hml (by omega)
    | false =>
      rw [htest] at hround
      rw [whileDo_next rfl hround]
      exact ihr track hmr (by omega)

theorem View.bound (test : Ordering → Bool) (k : K) (hv : View other h [] t)
    (hfuel : t.realHeight ≤ fuel) :
    AvlHeap.bound cmp key test fuel k h =
      some ((t.firstOf (fun e => test (cmp (key e.2) k)) none).map Prod.fst) := by
  rw [AvlHeap.bound, hv.root]
  exact congrArg _ (hv.subtree.bound cmp key test none k hfuel)

theorem Holds.isSome (hm : Holds h.node parent t) (ha : a ∈ addrs t) : (h.node a).isSome := by
  induction t generalizing parent with
  | nil => cases ha
  | node left e s right ihl ihr =>
    obtain ⟨he, hl, hr⟩ := hm
    rcases mem_addrs_node.1 ha with ha | rfl | ha
    · exact ihl hl ha
    · rw [he]
      rfl
    · exact ihr hr ha

theorem View.not_mem_addrs (hv : View other h [] t) (ha : h.node a = none) : a ∉ addrs t := by
  intro hmem
  have := hv.subtree.isSome hmem
  rw [ha] at this
  cases this

theorem View.congrCount {c : UInt64} (hv : View other h path t) :
    View other { h with count := c } path t :=
  ⟨hv.subtree, hv.ancestors, hv.root, hv.nodup, hv.rest⟩

theorem View.linkRoot (hv : View other h [] .nil)
    (hp : h.node p = some ⟨none, none, none, k, v⟩) :
    View other { h with root := some p } [] (leaf ⟨(p, v), k⟩) := by
  refine ⟨⟨hp, trivial, trivial⟩, trivial, rfl, ?_, fun a ha => hv.rest a ?_⟩
  · simp [addrs, leaf, plug, toList]
  · simp [plug]

theorem View.not_mem_eraseAt (hv : View other h path (.node left e s right)) :
    e.1 ∉ addrs (eraseAt (.node left e s right) path) := by
  obtain ⟨-, -, hel, her, -⟩ := nodup_addrs_node hv.nodup_subtree
  have hpath : e.1 ∉ pathAddrs path := hv.not_mem_path (by simp)
  unfold addrs
  unfold addrs at hel her
  unfold pathAddrs at hpath
  rw [toList_eraseAt]
  grind

theorem ptr_eq_none : ptr t = none ↔ t = .nil := by
  cases t with
  | nil => simp [ptr]
  | node left e s right => simp

variable [DecidableEq P]

theorem View.slotFull_nil (hv : View other h path .nil) (q : Option P) :
    h.slotFull (pathSlot path, q) = false := by
  simp [slotFull, hv.readSlot, ptr]

theorem View.slotFull_node (hv : View other h path (.node left e s right)) (q : Option P) :
    h.slotFull (pathSlot path, q) = true := by
  simp [slotFull, hv.readSlot]

/-- The descent of `PushEq` ends at an empty slot. -/
theorem View.slotEq (k : K) (hv : View other h path t) (hfuel : t.realHeight ≤ fuel) :
    slotEq cmp key fuel k h (pathSlot path, pathPtr path) =
      some (pathSlot (AvlTree.slotEq cmp (entryKey key) k t path),
        pathPtr (AvlTree.slotEq cmp (entryKey key) k t path)) := by
  induction t generalizing path fuel with
  | nil => exact whileDo_exit (hv.slotFull_nil _) fuel
  | node left e s right ihl ihr =>
    have hl := realHeight_left_lt left e s right
    have hr := realHeight_right_lt left e s right
    obtain ⟨fuel, rfl⟩ := Nat.exists_eq_add_one_of_ne_zero (by omega : fuel ≠ 0)
    rw [slotEq, whileDo_next (hv.slotFull_node _) (hv.slotEqRound cmp key k _),
      slotEq_node, entryKey]
    cases AvlTree.goesLeft (cmp (key e.2) k) left right with
    | true => exact ihl ((view_fill (.inLeft e s right)).2 hv) (by omega)
    | false => exact ihr ((view_fill (.inRight left e s)).2 hv) (by omega)

/-- The descent of `_InsertWithDuplicate` ends at a node with an equal key or at an empty
slot. -/
theorem View.slotOf (k : K) (hv : View other h path t) (hfuel : t.realHeight ≤ fuel) :
    slotOf cmp key fuel k h (pathSlot path, pathPtr path) =
      some (pathSlot (search cmp (entryKey key) k t path).2,
        pathPtr (search cmp (entryKey key) k t path).2) := by
  induction t generalizing path fuel with
  | nil => exact whileDo_exit (hv.slotFull_nil _) fuel
  | node left e s right ihl ihr =>
    have hl := realHeight_left_lt left e s right
    have hr := realHeight_right_lt left e s right
    obtain ⟨fuel, rfl⟩ := Nat.exists_eq_add_one_of_ne_zero (by omega : fuel ≠ 0)
    have hround : slotOfRound cmp key k h (pathSlot path, pathPtr path) =
        some (match cmp (key e.2) k with
          | .gt => .next (.left e.1, some e.1)
          | .lt => .next (.right e.1, some e.1)
          | .eq => .stop (pathSlot path, pathPtr path)) := by
      simp only [slotOfRound, hv.readSlot, ptr_node, hv.subtree.1, some_bind]
      rfl
    unfold search slotOf
    rw [entryKey]
    cases hcmp : cmp (key e.2) k with
    | gt =>
      rw [hcmp] at hround
      rw [whileDo_next (hv.slotFull_node _) hround]
      exact ihl ((view_fill (.inLeft e s right)).2 hv) (by omega)
    | lt =>
      rw [hcmp] at hround
      rw [whileDo_next (hv.slotFull_node _) hround]
      exact ihr ((view_fill (.inRight left e s)).2 hv) (by omega)
    | eq =>
      rw [hcmp] at hround
      rw [whileDo_stop (hv.slotFull_node _) hround]

/-! ## Linking and unlinking -/

section

variable (hv : View other h path t) (ha : a ∉ addrs (plug path t))
include hv ha

theorem View.updateOther (n : Option (AvlBaseNode P V)) :
    View (Function.update other a n) { h with node := Function.update h.node a n } path t := by
  rw [mem_addrs_plug, not_or] at ha
  have hsame : ∀ b, b ≠ a → Function.update h.node a n b = h.node b :=
    fun b hb => update_of_ne hb _ _
  refine ⟨hv.subtree.congr fun b hb => hsame b fun heq => ha.1 (heq ▸ hb),
    hv.ancestors.congr fun b hb => hsame b fun heq => ha.2 (heq ▸ hb), hv.root, hv.nodup, ?_⟩
  intro b hb
  by_cases hba : b = a
  · subst hba
    simp
  · rw [update_of_ne hba]
    exact (hsame b hba).trans (hv.rest b hb)

theorem View.createNode (value : V) :
    View (Function.update other a (some ⟨none, none, none, 1, value⟩)) (h.createNode a value)
      path t :=
  hv.updateOther ha _

theorem View.dropNode : View (Function.update other a none) (h.dropNode a) path t :=
  hv.updateOther ha _

end

section

variable (hv : View other h path .nil) (hp : h.node p = some n) (hleft : n.left = none)
  (hright : n.right = none) (hfree : p ∉ addrs (plug path .nil))
include hv hp hleft hright hfree

theorem View.linkSlot : ∃ h', h.linkSlot (pathSlot path) p (pathPtr path) = some h' ∧
      View other h' path (leaf ⟨(p, n.value), n.height⟩) ∧ h'.count = h.count := by
  rw [mem_addrs_plug, not_or] at hfree
  obtain ⟨h₁, hrun1, hpath1, hroot1, hcount1, hsame1⟩ :=
    writeSlot_spec hv.ancestors hv.root hv.nodup_path (some p)
  have hp1 : h₁.node p = some n := (hsame1 p hfree.2).trans hp
  obtain ⟨h2, hrun2, hp2, hch2⟩ := update_spec hp1 fun n => { n with parent := pathPtr path }
  have haddrs : ∀ a, a ∈ addrs (leaf (⟨(p, n.value), n.height⟩ : AvlNode (P × V))) ↔
      a = p := by
    intro a
    simp [leaf]
  refine ⟨h2, ?_, ⟨⟨?_, trivial, trivial⟩, hpath1.congr fun a ha => hch2.node a (by grind),
    hch2.root.trans hroot1, nodup_plug ?_ hv.nodup_path (by grind), ?_⟩, hch2.count.trans hcount1⟩
  · simp only [linkSlot, hrun1, some_bind]
    exact hrun2
  · rw [hp2, hleft, hright]
    rfl
  · simp [addrs, leaf, toList]
  · intro a ha
    rw [mem_addrs_plug, haddrs, not_or] at ha
    rw [hch2.node a (by grind), hsame1 a ha.2]
    apply hv.rest
    rw [mem_addrs_plug, not_or]
    exact ⟨by simp, ha.2⟩

/-- `_LinkSlot` and `_InsertFixup` at the end of a path. -/
theorem View.linkFixup (hfuel : path.length ≤ fuel) :
    ∃ h₁ h2, h.linkSlot (pathSlot path) p (pathPtr path) = some h₁ ∧
      insertFixup fuel (pathPtr path) h₁ = some h2 ∧
      View other h2 [] (AvlTree.linkSlot ⟨(p, n.value), n.height⟩ path) ∧
      h2.count = h.count := by
  obtain ⟨h₁, hrun1, hv1, hcount1⟩ := hv.linkSlot hp hleft hright hfree
  obtain ⟨h2, hrun2, hv2, hcount2⟩ := insertFixupRound_simulates.fixup hv1 hfuel
  refine ⟨h₁, h2, hrun1, hrun2, ?_, hcount2.trans hcount1⟩
  rw [linkSlot_eq]
  exact hv2

end

/-! ## The operations -/

/-- `PushEq` of a node without links. -/
theorem View.pushEq (hv : View other h [] t)
    (hp : h.node p = some ⟨none, none, none, k, v⟩) (hfree : p ∉ addrs t)
    (hfuel : t.realHeight ≤ fuel) :
    ∃ h', AvlHeap.pushEq cmp key fuel p h = some h' ∧
      View other h' [] (AvlTree.linkSlot ⟨(p, v), k⟩
        (AvlTree.slotEq cmp (entryKey key) (key v) t [])) ∧
      h'.count = h.count + 1 := by
  cases t with
  | nil => exact ⟨_, by rw [AvlHeap.pushEq, hv.root]; rfl, (hv.linkRoot hp).congrCount, rfl⟩
  | node left e s right =>
    have hslot := hv.slotEq cmp key (key v) hfuel
    have hplug := plug_slotEq cmp (entryKey key) (key v) (.node left e s right) []
    generalize AvlTree.slotEq cmp (entryKey key) (key v) (.node left e s right) [] = path'
      at hslot hplug
    have hv' : View other h path' .nil := by
      rw [view_plug, hplug]
      exact hv
    have hlevels := length_le_plug path' .nil
    rw [hplug] at hlevels
    have hlength : path'.length ≤ fuel := (Nat.le_add_right _ _).trans (hlevels.trans hfuel)
    obtain ⟨h₁, h2, hrun1, hrun2, hv2, hcount2⟩ := hv'.linkFixup hp rfl rfl (hplug ▸ hfree) hlength
    refine ⟨h2.increaseCount, ?_, hv2.congrCount, congrArg (· + 1) hcount2⟩
    simp only [AvlHeap.pushEq, hv.root, topPtr, ptr_node, hp, some_bind]
    replace hslot : AvlHeap.slotEq cmp key fuel (key v) h (.root, none) =
      some (pathSlot path', pathPtr path') := hslot
    grind

/-- `EraseRoutine` of a node of the tree. -/
theorem View.eraseRoutine (hv : View other h path (.node left e s right))
    (hfuel : (plug path (.node left e s right)).realHeight ≤ fuel) :
    ∃ h', AvlHeap.eraseRoutine fuel e.1 h = some h' ∧
      View (Function.update other e.1 none) h' []
        (eraseAt (.node left e s right) path) ∧
      h'.count = h.count - 1 := by
  obtain ⟨h₁, n, hrun, hv1, -, -, hcount⟩ :=
    hv.erase ((length_minimum_le left e s right path).trans hfuel)
  have hdrop := hv1.dropNode hv.not_mem_eraseAt
  rw [update_idem] at hdrop
  refine ⟨(h₁.dropNode e.1).decreaseCount, ?_, hdrop.congrCount, congrArg (· - 1) hcount⟩
  simp only [AvlHeap.eraseRoutine, hrun, some_bind]
  rfl

/-- `Erase` with a key removes the node that the search finds, if any. -/
theorem View.eraseKey (k : K) (hv : View other h [] t) (hfuel : t.realHeight ≤ fuel) :
    (AvlHeap.findNode cmp key fuel k h = some none ∧
      AvlHeap.eraseKey cmp key fuel k h = some (false, h)) ∨
    ∃ path left e s right h', plug path (.node left e s right) = t ∧
      AvlHeap.findNode cmp key fuel k h = some (some e.1) ∧
      AvlHeap.eraseKey cmp key fuel k h = some (true, h') ∧
      View (Function.update other e.1 none) h' []
        (eraseAt (.node left e s right) path) ∧
      h'.count = h.count - 1 := by
  obtain ⟨-, hfind⟩ | ⟨path, left, e, s, right, -, hplug, hv', hfind⟩ := hv.found cmp key k hfuel
  · refine .inl ⟨hfind, ?_⟩
    simp only [AvlHeap.eraseKey, hfind, some_bind]
    rfl
  · obtain ⟨h', hrun, hview, hcount⟩ := hv'.eraseRoutine (hplug ▸ hfuel)
    refine .inr ⟨path, left, e, s, right, h', hplug, hfind, ?_, hview, hcount⟩
    simp only [AvlHeap.eraseKey, hfind, some_bind, AvlHeap.eraseNode, hrun]
    rfl

/-- The node that `Extract` hands over has no links. -/
theorem View.extract (k : K) (hv : View other h [] t) (hfuel : t.realHeight ≤ fuel) :
    AvlHeap.extract cmp key fuel k h = some (none, h) ∨
    ∃ path left e s right h', plug path (.node left e s right) = t ∧
      AvlHeap.extract cmp key fuel k h = some (some e.1, h') ∧
      View (Function.update other e.1 (some ⟨none, none, none, s, e.2⟩)) h' []
        (eraseAt (.node left e s right) path) ∧
      h'.count = h.count - 1 := by
  obtain ⟨-, hfind⟩ | ⟨path, left, e, s, right, -, hplug, hv', hfind⟩ := hv.found cmp key k hfuel
  · left
    simp only [AvlHeap.extract, hfind, some_bind]
  · obtain ⟨h₁, n, hrun, hv1, hvalue, hheight, hcount⟩ :=
      hv'.erase ((length_minimum_le left e s right path).trans (hplug ▸ hfuel))
    have hnode : h₁.decreaseCount.node e.1 = some n := by
      change h₁.node e.1 = some n
      rw [hv1.rest _ hv'.not_mem_eraseAt, update_self]
    have hview := hv1.updateOther hv'.not_mem_eraseAt (some ⟨none, none, none, s, e.2⟩)
    rw [update_idem] at hview
    have hset : h₁.decreaseCount.update e.1
        (fun n => { n with parent := none, left := none, right := none }) =
          some { h₁.decreaseCount with
            node := Function.update h₁.node e.1 (some ⟨none, none, none, s, e.2⟩) } := by
      simp only [update, hnode, Option.map_some, hvalue, hheight]
      rfl
    refine .inr ⟨path, left, e, s, right, _, hplug, ?_, hview.congrCount, congrArg (· - 1) hcount⟩
    simp only [AvlHeap.extract, hfind, some_bind, hrun, hset]
    rfl

/-! ## Unique insertions -/

/-- What `_InsertWithDuplicate` and `PushWithDuplicate` have in common: the place of a key is
searched in one memory, and the node is linked to it in the other. -/
def linkUnique {R : Type} (fuel : Nat) (k : K) (p : P) (h h₁ : AvlHeap P V)
    (linked : AvlHeap P V → R) (refused : P → R) : Option R :=
  match h.root with
  | none => some (linked { h₁ with root := some p }.increaseCount)
  | some root => do
    let n ← h.node root
    if n.left = none ∧ n.right = none then
      match cmp k (key n.value) with
      | .gt => do return linked (← h₁.linkSlot (.right root) p (some root))
      | .lt => do return linked (← h₁.linkSlot (.left root) p (some root))
      | .eq => some (refused root)
    else do
      let (slot, parent) ← slotOf cmp key fuel k h (.root, none)
      match ← h.readSlot slot with
      | some q => some (refused q)
      | none => do
        let h ← h₁.linkSlot slot p parent
        let h ← insertFixup fuel parent h
        return linked h.increaseCount

theorem insertWithDuplicate_eq (fuel : Nat) (a : P) (v : V) (h : AvlHeap P V) :
    insertWithDuplicate cmp key fuel a v h =
      linkUnique cmp key fuel (key v) a h (h.createNode a v) (true, a, ·) (false, ·, h) :=
  rfl

/-- What a unique insertion does: the tree has changed, with the count after it, or an entry
has an equal key. -/
def Links {R : Type} (other : P → Option (AvlBaseNode P V)) (count : UInt64)
    (linked : AvlHeap P V → R) (refused : P → R) (r : Option R) :
    Option (P × V) × AvlTree (P × V) → Prop
  | (none, t') => ∃ h', r = some (linked h') ∧ View other h' [] t' ∧ h'.count = count
  | (some e, _) => r = some (refused e.1)

section Unique

variable {R : Type} (linked : AvlHeap P V → R) (refused : P → R) {h₁ : AvlHeap P V} {k : Nat}
  (hp : h₁.node p = some ⟨none, none, none, k, v⟩)
include hp

theorem View.linkUnique_leaf (fuel : Nat) (hv : View other h [] (.node .nil e s .nil))
    (hv1 : View other' h₁ [] (.node .nil e s .nil)) (hfree : p ≠ e.1) :
    Links other' h₁.count linked refused
      (linkUnique cmp key fuel (key v) p h h₁ linked refused)
      (pushWithDuplicate cmp (entryKey key) ⟨(p, v), k⟩ (.node .nil e s .nil)) := by
  have hrun : linkUnique cmp key fuel (key v) p h h₁ linked refused =
      match cmp (key v) (key e.2) with
      | .gt => do return linked (← h₁.linkSlot (.right e.1) p (some e.1))
      | .lt => do return linked (← h₁.linkSlot (.left e.1) p (some e.1))
      | .eq => some (refused e.1) := by
    simp only [linkUnique, hv.root, topPtr, hv.subtree.1, ptr, some_bind, and_self, if_true]
  have htree : pushWithDuplicate cmp (entryKey key) ⟨(p, v), k⟩ (.node .nil e s .nil) =
      match cmp (key v) (key e.2) with
      | .gt => (none, .node .nil e s (leaf ⟨(p, v), k⟩))
      | .lt => (none, .node (leaf ⟨(p, v), k⟩) e s .nil)
      | .eq => (some e, .node .nil e s .nil) := rfl
  have hlink : ∀ c : Crumb (P × V), View other' h₁ [c] .nil →
      p ∉ addrs (plug [c] .nil) →
      Links other' h₁.count linked refused
        (do return linked (← h₁.linkSlot (pathSlot [c]) p (some c.entry.1)))
        (none, c.fill (leaf ⟨(p, v), k⟩)) := by
    intro c hc hnot
    obtain ⟨h', hrun, hview, hcount⟩ := hc.linkSlot hp rfl rfl hnot
    replace hrun : h₁.linkSlot (pathSlot [c]) p (some c.entry.1) = some h' := hrun
    exact ⟨h', by simp [hrun], (view_fill c).1 hview, hcount⟩
  have hnot : p ∉ addrs (.node .nil e s .nil) := by simpa using hfree
  rw [hrun, htree]
  cases cmp (key v) (key e.2) with
  | gt => exact hlink (.inRight .nil e s) ((view_fill _).2 hv1) hnot
  | lt => exact hlink (.inLeft e s .nil) ((view_fill _).2 hv1) hnot
  | eq => rfl

theorem View.linkUnique_inner (hv : View other h [] (.node left e s right))
    (hv1 : View other' h₁ [] (.node left e s right)) (hchild : left ≠ .nil ∨ right ≠ .nil)
    (hfree : p ∉ addrs (.node left e s right))
    (hfuel : (AvlTree.node left e s right).realHeight ≤ fuel) :
    Links other' (h₁.count + 1) linked refused
      (AvlHeap.linkUnique cmp key fuel (key v) p h h₁ linked refused)
      (AvlTree.pushWithDuplicate cmp (entryKey key) ⟨(p, v), k⟩ (.node left e s right)) := by
  have hnode : ¬ (ptr left = none ∧ ptr right = none) := by
    rw [ptr_eq_none, ptr_eq_none, not_and_or]
    exact hchild
  have hslot : AvlHeap.slotOf cmp key fuel (key v) h (.root, none) = _ :=
    hv.slotOf cmp key (key v) hfuel
  have hplug := @plug_search _ _ cmp (entryKey key) (key v) (.node left e s right) []
  rw [pushWithDuplicate_inner cmp (entryKey key) ⟨(p, v), k⟩ e s hchild]
  change Links other' (h₁.count + 1) linked refused _ (AvlTree.pushAt _ _
    (AvlTree.search cmp (entryKey key) (key v) (.node left e s right) []))
  generalize AvlTree.search cmp (entryKey key) (key v) (.node left e s right) [] = found
    at hslot hplug
  obtain ⟨found, path⟩ := found
  replace hplug : AvlTree.plug path found = .node left e s right := hplug
  have hv' : View other h path found := view_plug.2 (hplug ▸ hv)
  have hv1' : View other' h₁ path found := view_plug.2 (hplug ▸ hv1)
  cases found with
  | nil =>
    have hlevels := length_le_plug path .nil
    rw [hplug] at hlevels
    have hlength : path.length ≤ fuel := (Nat.le_add_right _ _).trans (hlevels.trans hfuel)
    rw [← hplug] at hfree
    obtain ⟨h2, h3, hrun2, hrun3, hv3, hcount⟩ := hv1'.linkFixup hp rfl rfl hfree hlength
    refine ⟨h3.increaseCount, ?_, hv3.congrCount, congrArg (· + 1) hcount⟩
    simp only [AvlHeap.linkUnique, hv.root, topPtr, ptr_node, hv.subtree.1,
      some_bind, if_neg hnode, hslot, hv'.readSlot, hrun2, hrun3]
    rfl
  | node l x k r =>
    simp only [Links, AvlTree.pushAt, AvlHeap.linkUnique, hv.root, topPtr, ptr_node,
      hv.subtree.1, some_bind, if_neg hnode, hslot, hv'.readSlot]

theorem View.linkUnique (hv : View other h [] t) (hv1 : View other' h₁ [] t)
    (hfree : p ∉ addrs t) (hfuel : t.realHeight ≤ fuel) :
    Links other' (if t.toList.length = 1 then h₁.count else h₁.count + 1) linked refused
      (linkUnique cmp key fuel (key v) p h h₁ linked refused)
      (AvlTree.pushWithDuplicate cmp (entryKey key) ⟨(p, v), k⟩ t) := by
  cases t with
  | nil =>
    refine ⟨{ h₁ with root := some p }.increaseCount, ?_, (hv1.linkRoot hp).congrCount, rfl⟩
    rw [linkUnique, hv.root]
    rfl
  | node left e s right =>
    by_cases hchild : left = .nil ∧ right = .nil
    · obtain ⟨rfl, rfl⟩ := hchild
      exact hv.linkUnique_leaf cmp key linked refused hp fuel hv1 (by simpa using hfree)
    · have hlength : (AvlTree.node left e s right).toList.length ≠ 1 := by
        intro hone
        simp only [AvlTree.toList, List.length_append, List.length_cons] at hone
        refine hchild ⟨?_, ?_⟩ <;> exact toList_eq_nil.1 (List.length_eq_zero_iff.1 (by omega))
      rw [if_neg hlength]
      exact hv.linkUnique_inner cmp key linked refused hp hv1 (not_and_or.1 hchild) hfree hfuel

end Unique

/-- `_InsertWithDuplicate` of a value that gets a new node. -/
theorem View.insertWithDuplicate (v : V) (hv : View other h [] t) (ha : h.node a = none)
    (hfuel : t.realHeight ≤ fuel) :
    Links (Function.update other a (some ⟨none, none, none, 1, v⟩))
      (if t.toList.length = 1 then h.count else h.count + 1) (true, a, ·) (false, ·, h)
      (insertWithDuplicate cmp key fuel a v h)
      (AvlTree.insertWithDuplicate cmp (entryKey key) (a, v) t) :=
  hv.linkUnique cmp key _ _ (update_self _ _ _)
    (hv.createNode (hv.not_mem_addrs ha) v) (hv.not_mem_addrs ha) hfuel

/-! ## More rounds -/

section MoreRounds

variable {fuel fuel' : Nat} (hle : fuel ≤ fuel')

include hle

theorem extends_insertFixup (p : Option P) (h : AvlHeap P V) :
    Extends (insertFixup fuel p h) (insertFixup fuel' p h) :=
  (extends_whileDo hle _).map _

theorem extends_eraseFixup (p : Option P) (h : AvlHeap P V) :
    Extends (eraseFixup fuel p h) (eraseFixup fuel' p h) :=
  (extends_whileDo hle _).map _

theorem extends_unlink (p : P) (h : AvlHeap P V) :
    Extends (unlink fuel p h) (unlink fuel' p h) := by
  refine (Extends.refl _).bind fun n => ?_
  split
  · exact (extends_whileDo hle _).bind fun _ => .refl _
  · exact .refl _

theorem extends_erase (p : P) (h : AvlHeap P V) : Extends (erase fuel p h) (erase fuel' p h) :=
  (extends_unlink hle p h).bind fun _ => extends_eraseFixup hle _ _

theorem extends_eraseNode (p : Option P) (h : AvlHeap P V) :
    Extends (eraseNode fuel p h) (eraseNode fuel' p h) := by
  cases p with
  | none => exact .refl _
  | some p =>
    exact ((extends_erase hle p h).bind fun _ => .refl _).bind fun _ => .refl _

omit [DecidableEq P] in
theorem extends_findNode (k : K) (h : AvlHeap P V) :
    Extends (findNode cmp key fuel k h) (findNode cmp key fuel' k h) :=
  extends_whileDo hle _

omit [DecidableEq P] in
theorem extends_find (k : K) (h : AvlHeap P V) :
    Extends (find cmp key fuel k h) (find cmp key fuel' k h) :=
  (extends_findNode cmp key hle k h).bind fun _ => .refl _

theorem extends_eraseKey (k : K) (h : AvlHeap P V) :
    Extends (eraseKey cmp key fuel k h) (eraseKey cmp key fuel' k h) :=
  (extends_findNode cmp key hle k h).bind fun _ => extends_eraseNode hle _ _

theorem extends_pushEq (p : P) (h : AvlHeap P V) :
    Extends (pushEq cmp key fuel p h) (pushEq cmp key fuel' p h) := by
  unfold pushEq
  split
  · exact .refl _
  · refine (Extends.refl _).bind fun n => (extends_whileDo hle _).bind fun s =>
      (Extends.refl _).bind fun h => (extends_insertFixup hle _ _).bind fun _ => .refl _

theorem extends_extract (k : K) (h : AvlHeap P V) :
    Extends (extract cmp key fuel k h) (extract cmp key fuel' k h) := by
  refine (extends_findNode cmp key hle k h).bind fun r => ?_
  split
  · exact .refl _
  · exact (extends_erase hle _ _).bind fun _ => .refl _

theorem extends_linkUnique {R : Type} (linked : AvlHeap P V → R) (refused : P → R) (k : K)
    (p : P) (h h₁ : AvlHeap P V) :
    Extends (linkUnique cmp key fuel k p h h₁ linked refused)
      (linkUnique cmp key fuel' k p h h₁ linked refused) := by
  unfold linkUnique
  split
  · exact .refl _
  · refine (Extends.refl _).bind fun n => ?_
    split
    · exact .refl _
    · refine (extends_whileDo hle _).bind fun s => (Extends.refl _).bind fun r => ?_
      split
      · exact .refl _
      · exact (Extends.refl _).bind fun h =>
          (extends_insertFixup hle _ _).bind fun _ => .refl _

theorem extends_insertWithDuplicate (a : P) (v : V) (h : AvlHeap P V) :
    Extends (insertWithDuplicate cmp key fuel a v h)
      (insertWithDuplicate cmp key fuel' a v h) := by
  rw [insertWithDuplicate_eq, insertWithDuplicate_eq]
  exact extends_linkUnique cmp key hle _ _ _ _ _ _

end MoreRounds

end AvlHeap

end Mmkv
