import Mathlib.Data.List.Nodup
import Mathlib.Logic.Function.Basic
import Mmkv.BoundedLoops

/-!
# Doubly linked lists in memory

`Blist` on nodes that are linked by pointers, one assignment after the other.  A null
pointer is `none`, and a function that dereferences it or a node that is not allocated, or
that fails an assertion, has no result.  There is no sentinel: the previous node of the
first one is the last one, and nothing follows the last one.

A list holds a sequence of addresses and values if all its pointers say so.  `size()` is
a natural number, and so the test for `max_size()` in the pushes is always false.
-/

namespace Mmkv

open BoundedLoops List

structure BNode (P T : Type) where
  prev : Option P
  next : Option P
  value : T

structure BNodes (P T : Type) where
  node : P → Option (BNode P T)

structure Blist (P : Type) where
  header : Option P
  count : Nat
  deriving Repr, DecidableEq

namespace BNodes

variable {P T : Type} [DecidableEq P] (m : BNodes P T)

def write (p : P) (n : Option (BNode P T)) : BNodes P T :=
  ⟨Function.update m.node p n⟩

def update (p : P) (f : BNode P T → BNode P T) : Option (BNodes P T) :=
  (m.node p).map fun n => m.write p (some (f n))

def setPrev (p : P) (q : Option P) : Option (BNodes P T) :=
  m.update p fun n => { n with prev := q }

def setNext (p : P) (q : Option P) : Option (BNodes P T) :=
  m.update p fun n => { n with next := q }

/-- `CreateNode` at the allocated address. -/
def createNode (a : P) (value : T) : BNodes P T :=
  m.write a (some ⟨none, none, value⟩)

def dropNode (p : P) : Option (BNodes P T) :=
  (m.node p).map fun _ => m.write p none

end BNodes

namespace Blist

variable {P T : Type} [DecidableEq P] (l : Blist P) (m : BNodes P T)

def new : Blist P :=
  ⟨none, 0⟩

def empty : Bool :=
  l.header.isNone

def front : Option T := do
  let h ← l.header
  let first ← m.node h
  return first.value

def backNode : Option (Option P) := do
  let h ← l.header
  let first ← m.node h
  return first.prev

def back : Option T := do
  let last ← (← l.backNode m)
  let n ← m.node last
  return n.value

def setHeader (p : P) : Option (Blist P × BNodes P T) := do
  let m ← m.setPrev p (some p)
  let n ← m.node p
  if n.next.isNone then some (⟨some p, l.count⟩, m) else none

/-- The node behind a new one, or the header for a new tail node. -/
def relinkBehind (next : Option P) (newNode : P) : Option (BNodes P T) :=
  match next with
  | some nn => m.setPrev nn (some newNode)
  | none => do m.setPrev (← l.header) (some newNode)

def insertAfter (node : Option P) (newNode : P) : Option (Blist P × BNodes P T) := do
  -- `SetHeader` of the null pointer is the other branch
  let p ← node
  let n ← m.node p
  let m ← m.setPrev newNode (some p)
  let m ← m.setNext newNode n.next
  let m ← l.relinkBehind m n.next newNode
  let m ← m.setNext p (some newNode)
  return (⟨l.header, l.count + 1⟩, m)

def pushFront (p : P) : Option (Blist P × BNodes P T) :=
  match l.header with
  | none => do
    let (l, m) ← l.setHeader m p
    return ({ l with count := 1 }, m)
  | some h => do
    let m ← m.setNext p (some h)
    let first ← m.node h
    let m ← m.setPrev p first.prev
    let m ← m.setPrev h (some p)
    return (⟨some p, l.count + 1⟩, m)

def pushBack (p : P) : Option (Blist P × BNodes P T) :=
  match l.header with
  | none => do
    let (l, m) ← l.setHeader m p
    return ({ l with count := 1 }, m)
  | some h => do
    let first ← m.node h
    let m ← m.setPrev p first.prev
    let first ← m.node h
    let m ← m.setNext (← first.prev) (some p)
    let m ← m.setPrev h (some p)
    let n ← m.node p
    if n.next.isNone then some (⟨some h, l.count + 1⟩, m) else none

def popFront : Option (Blist P × BNodes P T) :=
  match l.header with
  | none => some (l, m)
  | some h =>
    if l.count = 1 then do
      let m ← m.dropNode h
      return (⟨none, 0⟩, m)
    else do
      let first ← m.node h
      let newHeader ← first.next
      let m ← m.setPrev newHeader first.prev
      let m ← m.dropNode h
      return (⟨some newHeader, l.count - 1⟩, m)

def popBack : Option (Blist P × BNodes P T) :=
  match l.header with
  | none => some (l, m)
  | some h =>
    if l.count = 1 then do
      let m ← m.dropNode h
      return (⟨none, 0⟩, m)
    else do
      let first ← m.node h
      let oldEnd ← first.prev
      let last ← m.node oldEnd
      let m ← m.setNext (← last.prev) none
      let last ← m.node oldEnd
      let m ← m.setPrev h last.prev
      let m ← m.dropNode oldEnd
      return (⟨some h, l.count - 1⟩, m)

/-- The first half of `Extract`: the next node, or the header for the last node. -/
def relinkNext (n : BNode P T) : Option (BNodes P T) :=
  match n.next with
  | some next => m.setPrev next n.prev
  | none => do
    let h ← l.header
    let first ← m.node h
    let last ← m.node (← first.prev)
    if last.next.isNone then m.setPrev h n.prev else none

/-- The second half of `Extract`: the previous node, or the header for the first node. -/
def relinkPrev (p : P) : Option (Blist P × BNodes P T) := do
  let n ← m.node p
  if l.header ≠ some p then do
    let m ← m.setNext (← n.prev) n.next
    return (l, m)
  else
    return ({ l with header := n.next }, m)

def extract (node : Option P) : Option (Blist P × BNodes P T) :=
  match node with
  | none => some (l, m)
  | some p => do
    let n ← m.node p
    if n.prev.isNone then some (l, m)
    else do
      let m ← l.relinkNext m n
      let (l, m) ← l.relinkPrev m p
      let m ← m.setPrev p none
      let m ← m.setNext p none
      return ({ l with count := l.count - 1 }, m)

def erase (node : Option P) : Option (Blist P × BNodes P T) := do
  let (l, m) ← l.extract m node
  let m ← m.dropNode (← node)
  return (l, m)

def clearRound (s : Blist P × BNodes P T) : Option (Round (Blist P × BNodes P T)) := do
  let h ← s.1.header
  let first ← s.2.node h
  let m ← s.2.dropNode h
  return .next ({ s.1 with header := first.next }, m)

def clear (fuel : Nat) : Option (Blist P × BNodes P T) := do
  let (l, m) ← whileDo (fun s => s.1.header.isSome) clearRound fuel (l, m)
  return ({ l with count := 0 }, m)

end Blist

/-! ## Segments -/

namespace BNodes

variable {P T : Type} {m m' : BNodes P T} {p q : Option P} {xs ys : List (P × T)}

/-- The address of the first node of a segment, or what comes after it. -/
def headPtr (xs : List (P × T)) (q : Option P) : Option P :=
  match xs with
  | [] => q
  | x :: _ => some x.1

/-- The address of the last node of a segment, or what comes before it. -/
def lastPtr (p : Option P) : List (P × T) → Option P
  | [] => p
  | x :: xs => lastPtr (some x.1) xs

def addrs (xs : List (P × T)) : List P :=
  xs.map Prod.fst

/-- The nodes are linked in this order, from `p` in front of them to `q` behind them. -/
def Segment (m : BNodes P T) (p : Option P) : List (P × T) → Option P → Prop
  | [], _ => True
  | x :: xs, q => m.node x.1 = some ⟨p, headPtr xs q, x.2⟩ ∧ m.Segment (some x.1) xs q

@[simp] theorem headPtr_append : headPtr (xs ++ ys) q = headPtr xs (headPtr ys q) := by
  cases xs with
  | nil => rfl
  | cons x xs => rfl

@[simp] theorem lastPtr_append : lastPtr p (xs ++ ys) = lastPtr (lastPtr p xs) ys := by
  induction xs generalizing p with
  | nil => rfl
  | cons x xs ih => exact ih

theorem lastPtr_of_ne_nil (hxs : xs ≠ []) (p p' : Option P) : lastPtr p xs = lastPtr p' xs := by
  cases xs with
  | nil => exact absurd rfl hxs
  | cons x xs => rfl

theorem exists_lastPtr (a : P) (xs : List (P × T)) : ∃ b, lastPtr (some a) xs = some b := by
  induction xs generalizing a with
  | nil => exact ⟨a, rfl⟩
  | cons x xs ih => exact ih x.1

variable {a : P}

theorem headPtr_mem (h : headPtr xs none = some a) : a ∈ addrs xs := by
  cases xs with
  | nil => cases h
  | cons x xs =>
    cases h
    exact mem_cons_self

theorem lastPtr_mem (h : lastPtr none xs = some a) : a ∈ addrs xs := by
  rcases eq_nil_or_concat' xs with rfl | ⟨init, x, rfl⟩
  · cases h
  · rw [lastPtr_append] at h
    cases h
    simp [addrs]

theorem lastPtr_concat (x : P × T) : lastPtr p (xs ++ [x]) = some x.1 := by
  rw [lastPtr_append]
  rfl

@[grind =] theorem addrs_append : addrs (xs ++ ys) = addrs xs ++ addrs ys := map_append

@[grind =] theorem addrs_cons (x : P × T) : addrs (x :: xs) = x.1 :: addrs xs := rfl

@[grind =] theorem addrs_nil : addrs ([] : List (P × T)) = [] := rfl

theorem segment_append : m.Segment p (xs ++ ys) q ↔
      m.Segment p xs (headPtr ys q) ∧ m.Segment (lastPtr p xs) ys q := by
  induction xs generalizing p with
  | nil => exact (and_iff_right trivial).symm
  | cons x xs ih =>
    simp only [cons_append, Segment, ih, headPtr_append, lastPtr, and_assoc]

theorem Segment.congr (h : m.Segment p xs q) (hsame : ∀ a ∈ addrs xs, m'.node a = m.node a) :
    m'.Segment p xs q := by
  induction xs generalizing p with
  | nil => trivial
  | cons x xs ih =>
    refine ⟨?_, ih h.2 fun a ha => hsame a (mem_cons_of_mem _ ha)⟩
    rw [hsame x.1 mem_cons_self]
    exact h.1

theorem Segment.isSome (h : m.Segment p xs q) (ha : a ∈ addrs xs) : (m.node a).isSome := by
  induction xs generalizing p with
  | nil => cases ha
  | cons x xs ih =>
    rcases mem_cons.1 ha with rfl | ha
    · rw [h.1]
      rfl
    · exact ih h.2 ha

variable [DecidableEq P]

@[simp] theorem node_write_self (a : P) (n : Option (BNode P T)) : (m.write a n).node a = n :=
  Function.update_self ..

@[grind =] theorem node_write (a b : P) (n : Option (BNode P T)) :
    (m.write a n).node b = if b = a then n else m.node b :=
  Function.update_apply ..

theorem node_write_of_ne {b : P} (hb : b ≠ a) (n : Option (BNode P T)) :
    (m.write a n).node b = m.node b :=
  Function.update_of_ne hb ..

theorem write_self {n : Option (BNode P T)} (hn : m.node a = n) : m.write a n = m := by
  rw [write, ← hn, Function.update_eq_self]

variable {n : BNode P T}

theorem setPrev_of_some (hn : m.node a = some n) (p : Option P) :
    m.setPrev a p = some (m.write a (some { n with prev := p })) := by
  simp [setPrev, update, hn]

theorem setNext_of_some (hn : m.node a = some n) (q : Option P) :
    m.setNext a q = some (m.write a (some { n with next := q })) := by
  simp [setNext, update, hn]

theorem dropNode_of_some (hn : m.node a = some n) : m.dropNode a = some (m.write a none) := by
  simp [dropNode, hn]

theorem Segment.update_other (h : m.Segment p xs q) (ha : a ∉ addrs xs) (n : Option (BNode P T)) :
    (m.write a n).Segment p xs q :=
  h.congr (by grind)

/-- An assignment to `prev` of the first node. -/
theorem Segment.setPrev (h : m.Segment p xs q) (hnodup : (addrs xs).Nodup)
    (ha : headPtr xs none = some a) (p' : Option P) :
    ∃ n, m.setPrev a p' = some (m.write a n) ∧ (m.write a n).Segment p' xs q := by
  cases xs with
  | nil => cases ha
  | cons x xs =>
    cases ha
    have hx : x.1 ∉ addrs xs := (nodup_cons.1 hnodup).1
    refine ⟨_, setPrev_of_some h.1 p', ?_, h.2.update_other hx _⟩
    rw [node_write_self]

/-- An assignment to `next` of the last node. -/
theorem Segment.setNext (h : m.Segment p xs q) (hnodup : (addrs xs).Nodup)
    (ha : lastPtr none xs = some a) (q' : Option P) :
    ∃ n, m.setNext a q' = some (m.write a n) ∧ (m.write a n).Segment p xs q' := by
  rcases eq_nil_or_concat' xs with rfl | ⟨init, x, rfl⟩
  · cases ha
  · rw [lastPtr_concat] at ha
    cases ha
    rw [addrs_append] at hnodup
    have hx : x.1 ∉ addrs init := fun hmem =>
      disjoint_of_nodup_append hnodup hmem (mem_singleton_self _)
    obtain ⟨hinit, hlast⟩ := segment_append.1 h
    refine ⟨_, setNext_of_some hlast.1 q', segment_append.2 ⟨hinit.update_other hx _, ?_, trivial⟩⟩
    rw [node_write_self]
    rfl

end BNodes

/-! ## Lists -/

namespace Blist

open BNodes

variable {P T : Type}

structure Holds (l : Blist P) (m : BNodes P T) (xs : List (P × T)) : Prop where
  nodup : (addrs xs).Nodup
  header : l.header = headPtr xs none
  count : l.count = xs.length
  segment : m.Segment (lastPtr none xs) xs none

/-- The function returns, the list then holds `ys`, and the nodes outside of `touched` are as
they were. -/
def Gives (r : Option (Blist P × BNodes P T)) (m : BNodes P T) (touched : List P)
    (ys : List (P × T)) : Prop :=
  ∃ l' m', r = some (l', m') ∧ l'.Holds m' ys ∧ ∀ b ∉ touched, m'.node b = m.node b

variable {l : Blist P} {m : BNodes P T} {xs ys : List (P × T)}

theorem holds_new (m : BNodes P T) : new.Holds m ([] : List (P × T)) where
  nodup := nodup_nil
  header := rfl
  count := rfl
  segment := trivial

namespace Holds

variable {m' : BNodes P T}

theorem congr (h : l.Holds m xs) (hsame : ∀ a ∈ addrs xs, m'.node a = m.node a) : l.Holds m' xs :=
  { h with segment := h.segment.congr hsame }

variable {a : P}

section

variable (h : l.Holds m xs)

include h

theorem not_mem (ha : m.node a = none) : a ∉ addrs xs := by
  intro hmem
  have hsome := h.segment.isSome hmem
  rw [ha] at hsome
  cases hsome

theorem front : l.front m = xs.head?.map Prod.snd := by
  unfold Blist.front
  rw [h.header]
  have hsegment := h.segment
  cases xs with
  | nil => rfl
  | cons x xs => simp [headPtr, hsegment.1]

theorem first (ha : headPtr xs none = some a) :
    ∃ n, m.node a = some n ∧ n.prev = lastPtr none xs := by
  have hsegment := h.segment
  cases xs with
  | nil => cases ha
  | cons x xs =>
    cases ha
    exact ⟨_, hsegment.1, rfl⟩

theorem last (ha : lastPtr none xs = some a) :
    ∃ n, m.node a = some n ∧ n.next = none ∧ xs.getLast?.map Prod.snd = some n.value := by
  have hsegment := h.segment
  rcases eq_nil_or_concat' xs with rfl | ⟨init, x, rfl⟩
  · cases ha
  · rw [lastPtr_concat] at ha
    cases ha
    exact ⟨_, (segment_append.1 hsegment).2.1, rfl, by simp⟩

theorem backNode (hxs : xs ≠ []) : l.backNode m = some (lastPtr none xs) := by
  obtain ⟨x, rest, rfl⟩ := exists_cons_of_ne_nil hxs
  obtain ⟨n, hn, hprev⟩ := h.first rfl
  simp [Blist.backNode, h.header, headPtr, hn, hprev]

theorem back : l.back m = xs.getLast?.map Prod.snd := by
  cases xs with
  | nil => simp [Blist.back, Blist.backNode, h.header, headPtr]
  | cons x rest =>
    obtain ⟨b, hb⟩ := exists_lastPtr x.1 rest
    obtain ⟨n, hn, -, hvalue⟩ := h.last hb
    rw [hvalue]
    simp [Blist.back, h.backNode, lastPtr, hb, hn]

end

variable [DecidableEq P] {p : P} {v : T}

omit l in
theorem setHeader (l : Blist P) (hp : m.node p = some ⟨none, none, v⟩) : l.setHeader m p =
      some (⟨some p, l.count⟩, m.write p (some ⟨some p, none, v⟩)) := by
  simp [Blist.setHeader, setPrev_of_some hp]

theorem holds_singleton (p : P) (v : T) (m : BNodes P T) :
    Holds ⟨some p, 1⟩ (m.write p (some ⟨some p, none, v⟩)) [(p, v)] where
  nodup := nodup_singleton _
  header := rfl
  count := rfl
  segment := ⟨node_write_self _ _, trivial⟩

theorem pushFront (h : l.Holds m xs) (hp : m.node p = some ⟨none, none, v⟩)
    (hfresh : p ∉ addrs xs) :
    Gives (l.pushFront m p) m (p :: addrs xs) ((p, v) :: xs) := by
  unfold Blist.pushFront
  cases xs with
  | nil =>
    refine ⟨⟨some p, 1⟩, _, ?_, holds_singleton p v m, ?_⟩
    · rw [h.header]
      simp [headPtr, setHeader l hp]
    · grind
  | cons x xs =>
    have hne : x.1 ≠ p := by grind
    have hheader : l.header = some x.1 := h.header
    let m2 := (m.write p (some ⟨none, some x.1, v⟩)).write p
      (some ⟨lastPtr none (x :: xs), some x.1, v⟩)
    have hother : m2.Segment _ (x :: xs) none :=
      (h.segment.update_other hfresh _).update_other hfresh _
    obtain ⟨n, hset, hsegment⟩ := hother.setPrev h.nodup rfl (some p)
    refine ⟨⟨some p, l.count + 1⟩, m2.write x.1 n, ?_, ?_, ?_⟩
    · rw [hheader]
      simp only [setNext_of_some hp, some_bind,
        node_write_of_ne hne, h.segment.1, setPrev_of_some (node_write_self _ _)]
      rw [hset]
      rfl
    · refine ⟨nodup_cons.2 ⟨hfresh, h.nodup⟩, rfl, by simp [h.count], ?_, hsegment⟩
      rw [node_write_of_ne hne.symm, node_write_self]
      rfl
    · grind

theorem pushBack (h : l.Holds m xs) (hp : m.node p = some ⟨none, none, v⟩) (hfresh : p ∉ addrs xs) :
    Gives (l.pushBack m p) m (p :: addrs xs) (xs ++ [(p, v)]) := by
  unfold Blist.pushBack
  cases xs with
  | nil =>
    refine ⟨⟨some p, 1⟩, _, ?_, holds_singleton p v m, ?_⟩
    · rw [h.header]
      simp [headPtr, setHeader l hp]
    · grind
  | cons x xs =>
    have hne : x.1 ≠ p := by grind
    have hheader : l.header = some x.1 := h.header
    obtain ⟨e, he⟩ := exists_lastPtr x.1 xs
    replace he : lastPtr none (x :: xs) = some e := he
    have hmem : e ∈ addrs (x :: xs) := lastPtr_mem he
    have hfirst : m.node x.1 = some ⟨some e, headPtr xs none, x.2⟩ := by
      rw [← he]
      exact h.segment.1
    have hother := h.segment.update_other hfresh (some ⟨some e, none, v⟩)
    obtain ⟨n1, hnext, hseg1⟩ := hother.setNext h.nodup he (some p)
    obtain ⟨n2, hprev, hseg2⟩ := hseg1.setPrev h.nodup rfl (some p)
    have hlast : (((m.write p (some ⟨some e, none, v⟩)).write e n1).write x.1 n2).node p =
        some ⟨some e, none, v⟩ := by grind
    refine ⟨⟨some x.1, l.count + 1⟩,
      ((m.write p (some ⟨some e, none, v⟩)).write e n1).write x.1 n2, ?_, ?_, ?_⟩
    · rw [hheader]
      simp only [setPrev_of_some hp, some_bind, hfirst, node_write_of_ne hne, hnext, hprev, hlast]
      rfl
    · refine ⟨?_, rfl, by simp [h.count], segment_append.2 ⟨?_, ?_, trivial⟩⟩
      · rw [addrs_append]
        exact h.nodup.append (nodup_singleton p) (disjoint_singleton.2 hfresh)
      · rw [lastPtr_concat]
        exact hseg2
      · rw [hlast, lastPtr_concat, lastPtr_of_ne_nil (cons_ne_nil x xs) _ none, he]
        rfl
    · grind

theorem popFront (h : l.Holds m xs) : Gives (l.popFront m) m (addrs xs) xs.tail := by
  unfold Blist.popFront
  match xs, h with
  | [], h =>
    rw [h.header]
    exact ⟨l, m, rfl, h, fun _ _ => rfl⟩
  | [x], h =>
    refine ⟨new, m.write x.1 none, ?_, holds_new _, ?_⟩
    · rw [h.header, h.count]
      simp [headPtr, dropNode_of_some h.segment.1, new]
    · grind
  | x :: y :: xs, h =>
    have hheader : l.header = some x.1 := h.header
    have hcount : l.count ≠ 1 := by simp [h.count]
    have hnodup := nodup_cons.1 h.nodup
    have hfirst := h.segment.1
    obtain ⟨n, hset, hsegment⟩ := h.segment.2.setPrev hnodup.2 rfl (lastPtr none (x :: y :: xs))
    have hne : x.1 ≠ y.1 := by grind
    refine ⟨⟨some y.1, l.count - 1⟩, (m.write y.1 n).write x.1 none, ?_, ?_, ?_⟩
    · rw [hheader]
      simp only [if_neg hcount, hfirst, headPtr, some_bind]
      rw [hset, some_bind, dropNode_of_some ((node_write_of_ne hne _).trans hfirst)]
      rfl
    · exact ⟨hnodup.2, rfl, by simp [h.count], hsegment.update_other hnodup.1 _⟩
    · grind

theorem popBack (h : l.Holds m xs) : Gives (l.popBack m) m (addrs xs) xs.dropLast := by
  unfold Blist.popBack
  match xs, h with
  | [], h =>
    rw [h.header]
    exact ⟨l, m, rfl, h, fun _ _ => rfl⟩
  | [x], h =>
    refine ⟨new, m.write x.1 none, ?_, holds_new _, ?_⟩
    · rw [h.header, h.count]
      simp [headPtr, dropNode_of_some h.segment.1, new]
    · grind
  | x :: y :: xs, h =>
    obtain ⟨init, z, hinit⟩ : ∃ init z, y :: xs = init ++ [z] :=
      (eq_nil_or_concat' (y :: xs)).resolve_left (cons_ne_nil y xs)
    have hcount : l.count ≠ 1 := by simp [h.count]
    have hlength : l.count = init.length + 2 := by
      rw [h.count, hinit]
      simp
    rw [hinit] at h ⊢
    have hheader : l.header = some x.1 := h.header
    have hdrop : ((x :: init) ++ [z]).dropLast = x :: init := dropLast_concat
    have hend : lastPtr none (x :: (init ++ [z])) = some z.1 := lastPtr_concat z
    obtain ⟨e, he⟩ := exists_lastPtr x.1 init
    replace he : lastPtr none (x :: init) = some e := he
    have hnodup : (addrs (x :: init) ++ [z.1]).Nodup := by
      have hsplit := h.nodup
      rwa [← cons_append, addrs_append] at hsplit
    have hz : z.1 ∉ addrs (x :: init) := fun hmem =>
      disjoint_of_nodup_append hnodup hmem (mem_singleton_self _)
    have hmem : e ∈ addrs (x :: init) := lastPtr_mem he
    obtain ⟨hseg, hlast⟩ := segment_append.1
      (show m.Segment _ ((x :: init) ++ [z]) none from h.segment)
    rw [hend] at hseg hlast
    have hfirst : m.node x.1 = some ⟨some z.1, _, x.2⟩ := hseg.1
    have hz0 : m.node z.1 = some ⟨some e, none, z.2⟩ := by
      rw [← he]
      exact hlast.1
    obtain ⟨n1, hnext, hseg1⟩ := hseg.setNext hnodup.of_append_left he none
    obtain ⟨n2, hprev, hseg2⟩ := hseg1.setPrev hnodup.of_append_left rfl (some e)
    have hz1 : (m.write e n1).node z.1 = some ⟨some e, none, z.2⟩ := by grind
    have hz2 : ((m.write e n1).write x.1 n2).node z.1 = some ⟨some e, none, z.2⟩ := by grind
    refine ⟨⟨some x.1, l.count - 1⟩, ((m.write e n1).write x.1 n2).write z.1 none, ?_, ?_, ?_⟩
    · rw [hheader]
      simp only [if_neg hcount, hfirst, some_bind, hz0, hnext, hz1, hprev, dropNode_of_some hz2]
      rfl
    · rw [← cons_append, hdrop]
      refine ⟨hnodup.of_append_left, rfl, by simp [hlength], ?_⟩
      rw [he]
      exact hseg2.update_other hz _
    · grind

section Split

variable {before behind : List (P × T)} {x : P × T}

omit [DecidableEq P] in
theorem split (h : l.Holds m (before ++ x :: behind)) :
    m.Segment (lastPtr (some x.1) behind) before (some x.1) ∧
      m.node x.1 = some ⟨lastPtr (lastPtr (some x.1) behind) before, headPtr behind none, x.2⟩ ∧
      m.Segment (some x.1) behind none ∧
      (addrs before).Nodup ∧ (addrs behind).Nodup ∧ x.1 ∉ addrs before ∧ x.1 ∉ addrs behind ∧
      ∀ a ∈ addrs before, a ∉ addrs behind := by
  have hsegment := h.segment
  have hnodup := h.nodup
  rw [lastPtr_append] at hsegment
  rw [addrs_append] at hnodup
  obtain ⟨hbefore, hx, hbehind⟩ := segment_append.1 hsegment
  have hrest := nodup_cons.1 hnodup.of_append_right
  have hdisjoint := disjoint_of_nodup_append hnodup
  exact ⟨hbefore, hx, hbehind, hnodup.of_append_left, hrest.2,
    fun hmem => hdisjoint hmem mem_cons_self, hrest.1,
    fun a ha hmem => hdisjoint ha (mem_cons_of_mem _ hmem)⟩

section

variable (h : l.Holds m (before ++ x :: behind)) {n : BNode P T}
include h

theorem relinkNext (hn : m.node x.1 = some n) :
    ∃ m', l.relinkNext m n = some m' ∧ m'.node x.1 = some n ∧
      m'.Segment (lastPtr n.prev behind) before (some x.1) ∧ m'.Segment n.prev behind none ∧
      ∀ b ∉ addrs (before ++ x :: behind), m'.node b = m.node b := by
  obtain ⟨hbefore, hx, hbehind, hnodup, hnodup', hxb, hxb', hdisjoint⟩ := h.split
  rw [hn] at hx
  cases hx
  unfold Blist.relinkNext
  cases behind with
  | cons y behind =>
    obtain ⟨n', hset, hseg⟩ := hbehind.setPrev hnodup' rfl
      (lastPtr (lastPtr (some x.1) (y :: behind)) before)
    exact ⟨_, hset, by grind, hbefore.update_other (by grind) _, hseg, by grind⟩
  | nil =>
    have hheader : l.header = headPtr (before ++ [x]) none := h.header
    have hlast : lastPtr none (before ++ [x]) = some x.1 := lastPtr_concat x
    cases before with
    | nil =>
      have hsame : m.setPrev x.1 (some x.1) = some m := by
        rw [setPrev_of_some hn]
        exact congrArg some (write_self hn)
      refine ⟨m, ?_, hn, trivial, trivial, fun _ _ => rfl⟩
      simpa [hheader, headPtr, lastPtr, hn] using hsame
    | cons y before =>
      have hfirst := hbefore.1
      obtain ⟨n', hset, hseg⟩ := hbefore.setPrev hnodup rfl (lastPtr (some x.1) (y :: before))
      refine ⟨m.write y.1 n', ?_, by grind, hseg, trivial, by grind⟩
      simpa [hheader, headPtr, lastPtr, hfirst, hn] using hset

theorem relinkPrev (hn : m.node x.1 = some n)
    (hn' : m'.node x.1 = some n) {p q : Option P} (hbefore : m'.Segment p before (some x.1))
    (hbehind : m'.Segment q behind none) :
    ∃ m'', l.relinkPrev m' x.1 = some (⟨headPtr (before ++ behind) none, l.count⟩, m'') ∧
      m''.node x.1 = some n ∧ m''.Segment p before (headPtr behind none) ∧
      m''.Segment q behind none ∧
      ∀ b ∉ addrs (before ++ x :: behind), m''.node b = m'.node b := by
  obtain ⟨-, hx, -, hnodup, -, hxb, -, hdisjoint⟩ := h.split
  rw [hn] at hx
  cases hx
  have hheader := h.header
  unfold Blist.relinkPrev
  cases before with
  | nil =>
    refine ⟨m', ?_, hn', trivial, hbehind, fun _ _ => rfl⟩
    replace hheader : l.header = some x.1 := hheader
    simp [hn', hheader]
  | cons y before =>
    obtain ⟨e, he⟩ := exists_lastPtr y.1 before
    replace he : lastPtr none (y :: before) = some e := he
    have hmem := lastPtr_mem he
    obtain ⟨n', hset, hseg⟩ := hbefore.setNext hnodup he (headPtr behind none)
    refine ⟨m'.write e n', ?_, by grind, hseg, hbehind.update_other (hdisjoint e hmem) _, by grind⟩
    replace hheader : l.header = some y.1 := hheader
    have hlast := lastPtr_of_ne_nil (cons_ne_nil y before) (lastPtr (some x.1) behind) none
    have hl : l = ⟨some y.1, l.count⟩ := by rw [← hheader]
    have hother : l.header ≠ some x.1 := by grind
    simp only [hn', some_bind, hlast, he, hset, if_pos hother]
    exact congrArg (fun l => some (l, _)) hl

theorem extract : ∃ l' m', l.extract m (some x.1) = some (l', m') ∧ l'.Holds m' (before ++ behind) ∧
      m'.node x.1 = some ⟨none, none, x.2⟩ ∧
      ∀ b ∉ addrs (before ++ x :: behind), m'.node b = m.node b := by
  obtain ⟨-, hx, -, hnodup, hnodup', hxb, hxb', hdisjoint⟩ := h.split
  obtain ⟨e, he⟩ := exists_lastPtr x.1 behind
  obtain ⟨e', he'⟩ := exists_lastPtr e before
  rw [he, he'] at hx
  obtain ⟨m1, hnext, hx1, hbefore1, hbehind1, hframe1⟩ := h.relinkNext hx
  obtain ⟨m2, hprev, hx2, hbefore2, hbehind2, hframe2⟩ := h.relinkPrev hx hx1 hbefore1 hbehind1
  have hx3 : (m2.write x.1 (some ⟨none, headPtr behind none, x.2⟩)).node x.1 = _ :=
    node_write_self _ _
  refine ⟨⟨headPtr (before ++ behind) none, l.count - 1⟩,
    (m2.write x.1 (some ⟨none, headPtr behind none, x.2⟩)).write x.1 (some ⟨none, none, x.2⟩),
    ?_, ⟨?_, rfl, ?_, ?_⟩, node_write_self _ _, ?_⟩
  · simp only [Blist.extract, hx, some_bind, Option.isNone_some,
      hnext, hprev, setPrev_of_some hx2, setNext_of_some hx3]
    rfl
  · grind
  · simp [h.count]
  · rw [segment_append, lastPtr_append]
    have hb := (hbefore2.update_other hxb (some ⟨none, headPtr behind none, x.2⟩)).update_other
      hxb (some ⟨none, none, x.2⟩)
    have hb' := (hbehind2.update_other hxb' (some ⟨none, headPtr behind none, x.2⟩)).update_other
      hxb' (some ⟨none, none, x.2⟩)
    -- what is in front of each half: nothing changes if the half is empty
    cases before with
    | nil =>
      cases behind with
      | nil => exact ⟨trivial, trivial⟩
      | cons y behind =>
        replace he' : e = e' := Option.some.inj he'
        refine ⟨trivial, ?_⟩
        change BNodes.Segment _ (lastPtr none (y :: behind)) (y :: behind) none
        rw [lastPtr_of_ne_nil (cons_ne_nil y behind) none (some x.1), he, he']
        exact hb'
    | cons y before =>
      have hlast := fun p => lastPtr_of_ne_nil (cons_ne_nil y before) p (some e)
      grind
  · grind

theorem erase :
    Gives (l.erase m (some x.1)) m (addrs (before ++ x :: behind)) (before ++ behind) := by
  obtain ⟨l', m', hrun, hholds, hx, hframe⟩ := h.extract
  have hfree : x.1 ∉ addrs (before ++ behind) := by
    obtain ⟨-, -, -, -, -, hxb, hxb', -⟩ := h.split
    grind
  refine ⟨l', m'.write x.1 none, ?_, ?_, ?_⟩
  · simp only [Blist.erase, hrun, some_bind, dropNode_of_some hx]
    rfl
  · exact { hholds with segment := hholds.segment.update_other hfree _ }
  · grind

theorem relinkBehind {p : P} (hp : p ∉ addrs (before ++ x :: behind))
    (hbefore : m'.Segment (lastPtr (some x.1) behind) (before ++ [x]) (headPtr behind none))
    (hbehind : m'.Segment (some x.1) behind none) :
    ∃ m'', l.relinkBehind m' (headPtr behind none) p = some m'' ∧
      m''.Segment (lastPtr (some p) behind) (before ++ [x]) (headPtr behind none) ∧
      m''.Segment (some p) behind none ∧ m''.node p = m'.node p ∧
      ∀ b ∉ addrs (before ++ x :: behind), m''.node b = m'.node b := by
  obtain ⟨-, -, -, hnodup, hnodup', hxb, hxb', hdisjoint⟩ := h.split
  unfold Blist.relinkBehind
  cases behind with
  | cons y behind =>
    obtain ⟨n, hset, hseg⟩ := hbehind.setPrev hnodup' rfl (some p)
    exact ⟨_, hset, hbefore.update_other (by grind) _, hseg, by grind, by grind⟩
  | nil =>
    obtain ⟨a, ha⟩ : ∃ a, headPtr (before ++ [x]) none = some a := by
      cases before with
      | nil => exact ⟨x.1, rfl⟩
      | cons y before => exact ⟨y.1, rfl⟩
    have hheader : l.header = some a := h.header.trans ha
    obtain ⟨n, hset, hseg⟩ := hbefore.setPrev h.nodup ha (some p)
    have hmem := headPtr_mem ha
    refine ⟨m'.write a n, ?_, hseg, trivial, by grind, by grind⟩
    simpa [headPtr, hheader] using hset

theorem insertAfter {p : P} {v : T} (hp : m.node p = some ⟨none, none, v⟩)
    (hfresh : p ∉ addrs (before ++ x :: behind)) :
    Gives (l.insertAfter m (some x.1) p) m (p :: addrs (before ++ x :: behind))
      (before ++ x :: (p, v) :: behind) := by
  obtain ⟨hbefore, hx, hbehind, hnodup, hnodup', hxb, hxb', hdisjoint⟩ := h.split
  have hseg : m.Segment (lastPtr (some x.1) behind) (before ++ [x]) (headPtr behind none) :=
    segment_append.2 ⟨hbefore, hx, trivial⟩
  have hpb : p ∉ addrs (before ++ [x]) := by grind
  have hpb' : p ∉ addrs behind := by grind
  have hinit : (addrs (before ++ [x])).Nodup := by grind
  have hxp : p ≠ x.1 := by grind
  let m1 := (m.write p (some ⟨some x.1, none, v⟩)).write p
    (some ⟨some x.1, headPtr behind none, v⟩)
  have hp1 : m1.node p = some ⟨some x.1, headPtr behind none, v⟩ := node_write_self _ _
  obtain ⟨m2, hrelink, hseg2, hbehind2, hp2, hframe2⟩ := h.relinkBehind hfresh
    (show m1.Segment _ _ _ from (hseg.update_other hpb _).update_other hpb _)
    ((hbehind.update_other hpb' _).update_other hpb' _)
  obtain ⟨n, hnext, hseg3⟩ := hseg2.setNext hinit (lastPtr_concat x) (some p)
  refine ⟨⟨l.header, l.count + 1⟩, m2.write x.1 n, ?_, ⟨?_, ?_, ?_, ?_⟩, ?_⟩
  · simp only [Blist.insertAfter, some_bind, hx,
      setPrev_of_some hp, setNext_of_some (node_write_self _ _)]
    grind
  · grind
  · apply h.header.trans
    rw [headPtr_append, headPtr_append]
    rfl
  · simp [h.count, Nat.add_assoc]
  · have hsplit : before ++ x :: (p, v) :: behind = before ++ [x] ++ (p, v) :: behind := by simp
    have hlast : lastPtr none (before ++ [x] ++ (p, v) :: behind) = lastPtr (some p) behind :=
      lastPtr_append
    rw [hsplit, hlast, segment_append, lastPtr_concat]
    refine ⟨hseg3, ?_, hbehind2.update_other hxb' _⟩
    rw [node_write_of_ne hxp, hp2, hp1]
  · grind

theorem setValue (f : T → T) :
    ∃ m', m.update x.1 (fun n => { n with value := f n.value }) = some m' ∧
      l.Holds m' (before ++ (x.1, f x.2) :: behind) := by
  obtain ⟨hbefore, hx, hbehind, -, -, hxb, hxb', -⟩ := h.split
  have haddrs : addrs (before ++ (x.1, f x.2) :: behind) = addrs (before ++ x :: behind) := by
    simp [addrs]
  have hhead : headPtr (before ++ (x.1, f x.2) :: behind) none =
      headPtr (before ++ x :: behind) none := by
    rw [headPtr_append, headPtr_append]
    rfl
  refine ⟨m.write x.1 _, by rw [update, hx]; rfl, ?_, ?_, ?_, ?_⟩
  · rw [haddrs]
    exact h.nodup
  · rw [hhead]
    exact h.header
  · rw [h.count]
    simp
  · rw [lastPtr_append]
    refine segment_append.2 ⟨hbefore.update_other hxb _, ?_, hbehind.update_other hxb' _⟩
    rw [node_write_self]
    rfl

end

end Split

theorem clear_rounds {p : Option P} (hheader : l.header = headPtr xs none)
    (hsegment : m.Segment p xs none) (hnodup : (addrs xs).Nodup) {fuel : Nat}
    (hfuel : xs.length ≤ fuel) :
    ∃ m', whileDo (fun s => s.1.header.isSome) clearRound fuel (l, m) =
        some (⟨none, l.count⟩, m') ∧ ∀ b ∉ addrs xs, m'.node b = m.node b := by
  induction xs generalizing l m p fuel with
  | nil =>
    refine ⟨m, ?_, fun _ _ => rfl⟩
    rw [whileDo_exit (by rw [hheader]; rfl), ← show l.header = none from hheader]
  | cons x xs ih =>
    obtain ⟨fuel, rfl⟩ : ∃ n, fuel = n + 1 :=
      Nat.exists_eq_add_one_of_ne_zero (Nat.ne_zero_of_lt hfuel)
    have hx := nodup_cons.1 hnodup
    have hround : clearRound (l, m) =
        some (.next (⟨headPtr xs none, l.count⟩, m.write x.1 none)) := by
      simp only [clearRound, hheader, headPtr, some_bind, hsegment.1, dropNode_of_some hsegment.1]
      rfl
    obtain ⟨m', hrun, hframe⟩ := @ih ⟨headPtr xs none, l.count⟩ (m.write x.1 none) _ rfl
      (hsegment.2.update_other hx.1 none) hx.2 fuel (Nat.le_of_succ_le_succ hfuel)
    refine ⟨m', ?_, ?_⟩
    · rw [whileDo_next (by rw [hheader]; rfl) hround]
      exact hrun
    · grind

theorem clear (h : l.Holds m xs) {fuel : Nat} (hfuel : xs.length ≤ fuel) :
    Gives (l.clear m fuel) m (addrs xs) [] := by
  obtain ⟨m', hrun, hframe⟩ := clear_rounds h.header h.segment h.nodup hfuel
  refine ⟨new, m', ?_, holds_new m', hframe⟩
  simp only [Blist.clear, hrun, some_bind]
  rfl

end Holds

end Blist

end Mmkv
