import Mmkv.AvlMultimap
import Mmkv.VsetAgreement

/-!
# Walks over an AVL tree

`_GetNextNode` finds the successor of a node through its children or its parents.  An
iterator that is incremented from one bound to another, and `Erase` with a predicate, walk
over the entries in their order.
-/

namespace Mmkv

open BoundedLoops List Option AvlTree Nat

/-! ## Sequences in order -/

section Sequences

variable {α : Type} {p q : α → Bool} {l : List α}

/-- The entries that pass a test are at the end. -/
def Ascends (p : α → Bool) (l : List α) : Prop :=
  l.Pairwise fun x y => p x = true → p y = true

theorem Ascends.split (h : Ascends p l) : l.filter (fun x => !p x) ++ l.filter p = l := by
  induction l with
  | nil => rfl
  | cons x l ih =>
    obtain ⟨hx, hl⟩ := pairwise_cons.1 h
    cases hp : p x with
    | true =>
      have hall : ∀ y ∈ l, p y = true := fun y hy => hx y hy hp
      rw [filter_cons_of_neg (by simp [hp]), filter_cons_of_pos hp,
        filter_eq_self.2 hall, filter_eq_nil_iff.2 (by simpa using hall)]
      rfl
    | false =>
      rw [filter_cons_of_pos (by simp [hp]), filter_cons_of_neg (by simp [hp]), cons_append, ih hl]

/-- The entries below one bound, those between the two, and those above the other one. -/
theorem Ascends.split_range (hp : Ascends p l) (hq : Ascends q l)
    (hle : ∀ x ∈ l, q x = true → p x = true) :
    l.filter (fun x => !p x) ++ (l.filter (fun x => p x && !q x) ++ l.filter q) = l := by
  have hupper : (l.filter p).filter q = l.filter q := by
    rw [List.filter_filter]
    refine filter_congr fun x hx => ?_
    cases hqx : q x with
    | true => rw [hle x hx hqx]; rfl
    | false => rfl
  have hbetween : (l.filter p).filter (fun x => !q x) = l.filter (fun x => p x && !q x) := by
    rw [List.filter_filter]
    exact filter_congr fun x _ => Bool.and_comm _ _
  have hrest := Ascends.split (hq.sublist (filter_sublist (p := p)))
  rw [hupper, hbetween] at hrest
  rw [hrest]
  exact hp.split

end Sequences

namespace AvlTree

variable {V : Type} {p : V → Bool} {t : AvlTree V}

theorem firstOf_eq_find? (h : Ascends p t.toList) (track : Option V) :
    t.firstOf p track = (t.toList.find? p).or track := by
  induction t generalizing track with
  | nil => rfl
  | node left value s right ihl ihr =>
    obtain ⟨hl, hr, hcross⟩ := pairwise_append.1 h
    rw [firstOf, toList, find?_append]
    cases hp : p value with
    | true =>
      rw [if_pos rfl, ihl hl, find?_cons_of_pos hp]
      cases left.toList.find? p <;> rfl
    | false =>
      have hnone : left.toList.find? p = none := find?_eq_none.2 fun x hx hpx => by grind
      rw [if_neg (by simp), ihr (pairwise_cons.1 hr).2,
        find?_cons_of_neg (by simp [hp]), hnone]
      rfl

/-- The same for positions. -/
theorem bound_eq_findIdx? (h : Ascends p t.toList) (offset : Nat) (track : Option Nat) :
    t.bound p offset track = ((t.toList.findIdx? p).map (offset + ·)).or track := by
  induction t generalizing offset track with
  | nil => rfl
  | node left value s right ihl ihr =>
    obtain ⟨hl, hr, hcross⟩ := pairwise_append.1 h
    rw [bound, toList, findIdx?_append]
    cases hp : p value with
    | true =>
      rw [if_pos rfl, ihl hl]
      cases left.toList.findIdx? p <;> simp [findIdx?_cons, hp]
    | false =>
      have hnone : left.toList.findIdx? p = none := by grind
      rw [if_neg (by simp), ihr (pairwise_cons.1 hr).2, hnone]
      simp only [findIdx?_cons, hp]
      cases right.toList.findIdx? p with
      | none => rfl
      | some i => grind

section Sorted

variable {K : Type} {cmp : K → K → Ordering} [Std.TransCmp cmp] {key : V → K} {l : List V}

theorem KeysSorted.ascends_lower (h : KeysSorted cmp key l) (k : K) :
    Ascends (fun x => (cmp (key x) k).isGE) l := by
  refine List.Pairwise.imp (fun {x y} hle hx => ?_) h
  exact Std.TransCmp.isGE_trans (Std.OrientedCmp.isGE_iff_isLE.2 hle) hx

theorem KeysSorted.ascends_upper (h : KeysSorted cmp key l) (k : K) :
    Ascends (fun x => cmp (key x) k == .gt) l := by
  refine List.Pairwise.imp (fun {x y} hle hx => ?_) h
  have hlt : cmp k (key x) = .lt := Std.OrientedCmp.gt_iff_lt.1 (eq_of_beq hx)
  have hgt : cmp (key y) k = .gt :=
    Std.OrientedCmp.gt_iff_lt.2 (Std.TransCmp.lt_of_lt_of_isLE hlt hle)
  exact beq_iff_eq.2 hgt

/-- The scan from an entry with the key on. -/
theorem erasePosition_spec (pred : V → Bool) {k : K} {x : V}
    (hsorted : KeysSorted cmp key (x :: l)) (hx : cmp (key x) k = .eq) (i : Nat) :
    match erasePosition cmp key k pred i (x :: l) with
    | some (some j) => ∃ y ∈ x :: l, (x :: l)[j - i]? = some y ∧ i ≤ j ∧
        cmp (key y) k = .eq ∧ pred y = true
    | some none => (∀ y ∈ x :: l, cmp (key y) k = .eq → pred y = false) ∧
        ∃ y ∈ x :: l, cmp (key y) k = .gt
    | none => ∀ y ∈ x :: l, cmp (key y) k = .eq ∧ pred y = false := by
  induction l generalizing x i with
  | nil =>
    rw [erasePosition]
    grind
  | cons z l ih =>
    obtain ⟨hle, hrest⟩ := pairwise_cons.1 hsorted
    rw [erasePosition]
    cases hpred : pred x with
    | true => exact ⟨x, by simp, by simp, le_refl i, hx, hpred⟩
    | false =>
      by_cases hz : cmp (key z) k = .eq
      · rw [if_pos hz]
        have hscan := ih hrest hz (i + 1)
        split
        next j hj => grind
        next hj => grind
        next hj => grind
      · rw [if_neg hz]
        -- The entries behind the equal ones are greater.
        have hgt : ∀ y ∈ z :: l, cmp (key y) k = .gt := by
          have hzgt : cmp (key z) k = .gt := by
            have hge : (cmp (key z) k).isGE := by
              rw [← Std.TransCmp.congr_right hx]
              exact Std.OrientedCmp.isGE_iff_isLE.2 (hle z mem_cons_self)
            cases hcmp : cmp (key z) k with
            | lt => rw [hcmp] at hge; cases hge
            | eq => exact absurd hcmp hz
            | gt => rfl
          refine forall_mem_cons.2 ⟨hzgt, fun y hy => ?_⟩
          exact eq_of_beq ((pairwise_cons.1 (KeysSorted.ascends_upper hrest k)).1 y hy
            (beq_iff_eq.2 hzgt))
        grind

end Sorted

end AvlTree

namespace AvlHeap

variable {P K V : Type}

/-! ## The model -/

section Model

variable [DecidableEq P] (fuel : Nat) (h : AvlHeap P V)

/-- A round of the loop `cur = node; node = node->parent; if (!node || node->left == cur) break`
of `_GetNextNode`. -/
def climbRound (s : Option P) : Option (Round (Option P)) := do
  let p ← s
  let n ← h.node p
  match n.parent with
  | none => return .stop none
  | some q => do
    let m ← h.node q
    return if m.left = some p then .stop (some q) else .next (some q)

/-- `_GetNextNode`. -/
def getNextNode (p : Option P) : Option (Option P) :=
  match p with
  | none => some none
  | some p => do
    let n ← h.node p
    match n.right with
    | some q => (minimum fuel h q).map some
    | none => whileDo (fun _ => true) (climbRound h) fuel (some p)

/-- The loop `for (; first != last; ++first)`, with the entries that `*first` reads. -/
def walk (first last : Option P) : Option (List (P × V)) :=
  (whileDo (fun s => decide (s.1 ≠ last)) (fun s => do
      let p ← s.1
      let n ← h.node p
      let next ← getNextNode fuel h s.1
      return .next (next, s.2 ++ [(p, n.value)])) fuel (first, [])).map Prod.snd

variable (cmp : K → K → Ordering) (key : V → K) (pred : V → Bool) (k : K)

/-- A round of `Erase` with a predicate.  The loop ends with the node that is to be erased, or
with none.  The key of the next node is read whether there is one or not. -/
def eraseWhereRound (s : Option P) : Option (Round (Option P)) := do
  let p ← s
  let n ← h.node p
  if pred n.value then return .stop s
  else do
    let next ← getNextNode fuel h s
    let q ← next
    let m ← h.node q
    return if cmp (key m.value) k = .eq then .next next else .stop none

def eraseWhere : Option (Bool × AvlHeap P V) := do
  match ← findNode cmp key fuel k h with
  | none => return (false, h)
  | some p => do
    let q ← whileDo (fun _ => true) (eraseWhereRound fuel h cmp key pred k) fuel (some p)
    eraseNode fuel q h

end Model

/-! ## The successor -/

/-- The iterator at the first of the entries, or the end. -/
def firstPtr (l : List (P × V)) : Option P :=
  l.head?.map Prod.fst

theorem ptr_minimum {t : AvlTree (P × V)} (ht : t ≠ .nil) (path : List (Crumb (P × V))) :
    ptr (AvlTree.minimum t path).1 = firstPtr t.toList := by
  fun_induction AvlTree.minimum t path with
  | case1 => exact absurd rfl ht
  | case2 => rfl
  | case3 left value k right path hleft ih =>
    rw [ih hleft, AvlTree.toList, firstPtr, firstPtr,
      head?_append_of_ne_nil _ (mt toList_eq_nil.1 hleft)]

variable [DecidableEq P] {h : AvlHeap P V} {other : P → Option (AvlBaseNode P V)}
  {path : List (Crumb (P × V))} {t left right : AvlTree (P × V)} {e : P × V} {s fuel : Nat}

theorem View.climb {p : P} (hv : View other h path t) (hptr : ptr t = some p)
    (hfuel : path.length < fuel) :
    whileDo (fun _ => true) (climbRound h) fuel (some p) =
      some (firstPtr (after path)) := by
  induction path generalizing t p fuel with
  | nil =>
    obtain ⟨fuel, rfl⟩ := exists_eq_add_one_of_ne_zero (by omega : fuel ≠ 0)
    cases t with
    | nil => cases hptr
    | node left e s right =>
      cases hptr
      refine whileDo_stop rfl ?_ fuel
      simp only [climbRound, hv.subtree.1, some_bind, pathPtr]
      rfl
  | cons c path ih =>
    obtain ⟨fuel, rfl⟩ := exists_eq_add_one_of_ne_zero (by omega : fuel ≠ 0)
    rw [length_cons] at hfuel
    have hnode : ∃ n, h.node p = some n ∧ n.parent = some c.entry.1 := by
      cases t with
      | nil => cases hptr
      | node left e s right =>
        cases hptr
        exact ⟨_, hv.subtree.1, rfl⟩
    obtain ⟨n, hn, hparent⟩ := hnode
    have hfill := (view_fill c).1 hv
    cases c with
    | inLeft e s right =>
      refine whileDo_stop rfl ?_ fuel
      simp only [climbRound, hn, hparent, Crumb.entry, hfill.subtree.1, hptr, some_bind, if_true]
      rfl
    | inRight left e s =>
      have hne : ptr left ≠ some p := fun hleft =>
        (nodup_addrs_node hfill.nodup_subtree).2.2.2.2 p (ptr_mem hleft) (ptr_mem hptr)
      refine Eq.trans (whileDo_next rfl ?_ fuel) (ih hfill rfl (by omega))
      simp only [climbRound, hn, hparent, Crumb.entry, hfill.subtree.1, some_bind, if_neg hne]
      rfl

/-- `_GetNextNode` returns the next entry in the order. -/
theorem View.getNextNode (hv : View other h path (.node left e s right))
    (hfuel : (AvlTree.plug path (.node left e s right)).realHeight ≤ fuel) :
    AvlHeap.getNextNode fuel h (some e.1) =
      some (firstPtr (right.toList ++ AvlTree.after path)) := by
  obtain ⟨hnode, -, hright⟩ := hv.subtree
  have hlevels := (length_minimum_le left e s right path).trans hfuel
  by_cases hr : right = .nil
  · subst hr
    simp only [AvlHeap.getNextNode, hnode, some_bind, ptr]
    exact hv.climb rfl (by omega)
  · obtain ⟨q, hq⟩ := exists_ptr hr
    have hmin : h.minimum fuel q = _ := hright.minimum hq [] (by simp only [length_nil]; omega)
    simp only [AvlHeap.getNextNode, hnode, some_bind, hq, hmin,
      ptr_minimum hr, firstPtr, head?_append_of_ne_nil _ (mt toList_eq_nil.1 hr)]
    obtain ⟨x, l, hl⟩ := exists_cons_of_ne_nil (mt toList_eq_nil.1 hr)
    rw [hl]
    rfl

omit [DecidableEq P] in
theorem View.nodup_entries (hv : View other h [] t) : t.toList.Nodup :=
  List.Nodup.of_map Prod.fst hv.nodup

variable {l1 l2 l3 : List (P × V)}

/-- The node and the successor of an entry. -/
theorem View.entry (hv : View other h [] t)
    (hlist : t.toList = l1 ++ e :: l2) (hfuel : t.realHeight ≤ fuel) :
    (∃ n, h.node e.1 = some n ∧ n.value = e.2) ∧
      AvlHeap.getNextNode fuel h (some e.1) = some (firstPtr l2) := by
  have hmem : e ∈ t.toList := by simp [hlist]
  obtain ⟨path, left, s, right, rfl⟩ := exists_path hmem
  have hsplit := toList_plug path (.node left e s right)
  rw [hlist, AvlTree.toList, append_assoc, append_assoc, ← append_assoc, cons_append] at hsplit
  have hnodup := hv.nodup_entries
  rw [hlist] at hnodup
  have hnot1 : e ∉ l1 := fun hmem =>
    (nodup_append.1 hnodup).2.2 e hmem e mem_cons_self rfl
  have hnot2 : e ∉ l2 := (nodup_cons.1 (nodup_append.1 hnodup).2.1).1
  obtain ⟨-, -, hrest⟩ := (append_cons_inj_of_notMem hnot1 hnot2).1 hsplit
  have hv' := view_plug.2 hv
  rw [hrest]
  exact ⟨⟨_, hv'.subtree.1, rfl⟩, hv'.getNextNode hfuel⟩

/-! ## Walks -/

omit [DecidableEq P] in
theorem firstPtr_ne (hnodup : ((l1 ++ e :: l2 ++ l3).map Prod.fst).Nodup) :
    some e.1 ≠ firstPtr l3 := by
  cases l3 with
  | nil => exact fun h => by cases h
  | cons x l3 =>
    intro heq
    rw [map_append, nodup_append] at hnodup
    refine hnodup.2.2 e.1 (by simp) x.1 (by simp) (Option.some.inj heq)

/-- An iterator goes over the entries up to the last one. -/
theorem View.walk (hv : View other h [] t)
    (hlist : t.toList = l1 ++ (l2 ++ l3)) (hfuel : t.realHeight ≤ fuel)
    (hrounds : l2.length ≤ fuel) :
    AvlHeap.walk fuel h (firstPtr (l2 ++ l3)) (firstPtr l3) = some l2 := by
  -- The rounds that are left are fewer than the bound of the loops inside.
  suffices hloop : ∀ rounds l1 l2 acc, t.toList = l1 ++ (l2 ++ l3) → l2.length ≤ rounds →
      whileDo (fun s => decide (s.1 ≠ firstPtr l3))
        (fun s : Option P × List (P × V) => do
          let p ← s.1
          let n ← h.node p
          let next ← AvlHeap.getNextNode fuel h s.1
          return .next (next, s.2 ++ [(p, n.value)])) rounds (firstPtr (l2 ++ l3), acc) =
        some (firstPtr l3, acc ++ l2) by
    rw [AvlHeap.walk, hloop fuel l1 l2 [] hlist hrounds]
    rfl
  intro rounds l1 l2 acc hlist hrounds
  induction l2 generalizing rounds l1 acc with
  | nil =>
    rw [append_nil]
    exact whileDo_exit (by simp) rounds
  | cons e l2 ih =>
    obtain ⟨rounds, rfl⟩ := exists_eq_add_one_of_ne_zero
      (ne_of_gt (lt_of_lt_of_le (succ_pos _) hrounds))
    have hnodup : ((l1 ++ e :: l2 ++ l3).map Prod.fst).Nodup := by
      rw [append_assoc, cons_append]
      exact hlist ▸ hv.nodup
    obtain ⟨⟨n, hn, hvalue⟩, hnext⟩ := hv.entry hlist hfuel
    have hrest := ih rounds (l1 ++ [e]) (acc ++ [e]) (by simpa using hlist)
      (le_of_succ_le_succ hrounds)
    rw [append_assoc, singleton_append] at hrest
    refine Eq.trans (whileDo_next ?_ ?_ rounds) hrest
    · exact decide_eq_true (firstPtr_ne hnodup)
    · simp only [firstPtr, cons_append, head?_cons, map_some, some_bind, hn, hvalue] at hnext ⊢
      rw [hnext]
      rfl

/-- `Erase` with a predicate comes to the entry at the position that the scan of the sequence
gives, and reads a null pointer where that fails. -/
theorem View.eraseWhere_loop (cmp : K → K → Ordering) (key : V → K) (pred : V → Bool) (k : K)
    (hv : View other h [] t) (hlist : t.toList = l1 ++ e :: l2)
    (hfuel : t.realHeight ≤ fuel) {rounds : Nat} (hrounds : l2.length < rounds) :
    whileDo (fun _ => true) (eraseWhereRound fuel h cmp key pred k) rounds (some e.1) =
      (erasePosition cmp (entryKey key) k (fun e => pred e.2) l1.length (e :: l2)).map
        fun o => o.bind fun i => (t.toList[i]?).map Prod.fst := by
  induction l2 generalizing l1 e rounds with
  | nil =>
    obtain ⟨rounds, rfl⟩ := exists_eq_add_one_of_ne_zero (by omega : rounds ≠ 0)
    obtain ⟨⟨n, hn, hvalue⟩, hnext⟩ := hv.entry hlist hfuel
    cases hpred : pred e.2 with
    | true => simp [erasePosition, whileDo, eraseWhereRound, hn, hvalue, hpred, hlist]
    | false =>
      simp [erasePosition, whileDo, eraseWhereRound, hn, hvalue, hpred, hnext, firstPtr]
  | cons x l2 ih =>
    obtain ⟨rounds, rfl⟩ := exists_eq_add_one_of_ne_zero (by omega : rounds ≠ 0)
    obtain ⟨⟨n, hn, hvalue⟩, hnext⟩ := hv.entry hlist hfuel
    have hlist' : t.toList = (l1 ++ [e]) ++ x :: l2 := by simpa using hlist
    obtain ⟨⟨m, hm, hvalue'⟩, -⟩ := hv.entry hlist' hfuel
    cases hpred : pred e.2 with
    | true => simp [erasePosition, whileDo, eraseWhereRound, hn, hvalue, hpred, hlist]
    | false =>
      have hround : eraseWhereRound fuel h cmp key pred k (some e.1) =
          some (if cmp (key x.2) k = .eq then .next (some x.1) else .stop none) := by
        simp [eraseWhereRound, hn, hvalue, hpred, hnext, firstPtr, hm, hvalue']
      rw [erasePosition]
      by_cases heq : cmp (key x.2) k = .eq
      · rw [if_pos heq] at hround
        rw [whileDo_next rfl hround, ih hlist' (by simpa using hrounds)]
        simp [entryKey, heq, hpred]
      · rw [if_neg heq] at hround
        rw [whileDo_stop rfl hround]
        simp [entryKey, heq, hpred]

/-! ## Bounds and ranges -/

section Represented

variable {cmp : K → K → Ordering} {key : V → K} {c : UInt64} {es : List (P × V)}

/-- An entry between the two keys. -/
def within (cmp : K → K → Ordering) (key : V → K) (l r : K) (e : P × V) : Bool :=
  (cmp (key e.2) l).isGE && (cmp (key e.2) r).isLE

omit [DecidableEq P] in
theorem Represents.bounds [Std.TransCmp cmp] (hr : Represents cmp key c h es other t)
    (hfuel : t.realHeight ≤ fuel) (k : K) :
    lowerBound cmp key fuel k h =
        some (firstPtr (t.toList.filter fun e => (cmp (key e.2) k).isGE)) ∧
      upperBound cmp key fuel k h =
        some (firstPtr (t.toList.filter fun e => cmp (key e.2) k == .gt)) := by
  have hfirst : ∀ p : P × V → Bool, Ascends p t.toList →
      (t.firstOf p none).map Prod.fst = firstPtr (t.toList.filter p) := by
    intro p hp
    rw [firstOf_eq_find? hp, or_none, firstPtr, head?_filter]
  have htest : (fun o : Ordering => o != .lt) = Ordering.isGE := by
    funext o
    cases o <;> rfl
  constructor
  · rw [lowerBound, htest, hr.view.bound cmp key _ k hfuel]
    exact congrArg some (hfirst _ (hr.sorted.ascends_lower k))
  · rw [upperBound, hr.view.bound cmp key _ k hfuel]
    exact congrArg some (hfirst _ (hr.sorted.ascends_upper k))

/-- An iterator goes from one bound to the other over the entries between them. -/
theorem Represents.walk_range [Std.TransCmp cmp] (hr : Represents cmp key c h es other t)
    {l r : K} (hle : (cmp l r).isLE) (hfuel : t.realHeight ≤ fuel)
    (hrounds : t.toList.length ≤ fuel) :
    ∃ first last, lowerBound cmp key fuel l h = some first ∧
      upperBound cmp key fuel r h = some last ∧
      walk fuel h first last = some (t.toList.filter (within cmp key l r)) := by
  have hrange := (hr.sorted.ascends_lower l).split_range (hr.sorted.ascends_upper r)
    fun e _ he => by
      have hge : (cmp (entryKey key e) r).isGE := by rw [eq_of_beq he]; rfl
      exact Std.TransCmp.isGE_trans hge (Std.OrientedCmp.isGE_iff_isLE.2 hle)
  have hwithin : (t.toList.filter fun e =>
      (cmp (entryKey key e) l).isGE && !(cmp (entryKey key e) r == .gt)) =
        t.toList.filter (within cmp key l r) := by
    refine filter_congr fun e _ => ?_
    unfold within entryKey
    cases cmp (key e.2) r <;> rfl
  have hlower : (t.toList.filter fun e => (cmp (key e.2) l).isGE) =
      t.toList.filter (within cmp key l r) ++
        t.toList.filter fun e => cmp (key e.2) r == .gt := by
    have hsplit := (hr.sorted.ascends_lower l).split
    rw [hwithin] at hrange
    exact append_cancel_left (hsplit.trans hrange.symm)
  refine ⟨_, _, (hr.bounds hfuel l).1, (hr.bounds hfuel r).2, ?_⟩
  rw [hlower]
  rw [hwithin] at hrange
  exact hr.view.walk hrange.symm hfuel ((length_filter_le _ _).trans hrounds)

/-! ## Erasure with a predicate -/

/-- One entry with the key that satisfies the predicate is removed, or there is none. -/
def ErasesOne (cmp : K → K → Ordering) (key : V → K) (c : UInt64) (k : K) (pred : V → Bool)
    (h : AvlHeap P V) (es : List (P × V)) : Bool × AvlHeap P V → Prop
  | (true, h') => ∃ e ∈ es, cmp (key e.2) k = .eq ∧ pred e.2 = true ∧
      ∃ other' t', Represents cmp key c h' (removed (some e.1) es) other' t'
  | (false, h') => h' = h ∧ ∀ e ∈ es, cmp (key e.2) k = .eq → pred e.2 = false

/-- The search begins at or before an entry with the key that satisfies the predicate, or there
is none and an entry with a greater key ends the scan. -/
def Meets (cmp : K → K → Ordering) (key : V → K) (k : K) (pred : V → Bool)
    (t : AvlTree (P × V)) : Prop :=
  ∀ i, t.findIndex cmp (entryKey key) k = some i →
    (∃ e ∈ t.toList.drop i, cmp (key e.2) k = .eq ∧ pred e.2 = true) ∨
      ((∀ e ∈ t.toList, cmp (key e.2) k = .eq → pred e.2 = false) ∧
        ∃ e ∈ t.toList, cmp (key e.2) k = .gt)

/-- The scan begins at an entry with the key. -/
theorem Represents.eraseWhere_found [Std.TransCmp cmp] (hr : Represents cmp key c h es other t)
    {k : K} (pred : V → Bool) (hfuel : t.realHeight + t.toList.length < fuel)
    (hfind : AvlHeap.findNode cmp key fuel k h = some (some e.1)) (hkey : cmp (key e.2) k = .eq)
    (hlist : t.toList = l1 ++ e :: l2) :
    (∃ r, eraseWhere fuel h cmp key pred k = some r ∧ ErasesOne cmp key c k pred h es r) ↔
      (∃ x ∈ e :: l2, cmp (key x.2) k = .eq ∧ pred x.2 = true) ∨
        ((∀ x ∈ t.toList, cmp (key x.2) k = .eq → pred x.2 = false) ∧
          ∃ x ∈ t.toList, cmp (key x.2) k = .gt) := by
  have hsorted := hr.sorted
  rw [AvlTree.KeysSorted, hlist, pairwise_append] at hsorted
  have hrounds : l2.length < fuel := by grind
  have hrun : eraseWhere fuel h cmp key pred k =
      (erasePosition cmp (entryKey key) k (fun e => pred e.2) l1.length
        (e :: l2)).bind fun o =>
          AvlHeap.eraseNode fuel (o.bind fun i => (t.toList[i]?).map Prod.fst) h := by
    have hheight : t.realHeight ≤ fuel := by omega
    simp only [eraseWhere, hfind, bind_eq_bind, bind_some,
      hr.view.eraseWhere_loop cmp key pred k hlist hheight hrounds, bind_map]
    rfl
  have hscan := erasePosition_spec (fun e => pred e.2) hsorted.2.1 hkey l1.length
  rw [hrun]
  split at hscan
  next j hj =>
    obtain ⟨y, hy, hget, hle, heq, hpred⟩ := hscan
    have hmem : y ∈ es := hr.entries.mem_iff.1 (by rw [hlist]; exact mem_append_right _ hy)
    have hentry : t.toList[j]? = some y := by grind
    obtain ⟨h', herase, hremoves⟩ := hr.view.removes_eraseRoutine
      (hr.mem_addrs.2 (mem_map_of_mem hmem)) (by omega : t.realHeight ≤ fuel)
    obtain ⟨other', t', hr'⟩ := hr.removes hremoves
    refine iff_of_true ⟨(true, h'), ?_, y, hmem, heq, hpred, other', t', hr'⟩
      (.inl ⟨y, hy, heq, hpred⟩)
    simp only [hj, bind_some, hentry, map_some, AvlHeap.eraseNode, herase, bind_eq_bind]
    rfl
  next hj =>
    obtain ⟨hnone, y, hy, hgt⟩ := hscan
    have hmem : y ∈ t.toList := by rw [hlist]; exact mem_append_right _ hy
    simp only [hj, bind_some, bind_none, AvlHeap.eraseNode, Option.some.injEq, exists_eq_left']
    constructor
    · rintro ⟨-, hall⟩
      exact .inr ⟨fun x hx => hall x (hr.entries.mem_iff.1 hx), y, hmem, hgt⟩
    · rintro (⟨x, hx, heq, hpred⟩ | ⟨hall, -⟩)
      · rw [hnone x hx heq] at hpred
        cases hpred
      · exact ⟨rfl, fun x hx => hall x (hr.entries.mem_iff.2 hx)⟩
  next hj =>
    refine iff_of_false ?_ ?_
    · grind
    · rintro (⟨x, hx, -, hpred⟩ | ⟨-, x, hx, hgt⟩)
      · grind
      · rw [hlist] at hx
        rcases mem_append.1 hx with hx | hx
        · have hle : (cmp (key x.2) (key e.2)).isLE := hsorted.2.2 x hx e mem_cons_self
          rw [Std.TransCmp.congr_right hkey, hgt] at hle
          cases hle
        · cases hgt.symm.trans (hscan x hx).1

theorem Represents.eraseWhere_iff [Std.TransCmp cmp] (hr : Represents cmp key c h es other t)
    (k : K) (pred : V → Bool) (hfuel : t.realHeight + t.toList.length < fuel) :
    (∃ r, eraseWhere fuel h cmp key pred k = some r ∧ ErasesOne cmp key c k pred h es r) ↔
      Meets cmp key k pred t := by
  have hfind := hr.view.findNode cmp key k (le_of_lt (lt_of_le_of_lt (le_add_right _ _) hfuel))
  cases hsearch : AvlTree.search cmp (entryKey key) k t [] with
  | mk found path =>
    have hlist := toList_of_search_eq hsearch
    rw [hsearch] at hfind
    cases found with
    | nil =>
      have hmiss := search_eq_nil hr.sorted (congrArg Prod.fst hsearch)
      refine iff_of_true ⟨(false, h), ?_, rfl, fun e he heq => ?_⟩ fun i hi => ?_
      · simp only [eraseWhere, hfind, ptr, some_bind]
        rfl
      · exact absurd heq (hmiss e (hr.entries.mem_iff.2 he))
      · simp [AvlTree.findIndex, hsearch] at hi
    | node left e s right =>
      have hkey : cmp (entryKey key e) k = .eq := search_root (congrArg Prod.fst hsearch)
      replace hlist : t.toList = (AvlTree.before path ++ left.toList) ++
          e :: (right.toList ++ AvlTree.after path) := by
        simpa [AvlTree.toList] using hlist
      rw [hr.eraseWhere_found pred hfuel hfind hkey hlist]
      have hindex : t.findIndex cmp (entryKey key) k =
          some (AvlTree.before path ++ left.toList).length := by
        rw [AvlTree.findIndex, hsearch, length_append]
      have hdrop : t.toList.drop (AvlTree.before path ++ left.toList).length =
          e :: (right.toList ++ AvlTree.after path) := by rw [hlist, drop_left]
      rw [Meets, hindex, ← hdrop]
      grind

end Represented

end AvlHeap

end Mmkv
