import Mmkv.AvlMultimap
import Mmkv.AvlReuse

/-!
# The count of an AVL tree

`AvlTree` counts its nodes in `count_`.  All operations may be mixed on one tree: the
unique and the other insertions, nodes that are extracted and pushed again, and `Clear`.
The way of the unique insertions that gives a single node its first child returns before
the count is increased.
-/

namespace Mmkv

open BoundedLoops List Option AvlTree AvlHeap

namespace AvlHeap

variable {P K V : Type} [DecidableEq P]

/-! ## The model -/

/-- `Push`, that is `PushWithDuplicate` without a place for the duplicate. -/
def push (cmp : K → K → Ordering) (key : V → K) (fuel : Nat) (p : P) (h : AvlHeap P V) :
    Option (Bool × AvlHeap P V) :=
  match h.root with
  | none => some (true, { h with root := some p }.increaseCount)
  | some root => do
    let n ← h.node root
    let m ← h.node p
    if n.left = none ∧ n.right = none then
      match cmp (key m.value) (key n.value) with
      | .gt => (h.linkSlot (.right root) p (some root)).map fun h => (true, h)
      | .lt => (h.linkSlot (.left root) p (some root)).map fun h => (true, h)
      | .eq => some (false, h)
    else do
      let (slot, parent) ← slotOf cmp key fuel (key m.value) h (.root, none)
      match ← h.readSlot slot with
      | some _ => some (false, h)
      | none => do
        let h ← h.linkSlot slot p parent
        let h ← insertFixup fuel parent h
        return (true, h.increaseCount)

/-- A round of `ReuseAllNodes` with `DropNode` as the callback. -/
def clearRound (s : Option P × AvlHeap P V) : Option (Round (Option P × AvlHeap P V)) := do
  let p ← s.1
  let n ← s.2.node p
  match n.left, n.right with
  | some l, _ => return .next (some l, s.2)
  | none, some r => return .next (some r, s.2)
  | none, none => do
    let h ← s.2.update p fun n =>
      { n with parent := none, left := none, right := none, height := 0 }
    match n.parent with
    | none => return .stop (none, h.dropNode p)
    | some q => do
      let h ← h.unlinkChild p q
      return .next (some q, h.dropNode p)

def clear (fuel : Nat) (h : AvlHeap P V) : Option (AvlHeap P V) := do
  let s ← whileDo (fun s => s.1.isSome) clearRound fuel (h.root, h)
  return { s.2 with root := none, count := 0 }

variable {h h' : AvlHeap P V} {other : P → Option (AvlBaseNode P V)}
  {path : List (Crumb (P × V))} {t left right : AvlTree (P × V)} {e : P × V} {s : Nat}

/-! ## Pushing a node -/

variable {p : P} {n : AvlBaseNode P V}

theorem push_eq (cmp : K → K → Ordering) (key : V → K)
    (hp : h.node p = some n) (fuel : Nat) :
    push cmp key fuel p h =
      linkUnique cmp key fuel (key n.value) p h h (true, ·) fun _ => (false, h) := by
  simp only [push, linkUnique, hp, some_bind, map_eq_bind]
  rfl

/-! ## Clearing -/

section Clear

theorem clear_eq (fuel : Nat) (h : AvlHeap P V) :
    clear fuel h = (reuseAllNodes dropCb fuel h ()).map Prod.fst := by
  have hround : ∀ s : Reuse P V Unit, clearRound (s.node, s.heap) =
      (reuseRound dropCb s).map (Round.map fun s => (s.node, s.heap)) := by
    rintro ⟨node, heap, own, handed⟩
    cases node with
    | none => rfl
    | some p =>
      simp only [clearRound, reuseRound, bind_eq_bind, bind_some]
      cases hn : heap.node p with
      | none => rfl
      | some n =>
        obtain ⟨parent, left, right, height, value⟩ := n
        cases left with
        | some l => rfl
        | none =>
          cases right with
          | some r => rfl
          | none =>
            simp only [update, hn, bind_some, map_some]
            cases parent with
            | none => rfl
            | some q =>
              simp only
              cases unlinkChild p q _ <;> rfl
  have hloop : whileDo (fun s => s.1.isSome) clearRound fuel (h.root, h) = _ :=
    whileDo_map (fun s : Reuse P V Unit => (s.node, s.heap)) (fun _ => rfl) hround fuel
      ⟨h.root, h, (), []⟩
  rw [clear, hloop, reuseAllNodes, reuseLoop]
  cases whileDo (fun s => s.node.isSome) (reuseRound dropCb) fuel ⟨h.root, h, (), []⟩ <;> rfl

/-- `Clear` comes back with an empty tree. -/
theorem View.clear (hv : View other h [] t) :
    ∃ fuel h' other', clear fuel h = some h' ∧ View other' h' [] .nil ∧ h'.count = 0 := by
  obtain ⟨fuel, h', own, hrun, -, hroot, hcount⟩ :=
    hv.reuseAllNodes (takes_dropCb _) () fun a ha => by cases ha
  refine ⟨fuel, h', h'.node, ?_, ⟨trivial, trivial, hroot, nodup_nil, fun _ _ => rfl⟩, hcount⟩
  exact (clear_eq fuel h).trans (congrArg (Option.map Prod.fst) hrun)

end Clear

/-! ## Runs -/

/-- The operations by their kinds, the unique insertions with their value.  `Insert` and
`InsertWithDuplicate` are one. -/
inductive TreeOp (V : Type) where
  | insert (v : V)
  | insertEq
  | push (v : V)
  | pushEq
  | erase
  | extract
  | clear
  deriving Repr, DecidableEq

/-- One operation, with the entries in the tree before and after it.  A node that is pushed
is one that was extracted. -/
inductive Step (cmp : K → K → Ordering) (key : V → K) :
    TreeOp V → AvlHeap P V → List (P × V) → AvlHeap P V → List (P × V) → Prop
  | insert {h h' : AvlHeap P V} {es : List (P × V)} {r : Bool} {p : P} (fuel : Nat) (a : P)
      (v : V) : h.node a = none → insertWithDuplicate cmp key fuel a v h = some (r, p, h') →
      Step cmp key (.insert v) h es h' (if r then (a, v) :: es else es)
  | insertEq {h h' : AvlHeap P V} {es : List (P × V)} (fuel : Nat) (a : P) (v : V) :
      h.node a = none → insertEq cmp key fuel a v h = some h' →
      Step cmp key .insertEq h es h' ((a, v) :: es)
  | push {h h' : AvlHeap P V} {es : List (P × V)} {r : Bool} (fuel : Nat) (p : P)
      (n : AvlBaseNode P V) : h.node p = some n → Unlinks n → p ∉ es.map Prod.fst →
      push cmp key fuel p h = some (r, h') →
      Step cmp key (.push n.value) h es h' (if r then (p, n.value) :: es else es)
  | pushEq {h h' : AvlHeap P V} {es : List (P × V)} (fuel : Nat) (p : P) (n : AvlBaseNode P V) :
      h.node p = some n → Unlinks n → p ∉ es.map Prod.fst → pushEq cmp key fuel p h = some h' →
      Step cmp key .pushEq h es h' ((p, n.value) :: es)
  | eraseKey {h h' : AvlHeap P V} {es : List (P × V)} {r : Bool} {p : Option P} (fuel : Nat)
      (k : K) : findNode cmp key fuel k h = some p → eraseKey cmp key fuel k h = some (r, h') →
      Step cmp key .erase h es h' (removed p es)
  | eraseNode {h h' : AvlHeap P V} {es : List (P × V)} {r : Bool} (fuel : Nat) (p : Option P) :
      (∀ a, p = some a → a ∈ es.map Prod.fst) → eraseNode fuel p h = some (r, h') →
      Step cmp key .erase h es h' (removed p es)
  | extract {h h' : AvlHeap P V} {es : List (P × V)} {p : Option P} (fuel : Nat) (k : K) :
      extract cmp key fuel k h = some (p, h') → Step cmp key .extract h es h' (removed p es)
  | clear {h h' : AvlHeap P V} {es : List (P × V)} (fuel : Nat) :
      clear fuel h = some h' → Step cmp key .clear h es h' []

/-- A unique insertion into a tree with one node, which has another key. -/
def Uncounted (cmp : K → K → Ordering) (key : V → K) (op : TreeOp V) (es : List (P × V)) : Prop :=
  ∃ v e, (op = .insert v ∨ op = .push v) ∧ es = [e] ∧ cmp (key v) (key e.2) ≠ .eq

/-- A run on an empty tree whose count is `c` at first.  The operations that are made are
of some kind. -/
inductive MixedRun (cmp : K → K → Ordering) (key : V → K)
    (ok : TreeOp V → List (P × V) → List (P × V) → Prop) (c : UInt64) :
    AvlHeap P V → List (P × V) → Prop
  | empty (node : P → Option (AvlBaseNode P V)) : MixedRun cmp key ok c ⟨node, none, c⟩ []
  | step {op : TreeOp V} {h h' : AvlHeap P V} {es es' : List (P × V)} :
      MixedRun cmp key ok c h es → Step cmp key op h es h' es' → ok op es es' →
      MixedRun cmp key ok c h' es'

/-! ## What a step does to the count -/

section Fuel

variable {cmp : K → K → Ordering} {key : V → K} {fuel fuel' : Nat} (hle : fuel ≤ fuel')
include hle

theorem extends_push (hp : h.node p = some n) :
    Extends (push cmp key fuel p h) (push cmp key fuel' p h) := by
  rw [push_eq cmp key hp, push_eq cmp key hp]
  exact extends_linkUnique cmp key hle _ _ _ _ _ _

theorem extends_clear (h : AvlHeap P V) : Extends (clear fuel h) (clear fuel' h) :=
  (extends_whileDo hle _).bind fun _ => Extends.refl _

end Fuel

end AvlHeap

theorem AvlTree.perm_linkSlot {V : Type} (n : AvlNode V) (path : List (Crumb V)) :
    (linkSlot n path).toList.Perm (n.value :: (plug path nil).toList) := by
  rw [toList_linkSlot, toList_plug, toList, append_nil]
  exact perm_middle

theorem AvlTree.Pushed.perm {V : Type} {n : AvlNode V} {t t' : AvlTree V}
    (h : Pushed n t (none, t')) : t'.toList.Perm (n.value :: t.toList) := by
  cases h with
  | first => exact .refl _
  | left value s => exact .refl _
  | right value s => exact List.Perm.swap _ _ _
  | linked path => exact perm_linkSlot n path

namespace AvlHeap

variable {P K V : Type} {cmp : K → K → Ordering} {key : V → K}
  {h h' : AvlHeap P V} {es es' : List (P × V)} {e : P × V}
  {other : P → Option (AvlBaseNode P V)} {t : AvlTree (P × V)}

def Stands (h : AvlHeap P V) (es : List (P × V)) : Prop :=
  ∃ other t, View other h [] t ∧ t.toList.Perm es

/-- `size()` is the number of the entries. -/
def Counted (h : AvlHeap P V) (es : List (P × V)) : Prop :=
  h.count = UInt64.ofNat es.length

theorem Counted.cons (hc : Counted h es) (hcount : h'.count = h.count + 1) :
    Counted h' (e :: es) := by
  rw [Counted, hcount, hc, length_cons, UInt64.ofNat_add]
  rfl

theorem Counted.removed (hc : Counted h es) (hcount : h'.count = h.count - 1)
    (hlength : es'.length + 1 = es.length) : Counted h' es' := by
  rw [Counted, hcount, hc, ← hlength, UInt64.ofNat_add]
  exact UInt64.add_sub_cancel _ _

theorem Counted.pushed (hc : Counted h es)
    (hcount : h'.count = if es.length = 1 then h.count else h.count + 1) :
    Counted h' (e :: es) ↔ es.length ≠ 1 := by
  by_cases hone : es.length = 1
  · rw [if_pos hone, hc, hone] at hcount
    rw [Counted, hcount, length_cons, hone]
    decide
  · rw [if_neg hone] at hcount
    exact ⟨fun _ => hone, fun _ => hc.cons hcount⟩

/-- A state after an operation: the entries are in the tree, and a count that was right
before is right after it unless the operation is of the kind that is not counted. -/
def Follows (cmp : K → K → Ordering) (key : V → K) (op : TreeOp V) (h : AvlHeap P V)
    (es : List (P × V)) (h' : AvlHeap P V) (es' : List (P × V)) : Prop :=
  Stands h' es' ∧ (Counted h es → (Counted h' es' ↔ ¬ Uncounted cmp key op es))

variable {op : TreeOp V} {v : V}

theorem Follows.counted (hop : ∀ v, op ≠ .insert v ∧ op ≠ .push v) (hs : Stands h' es')
    (hc : Counted h es → Counted h' es') : Follows cmp key op h es h' es' := by
  refine ⟨hs, fun h => ⟨fun _ => ?_, fun _ => hc h⟩⟩
  rintro ⟨v, -, hunique, -⟩
  exact hunique.elim (hop v).1 (hop v).2

theorem Follows.refused (hop : op = .insert v ∨ op = .push v) (hs : Stands h es)
    (hkey : ∀ e, es = [e] → cmp (key v) (key e.2) = .eq) : Follows cmp key op h es h es := by
  refine ⟨hs, fun hc => ⟨fun _ => ?_, fun _ => hc⟩⟩
  rintro ⟨v', e, hop', hone, hne⟩
  obtain rfl : v' = v := by grind
  exact hne (hkey e hone)

theorem Follows.pushed (hop : op = .insert v ∨ op = .push v) (hs : Stands h' (e :: es))
    (hkey : ∀ e, es = [e] → cmp (key v) (key e.2) ≠ .eq)
    (hcount : h'.count = if es.length = 1 then h.count else h.count + 1) :
    Follows cmp key op h es h' (e :: es) := by
  refine ⟨hs, fun hc => (hc.pushed hcount).trans (not_congr ⟨fun hone => ?_, ?_⟩)⟩
  · obtain ⟨e', he'⟩ := length_eq_one_iff.1 hone
    exact ⟨v, e', hop, he', hkey e' he'⟩
  · rintro ⟨-, e', -, rfl, -⟩
    rfl

/-- In a tree with one node a value is refused if it has the key of the node. -/
theorem pushWithDuplicate_one (cmp : K → K → Ordering) (key : V → K) (n : AvlNode (P × V))
    (hperm : t.toList.Perm es) (e : P × V) (he : es = [e]) :
    (AvlTree.pushWithDuplicate cmp (entryKey key) n t).1 = none ↔
      cmp (key n.value.2) (key e.2) ≠ .eq := by
  rw [he, perm_singleton] at hperm
  match t, hperm with
  | .node .nil e' s .nil, hlist =>
    obtain rfl : e' = e := singleton_inj.1 hlist
    change (match cmp (key n.value.2) (key e'.2) with
      | .gt => _ | .lt => _ | .eq => _ : Option (P × V) × AvlTree (P × V)).1 = none ↔ _
    cases cmp (key n.value.2) (key e'.2) <;> simp
  | .node (.node _ _ _ _) _ _ _, hlist | .node .nil _ _ (.node _ _ _ _), hlist =>
    have hlength := congrArg length hlist
    simp only [AvlTree.toList, length_append, length_cons, length_nil] at hlength
    omega

variable [DecidableEq P]

theorem Stands.insert (hs : Stands h es) {a : P} (ha : h.node a = none) (v : V) :
    ∃ fuel r p h', insertWithDuplicate cmp key fuel a v h = some (r, p, h') ∧
      Follows cmp key (.insert v) h es h' (if r then (a, v) :: es else es) := by
  obtain ⟨other, t, hv, hperm⟩ := hs
  have hinserts := hv.insertWithDuplicate cmp key v ha (Nat.le_refl _)
  have hpushed := pushed_pushWithDuplicate cmp (entryKey key) ⟨(a, v), 1⟩ t
  have hkey := pushWithDuplicate_one cmp key ⟨(a, v), 1⟩ hperm
  change Links _ _ _ _ _ (AvlTree.pushWithDuplicate cmp (entryKey key) ⟨(a, v), 1⟩ t) at hinserts
  generalize AvlTree.pushWithDuplicate cmp (entryKey key) ⟨(a, v), 1⟩ t = r
    at hinserts hpushed hkey
  obtain ⟨dup, t'⟩ := r
  cases dup with
  | none =>
    obtain ⟨h', hrun, hview, hcount⟩ := hinserts
    rw [hperm.length_eq] at hcount
    exact ⟨t.realHeight, true, a, h', hrun,
      .pushed (.inl rfl) ⟨_, t', hview, hpushed.perm.trans (hperm.cons _)⟩
        (fun e he => (hkey e he).1 rfl) hcount⟩
  | some e =>
    refine ⟨t.realHeight, false, e.1, h, hinserts, .refused (.inl rfl) ⟨other, t, hv, hperm⟩ ?_⟩
    intro e he
    simpa using (hkey e he).not

variable {n : AvlBaseNode P V}

theorem Stands.push (hs : Stands h es) (hp : h.node p = some n) (hn : Unlinks n)
    (hfree : p ∉ es.map Prod.fst) :
    ∃ fuel r h', push cmp key fuel p h = some (r, h') ∧
      Follows cmp key (.push n.value) h es h' (if r then (p, n.value) :: es else es) := by
  obtain ⟨other, t, hv, hperm⟩ := hs
  have hfree' : p ∉ addrs t := fun hmem => hfree ((hperm.map Prod.fst).mem_iff.1 hmem)
  have hpushes := hv.linkUnique cmp key (true, ·) (fun _ => (false, h))
    (hp.trans (congrArg some hn.eq_node)) hv hfree' (Nat.le_refl _)
  rw [← push_eq cmp key hp] at hpushes
  have hpushed := pushed_pushWithDuplicate cmp (entryKey key) ⟨(p, n.value), n.height⟩ t
  have hkey := pushWithDuplicate_one cmp key ⟨(p, n.value), n.height⟩ hperm
  generalize AvlTree.pushWithDuplicate cmp (entryKey key) ⟨(p, n.value), n.height⟩ t = r
    at hpushes hpushed hkey
  obtain ⟨dup, t'⟩ := r
  cases dup with
  | none =>
    obtain ⟨h', hrun, hview, hcount⟩ := hpushes
    rw [hperm.length_eq] at hcount
    exact ⟨t.realHeight, true, h', hrun,
      .pushed (.inr rfl) ⟨other, t', hview, hpushed.perm.trans (hperm.cons _)⟩
        (fun e he => (hkey e he).1 rfl) hcount⟩
  | some e =>
    refine ⟨t.realHeight, false, h, hpushes, .refused (.inr rfl) ⟨other, t, hv, hperm⟩ ?_⟩
    intro e he
    simpa using (hkey e he).not

theorem View.follows_pushEq (hv : View other h [] t) (hperm : t.toList.Perm es)
    (hop : ∀ v, op ≠ .insert v ∧ op ≠ .push v) (hp : h.node p = some n) (hn : Unlinks n)
    (hfree : p ∉ addrs t) {fuel : Nat} (hrun : AvlHeap.pushEq cmp key fuel p h = some h') :
    Follows cmp key op h es h' ((p, n.value) :: es) := by
  obtain ⟨hview, hcount⟩ := hv.pushEq_links hp hn hfree hrun
  have hlink := perm_linkSlot ⟨(p, n.value), n.height⟩
    (AvlTree.slotEq cmp (entryKey key) (key n.value) t [])
  rw [plug_slotEq] at hlink
  exact .counted hop ⟨other, _, hview, hlink.trans (hperm.cons _)⟩ fun hc => hc.cons hcount

theorem View.follows_removes (hv : View other h [] t) (hperm : t.toList.Perm es)
    (hop : ∀ v, op ≠ .insert v ∧ op ≠ .push v) {q : Option P} (hremoves : Removes h t q h') :
    Follows cmp key op h es h' (removed q es) := by
  cases q with
  | none =>
    rw [removed_none, show h' = h from hremoves]
    exact .counted hop ⟨other, t, hv, hperm⟩ id
  | some p =>
    obtain ⟨path, left, e, s, right, other', rfl, rfl, hview, hcount⟩ := hremoves
    obtain ⟨herased, hlength⟩ := hv.perm_eraseAt hperm
    exact .counted hop ⟨_, _, hview, herased⟩ fun hc => hc.removed hcount hlength

theorem Stands.clear (cmp : K → K → Ordering) (key : V → K) (hs : Stands h es) :
    ∃ fuel h', clear fuel h = some h' ∧ Follows cmp key .clear h es h' [] := by
  obtain ⟨other, t, hv, -⟩ := hs
  obtain ⟨fuel, h', other', hrun, hview, hcount⟩ := hv.clear
  exact ⟨fuel, h', hrun, .counted (by simp) ⟨other', .nil, hview, .nil⟩
    fun _ => hcount⟩

theorem Step.follows (hstep : Step cmp key op h es h' es') (hs : Stands h es) :
    Follows cmp key op h es h' es' := by
  cases hstep with
  | insert fuel a v ha hrun =>
    obtain ⟨fuel', r', p', h1, hrun', hf⟩ := hs.insert ha v
    obtain ⟨rfl, rfl, rfl⟩ := by
      simpa only [Prod.mk.injEq] using
        Extends.unique (fun hle => extends_insertWithDuplicate cmp key hle a v _) hrun hrun'
    exact hf
  | insertEq fuel a v ha hrun =>
    obtain ⟨other, t, hv, hperm⟩ := hs
    have hfree := hv.not_mem_addrs ha
    exact (hv.createNode hfree v).follows_pushEq hperm (by simp) (Function.update_self _ _ _)
      ⟨rfl, rfl, rfl⟩ hfree hrun
  | push fuel p n hp hn hfree hrun =>
    obtain ⟨fuel', r', h1, hrun', hf⟩ := hs.push hp hn hfree
    obtain ⟨rfl, rfl⟩ := Prod.mk.inj (Extends.unique (fun hle => extends_push hle hp) hrun hrun')
    exact hf
  | pushEq fuel p n hp hn hfree hrun =>
    obtain ⟨other, t, hv, hperm⟩ := hs
    exact hv.follows_pushEq hperm (by simp) hp hn
      (fun hmem => hfree ((hperm.map Prod.fst).mem_iff.1 hmem)) hrun
  | eraseKey fuel k hfind hrun =>
    obtain ⟨other, t, hv, hperm⟩ := hs
    exact hv.follows_removes hperm (by simp) (hv.eraseKey_removes hfind hrun)
  | eraseNode fuel p hp hrun =>
    obtain ⟨other, t, hv, hperm⟩ := hs
    exact hv.follows_removes hperm (by simp) (hv.eraseNode_removes
      (fun a ha => (hperm.map Prod.fst).mem_iff.2 (hp a ha)) hrun)
  | extract fuel k hrun =>
    obtain ⟨other, t, hv, hperm⟩ := hs
    exact hv.follows_removes hperm (by simp) (hv.extract_removes hrun)
  | clear fuel hrun =>
    obtain ⟨fuel', h1, hrun', hf⟩ := hs.clear cmp key
    obtain rfl := Extends.unique (fun hle => extends_clear hle _) hrun hrun'
    exact hf

/-! ## The count of a run -/

variable {ok : TreeOp V → List (P × V) → List (P × V) → Prop} {c : UInt64}

theorem MixedRun.stands (hrun : MixedRun cmp key ok c h es) : Stands h es := by
  induction hrun with
  | empty node =>
    exact ⟨node, .nil, view_empty node c, .nil⟩
  | step _ hstep _ ih => exact (hstep.follows ih).1

structure Answers (cmp : K → K → Ordering) (key : V → K) (h : AvlHeap P V)
    (es : List (P × V)) : Prop where
  insert : ∀ a v, h.node a = none → ∃ fuel, (insertWithDuplicate cmp key fuel a v h).isSome
  insertEq : ∀ a v, h.node a = none → ∃ fuel, (insertEq cmp key fuel a v h).isSome
  push : ∀ p n, h.node p = some n → Unlinks n → p ∉ es.map Prod.fst →
    ∃ fuel, (push cmp key fuel p h).isSome
  pushEq : ∀ p n, h.node p = some n → Unlinks n → p ∉ es.map Prod.fst →
    ∃ fuel, (pushEq cmp key fuel p h).isSome
  eraseKey : ∀ k, ∃ fuel, (eraseKey cmp key fuel k h).isSome
  eraseNode : ∀ a ∈ es.map Prod.fst, ∃ fuel, (eraseNode fuel (some a) h).isSome
  extract : ∀ k, ∃ fuel, (extract cmp key fuel k h).isSome
  clear : ∃ fuel, (clear fuel h).isSome

theorem Stands.answers (hs : Stands h es) : Answers cmp key h es := by
  have ⟨other, t, hv, hperm⟩ := hs
  have hreturns := hv.returns cmp key hperm
  refine ⟨?_, fun a v ha => ⟨_, hreturns.insertEq a v ha⟩, ?_,
    fun p n hp hn hfree => ⟨_, hreturns.pushEq p n hp hn hfree⟩,
    fun k => ⟨_, hreturns.eraseKey k⟩, fun a ha => ⟨_, hreturns.eraseNode a ha⟩, ?_, ?_⟩
  · intro a v ha
    obtain ⟨fuel, r, p, h', hrun, -⟩ := hs.insert ha v
    exact ⟨fuel, isSome_of_eq_some hrun⟩
  · intro p n hp hn hfree
    obtain ⟨fuel, r, h', hrun, -⟩ := hs.push hp hn hfree
    exact ⟨fuel, isSome_of_eq_some hrun⟩
  · intro k
    obtain ⟨q, h', hrun, -⟩ := hv.removes_extract k
    exact ⟨_, isSome_of_eq_some hrun⟩
  · obtain ⟨fuel, h', hrun, -⟩ := hs.clear cmp key
    exact ⟨fuel, isSome_of_eq_some hrun⟩

/-- The count of a run is the number of its entries in every state if and only if it begins
with zero and no unique insertion is made into a tree with one node. -/
theorem size_of_run_iff (cmp : K → K → Ordering) (key : V → K)
    (ok : TreeOp V → List (P × V) → List (P × V) → Prop) (c : UInt64) :
    (∀ h es, MixedRun cmp key ok c h es → Stands h es ∧ Answers cmp key h es) ∧
    ((∀ h es, MixedRun cmp key ok c h es → Counted h es) ↔
      c = 0 ∧ ∀ op h es h' es', MixedRun cmp key ok c h es → Step cmp key op h es h' es' →
        ok op es es' → ¬ Uncounted cmp key op es) := by
  refine ⟨fun h es hrun => ⟨hrun.stands, hrun.stands.answers⟩, ⟨fun hall => ⟨?_, ?_⟩, ?_⟩⟩
  · exact hall _ _ (.empty fun _ => none)
  · intro op h es h' es' hrun hstep hok
    exact ((hstep.follows hrun.stands).2 (hall h es hrun)).1 (hall h' es' (.step hrun hstep hok))
  · rintro ⟨rfl, hnever⟩ h es hrun
    induction hrun with
    | empty node => rfl
    | step hrun hstep hok ih =>
      exact ((hstep.follows hrun.stands).2 ih).2 (hnever _ _ _ _ _ hrun hstep hok)

/-- Two entries with one key, one of them taken out and pushed back. -/
theorem size_of_equal_entries :
    (∀ h es, MixedRun compare id (fun op es _ => ¬ Uncounted compare id op es) 0 h es →
      Counted (P := Nat) (V := Nat) h es) ∧
    ∃ h h' : AvlHeap Nat Nat,
      MixedRun compare id (fun op es _ => ¬ Uncounted compare id op es) 0 h [(2, 7), (1, 7)] ∧
      MixedRun compare id (fun op es _ => ¬ Uncounted compare id op es) 0 h' [(1, 7), (2, 7)] ∧
      h'.count = 2 := by
  refine ⟨((size_of_run_iff compare id _ 0).2).2 ⟨rfl, fun _ _ _ _ _ _ _ hok => hok⟩, ?_⟩
  have hone : MixedRun compare id (fun op es _ => ¬ Uncounted compare id op es) 0 _ [(1, 7)] :=
    .step (.empty fun _ : Nat => none) (.insertEq 0 1 7 rfl rfl) (by simp [Uncounted])
  have htwo : MixedRun compare id (fun op es _ => ¬ Uncounted compare id op es) 0 _
      [(2, 7), (1, 7)] :=
    .step hone (.insertEq 1 2 7 rfl rfl) (by simp [Uncounted])
  have hextracted : MixedRun compare id (fun op es _ => ¬ Uncounted compare id op es) 0 _
      [(2, 7)] :=
    .step htwo (.extract (p := some 1) 2 7 rfl) (by simp [Uncounted])
  have hpushed : MixedRun compare id (fun op es _ => ¬ Uncounted compare id op es) 0 _
      [(1, 7), (2, 7)] :=
    .step hextracted (.pushEq 1 1 ⟨none, none, none, 2, 7⟩ rfl ⟨rfl, rfl, rfl⟩
      (show 1 ∉ ([(2, 7)] : List (Nat × Nat)).map Prod.fst by simp) rfl) (by simp [Uncounted])
  exact ⟨_, _, htwo, hpushed, rfl⟩

/-- Two insertions that count as one. -/
theorem size_of_two_insertions :
    ∃ h : AvlHeap Nat Nat, MixedRun compare id (fun _ _ _ => True) 0 h [(2, 20), (1, 10)] ∧
      h.count = 1 ∧ ¬ Counted h [(2, 20), (1, 10)] := by
  have hone : MixedRun compare id (fun _ _ _ => True) 0 _ [(1, 10)] :=
    .step (.empty fun _ : Nat => none) (.insert (r := true) 0 1 10 rfl rfl) trivial
  have htwo : MixedRun compare id (fun _ _ _ => True) 0 _ [(2, 20), (1, 10)] :=
    .step hone (.insert (r := true) 0 2 20 rfl rfl) trivial
  refine ⟨_, htwo, rfl, fun hbad => ?_⟩
  have hcount : (1 : UInt64) = 2 := hbad
  exact absurd hcount (by decide)

end AvlHeap

end Mmkv
