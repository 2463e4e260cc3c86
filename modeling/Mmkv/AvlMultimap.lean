import Mmkv.AvlOperations

/-!
# AVL trees with equal keys

A run of `PushEq`, `InsertEq`, `EraseNode` and `Erase` on a tree that is empty at first.  The
entries that were inserted and not removed are listed beside it.

`AvlTree` has no constructor, so `count_` begins with what is in memory, and a node that is
pushed keeps the height it comes with.  From the count zero on and with heights of new
nodes, a run keeps the tree ordered, balanced and counted, and its height is logarithmic.
-/

namespace Mmkv

open BoundedLoops List Option AvlTree Nat UInt64

/-! ## Order -/

namespace AvlTree

variable {K V : Type} {cmp : K → K → Ordering} {key : V → K}

def KeysSorted (cmp : K → K → Ordering) (key : V → K) (l : List V) : Prop :=
  l.Pairwise fun x y => (cmp (key x) (key y)).isLE

/-- The key belongs at the position, before or behind equal ones. -/
structure Admits (cmp : K → K → Ordering) (key : V → K) (k : K) (path : List (Crumb V)) :
    Prop where
  before_le : ∀ x ∈ before path, (cmp (key x) k).isLE
  le_after : ∀ x ∈ after path, (cmp k (key x)).isLE

variable {t : AvlTree V} {path : List (Crumb V)}

section

variable (hsorted : KeysSorted cmp key t.toList)

include hsorted

theorem admits_slotEq [Std.TransCmp cmp] {k : K}
    (hpath : Admits cmp key k path) : Admits cmp key k (slotEq cmp key k t path) := by
  induction t generalizing path with
  | nil => exact hpath
  | node left value s right ihl ihr =>
    obtain ⟨hl, hr, hcross⟩ := pairwise_append.1 hsorted
    obtain ⟨hvr, hr⟩ := pairwise_cons.1 hr
    rw [slotEq_node]
    split
    next hgo =>
      have hle : (cmp k (key value)).isLE := by
        rw [← Std.OrientedCmp.isGE_iff_isLE]
        cases hcmp : cmp (key value) k with
        | gt => rfl
        | eq => rfl
        | lt => rw [hcmp] at hgo; cases hgo
      refine ihl hl ⟨hpath.before_le, ?_⟩
      intro x hx
      rcases mem_append.1 hx with hx | hx
      · rcases mem_cons.1 hx with rfl | hx
        · exact hle
        · exact Std.TransCmp.isLE_trans hle (hvr x hx)
      · exact hpath.le_after x hx
    next hgo =>
      have hle : (cmp (key value) k).isLE := by
        cases hcmp : cmp (key value) k with
        | gt => rw [hcmp] at hgo; exact absurd rfl hgo
        | eq => rfl
        | lt => rfl
      refine ihr hr ⟨?_, hpath.le_after⟩
      intro x hx
      simp only [before, mem_append, mem_singleton] at hx
      rcases hx with (hx | hx) | rfl
      · exact hpath.before_le x hx
      · exact Std.TransCmp.isLE_trans (hcross x hx value mem_cons_self) hle
      · exact hle

theorem keysSorted_insertEq [Std.TransCmp cmp] (value : V) :
    KeysSorted cmp key (t.insertEq cmp key value).toList ∧
      (t.insertEq cmp key value).toList.Perm (value :: t.toList) := by
  have hadmits : Admits cmp key (key value) (slotEq cmp key (key value) t []) :=
    admits_slotEq hsorted ⟨by simp [before], by simp [after]⟩
  have hplug := congrArg toList (plug_slotEq cmp key (key value) t [])
  rw [toList_plug] at hplug
  replace hplug : t.toList = before (slotEq cmp key (key value) t []) ++
      after (slotEq cmp key (key value) t []) := by
    simpa [toList, plug] using hplug.symm
  rw [insertEq, toList_linkSlot, hplug]
  rw [hplug] at hsorted
  refine ⟨?_, perm_middle⟩
  obtain ⟨hbefore, hafter, hcross⟩ := pairwise_append.1 hsorted
  refine pairwise_append.2 ⟨hbefore, pairwise_cons.2 ⟨hadmits.le_after, hafter⟩, ?_⟩
  intro x hx y hy
  rcases mem_cons.1 hy with rfl | hy
  · exact hadmits.before_le x hx
  · exact hcross x hx y hy

theorem search_eq_nil [Std.TransCmp cmp] {k : K}
    (hnil : (search cmp key k t path).1 = nil) : ∀ x ∈ t.toList, cmp (key x) k ≠ .eq := by
  induction t generalizing path with
  | nil => simp [toList]
  | node left value s right ihl ihr =>
    obtain ⟨hl, hr, hcross⟩ := pairwise_append.1 hsorted
    obtain ⟨hvr, hr⟩ := pairwise_cons.1 hr
    unfold search at hnil
    intro x hx heq
    cases hcmp : cmp (key value) k with
    | gt =>
      rw [hcmp] at hnil
      rcases mem_append.1 hx with hx | hx
      · exact ihl hl hnil x hx heq
      · have hle : (cmp (key value) (key x)).isLE := by grind
        rw [Std.TransCmp.congr_right heq, hcmp] at hle
        cases hle
    | lt =>
      rw [hcmp] at hnil
      rcases mem_append.1 hx with hx | hx
      · have hle := hcross x hx value mem_cons_self
        rw [Std.TransCmp.congr_left heq, ← Std.OrientedCmp.isGE_iff_isLE, hcmp] at hle
        cases hle
      · rcases mem_cons.1 hx with rfl | hx
        · rw [hcmp] at heq
          cases heq
        · exact ihr hr hnil x hx heq
    | eq =>
      rw [hcmp] at hnil
      cases hnil

end

theorem exists_path {x : V} (hx : x ∈ t.toList) :
    ∃ path left s right, plug path (node left x s right) = t := by
  induction t with
  | nil => cases hx
  | node left value s right ihl ihr =>
    rcases mem_append.1 hx with hx | hx
    · obtain ⟨path, l, k, r, hplug⟩ := ihl hx
      exact ⟨path ++ [.inLeft value s right], l, k, r, by rw [plug_append, hplug]; rfl⟩
    · rcases mem_cons.1 hx with rfl | hx
      · exact ⟨[], left, s, right, rfl⟩
      · obtain ⟨path, l, k, r, hplug⟩ := ihr hx
        exact ⟨path ++ [.inRight left value s], l, k, r, by rw [plug_append, hplug]; rfl⟩

theorem sublist_eraseAt {left right : AvlTree V} {x : V} {s : Nat} :
    (eraseAt (node left x s right) path).toList.Sublist
      (plug path (node left x s right)).toList := by
  rw [toList_eraseAt, toList_plug]
  have hnode : (left.toList ++ right.toList).Sublist (node left x s right).toList :=
    (sublist_cons_self x _).append_left _
  grind

end AvlTree

namespace AvlHeap

variable {P K V : Type} {cmp : K → K → Ordering} {key : V → K} {ok : AvlBaseNode P V → Prop}
  {c : UInt64} {h h' : AvlHeap P V} {es : List (P × V)} {e : P × V}
  {other : P → Option (AvlBaseNode P V)} {t : AvlTree (P × V)}

/-- A node without links, as `Extract` returns it. -/
structure Unlinks (n : AvlBaseNode P V) : Prop where
  parent : n.parent = none
  left : n.left = none
  right : n.right = none

theorem Unlinks.eq_node {n : AvlBaseNode P V} (hn : Unlinks n) :
    n = ⟨none, none, none, n.height, n.value⟩ := by
  cases n
  cases hn.parent
  cases hn.left
  cases hn.right
  rfl

theorem View.of_single (hv : View other h [] t) (hlist : t.toList.Perm [e]) :
    ∃ s, t = .node .nil e s .nil ∧ h.root = some e.1 ∧
      h.node e.1 = some ⟨none, none, none, s, e.2⟩ := by
  have hlist := perm_singleton.1 hlist
  cases t with
  | nil => cases hlist
  | node left x s right =>
    have hlength := congrArg List.length hlist
    simp only [AvlTree.toList, length_append, length_cons, length_nil] at hlength
    obtain rfl : left = .nil := toList_eq_nil.1 (length_eq_zero_iff.1 (by omega))
    obtain rfl : right = .nil := toList_eq_nil.1 (length_eq_zero_iff.1 (by omega))
    obtain rfl : x = e := head_eq_of_cons_eq hlist
    exact ⟨s, rfl, hv.root, hv.subtree.1⟩

structure Represents (cmp : K → K → Ordering) (key : V → K) (c : UInt64) (h : AvlHeap P V)
    (es : List (P × V)) (other : P → Option (AvlBaseNode P V)) (t : AvlTree (P × V)) : Prop where
  view : View other h [] t
  entries : t.toList.Perm es
  sorted : AvlTree.KeysSorted cmp (entryKey key) t.toList
  avl : t.Avl
  count : h.count = c + UInt64.ofNat es.length

variable {fuel : Nat} {p : P} {q : Option P} {k : K}

theorem Represents.mem_addrs (hr : Represents cmp key c h es other t) :
    p ∈ addrs t ↔ p ∈ es.map Prod.fst :=
  (hr.entries.map Prod.fst).mem_iff

theorem Represents.found [Std.TransCmp cmp] (hr : Represents cmp key c h es other t)
    (hfind : AvlHeap.findNode cmp key fuel k h = some q) :
    (∀ a, q = some a → ∃ v, (a, v) ∈ es ∧ cmp (key v) k = .eq) ∧
      (q = none → ∀ e ∈ es, cmp (key e.2) k ≠ .eq) := by
  obtain rfl := Extends.unique (fun hle => extends_findNode cmp key hle k h) hfind
    (hr.view.findNode cmp key k (le_refl _))
  constructor
  · intro a ha
    cases hfound : (AvlTree.search cmp (entryKey key) k t []).1 with
    | nil =>
      rw [hfound] at ha
      cases ha
    | node left e s right =>
      rw [hfound] at ha
      cases ha
      have hkey : cmp (entryKey key e) k = .eq := search_root hfound
      refine ⟨e.2, hr.entries.mem_iff.1 ?_, hkey⟩
      have hlist := toList_plug (AvlTree.search cmp (entryKey key) k t []).2
        (AvlTree.search cmp (entryKey key) k t []).1
      rw [plug_search, hfound, AvlTree.plug] at hlist
      rw [hlist]
      simp [AvlTree.toList]
  · intro hnone e he
    exact search_eq_nil hr.sorted (ptr_eq_none.1 hnone) e (hr.entries.mem_iff.2 he)

theorem view_empty (node : P → Option (AvlBaseNode P V)) (c : UInt64) :
    View node ⟨node, none, c⟩ [] .nil :=
  ⟨trivial, trivial, rfl, nodup_nil, fun _ _ => rfl⟩

variable [DecidableEq P] {n : AvlBaseNode P V} {r : Bool}

/-! ## Removals -/

def removed (p : Option P) (es : List (P × V)) : List (P × V) :=
  es.filter fun e => some e.1 ≠ p

theorem removed_none : removed none es = es := filter_eq_self.2 (by simp)

theorem removed_perm {l l1 l2 : List (P × V)} (hnodup : (l.map Prod.fst).Nodup) (hperm : l.Perm es)
    (hlist : l = l1 ++ e :: l2) : (l1 ++ l2).Perm (removed (some e.1) es) := by
  rw [hlist, map_append, map_cons, nodup_append] at hnodup
  obtain ⟨-, hnodup, hcross⟩ := hnodup
  have hne1 : ∀ x ∈ l1, x.1 ≠ e.1 := fun x hx =>
    hcross x.1 (mem_map_of_mem hx) e.1 mem_cons_self
  have hne2 : ∀ x ∈ l2, x.1 ≠ e.1 := fun x hx heq =>
    (nodup_cons.1 hnodup).1 (heq ▸ mem_map_of_mem hx)
  have hfilter : removed (some e.1) l = l1 ++ l2 := by
    rw [hlist, removed, filter_append, filter_cons_of_neg (by simp),
      filter_eq_self.2, filter_eq_self.2]
    · simpa using hne2
    · simpa using hne1
  rw [← hfilter]
  exact hperm.filter _

theorem View.perm_eraseAt {path : List (Crumb (P × V))} {left right : AvlTree (P × V)} {s : Nat}
    (hv : View other h [] (AvlTree.plug path (.node left e s right)))
    (hperm : (AvlTree.plug path (.node left e s right)).toList.Perm es) :
    (AvlTree.eraseAt (.node left e s right) path).toList.Perm (removed (some e.1) es) ∧
      (removed (some e.1) es).length + 1 = es.length := by
  have hlist : (AvlTree.plug path (.node left e s right)).toList =
      (AvlTree.before path ++ left.toList) ++ e :: (right.toList ++ AvlTree.after path) := by
    simp [toList_plug, AvlTree.toList]
  have herased : (AvlTree.eraseAt (.node left e s right) path).toList =
      (AvlTree.before path ++ left.toList) ++ (right.toList ++ AvlTree.after path) := by
    simp [toList_eraseAt]
  have hremoved := removed_perm hv.nodup_subtree hperm hlist
  refine ⟨herased ▸ hremoved, ?_⟩
  rw [← hremoved.length_eq, ← hperm.length_eq, hlist]
  grind

/-- A node of the tree has been taken out, or none. -/
def Removes (h : AvlHeap P V) (t : AvlTree (P × V)) : Option P → AvlHeap P V → Prop
  | none, h' => h' = h
  | some p, h' => ∃ path left e s right other', e.1 = p ∧
      AvlTree.plug path (.node left e s right) = t ∧
      View other' h' [] (AvlTree.eraseAt (.node left e s right) path) ∧ h'.count = h.count - 1

section

variable (hv : View other h [] t)

include hv

theorem View.removes_eraseRoutine (hp : p ∈ addrs t)
    (hfuel : t.realHeight ≤ fuel) :
    ∃ h', AvlHeap.eraseRoutine fuel p h = some h' ∧ Removes h t (some p) h' := by
  obtain ⟨e, he, rfl⟩ := mem_map.1 hp
  obtain ⟨path, left, s, right, rfl⟩ := exists_path he
  obtain ⟨h', hrun, hview, hcount⟩ := (view_plug.2 hv).eraseRoutine hfuel
  exact ⟨h', hrun, path, left, e, s, right, _, rfl, rfl, hview, hcount⟩

theorem View.removes_eraseNode (hq : ∀ a, q = some a → a ∈ addrs t) :
    ∃ r h', AvlHeap.eraseNode t.realHeight q h = some (r, h') ∧ Removes h t q h' := by
  cases q with
  | none => exact ⟨false, h, rfl, rfl⟩
  | some p =>
    obtain ⟨h', hrun, hremoves⟩ := hv.removes_eraseRoutine (hq p rfl) (le_refl _)
    refine ⟨true, h', ?_, hremoves⟩
    simp only [AvlHeap.eraseNode, hrun, some_bind]
    rfl

theorem View.removes_eraseKey (k : K) :
    ∃ q r h', AvlHeap.findNode cmp key t.realHeight k h = some q ∧
      AvlHeap.eraseKey cmp key t.realHeight k h = some (r, h') ∧ Removes h t q h' := by
  obtain ⟨hfind, hrun⟩ | ⟨path, left, e, s, right, h', hplug, hfind, hrun, hview, hcount⟩ :=
    hv.eraseKey cmp key k (le_refl _)
  · exact ⟨none, false, h, hfind, hrun, rfl⟩
  · exact ⟨_, true, h', hfind, hrun, path, left, e, s, right, _, rfl, hplug, hview, hcount⟩

theorem View.removes_extract (k : K) :
    ∃ q h', AvlHeap.extract cmp key t.realHeight k h = some (q, h') ∧ Removes h t q h' := by
  obtain hrun | ⟨path, left, e, s, right, h', hplug, hrun, hview, hcount⟩ :=
    hv.extract cmp key k (le_refl _)
  · exact ⟨none, h, hrun, rfl⟩
  · exact ⟨_, h', hrun, path, left, e, s, right, _, rfl, hplug, hview, hcount⟩

theorem View.eraseNode_removes (hq : ∀ a, q = some a → a ∈ addrs t)
    (hrun : AvlHeap.eraseNode fuel q h = some (r, h')) : Removes h t q h' := by
  obtain ⟨r', h1, hrun', hremoves⟩ := hv.removes_eraseNode hq
  obtain ⟨-, rfl⟩ := Prod.mk.inj
    (Extends.unique (fun hle => extends_eraseNode hle q h) hrun hrun')
  exact hremoves

theorem View.eraseKey_removes (hfind : AvlHeap.findNode cmp key fuel k h = some q)
    (hrun : AvlHeap.eraseKey cmp key fuel k h = some (r, h')) : Removes h t q h' := by
  obtain ⟨q', r', h1, hfind', hrun', hremoves⟩ := @removes_eraseKey _ _ _ cmp key _ _ _ _ hv k
  obtain rfl := Extends.unique (fun hle => extends_findNode cmp key hle k h) hfind hfind'
  obtain ⟨-, rfl⟩ := Prod.mk.inj
    (Extends.unique (fun hle => extends_eraseKey cmp key hle k h) hrun hrun')
  exact hremoves

theorem View.extract_removes
    (hrun : AvlHeap.extract cmp key fuel k h = some (q, h')) : Removes h t q h' := by
  obtain ⟨q', h1, hrun', hremoves⟩ := @removes_extract _ _ _ cmp key _ _ _ _ hv k
  obtain ⟨rfl, rfl⟩ := Prod.mk.inj
    (Extends.unique (fun hle => extends_extract cmp key hle k h) hrun hrun')
  exact hremoves

/-- `PushEq` of a node without links, however many rounds its loops are given. -/
theorem View.pushEq_links (hp : h.node p = some n) (hn : Unlinks n)
    (hfree : p ∉ addrs t) (hrun : AvlHeap.pushEq cmp key fuel p h = some h') :
    View other h' [] (AvlTree.linkSlot ⟨(p, n.value), n.height⟩
        (AvlTree.slotEq cmp (entryKey key) (key n.value) t [])) ∧
      h'.count = h.count + 1 := by
  rw [hn.eq_node] at hp
  obtain ⟨h1, hrun', hview⟩ := hv.pushEq cmp key hp hfree (le_refl _)
  obtain rfl := Extends.unique (fun hle => extends_pushEq cmp key hle p h) hrun hrun'
  exact hview

end

/-- Every operation on the state comes back within this bound on the rounds of each loop. -/
structure Returns (cmp : K → K → Ordering) (key : V → K) (h : AvlHeap P V) (es : List (P × V))
    (fuel : Nat) : Prop where
  insertEq : ∀ a v, h.node a = none → (insertEq cmp key fuel a v h).isSome
  pushEq : ∀ p n, h.node p = some n → Unlinks n → p ∉ es.map Prod.fst →
    (pushEq cmp key fuel p h).isSome
  eraseNode : ∀ a ∈ es.map Prod.fst, (eraseNode fuel (some a) h).isSome
  eraseKey : ∀ k, (eraseKey cmp key fuel k h).isSome
  findNode : ∀ k, (findNode cmp key fuel k h).isSome
  lowerBound : ∀ k, (lowerBound cmp key fuel k h).isSome
  upperBound : ∀ k, (upperBound cmp key fuel k h).isSome

theorem View.returns (cmp : K → K → Ordering) (key : V → K) (hv : View other h [] t)
    (hperm : t.toList.Perm es) : Returns cmp key h es t.realHeight := by
  have hmem : ∀ {a}, a ∈ addrs t ↔ a ∈ es.map Prod.fst := (hperm.map Prod.fst).mem_iff
  have hbound : ∀ test k, (AvlHeap.bound cmp key test t.realHeight k h).isSome := by
    intro test k
    rw [hv.bound cmp key test k (le_refl _)]
    rfl
  refine ⟨?_, ?_, ?_, ?_, ?_, hbound _, hbound _⟩
  · intro a v ha
    have hfree := hv.not_mem_addrs ha
    obtain ⟨h', hrun, -⟩ := (hv.createNode hfree v).pushEq cmp key (Function.update_self _ _ _)
      hfree (le_refl _)
    exact isSome_of_eq_some hrun
  · intro p n hp hn hfree
    rw [hn.eq_node] at hp
    obtain ⟨h', hrun, -⟩ := hv.pushEq cmp key hp (mt hmem.1 hfree) (le_refl _)
    exact isSome_of_eq_some hrun
  · intro a ha
    obtain ⟨r, h', hrun, -⟩ := hv.removes_eraseNode
      (fun b hb => Option.some.inj hb ▸ hmem.2 ha : ∀ b, some a = some b → b ∈ addrs t)
    exact isSome_of_eq_some hrun
  · intro k
    obtain ⟨q, r, h', -, hrun, -⟩ := hv.removes_eraseKey k
    exact isSome_of_eq_some hrun
  · intro k
    exact isSome_of_eq_some (hv.findNode cmp key k (le_refl _))

/-! ## Runs -/

/-- A run on a tree that is empty at first, in any memory, with the inserted and not removed
entries.  The nodes that are pushed are of some kind. -/
inductive Run (cmp : K → K → Ordering) (key : V → K) (ok : AvlBaseNode P V → Prop) (c : UInt64) :
    AvlHeap P V → List (P × V) → Prop
  | empty (node : P → Option (AvlBaseNode P V)) : Run cmp key ok c ⟨node, none, c⟩ []
  | insertEq {h h' : AvlHeap P V} {es : List (P × V)} (fuel : Nat) (a : P) (v : V) :
      Run cmp key ok c h es → h.node a = none → insertEq cmp key fuel a v h = some h' →
      Run cmp key ok c h' ((a, v) :: es)
  | pushEq {h h' : AvlHeap P V} {es : List (P × V)} (fuel : Nat) (p : P) (n : AvlBaseNode P V) :
      Run cmp key ok c h es → h.node p = some n → Unlinks n → ok n → p ∉ es.map Prod.fst →
      pushEq cmp key fuel p h = some h' → Run cmp key ok c h' ((p, n.value) :: es)
  | eraseNode {h h' : AvlHeap P V} {es : List (P × V)} {r : Bool} (fuel : Nat) (p : Option P) :
      Run cmp key ok c h es → (∀ a, p = some a → a ∈ es.map Prod.fst) →
      eraseNode fuel p h = some (r, h') → Run cmp key ok c h' (removed p es)
  | eraseKey {h h' : AvlHeap P V} {es : List (P × V)} {r : Bool} {p : Option P} (fuel : Nat)
      (k : K) : Run cmp key ok c h es → findNode cmp key fuel k h = some p →
      eraseKey cmp key fuel k h = some (r, h') → Run cmp key ok c h' (removed p es)

namespace Represents

section

variable (hr : Represents cmp key c h es other t)

include hr

theorem pushEq [Std.TransCmp cmp]
    (hp : h.node p = some n) (hn : Unlinks n) (hheight : n.height = 1) (hfree : p ∉ addrs t)
    (hrun : AvlHeap.pushEq cmp key fuel p h = some h') :
    ∃ t', Represents cmp key c h' ((p, n.value) :: es) other t' := by
  obtain ⟨hview, hcount⟩ := hr.view.pushEq_links hp hn hfree hrun
  rw [hheight] at hview
  obtain ⟨hsorted, hperm⟩ := keysSorted_insertEq hr.sorted (p, n.value)
  refine ⟨_, hview, hperm.trans (hr.entries.cons _), hsorted,
    hr.avl.insertEq cmp (entryKey key) (p, n.value), ?_⟩
  rw [hcount, hr.count, length_cons, UInt64.ofNat_add, UInt64.add_assoc]
  rfl

theorem removes (hremoves : Removes h t q h') :
    ∃ other' t', Represents cmp key c h' (removed q es) other' t' := by
  cases q with
  | none =>
    rw [removed_none, show h' = h from hremoves]
    exact ⟨other, t, hr⟩
  | some p =>
    obtain ⟨path, left, e, s, right, other', rfl, rfl, hview, hcount⟩ := hremoves
    obtain ⟨hperm, hlength⟩ := hr.view.perm_eraseAt hr.entries
    refine ⟨other', _, hview, hperm, hr.sorted.sublist sublist_eraseAt, eraseAt_avl hr.avl, ?_⟩
    rw [hcount, hr.count, ← hlength, UInt64.ofNat_add, ← UInt64.add_assoc]
    exact UInt64.add_sub_cancel _ _

theorem returns : Returns cmp key h es t.height := by
  rw [hr.avl.height_eq]
  exact hr.view.returns cmp key hr.entries

end

end Represents

theorem Run.represents [Std.TransCmp cmp] (hok : ∀ n, Unlinks n → ok n → n.height = 1)
    (hrun : Run cmp key ok c h es) : ∃ other t, Represents cmp key c h es other t := by
  induction hrun with
  | empty node =>
    exact ⟨node, .nil, view_empty node c, .nil, List.Pairwise.nil, trivial,
      (UInt64.add_zero c).symm⟩
  | insertEq fuel a v _ ha hstep ih =>
    obtain ⟨other, t, hr⟩ := ih
    have hfree := hr.view.not_mem_addrs ha
    have hcreated : Represents cmp key c (AvlHeap.createNode _ a v) _ _ t :=
      ⟨hr.view.createNode hfree v, hr.entries, hr.sorted, hr.avl, hr.count⟩
    exact ⟨_, hcreated.pushEq (Function.update_self _ _ _) ⟨rfl, rfl, rfl⟩ rfl hfree hstep⟩
  | pushEq fuel p n _ hp hlinks hn hfree hstep ih =>
    obtain ⟨other, t, hr⟩ := ih
    exact ⟨other, hr.pushEq hp hlinks (hok n hlinks hn) (mt hr.mem_addrs.1 hfree) hstep⟩
  | eraseNode fuel p _ hmem hstep ih =>
    obtain ⟨other, t, hr⟩ := ih
    exact hr.removes (hr.view.eraseNode_removes (fun a ha => hr.mem_addrs.2 (hmem a ha)) hstep)
  | eraseKey fuel k _ hfind hstep ih =>
    obtain ⟨other, t, hr⟩ := ih
    exact hr.removes (hr.view.eraseKey_removes hfind hstep)

/-! ## The multimap -/

/-- The tree in memory has these entries in the order of their keys, all heights are right,
the tree is balanced, and all pointers agree with it. -/
structure Multimap (cmp : K → K → Ordering) (key : V → K) (h : AvlHeap P V)
    (es : List (P × V)) : Prop where
  tree : ∃ other t, View other h [] t ∧ t.toList.Perm es ∧
    AvlTree.KeysSorted cmp (entryKey key) t.toList ∧ t.Exact ∧ t.Balanced
  count : h.count = UInt64.ofNat es.length
  found : ∀ fuel k p, findNode cmp key fuel k h = some p →
    (∀ a, p = some a → ∃ v, (a, v) ∈ es ∧ cmp (key v) k = .eq) ∧
      (p = none → ∀ e ∈ es, cmp (key e.2) k ≠ .eq)
  returns : ∃ fuel, Returns cmp key h es fuel

theorem Represents.multimap [Std.TransCmp cmp] (hr : Represents cmp key 0 h es other t) :
    Multimap cmp key h es where
  tree := ⟨other, t, hr.view, hr.entries, hr.sorted, (avl_iff t).1 hr.avl⟩
  count := by rw [hr.count, UInt64.zero_add]
  found _ _ _ hfind := hr.found hfind
  returns := ⟨t.height, hr.returns⟩

theorem Run.single (n : AvlBaseNode P V) (p : P) (hlinks : Unlinks n) (hn : ok n) :
    Run cmp key ok c ⟨fun _ => some n, some p, c + 1⟩ [(p, n.value)] :=
  .pushEq 0 p n (.empty fun _ => some n) rfl hlinks hn not_mem_nil rfl

/-- A run of the tree is a multimap in every state if and only if the count begins with zero
and every node that is pushed has the height of a new node. -/
theorem multimap_of_run [Inhabited P] [Std.TransCmp cmp] (ok : AvlBaseNode P V → Prop)
    (c : UInt64) :
    (∀ h es, Run cmp key ok c h es → Multimap cmp key h es) ↔
      c = 0 ∧ ∀ n : AvlBaseNode P V, Unlinks n → ok n → n.height = 1 := by
  constructor
  · intro hall
    refine ⟨(hall _ _ (.empty fun _ => none)).count, fun n hlinks hn => ?_⟩
    obtain ⟨⟨other, t, hv, hlist, -, hexact, -⟩, -, -, -⟩ :=
      hall _ _ (Run.single n default hlinks hn)
    obtain ⟨s, rfl, -, hnode⟩ := hv.of_single hlist
    have hs : n.height = s := congrArg AvlBaseNode.height (Option.some.inj hnode)
    rw [hs, hexact.2.2]
    rfl
  · rintro ⟨rfl, hok⟩ h es hrun
    obtain ⟨other, t, hr⟩ := hrun.represents hok
    exact hr.multimap

/-- With fresh nodes every run is a multimap, and there is such a run. -/
theorem multimap_of_run_new :
    (∀ h es, Run compare id (fun n => n.height = 1) 0 h es →
      Multimap (P := Nat) (K := Nat) compare id h es) ∧
      ∃ h, Run (P := Nat) (K := Nat) compare id (fun n => n.height = 1) 0 h [(5, 3)] :=
  ⟨(multimap_of_run _ 0).2 ⟨rfl, fun _ _ hn => hn⟩,
    ⟨_, .insertEq 0 5 3 (.empty fun _ => none) rfl rfl⟩⟩

def threeExtracted : Option (AvlHeap Nat Nat) := do
  let h ← insertEq compare id 0 1 1 ⟨fun _ => none, none, 0⟩
  let h ← insertEq compare id 1 2 2 h
  let h ← insertEq compare id 2 3 3 h
  let (_, h) ← extract compare id 2 2 h
  return h

theorem threeExtracted_node :
    ∃ h, threeExtracted = some h ∧ h.node 2 = some ⟨none, none, none, 2, 2⟩ :=
  ⟨_, rfl, rfl⟩

theorem Run.extracted {h : AvlHeap Nat Nat} (hnode : h.node 2 = some ⟨none, none, none, 2, 2⟩) :
    Run compare id (h.node 2 = some ·) 0 ⟨h.node, some 2, 1⟩ [(2, 2)] :=
  .pushEq 0 2 ⟨none, none, none, 2, 2⟩ (.empty h.node) hnode ⟨rfl, rfl, rfl⟩ hnode
    not_mem_nil rfl

/-- An empty tree whose count was not set, and an extracted node with the height of its former
subtree that is pushed into an empty tree. -/
theorem multimap_garbage :
    (∃ h, Run (P := Nat) (K := Nat) (V := Nat) compare id (fun _ => False) 7 h [] ∧
      ¬ Multimap compare id h []) ∧
    ∃ h h', threeExtracted = some h ∧ Run compare id (h.node 2 = some ·) 0 h' [(2, 2)] ∧
      ¬ Multimap compare id h' [(2, 2)] := by
  refine ⟨⟨_, .empty fun _ => none, fun hbad => ?_⟩, ?_⟩
  · have hcount : (7 : UInt64) = 0 := hbad.count
    exact absurd hcount (by decide)
  · obtain ⟨h, hextracted, hnode⟩ := threeExtracted_node
    refine ⟨h, _, hextracted, Run.extracted hnode, fun hbad => ?_⟩
    obtain ⟨other, t, hv, hlist, -, hexact, -⟩ := hbad.tree
    obtain ⟨s, rfl, -, hnode'⟩ := hv.of_single hlist
    have hs : 2 = s := congrArg AvlBaseNode.height (Option.some.inj (hnode.symm.trans hnode'))
    rw [hexact.2.2] at hs
    cases hs

/-! ## Logarithmic height -/

/-- The stored height of the root bounds the number of entries from below and the rounds of
all loops from above. -/
def Logarithmic (cmp : K → K → Ordering) (key : V → K) (h : AvlHeap P V) (es : List (P × V)) :
    Prop :=
  ∃ s, h.heightOf h.root = some s ∧ Nat.fib (s + 2) ≤ es.length + 1 ∧ Returns cmp key h es s

/-- The heights of a run are logarithmic if and only if every node that is pushed has the
height of a new node. -/
theorem logarithmic_of_run [Inhabited P] [Std.TransCmp cmp] (ok : AvlBaseNode P V → Prop)
    (c : UInt64) :
    (∀ h es, Run cmp key ok c h es → Logarithmic cmp key h es) ↔
      ∀ n : AvlBaseNode P V, Unlinks n → ok n → n.height = 1 := by
  constructor
  · intro hall n hlinks hn
    obtain ⟨s, hheight, hfib, hreturns⟩ := hall _ _ (Run.single n default hlinks hn)
    obtain rfl : n.height = s := Option.some.inj hheight
    have hlow : n.height ≠ 0 := by
      intro hzero
      have hfind := hreturns.findNode (key n.value)
      rw [hzero] at hfind
      cases hfind
    have hhigh : n.height < 2 := by
      by_contra hge
      have hmono : Nat.fib 4 ≤ Nat.fib (n.height + 2) := fib_mono (by omega)
      have hfew : Nat.fib (n.height + 2) ≤ 2 := hfib
      exact absurd (hmono.trans hfew) (by decide)
    omega
  · intro hok h es hrun
    obtain ⟨other, t, hr⟩ := hrun.represents hok
    refine ⟨t.height, ?_, ?_, hr.returns⟩
    · rw [hr.view.root]
      exact hr.view.subtree.heightOf
    · rw [← hr.entries.length_eq]
      exact hr.avl.fib_le

/-- With fresh nodes every run stays balanced, and there is such a run. -/
theorem logarithmic_of_run_new :
    (∀ h es, Run compare id (fun n => n.height = 1) 7 h es →
      Logarithmic (P := Nat) (K := Nat) compare id h es) ∧
      ∃ h, Run (P := Nat) (K := Nat) compare id (fun n => n.height = 1) 7 h [(5, 3)] :=
  ⟨(logarithmic_of_run _ 7).2 fun _ _ hn => hn, ⟨_, .insertEq 0 5 3 (.empty fun _ => none) rfl rfl⟩⟩

/-- One entry, in an extracted node of height two. -/
theorem logarithmic_extracted :
    ∃ h h', threeExtracted = some h ∧ Run compare id (h.node 2 = some ·) 0 h' [(2, 2)] ∧
      ¬ Logarithmic compare id h' [(2, 2)] := by
  obtain ⟨h, hextracted, hnode⟩ := threeExtracted_node
  refine ⟨h, _, hextracted, Run.extracted hnode, ?_⟩
  rintro ⟨s, hheight, hfib, -⟩
  simp only [heightOf, hnode, map_some, Option.some.injEq] at hheight
  subst hheight
  exact absurd hfib (by decide)

end AvlHeap

end Mmkv
