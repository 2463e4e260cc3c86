import Mmkv.AvlMultimap

/-!
# AVL trees with unique keys

`_InsertWithDuplicate` gives a root without children its first child and leaves the height
of the root as it is.  So a tree of two nodes may store a wrong height, and no other tree
does: the next insertion sets the height on its way up, and a removal leaves one node.
-/

namespace Mmkv

open BoundedLoops AvlTree Nat

/-! ## Stale heights -/

namespace AvlTree

variable {K V : Type} {cmp : K → K → Ordering} {key : V → K} {t : AvlTree V}

/-- Balanced by stored heights, apart from a root that still stores the height of a leaf. -/
def Settled (t : AvlTree V) : Prop :=
  t.Avl ∨ Pair 1 t

theorem Settled.balanced (h : Settled t) : t.Balanced := by
  rcases h with h | h
  · exact ((avl_iff t).1 h).2
  · cases h <;> simp [Balanced, leaf, realHeight]

variable {value : V} {path : List (Crumb V)}

theorem Settled.eraseAt {left right : AvlTree V} {s : Nat}
    (h : Settled (plug path (node left value s right))) :
    (eraseAt (node left value s right) path).Avl := by
  rcases h with h | h
  · exact eraseAt_avl h
  · exact h.eraseAt

theorem Settled.linkSlot (value : V) (h : Settled (plug path nil)) :
    (linkSlot (createNode value) path).Avl := by
  rcases h with h | h
  · exact linkSlot_avl ((avl_plug _ _).1 h).2
  · exact h.linkSlot (by decide) value

theorem Settled.insertWithDuplicate (h : Settled t) {t' : AvlTree V}
    (hinsert : insertWithDuplicate cmp key value t = (none, t')) : Settled t' := by
  have hpushed := pushed_pushWithDuplicate cmp key (createNode value) t
  rw [show pushWithDuplicate cmp key (createNode value) t = (none, t') from hinsert] at hpushed
  have hroot : ∀ {root : V} {s : Nat}, Settled (node nil root s nil) → s = 1 := by
    rintro root s (h | h)
    · exact h.2.2.1
    · cases h
  cases hpushed with
  | first => exact .inl (avl_leaf value)
  | left root s =>
    rw [hroot h]
    exact .inr (.left root value)
  | right root s =>
    rw [hroot h]
    exact .inr (.right root value)
  | linked path => exact .inl (h.linkSlot value)

end AvlTree

namespace AvlHeap

variable {P K V : Type} [DecidableEq P] {cmp : K → K → Ordering} {key : V → K}
  {h h' : AvlHeap P V} {es : List (P × V)}

/-! ## Runs -/

/-- `DropNode` of the node that `Extract` returned. -/
def dropExtracted (r : Option P × AvlHeap P V) : AvlHeap P V :=
  match r.1 with
  | none => r.2
  | some p => r.2.dropNode p

/-- A run with unique keys on a tree that is empty at first, in any memory, with the inserted
and not removed entries. -/
inductive UniqueRun (cmp : K → K → Ordering) (key : V → K) :
    AvlHeap P V → List (P × V) → Prop
  | empty (node : P → Option (AvlBaseNode P V)) (c : UInt64) : UniqueRun cmp key ⟨node, none, c⟩ []
  | insert {h h' : AvlHeap P V} {es : List (P × V)} {r : Bool} {p : P} (fuel : Nat) (a : P)
      (v : V) : UniqueRun cmp key h es → h.node a = none →
      insertWithDuplicate cmp key fuel a v h = some (r, p, h') →
      UniqueRun cmp key h' (if r then (a, v) :: es else es)
  | eraseKey {h h' : AvlHeap P V} {es : List (P × V)} {r : Bool} {p : Option P} (fuel : Nat)
      (k : K) : UniqueRun cmp key h es → findNode cmp key fuel k h = some p →
      eraseKey cmp key fuel k h = some (r, h') → UniqueRun cmp key h' (removed p es)
  | extract {h : AvlHeap P V} {es : List (P × V)} {r : Option P × AvlHeap P V} (fuel : Nat)
      (k : K) : UniqueRun cmp key h es → extract cmp key fuel k h = some r →
      UniqueRun cmp key (dropExtracted r) (removed r.1 es)

structure Keeps (cmp : K → K → Ordering) (key : V → K) (h : AvlHeap P V) (es : List (P × V))
    (other : P → Option (AvlBaseNode P V)) (t : AvlTree (P × V)) : Prop where
  view : View other h [] t
  entries : t.toList.Perm es
  increasing : AvlTree.KeysIncreasing cmp (entryKey key) t.toList
  settled : AvlTree.Settled t

structure Inserted (cmp : K → K → Ordering) (key : V → K) (h : AvlHeap P V) (es : List (P × V))
    (a : P) (v : V) (r : Bool × P × AvlHeap P V) : Prop where
  fails_iff : r.1 = false ↔ ∃ e ∈ es, cmp (key e.2) (key v) = .eq
  present : r.1 = false → r.2.2 = h ∧ ∃ w, (r.2.1, w) ∈ es ∧ cmp (key w) (key v) = .eq
  linked : r.1 = true → r.2.1 = a

namespace Keeps

variable {other : P → Option (AvlBaseNode P V)} {t : AvlTree (P × V)} {fuel : Nat}

theorem insertWithDuplicate [Std.TransCmp cmp] (hk : Keeps cmp key h es other t) {a : P}
    (ha : h.node a = none) (v : V) (hfuel : t.realHeight ≤ fuel) :
    ∃ r p h' other' t', AvlHeap.insertWithDuplicate cmp key fuel a v h = some (r, p, h') ∧
      Keeps cmp key h' (if r then (a, v) :: es else es) other' t' ∧
      Inserted cmp key h es a v (r, p, h') := by
  have hinserts := hk.view.insertWithDuplicate cmp key v ha hfuel
  cases hinsert : AvlTree.insertWithDuplicate cmp (entryKey key) (a, v) t with
  | mk dup t' =>
    rw [hinsert] at hinserts
    cases dup with
    | none =>
      obtain ⟨h', hrun, hview, -⟩ := hinserts
      obtain ⟨hinc, hperm, hne⟩ := pushWithDuplicate_linked hk.increasing hinsert
      refine ⟨true, a, h', _, t', hrun, ⟨hview, hperm.trans (hk.entries.cons _), hinc,
        hk.settled.insertWithDuplicate hinsert⟩, ⟨?_, fun hr => (by cases hr), fun _ => rfl⟩⟩
      refine ⟨fun hr => (by cases hr), ?_⟩
      rintro ⟨e, he, heq⟩
      exact absurd heq (hne e (hk.entries.mem_iff.2 he))
    | some e =>
      obtain ⟨rfl, hmem, heq⟩ := pushWithDuplicate_duplicate hinsert
      have hmem' : e ∈ es := hk.entries.mem_iff.1 hmem
      exact ⟨false, e.1, h, other, t', hinserts, hk, ⟨fun _ => ⟨e, hmem', heq⟩, fun _ => rfl⟩,
        fun _ => ⟨rfl, e.2, hmem', heq⟩, fun hr => by cases hr⟩

section

variable (hk : Keeps cmp key h es other t)

include hk

omit [DecidableEq P] in
theorem search [Std.TransCmp cmp] (k : K) :
    match AvlTree.search cmp (entryKey key) k t [] with
    | (.nil, _) => ∀ e ∈ es, cmp (key e.2) k ≠ .eq
    | (.node _ e _ _, _) => e ∈ es ∧ cmp (key e.2) k = .eq := by
  cases hsearch : AvlTree.search cmp (entryKey key) k t [] with
  | mk found path =>
    cases found with
    | nil =>
      obtain ⟨hlist, hbrackets⟩ := search_miss hk.increasing hsearch
      intro e he
      exact hbrackets.ne_eq e (hlist ▸ hk.entries.mem_iff.2 he)
    | node left e s right =>
      have hlist := toList_of_search_eq hsearch
      refine ⟨hk.entries.mem_iff.1 ?_, ?_⟩
      · rw [hlist]
        simp [AvlTree.toList]
      · have hfound : (AvlTree.search cmp (entryKey key) k t []).1 =
            .node left e s right := by rw [hsearch]
        have hkey : cmp (entryKey key e) k = .eq := search_root hfound
        exact hkey

theorem removes {q : Option P} (hremoves : Removes h t q h') :
    ∃ other' t', Keeps cmp key h' (removed q es) other' t' ∧ ∀ p, q = some p → p ∉ addrs t' := by
  cases q with
  | none =>
    rw [removed_none, show h' = h from hremoves]
    exact ⟨other, t, hk, fun p hp => by cases hp⟩
  | some p =>
    obtain ⟨path, left, e, s, right, other', rfl, rfl, hview, -⟩ := hremoves
    refine ⟨other', _, ⟨hview, (hk.view.perm_eraseAt hk.entries).1,
      hk.increasing.sublist sublist_eraseAt, .inl hk.settled.eraseAt⟩, ?_⟩
    rintro p ⟨⟩
    exact (view_plug.2 hk.view).not_mem_eraseAt

theorem dropExtracted {r : Option P × AvlHeap P V} (hremoves : Removes h t r.1 r.2) :
    ∃ other' t', Keeps cmp key (dropExtracted r) (removed r.1 es) other' t' := by
  obtain ⟨other', t', hk', hout⟩ := hk.removes hremoves
  obtain ⟨q, h'⟩ := r
  cases q with
  | none => exact ⟨other', t', hk'⟩
  | some p =>
    exact ⟨_, t', hk'.view.dropNode (hout p rfl), hk'.entries, hk'.increasing, hk'.settled⟩

end

omit [DecidableEq P] in
/-- `Find` returns the entry of a key if and only if it is present. -/
theorem find [Std.TransCmp cmp] (hk : Keeps cmp key h es other t) (k : K)
    (hfuel : t.realHeight ≤ fuel) :
    ∃ r, AvlHeap.find cmp key fuel k h = some r ∧
      (∀ v, r = some v → ∃ p, (p, v) ∈ es ∧ cmp (key v) k = .eq) ∧
      (r = none → ∀ e ∈ es, cmp (key e.2) k ≠ .eq) := by
  have hsearch := hk.search k
  obtain ⟨hnil, hfind⟩ | ⟨path, left, e, s, right, hfound, -, hv, hfind⟩ :=
    hk.view.found cmp key k hfuel
  · refine ⟨none, ?_, fun v hv => (by cases hv), fun _ => ?_⟩
    · simp only [AvlHeap.find, hfind, some_bind]
    · grind
  · rw [hfound] at hsearch
    refine ⟨some e.2, ?_, ?_, fun hr => by cases hr⟩
    · simp only [AvlHeap.find, hfind, hv.subtree.1, some_bind]
      rfl
    · grind

end Keeps

theorem UniqueRun.keeps [Std.TransCmp cmp] (hrun : UniqueRun cmp key h es) :
    ∃ other t, Keeps cmp key h es other t := by
  induction hrun with
  | empty node c =>
    exact ⟨node, .nil, view_empty node c, .nil, List.Pairwise.nil, .inl trivial⟩
  | insert fuel a v _ ha hstep ih =>
    obtain ⟨other, t, hk⟩ := ih
    obtain ⟨r', p', h1, other', t', hrun, hk', -⟩ := hk.insertWithDuplicate ha v (le_refl _)
    obtain ⟨rfl, rfl, rfl⟩ := by
      simpa only [Prod.mk.injEq] using
        Extends.unique (fun hle => extends_insertWithDuplicate cmp key hle a v _) hstep hrun
    exact ⟨other', t', hk'⟩
  | eraseKey fuel k _ hfind hstep ih =>
    obtain ⟨other, t, hk⟩ := ih
    obtain ⟨other', t', hk', -⟩ := hk.removes (hk.view.eraseKey_removes hfind hstep)
    exact ⟨other', t', hk'⟩
  | extract fuel k _ hstep ih =>
    obtain ⟨other, t, hk⟩ := ih
    exact hk.dropExtracted (hk.view.extract_removes hstep)

/-- The tree in memory has these entries with increasing keys and is balanced, all pointers
agree with it, and insertions and searches return what they should. -/
structure UniqueMap (cmp : K → K → Ordering) (key : V → K) (h : AvlHeap P V)
    (es : List (P × V)) : Prop where
  tree : ∃ other t, View other h [] t ∧ t.toList.Perm es ∧
    AvlTree.KeysIncreasing cmp (entryKey key) t.toList ∧ t.Balanced
  insert : ∀ fuel a v r, h.node a = none → insertWithDuplicate cmp key fuel a v h = some r →
    Inserted cmp key h es a v r
  find : ∀ fuel k r, AvlHeap.find cmp key fuel k h = some r →
    (∀ v, r = some v → ∃ p, (p, v) ∈ es ∧ cmp (key v) k = .eq) ∧
      (r = none → ∀ e ∈ es, cmp (key e.2) k ≠ .eq)
  returns : ∃ fuel, (∀ a v, h.node a = none → (insertWithDuplicate cmp key fuel a v h).isSome) ∧
    ∀ k, (eraseKey cmp key fuel k h).isSome ∧ (extract cmp key fuel k h).isSome ∧
      (AvlHeap.find cmp key fuel k h).isSome

theorem Keeps.returns [Std.TransCmp cmp] {other : P → Option (AvlBaseNode P V)}
    {t : AvlTree (P × V)} (hk : Keeps cmp key h es other t) :
    (∀ a v, h.node a = none → (AvlHeap.insertWithDuplicate cmp key t.realHeight a v h).isSome) ∧
      ∀ k, (AvlHeap.eraseKey cmp key t.realHeight k h).isSome ∧
        (AvlHeap.extract cmp key t.realHeight k h).isSome ∧
        (AvlHeap.find cmp key t.realHeight k h).isSome := by
  constructor
  · intro a v ha
    obtain ⟨r, p, h', other', t', hrun, -, -⟩ := hk.insertWithDuplicate ha v (le_refl _)
    exact Option.isSome_of_eq_some hrun
  · intro k
    have herase := (hk.view.returns cmp key hk.entries).eraseKey k
    obtain ⟨q, h', hrun, -⟩ := @View.removes_extract _ _ _ cmp key _ _ _ _ hk.view k
    obtain ⟨r, hfind, -, -⟩ := hk.find k (le_refl _)
    grind

/-- Every state of a run is a map with unique keys. -/
theorem uniqueMap_of_run [Std.TransCmp cmp] (hrun : UniqueRun cmp key h es) :
    UniqueMap cmp key h es := by
  obtain ⟨other, t, hk⟩ := hrun.keeps
  refine ⟨⟨other, t, hk.view, hk.entries, hk.increasing, hk.settled.balanced⟩, ?_, ?_,
    ⟨t.realHeight, hk.returns⟩⟩
  · intro fuel a v r ha hinsert
    obtain ⟨r', p', h₁, other', t', hrun, -, hinserted⟩ :=
      hk.insertWithDuplicate ha v (le_refl _)
    obtain rfl := Extends.unique
      (fun hle => extends_insertWithDuplicate cmp key hle a v h) hinsert hrun
    exact hinserted
  · intro fuel k r hfind
    obtain ⟨r', hrun, hfound⟩ := hk.find k (le_refl _)
    obtain rfl := Extends.unique (fun hle => extends_find cmp key hle k h) hfind hrun
    exact hfound

/-- Two entries, with the height of a leaf stored in the root. -/
theorem uniqueMap_stale :
    ∃ h : AvlHeap Nat Nat, UniqueRun compare id h [(2, 20), (1, 10)] ∧
      h.heightOf h.root = some 1 ∧ UniqueMap compare id h [(2, 20), (1, 10)] := by
  have hone : UniqueRun compare id _ [(1, 10)] :=
    .insert 0 1 10 (.empty (fun _ : Nat => none) 0) rfl rfl
  have htwo : UniqueRun compare id _ [(2, 20), (1, 10)] := .insert 0 2 20 hone rfl rfl
  exact ⟨_, htwo, rfl, uniqueMap_of_run htwo⟩

end AvlHeap

end Mmkv
