import Mmkv.AvlTree
import Mmkv.RehashTables
import Mmkv.KeyedStore
import Mathlib.Order.Compare

/-!
# The hash table with AVL buckets

`TreeHashTable` is the two-table machine over AVL trees.  A key that is not yet
in the second table is always inserted into the first one as long as its bucket
there was not moved; this is the `settled` variant of the invariant, and it is
what makes `Push` safe, which links the node before it looks at the second
table.

Keys are compared by a total preorder that may identify different keys, and
the hash function need not respect it.  The specifications of this module say
what holds in that generality.  For a comparator that identifies equal keys
only, every run answers like the abstract store.
-/

namespace Mmkv

open AvlTree Tables

open scoped List

namespace TreeHashTable

variable {K V : Type} (cmp : K → K → Ordering) (key : V → K) (hash : K → Nat)

/-- `Reset` shrinks the array but leaves the mask as it was. -/
def kind : BucketKind V (AvlTree V) (AvlNode V) where
  empty := .nil
  values := toList
  value := AvlNode.value
  nodes := reuseAllNodes
  put := fun n b => (push cmp key n b).2
  reset := fun t => { t with table := [] }

def new : Tables (AvlTree V) :=
  Tables.new (kind cmp key)

def entries (t : Tables (AvlTree V)) : List V :=
  t.entries (kind cmp key)

def rehash (t : Tables (AvlTree V)) : Tables (AvlTree V) :=
  t.rehash (kind cmp key)

def incrementalRehash (t : Tables (AvlTree V)) : Tables (AvlTree V) :=
  t.incrementalRehash (kind cmp key) (hash ∘ key)

def bucket1 (h : Nat) (t : Tables (AvlTree V)) : AvlTree V :=
  t.table1.bucket .nil (t.table1.bucketIndex h)

def bucket2 (h : Nat) (t : Tables (AvlTree V)) : AvlTree V :=
  t.table2.bucket .nil (t.table2.bucketIndex h)

/-- `PUSH_AND_SET_DUPLICATE` on the bucket of the first table. -/
def pushTable1 (n : AvlNode V) (t : Tables (AvlTree V)) : Bool × V × Tables (AvlTree V) :=
  let h := hash (key n.value)
  match (bucket1 h t).pushWithDuplicate cmp key n with
  | (some duplicate, _) => (false, duplicate, t)
  | (none, b) => (true, n.value, t.addTo1 h b)

@[inherit_doc pushTable1]
def pushTable2 (n : AvlNode V) (t : Tables (AvlTree V)) : Bool × V × Tables (AvlTree V) :=
  let h := hash (key n.value)
  match (bucket2 h t).pushWithDuplicate cmp key n with
  | (some duplicate, _) => (false, duplicate, t)
  | (none, b) => (true, n.value, t.addTo2 h b)

def insertWithDuplicate (elem : V) (t : Tables (AvlTree V)) : Bool × V × Tables (AvlTree V) :=
  let t := incrementalRehash cmp key hash (rehash cmp key t)
  let h := hash (key elem)
  match t.rehashMoveBucketIndex with
  | none => pushTable1 cmp key hash (createNode elem) t
  | some i =>
    if t.table1.bucketIndex h < i then
      pushTable2 cmp key hash (createNode elem) t
    else
      match (bucket2 h t).find cmp key (key elem) with
      | some duplicate => (false, duplicate, t)
      | none => pushTable1 cmp key hash (createNode elem) t

def insert (elem : V) (t : Tables (AvlTree V)) : Option V × Tables (AvlTree V) :=
  match insertWithDuplicate cmp key hash elem t with
  | (true, entry, t) => (some entry, t)
  | (false, _, t) => (none, t)

/-- The last branch links the node into the first table before it asks the
second one. -/
def pushWithDuplicate (n : AvlNode V) (t : Tables (AvlTree V)) : Bool × V × Tables (AvlTree V) :=
  let t := incrementalRehash cmp key hash (rehash cmp key t)
  let h := hash (key n.value)
  let i1 := t.table1.bucketIndex h
  match t.rehashMoveBucketIndex with
  | none => pushTable1 cmp key hash n t
  | some i =>
    if i1 < i then pushTable2 cmp key hash n t
    else
      match (bucket1 h t).pushWithDuplicate cmp key n with
      | (some duplicate, _) => (false, duplicate, t)
      | (none, b) =>
        match (bucket2 h t).find cmp key (key n.value) with
        | some duplicate =>
          (false, duplicate, { t with table1 := t.table1.setBucket i1 b })
        | none => (true, n.value, t.addTo1 h b)

def push (n : AvlNode V) (t : Tables (AvlTree V)) : Bool × Tables (AvlTree V) :=
  let (success, _, t) := pushWithDuplicate cmp key hash n t
  (success, t)

def find (k : K) : Tables (AvlTree V) → Option V × Tables (AvlTree V) :=
  Tables.find (kind cmp key) (hash ∘ key) (fun b => (b.find cmp key k, b)) (hash k)

def extract (k : K) : Tables (AvlTree V) → Option (AvlNode V) × Tables (AvlTree V) :=
  Tables.extract (kind cmp key) (hash ∘ key) (AvlTree.extract cmp key k) (hash k)

def erase (k : K) (t : Tables (AvlTree V)) : Nat × Tables (AvlTree V) :=
  match extract cmp key hash k t with
  | (some _, t) => (1, t)
  | (none, t) => (0, t)

/-- `EraseNode` on the node and bucket that `FindNode` just returned for the
key: the node goes, `used` stays. -/
def eraseNode (k : K) (t : Tables (AvlTree V)) : Tables (AvlTree V) :=
  (t.visit (kind cmp key) (AvlTree.extract cmp key k) (hash k)).2

/-- A write through the pointer that `Find` just returned for the key. -/
def modify (k : K) (f : V → V) (t : Tables (AvlTree V)) : Tables (AvlTree V) :=
  (t.visit (kind cmp key) (fun b => (b.find cmp key k, b.modify cmp key k f)) (hash k)).2

def clear (t : Tables (AvlTree V)) : Tables (AvlTree V) :=
  t.clear (kind cmp key)

/-! ## The invariant -/

def BucketOk (b : AvlTree V) : Prop :=
  AvlTree.KeysIncreasing cmp key b.toList

def Apart (a b : V) : Prop :=
  cmp (key a) (key b) ≠ .eq

def WF (t : Tables (AvlTree V)) : Prop :=
  t.WF (kind cmp key) (hash ∘ key) (BucketOk cmp key) (Apart cmp key) True

variable {cmp key hash}

/-! ## Where a key can be -/

/-- No stored key with the hash of `k` compares equal to it. -/
def Fresh (cmp : K → K → Ordering) (key : V → K) (hash : K → Nat) (k : K)
    (t : Tables (AvlTree V)) : Prop :=
  ∀ v ∈ entries cmp key t, hash (key v) = hash k → cmp (key v) k ≠ .eq

/-- The value may go into the first table: its bucket there was not moved yet
and the second table has no equal key in the bucket it would move to. -/
def FitsTable1 (cmp : K → K → Ordering) (key : V → K) (hash : K → Nat) (elem : V)
    (t : Tables (AvlTree V)) : Prop :=
  ∀ i, t.rehashMoveBucketIndex = some i →
    i ≤ t.table1.bucketIndex (hash (key elem)) ∧
      ∀ b ∈ t.table2.values (kind cmp key),
        hash (key elem) % t.table2.size = hash (key b) % t.table2.size →
          Apart cmp key elem b

variable {t : Tables (AvlTree V)} {i h : Nat} {v : V}

section SecondTable

variable (hwf : WF cmp key hash t) (hindex : t.rehashMoveBucketIndex = some i)
include hwf hindex

theorem index1_eq_of_index2_eq {h' : Nat} (hmod : h % t.table2.size = h' % t.table2.size) :
    t.table1.bucketIndex h = t.table1.bucketIndex h' := by
  rw [hwf.table1.bucketIndex_eq, hwf.table1.bucketIndex_eq]
  rw [(hwf.moving i hindex).size2] at hmod
  exact mod_eq_of_mod_double hmod

theorem not_mem_table1_of_moved (hlt : t.table1.bucketIndex (hash (key v)) < i) :
    v ∉ t.table1.values (kind cmp key) := by
  intro hv
  have hle : i ≤ hash (key v) % t.table1.size := (hwf.moving i hindex).moved v hv
  rw [hwf.table1.bucketIndex_eq] at hlt
  omega

theorem not_mem_table2_of_unmoved (hle : i ≤ t.table1.bucketIndex (hash (key v))) :
    v ∉ t.table2.values (kind cmp key) := by
  intro hv
  have hlt : hash (key v) % t.table1.size < i := (hwf.moving i hindex).settled_lt trivial v hv
  rw [hwf.table1.bucketIndex_eq] at hle
  omega

theorem fitsTable1_of_unmoved {elem : V} (hle : i ≤ t.table1.bucketIndex (hash (key elem))) :
    FitsTable1 cmp key hash elem t := by
  intro j hj
  have hij : j = i := Option.some.inj (hj.symm.trans hindex)
  subst hij
  constructor
  · exact hle
  · intro b hb hmod
    have hsame := index1_eq_of_index2_eq hwf hindex hmod
    exact absurd hb (not_mem_table2_of_unmoved hwf hindex (by rwa [← hsame]))

theorem find_bucket2_of_unmoved {k : K} (hle : i ≤ t.table1.bucketIndex (hash k)) :
    (bucket2 (hash k) t).find cmp key k = none := by
  cases hfind : (bucket2 (hash k) t).find cmp key k with
  | none => rfl
  | some v =>
    have hplaced := (((hwf.moving i hindex).table2.bucketOf (hash k)).2 v).mp (find_eq_some hfind).1
    have hsame := index1_eq_of_index2_eq hwf hindex hplaced.2
    exact absurd hplaced.1 (not_mem_table2_of_unmoved hwf hindex (hsame ▸ hle))

end SecondTable

/-! ## The laws of AVL buckets -/

variable [Std.TransCmp cmp] {n : AvlNode V} {b : AvlTree V}

theorem push_of_apart (hok : BucketOk cmp key b)
    (hapart : ∀ x ∈ b.toList, Apart cmp key x n.value) :
    ∃ b', b.pushWithDuplicate cmp key n = (none, b') ∧ BucketOk cmp key b' ∧
      b'.toList ~ (n.value :: b.toList) := by
  cases hpush : b.pushWithDuplicate cmp key n with
  | mk duplicate b' =>
    cases duplicate with
    | none =>
      have hlinked := pushWithDuplicate_linked hok hpush
      exact ⟨b', rfl, hlinked.1, hlinked.2.1⟩
    | some v =>
      have hdup := pushWithDuplicate_duplicate hpush
      exact absurd hdup.2.2 (hapart v hdup.2.1)

theorem kind_lawful : (kind cmp key).Lawful (BucketOk cmp key) (Apart cmp key) where
  apart_symm := fun hapart heq => hapart (Std.OrientedCmp.eq_symm heq)
  empty_ok := List.Pairwise.nil
  values_empty := rfl
  pairwise_apart := by
    intro b hok
    apply List.Pairwise.imp _ hok
    intro x y hlt
    simp [Apart, hlt]
  nodes_perm := reuseAllNodes_perm
  put_ok := by
    intro n b hok hapart
    have hpush := push_of_apart hok hapart
    rcases hpush with ⟨b', hb', hok', hperm⟩
    have hput : (kind cmp key).put n b = b' := by
      simp [kind, AvlTree.push, hb']
    rw [hput]
    exact ⟨hok', hperm⟩
  reset_table := fun t => rfl

theorem findOp_lawful (k : K) :
    Tables.LawfulOp (kind cmp key) (hash ∘ key) (BucketOk cmp key) (Apart cmp key)
      (fun b => (b.find cmp key k, b)) (fun v => cmp (key v) k = .eq) id
      (fun v => [v]) where
  miss := by
    intro b b' hok hop
    have hfind : b.find cmp key k = none := congrArg Prod.fst hop
    exact find_eq_none hok hfind
  found := by
    intro b b' v hok hop
    have hfind : b.find cmp key k = some v := congrArg Prod.fst hop
    have hb : b = b' := congrArg Prod.snd hop
    have hspec := find_eq_some hfind
    rcases List.append_of_mem hspec.1 with ⟨l1, l2, hsplit⟩
    have hperm : b.toList ~ (v :: (l1 ++ l2)) := by
      rw [hsplit]
      exact List.perm_middle
    subst hb
    exact ⟨hok, hspec.2, l1 ++ l2, hperm, hperm⟩
  stay_le := by simp
  stay_hash := by simp
  stay_apart := by grind

theorem extractOp_lawful (k : K) :
    Tables.LawfulOp (kind cmp key) (hash ∘ key) (BucketOk cmp key) (Apart cmp key)
      (AvlTree.extract cmp key k) (fun v => cmp (key v) k = .eq)
      AvlNode.value (fun _ => []) where
  miss := by
    intro b b' hok hop
    exact (extract_eq_none hok hop).2
  found := by
    intro b b' n hok hop
    have hspec := extract_eq_some hok hop
    exact ⟨hspec.1, hspec.2.2, b'.toList, hspec.2.1, .refl _⟩
  stay_le := by simp
  stay_hash := by simp
  stay_apart := by simp

variable {f : V → V}

theorem modifyOp_lawful (hkey : ∀ v, key (f v) = key v) (k : K) :
    Tables.LawfulOp (kind cmp key) (hash ∘ key) (BucketOk cmp key) (Apart cmp key)
      (fun b => (b.find cmp key k, b.modify cmp key k f))
      (fun v => cmp (key v) k = .eq) id (fun v => [f v]) where
  miss := by
    intro b b' hok hop
    have hfind : b.find cmp key k = none := congrArg Prod.fst hop
    exact find_eq_none hok hfind
  found := by
    intro b b' v hok hop
    have hfind : b.find cmp key k = some v := congrArg Prod.fst hop
    have hb : b.modify cmp key k f = b' := congrArg Prod.snd hop
    have hmodify := modify_of_find hok hfind (hkey v)
    rw [hb] at hmodify
    exact ⟨hmodify.1, (find_eq_some hfind).2, hmodify.2⟩
  stay_le := by simp
  stay_hash := by simp [hkey]
  stay_apart := by
    intro v w hw u hapart
    rw [List.mem_singleton.mp hw, Apart, hkey]
    exact hapart

/-! ## Specifications -/

theorem wf_new : WF cmp key hash (new cmp key) := Tables.wf_new kind_lawful

theorem entries_new : entries cmp key (new cmp key) = [] := Tables.entries_new kind_lawful

omit [Std.TransCmp cmp] in
theorem erase_eq (k : K) (t : Tables (AvlTree V)) : erase cmp key hash k t =
      ((extract cmp key hash k t).1.toList.length, (extract cmp key hash k t).2) := by
  unfold erase
  cases extract cmp key hash k t with
  | mk found t' => cases found <;> rfl

variable {k : K} {v' : V} {t' : Tables (AvlTree V)} (hwf : WF cmp key hash t)

include hwf

theorem incrementalRehash_spec :
    WF cmp key hash (incrementalRehash cmp key hash t) ∧
      Tables.SameEntries (kind cmp key) t (incrementalRehash cmp key hash t) :=
  Tables.WF.incrementalRehash_spec kind_lawful hwf

theorem rehash_spec : WF cmp key hash (rehash cmp key t) ∧
      Tables.SameEntries (kind cmp key) t (rehash cmp key t) :=
  Tables.WF.rehash_spec kind_lawful hwf

theorem find_outcome (k : K) :
    Tables.FindOutcome (kind cmp key) (WF cmp key hash)
      (fun v => hash (key v) = hash k → cmp (key v) k ≠ .eq) (fun v => cmp (key v) k = .eq) t
      (find cmp key hash k t) :=
  Tables.find_outcome kind_lawful hwf (hash k) (findOp_lawful k)

theorem extract_outcome (k : K) :
    Tables.ExtractOutcome (kind cmp key) (WF cmp key hash)
      (fun v => hash (key v) = hash k → cmp (key v) k ≠ .eq) (fun v => cmp (key v) k = .eq)
      AvlNode.value t (extract cmp key hash k t) :=
  Tables.extract_outcome kind_lawful hwf (hash k) (extractOp_lawful k)

theorem eraseNode_spec : WF cmp key hash (eraseNode cmp key hash k t) ∧
      (eraseNode cmp key hash k t).size = t.size ∧
      ((∃ v, cmp (key v) k = .eq ∧
          (entries cmp key t) ~ (v :: entries cmp key (eraseNode cmp key hash k t))) ∨
        eraseNode cmp key hash k t = t ∧ Fresh cmp key hash k t) := by
  have hout := visit_outcome kind_lawful (extractOp_lawful k) hwf (hash k)
  unfold eraseNode
  generalize t.visit (kind cmp key) (AvlTree.extract cmp key k) (hash k) = r at hout ⊢
  cases hout with
  | missed fresh => exact ⟨hwf, rfl, Or.inr ⟨rfl, fresh⟩⟩
  | found wf' hits visited =>
    obtain ⟨rest, hold, hnew⟩ := visited.replaced
    exact ⟨wf', visited.size, Or.inl ⟨_, hits, hold.trans (hnew.symm.cons _)⟩⟩

theorem modify_spec (hkey : ∀ v, key (f v) = key v) :
    WF cmp key hash (modify cmp key hash k f t) ∧
      (modify cmp key hash k f t).size = t.size ∧
      ((∃ v rest, cmp (key v) k = .eq ∧ (entries cmp key t) ~ (v :: rest) ∧
          (entries cmp key (modify cmp key hash k f t)) ~ (f v :: rest)) ∨
        modify cmp key hash k f t = t ∧ Fresh cmp key hash k t) := by
  have hout := visit_outcome kind_lawful (modifyOp_lawful hkey k) hwf (hash k)
  unfold modify
  generalize t.visit (kind cmp key) _ (hash k) = r at hout ⊢
  cases hout with
  | missed fresh => exact ⟨hwf, rfl, Or.inr ⟨rfl, fresh⟩⟩
  | found wf' hits visited =>
    obtain ⟨rest, hold, hnew⟩ := visited.replaced
    exact ⟨wf', visited.size, Or.inl ⟨_, rest, hits, hold, hnew⟩⟩

section Visit

variable {X : Type} {op : AvlTree V → Option X × AvlTree V} {res : X → V} {stay : X → List V}
  (hop : Tables.LawfulOp (kind cmp key) (hash ∘ key) (BucketOk cmp key) (Apart cmp key) op
    (fun w => cmp (key w) (key v) = .eq) res stay) (hv : v ∈ entries cmp key t)

include hop hv

/-- A stored key is not taken for another one that compares equal. -/
theorem visit_exact {x : X}
    (hvisit : t.visit (kind cmp key) op (hash (key v)) = (some x, t')) : res x = v := by
  have hstored := visit_stored kind_lawful hop hwf hv Std.ReflCmp.compare_self hvisit
  refine hstored.resolve_right fun hapart => ?_
  have hout := visit_outcome kind_lawful hop hwf (hash (key v))
  rw [hvisit] at hout
  cases hout with
  | found wf' hits visited => exact hapart hits

/-- A visit with a stored key comes to its entry. -/
theorem visited_stored :
    ∃ x rest, res x = v ∧ (entries cmp key t) ~ (v :: rest) ∧
      (entries cmp key (t.visit (kind cmp key) op (hash (key v))).2) ~ (stay x ++ rest) := by
  have hout := visit_outcome kind_lawful hop hwf (hash (key v))
  generalize hvisit : t.visit (kind cmp key) op (hash (key v)) = r at hout
  cases hout with
  | missed fresh => exact absurd Std.ReflCmp.compare_self (fresh v hv rfl)
  | found wf' hits visited =>
    obtain rfl := visit_exact hwf hop hv hvisit
    obtain ⟨rest, hold, hnew⟩ := visited.replaced
    exact ⟨_, rest, rfl, hold, hnew⟩

end Visit

theorem modify_stored (hkey : ∀ v, key (f v) = key v)
    (hv : v ∈ entries cmp key t) :
    ∃ rest, (entries cmp key t) ~ (v :: rest) ∧
      (entries cmp key (modify cmp key hash (key v) f t)) ~ (f v :: rest) := by
  obtain ⟨_, rest, rfl, hold, hnew⟩ := visited_stored hwf (modifyOp_lawful hkey (key v)) hv
  exact ⟨rest, hold, hnew⟩

theorem find_exact (hv : v' ∈ entries cmp key t)
    (hfind : find cmp key hash (key v') t = (some v, t')) : v = v' := by
  have hstep := incrementalRehash_spec hwf
  exact visit_exact hstep.1 (findOp_lawful (key v')) (hstep.2.entries_perm.mem_iff.mpr hv) hfind

theorem eraseNode_stored (hv : v ∈ entries cmp key t) :
    (entries cmp key t) ~ (v :: entries cmp key (eraseNode cmp key hash (key v) t)) := by
  obtain ⟨_, rest, -, hold, hnew⟩ := visited_stored hwf (extractOp_lawful (key v)) hv
  exact hold.trans (hnew.symm.cons _)

theorem extract_exact (hv : v ∈ entries cmp key t)
    (hextract : extract cmp key hash (key v) t = (some n, t')) : n.value = v := by
  have hstep := incrementalRehash_spec hwf
  unfold extract Tables.extract at hextract
  split at hextract
  next x t1 hvisit =>
    cases hextract
    exact visit_exact hstep.1 (extractOp_lawful (key v)) (hstep.2.entries_perm.mem_iff.mpr hv)
      hvisit
  next => cases hextract

theorem clear_spec : WF cmp key hash (clear cmp key t) ∧ entries cmp key (clear cmp key t) = [] ∧
      (clear cmp key t).size = 0 :=
  Tables.WF.clear_spec kind_lawful hwf

/-! ## Insertion -/

def InsertOutcome (cmp : K → K → Ordering) (key : V → K) (hash : K → Nat) :
    V → Tables (AvlTree V) → Bool × V × Tables (AvlTree V) → Prop :=
  Tables.InsertOutcome (kind cmp key) (WF cmp key hash)
    (fun v elem => hash (key v) = hash (key elem) → cmp (key v) (key elem) ≠ .eq)
    (fun v elem => cmp (key v) (key elem) = .eq)

theorem pushTable1_outcome (hfits : FitsTable1 cmp key hash n.value t) :
    InsertOutcome cmp key hash n.value t (pushTable1 cmp key hash n t) := by
  have hbucket := hwf.table1.bucketOf (hash (key n.value))
  unfold pushTable1
  dsimp only
  split
  next v b hpush =>
    have hdup := pushWithDuplicate_duplicate hpush
    have hv := ((hbucket.2 v).mp hdup.2.1).1
    exact .refused hwf (.refl t) (List.mem_append_left _ hv) hdup.2.2
  next b hpush =>
    have hlinked := pushWithDuplicate_linked hbucket.1 hpush
    have hadd := Tables.WF.addTo1 hwf hlinked.1 hlinked.2.1 hfits
    refine .inserted hadd.1 hadd.2 fun v hv hhash => ?_
    rcases List.mem_append.mp hv with hv | hv
    · exact hlinked.2.2 v ((hbucket.2 v).mpr ⟨hv, by simp [hhash]⟩)
    · cases hindex : t.rehashMoveBucketIndex with
      | none =>
        rw [hwf.idle hindex] at hv
        cases hv
      | some i => exact kind_lawful.apart_symm ((hfits i hindex).2 v hv (by rw [hhash]))

theorem pushTable2_outcome {i : Nat} (hindex : t.rehashMoveBucketIndex = some i)
    (hlt : t.table1.bucketIndex (hash (key n.value)) < i) :
    InsertOutcome cmp key hash n.value t (pushTable2 cmp key hash n t) := by
  have hbucket := (hwf.moving i hindex).table2.bucketOf (hash (key n.value))
  unfold pushTable2
  dsimp only
  split
  next v b hpush =>
    have hdup := pushWithDuplicate_duplicate hpush
    have hv := ((hbucket.2 v).mp hdup.2.1).1
    exact .refused hwf (.refl t) (List.mem_append_right _ hv) hdup.2.2
  next b hpush =>
    have hlinked := pushWithDuplicate_linked hbucket.1 hpush
    have hadd := Tables.WF.addTo2 hwf hindex hlinked.1 hlinked.2.1
      (fun a ha hmod => absurd ha (not_mem_table1_of_moved hwf hindex
        ((index1_eq_of_index2_eq hwf hindex hmod).trans_lt hlt))) fun _ => hlt
    refine .inserted hadd.1 hadd.2 fun v hv hhash => ?_
    rcases List.mem_append.mp hv with hv | hv
    · exact absurd hv (not_mem_table1_of_moved hwf hindex (by rwa [hhash]))
    · exact hlinked.2.2 v ((hbucket.2 v).mpr ⟨hv, by simp [hhash]⟩)

theorem rehashed_spec :
    WF cmp key hash (incrementalRehash cmp key hash (rehash cmp key t)) ∧
      Tables.SameEntries (kind cmp key) t (incrementalRehash cmp key hash (rehash cmp key t)) := by
  have hrehash := rehash_spec hwf
  have hstep := incrementalRehash_spec hrehash.1
  exact ⟨hstep.1, hrehash.2.trans hstep.2⟩

theorem insertWithDuplicate_eq (elem : V) :
    insertWithDuplicate cmp key hash elem t =
      pushWithDuplicate cmp key hash (createNode elem) t := by
  have hrehashed := rehashed_spec hwf
  unfold insertWithDuplicate pushWithDuplicate
  simp only [show (createNode elem).value = elem from rfl]
  generalize incrementalRehash cmp key hash (rehash cmp key t) = t' at hrehashed ⊢
  split
  · rfl
  · rename_i i hindex
    by_cases hlt : t'.table1.bucketIndex (hash (key elem)) < i
    · rw [if_pos hlt, if_pos hlt]
    · rw [if_neg hlt, if_neg hlt, find_bucket2_of_unmoved hrehashed.1 hindex (Nat.le_of_not_lt hlt)]
      rfl

theorem pushWithDuplicate_outcome (n : AvlNode V) :
    InsertOutcome cmp key hash n.value t (pushWithDuplicate cmp key hash n t) := by
  have hrehashed := rehashed_spec hwf
  unfold pushWithDuplicate
  dsimp only
  generalize incrementalRehash cmp key hash (rehash cmp key t) = t' at hrehashed ⊢
  apply Tables.InsertOutcome.of_same hrehashed.2
  split
  · rename_i hindex
    apply pushTable1_outcome hrehashed.1
    intro i hi
    simp [hindex] at hi
  · rename_i i hindex
    by_cases hlt : t'.table1.bucketIndex (hash (key n.value)) < i
    · rw [if_pos hlt]
      exact pushTable2_outcome hrehashed.1 hindex hlt
    · rw [if_neg hlt]
      have hle : i ≤ t'.table1.bucketIndex (hash (key n.value)) := by omega
      rw [find_bucket2_of_unmoved hrehashed.1 hindex hle]
      apply pushTable1_outcome hrehashed.1
      exact fitsTable1_of_unmoved hrehashed.1 hindex hle

theorem insertWithDuplicate_outcome (elem : V) :
    InsertOutcome cmp key hash elem t (insertWithDuplicate cmp key hash elem t) := by
  rw [insertWithDuplicate_eq hwf]
  exact pushWithDuplicate_outcome hwf (createNode elem)

/-! ## Every operation keeps the invariant -/

theorem erase_wf (k : K) : WF cmp key hash (erase cmp key hash k t).2 := by
  rw [erase_eq]
  exact (extract_outcome hwf k).wf

theorem push_wf (n : AvlNode V) : WF cmp key hash (push cmp key hash n t).2 :=
  (pushWithDuplicate_outcome hwf n).wf

end TreeHashTable

end Mmkv
