import Mathlib.Data.Nat.Log
import Mmkv.AvlBalance
import Mmkv.TreeHashTableRuns

/-!
# The balance of bucket trees

A bucket tree is not only filled by `Insert`.  A rehash step hands its nodes over with the
height zero, and a node that was extracted comes back with the height it had.  `Push` keeps
these heights, and so a later push may be rebalanced at the wrong place or not at all.

A push is safe if the bucket has at most one entry, or if the node has the height of a new
one and the heights in the bucket are right, apart from the root of a pair.  A run of safe
pushes keeps every bucket balanced.
-/

namespace Mmkv

open List Nat

/-! ## Trees -/

namespace AvlTree

variable {K V : Type} (cmp : K → K → Ordering) (key : V → K)

/-- The comparisons of `FindNode`. -/
def comparisons (k : K) : AvlTree V → Nat
  | nil => 0
  | node left value _ right =>
    match cmp (key value) k with
    | .gt => comparisons k left + 1
    | .lt => comparisons k right + 1
    | .eq => 1

theorem comparisons_le (k : K) (t : AvlTree V) : comparisons cmp key k t ≤ t.realHeight := by
  induction t with
  | nil => exact le_refl _
  | node left value s right ihl ihr =>
    unfold comparisons realHeight
    grind

theorem two_pow_le_fib (n : Nat) : 2 ^ (n / 2) ≤ Nat.fib (n + 2) := by
  induction n using Nat.twoStepInduction with
  | zero => decide
  | one => decide
  | more n ih _ =>
    have hpow : 2 ^ ((n + 2) / 2) = 2 * 2 ^ (n / 2) := by
      rw [add_div_right _ (by decide), pow_succ, mul_comm]
    have hadd : Nat.fib (n + 2 + 2) = Nat.fib (n + 2) + Nat.fib (n + 2 + 1) := fib_add_two
    grind

variable {cmp key} {t : AvlTree V}

theorem Balanced.comparisons_le (h : t.Balanced) (k : K) :
    comparisons cmp key k t ≤ 2 * Nat.log 2 (t.toList.length + 1) + 1 := by
  have hheight := AvlTree.comparisons_le cmp key k t
  have hpow : 2 ^ (t.realHeight / 2) ≤ t.toList.length + 1 := (two_pow_le_fib _).trans h.fib_le
  have hlog : t.realHeight / 2 ≤ Nat.log 2 (t.toList.length + 1) :=
    le_log_of_pow_le (by decide) hpow
  omega

def Sturdy (t : AvlTree V) : Prop :=
  t.Avl ∨ t.toList.length ≤ 2

theorem realHeight_le_length (t : AvlTree V) : t.realHeight ≤ t.toList.length := by
  induction t with
  | nil => exact le_refl _
  | node left value s right ihl ihr =>
    simp only [realHeight, toList, length_append, length_cons]
    omega

theorem balanced_of_length_le (h : t.toList.length ≤ 2) : t.Balanced := by
  induction t with
  | nil => trivial
  | node left value s right ihl ihr =>
    simp only [toList, length_append, length_cons] at h
    have hl := left.realHeight_le_length
    have hr := right.realHeight_le_length
    exact ⟨ihl (by omega), ihr (by omega), by omega, by omega⟩

theorem Sturdy.balanced (h : t.Sturdy) : t.Balanced := by
  rcases h with h | h
  · exact ((avl_iff t).1 h).2
  · exact balanced_of_length_le h

variable (cmp key) in
def SafePush (n : AvlNode V) (t : AvlTree V) : Prop :=
  (pushWithDuplicate cmp key n t).1.isSome ∨ t.toList.length ≤ 1 ∨
    (n.height = 1 ∧ (t.Avl ∨ ∃ s, s ≠ 3 ∧ Pair s t))

theorem length_linkSlot (n : AvlNode V) (path : List (Crumb V)) :
    (linkSlot n path).toList.length = (plug path nil).toList.length + 1 := by
  rw [toList_linkSlot, toList_plug]
  simp [toList, add_assoc]

theorem Sturdy.push {n : AvlNode V} (h : t.Sturdy) (hsafe : SafePush cmp key n t) :
    (pushWithDuplicate cmp key n t).2.Sturdy := by
  have hpushed := pushed_pushWithDuplicate cmp key n t
  unfold SafePush at hsafe
  generalize pushWithDuplicate cmp key n t = r at hpushed hsafe
  cases hpushed with
  | duplicate _ value => exact h
  | first => exact .inr (le_succ 1)
  | left value s => exact .inr (le_refl 2)
  | right value s => exact .inr (le_refl 2)
  | linked path =>
    rcases hsafe with hdup | hfew | ⟨hheight, hright⟩
    · cases hdup
    · right
      rw [length_linkSlot]
      omega
    · obtain ⟨value, s⟩ := n
      cases hheight
      rcases hright with havl | ⟨s, hs, hpair⟩
      · exact .inl (linkSlot_avl ((avl_plug _ _).1 havl).2)
      · exact .inl (hpair.linkSlot hs value)

theorem Sturdy.extract (h : t.Sturdy) (k : K) : (extract cmp key k t).2.Sturdy := by
  have hplug := @plug_search _ _ cmp key k t []
  unfold AvlTree.extract
  generalize search cmp key k t [] = found at hplug
  obtain ⟨found, path⟩ := found
  cases found with
  | nil => exact h
  | node left value s right =>
    subst hplug
    rcases h with havl | hfew
    · exact .inl (eraseAt_avl havl)
    · right
      rw [toList_plug] at hfew
      simp only [toList, length_append, length_cons] at hfew
      rw [toList_eraseAt]
      grind

end AvlTree

/-! ## Tables -/

namespace TreeHashTable

variable {K V : Type} (cmp : K → K → Ordering) (key : V → K) (hash : K → Nat)

/-- The nodes of a bucket are safely pushed into the second table. -/
def SafeMoves : List (AvlNode V) → Table (AvlTree V) → Prop
  | [], _ => True
  | n :: ns, t =>
    AvlTree.SafePush cmp key n (t.bucket .nil (t.bucketIndex (hash (key n.value)))) ∧
      SafeMoves ns (Tables.moveNode (kind cmp key) (hash ∘ key) t n)

def SafeRehash (t : Tables (AvlTree V)) : Prop :=
  ∀ i, t.rehashMoveBucketIndex = some i →
    SafeMoves cmp key hash (t.table1.bucket .nil i).reuseAllNodes t.table2

/-- The bucket that a push goes to: that of the second table if the one of the first table
has been moved. -/
def targetBucket (h : Nat) (t : Tables (AvlTree V)) : AvlTree V :=
  match t.rehashMoveBucketIndex with
  | none => bucket1 h t
  | some i => if t.table1.bucketIndex h < i then bucket2 h t else bucket1 h t

/-- `Insert` and `Push` of a node: the rehash step before it is safe, and so is the push. -/
def SafeAdd (n : AvlNode V) (t : Tables (AvlTree V)) : Prop :=
  SafeRehash cmp key hash (rehash cmp key t) ∧
    AvlTree.SafePush cmp key n
      (targetBucket (hash (key n.value)) (incrementalRehash cmp key hash (rehash cmp key t)))

def SafeCall : TreeCall K V → TreeState V → Prop
  | .table (.insert elem), s => SafeAdd cmp key hash (AvlTree.createNode elem) s.tables
  | .table (.insertWithDuplicate elem), s =>
    SafeAdd cmp key hash (AvlTree.createNode elem) s.tables
  | .table (.find _), s => SafeRehash cmp key hash s.tables
  | .table (.extract _), s => SafeRehash cmp key hash s.tables
  | .table (.erase _), s => SafeRehash cmp key hash s.tables
  | .table .clear, _ => True
  | .push i overwrite, s =>
    ∀ n, s.held[i]? = some n →
      SafeAdd cmp key hash { n with value := overwrite.getD n.value } s.tables

def SafeCalls : List (TreeCall K V) → TreeState V → Prop
  | [], _ => True
  | call :: calls, s =>
    SafeCall cmp key hash call s ∧ SafeCalls calls (step cmp key hash call s).2

end TreeHashTable

def Table.Sturdy {V : Type} (t : Table (AvlTree V)) : Prop :=
  ∀ b ∈ t.table, b.Sturdy

namespace Table.Sturdy

variable {V : Type} {t : Table (AvlTree V)}

theorem bucket (h : t.Sturdy) (i : Nat) : (t.bucket .nil i).Sturdy := by
  unfold Table.bucket
  rw [getD_eq_getElem?_getD]
  cases hb : t.table[i]? with
  | none => exact .inl trivial
  | some b => exact h b (mem_of_getElem? hb)

variable {b : AvlTree V}

theorem setBucket (h : t.Sturdy) (i : Nat) (hb : b.Sturdy) :
    (t.setBucket i b).Sturdy := by
  intro b' hmem
  rcases mem_or_eq_of_mem_set hmem with hmem | rfl
  · exact h b' hmem
  · exact hb

theorem grow (h : t.Sturdy) (n : Nat) : (t.grow .nil n).Sturdy := by
  intro b hmem
  rcases mem_append.1 hmem with hmem | hmem
  · exact h b hmem
  · rw [eq_of_mem_replicate hmem]
    exact .inl trivial

end Table.Sturdy

namespace TreeHashTable

variable {K V : Type} {cmp : K → K → Ordering} {key : V → K} {hash : K → Nat}

structure Sturdy (t : Tables (AvlTree V)) : Prop where
  table1 : t.table1.Sturdy
  table2 : t.table2.Sturdy

variable {t : Tables (AvlTree V)}

theorem moves_sturdy {ns : List (AvlNode V)} {t : Table (AvlTree V)} (h : t.Sturdy)
    (hsafe : SafeMoves cmp key hash ns t) :
    (ns.foldl (Tables.moveNode (kind cmp key) (hash ∘ key)) t).Sturdy := by
  induction ns generalizing t with
  | nil => exact h
  | cons n ns ih =>
    apply ih _ hsafe.2
    apply h.setBucket
    exact (h.bucket _).push hsafe.1

namespace Sturdy

variable (h : Sturdy t)

include h

theorem rehash : Sturdy (rehash cmp key t) := by
  unfold TreeHashTable.rehash Tables.rehash
  split
  · exact ⟨h.table1, h.table2.grow _⟩
  · exact h

theorem incrementalRehash (hsafe : SafeRehash cmp key hash t) :
    Sturdy (incrementalRehash cmp key hash t) := by
  unfold TreeHashTable.incrementalRehash Tables.incrementalRehash
  cases hindex : t.rehashMoveBucketIndex with
  | none => exact h
  | some i =>
    have h2 := moves_sturdy h.table2 (hsafe i hindex)
    have h1 : (t.table1.setBucket i .nil).Sturdy := h.table1.setBucket i (.inl trivial)
    have hreset : ∀ used, ((kind cmp key).reset
        { t.table1.setBucket i .nil with used := used }).Sturdy := by
      intro used b hmem
      cases hmem
    dsimp only
    split
    · exact ⟨h1, h2⟩
    · split
      · exact ⟨h1, h2⟩
      · exact ⟨h2, hreset _⟩

theorem visit {X : Type} {op : AvlTree V → Option X × AvlTree V}
    (hop : ∀ b : AvlTree V, b.Sturdy → (op b).2.Sturdy) (hv : Nat) :
    Sturdy (t.visit (kind cmp key) op hv).2 := by
  unfold Tables.visit
  have h1 : (op (t.table1.bucket (kind cmp key).empty (t.table1.bucketIndex hv))).2.Sturdy :=
    hop _ (h.table1.bucket _)
  have h2 : (op (t.table2.bucket (kind cmp key).empty (t.table2.bucketIndex hv))).2.Sturdy :=
    hop _ (h.table2.bucket _)
  dsimp only
  split
  next x b hop1 =>
    rw [hop1] at h1
    exact ⟨h.table1.setBucket _ h1, h.table2⟩
  next hop1 =>
    split
    · split
      next x b hop2 =>
        rw [hop2] at h2
        exact ⟨h.table1, h.table2.setBucket _ h2⟩
      next hop2 => exact h
    · exact h

section

variable (hsafe : SafeRehash cmp key hash t)

include hsafe

theorem extract (k : K) : Sturdy (extract cmp key hash k t).2 := by
  have hvisit : Sturdy ((TreeHashTable.incrementalRehash cmp key hash t).visit (kind cmp key)
      (AvlTree.extract cmp key k) (hash k)).2 :=
    (h.incrementalRehash hsafe).visit (fun b hb => hb.extract k) (hash k)
  unfold TreeHashTable.extract Tables.extract
  split
  next x t' hrun =>
    replace hrun : (TreeHashTable.incrementalRehash cmp key hash t).visit (kind cmp key)
      (AvlTree.extract cmp key k) (hash k) = (some x, t') := hrun
    rw [hrun] at hvisit
    exact ⟨hvisit.table1, hvisit.table2⟩
  next t' hrun =>
    replace hrun : (TreeHashTable.incrementalRehash cmp key hash t).visit (kind cmp key)
      (AvlTree.extract cmp key k) (hash k) = (none, t') := hrun
    rw [hrun] at hvisit
    exact hvisit

theorem erase (k : K) : Sturdy (erase cmp key hash k t).2 := by
  have hextract := h.extract hsafe k
  unfold TreeHashTable.erase
  grind

theorem find (k : K) : Sturdy (find cmp key hash k t).2 :=
  (h.incrementalRehash hsafe).visit (fun _ hb => hb) (hash k)

end

theorem clear : Sturdy (clear cmp key t) := by
  constructor
  · intro b hmem
    obtain ⟨_, _, rfl⟩ := mem_map.1 hmem
    exact .inl trivial
  · change (if t.inRehashing then t.table2.shrink 0 else t.table2).Sturdy
    split
    · intro b hmem
      cases hmem
    · exact h.table2

theorem addTo1 (hv : Nat) (hb : b.Sturdy) : Sturdy (t.addTo1 hv b) :=
  ⟨h.table1.setBucket _ hb, h.table2⟩

theorem addTo2 (hv : Nat) (hb : b.Sturdy) : Sturdy (t.addTo2 hv b) :=
  ⟨h.table1, h.table2.setBucket _ hb⟩

theorem firstBucket (hv : Nat) : (bucket1 hv t).Sturdy := h.table1.bucket _

theorem secondBucket (hv : Nat) : (bucket2 hv t).Sturdy := h.table2.bucket _

variable {n : AvlNode V}

theorem pushTable1 (hsafe : AvlTree.SafePush cmp key n (bucket1 (hash (key n.value)) t)) :
    Sturdy (pushTable1 cmp key hash n t).2.2 := by
  have hpush := (h.firstBucket _).push hsafe
  unfold TreeHashTable.pushTable1
  dsimp only
  split
  next hrun => exact h
  next b hrun =>
    rw [hrun] at hpush
    exact h.addTo1 _ hpush

theorem pushTable2 (hsafe : AvlTree.SafePush cmp key n (bucket2 (hash (key n.value)) t)) :
    Sturdy (pushTable2 cmp key hash n t).2.2 := by
  have hpush := (h.secondBucket _).push hsafe
  unfold TreeHashTable.pushTable2
  dsimp only
  split
  next hrun => exact h
  next b hrun =>
    rw [hrun] at hpush
    exact h.addTo2 _ hpush

theorem insertWithDuplicate {elem : V} (hsafe : SafeAdd cmp key hash (AvlTree.createNode elem) t) :
    Sturdy (insertWithDuplicate cmp key hash elem t).2.2 := by
  have hmoved : Sturdy (TreeHashTable.incrementalRehash cmp key hash
      (TreeHashTable.rehash cmp key t)) := h.rehash.incrementalRehash hsafe.1
  have hpush := hsafe.2
  unfold TreeHashTable.insertWithDuplicate
  generalize TreeHashTable.incrementalRehash cmp key hash
    (TreeHashTable.rehash cmp key t) = t' at hmoved hpush
  unfold targetBucket at hpush
  dsimp only
  cases hindex : t'.rehashMoveBucketIndex with
  | none =>
    rw [hindex] at hpush
    exact hmoved.pushTable1 hpush
  | some i =>
    rw [hindex] at hpush
    dsimp only at hpush ⊢
    by_cases hlt : t'.table1.bucketIndex (hash (key elem)) < i
    · rw [if_pos hlt]
      rw [if_pos (by exact hlt)] at hpush
      exact hmoved.pushTable2 hpush
    · rw [if_neg hlt]
      rw [if_neg (by exact hlt)] at hpush
      split
      · exact hmoved
      · exact hmoved.pushTable1 hpush

theorem pushWithDuplicate (hsafe : SafeAdd cmp key hash n t) :
    Sturdy (pushWithDuplicate cmp key hash n t).2.2 := by
  have hmoved : Sturdy (TreeHashTable.incrementalRehash cmp key hash
      (TreeHashTable.rehash cmp key t)) := h.rehash.incrementalRehash hsafe.1
  have hpush := hsafe.2
  unfold TreeHashTable.pushWithDuplicate
  generalize TreeHashTable.incrementalRehash cmp key hash
    (TreeHashTable.rehash cmp key t) = t' at hmoved hpush
  unfold targetBucket at hpush
  dsimp only
  cases hindex : t'.rehashMoveBucketIndex with
  | none =>
    rw [hindex] at hpush
    exact hmoved.pushTable1 hpush
  | some i =>
    rw [hindex] at hpush
    dsimp only at hpush ⊢
    by_cases hlt : t'.table1.bucketIndex (hash (key n.value)) < i
    · rw [if_pos hlt] at hpush ⊢
      exact hmoved.pushTable2 hpush
    · rw [if_neg hlt] at hpush ⊢
      have hbucket := (hmoved.firstBucket _).push hpush
      split
      next => exact hmoved
      next b hrun =>
        rw [hrun] at hbucket
        split
        · exact ⟨hmoved.table1.setBucket _ hbucket, hmoved.table2⟩
        · exact hmoved.addTo1 _ hbucket

end Sturdy

theorem sturdy_new : Sturdy (new cmp key) :=
  ⟨Table.Sturdy.grow (fun b hmem => by cases hmem) 4, fun b hmem => by cases hmem⟩

variable {s : TreeState V}

theorem callTable_sturdy (h : Sturdy s.tables) {call : TableCall K V}
    (hsafe : SafeCall cmp key hash (.table call) s) :
    Sturdy (callTable cmp key hash call s).2.tables := by
  cases call with
  | insert elem =>
    have hinsert := h.insertWithDuplicate hsafe
    simp only [callTable, insert]
    grind
  | insertWithDuplicate elem => exact h.insertWithDuplicate hsafe
  | find k => exact h.find hsafe k
  | extract k => exact h.extract hsafe k
  | erase k => exact h.erase hsafe k
  | clear => exact h.clear

theorem step_sturdy (h : Sturdy s.tables) {call : TreeCall K V}
    (hsafe : SafeCall cmp key hash call s) : Sturdy (step cmp key hash call s).2.tables := by
  cases call with
  | table call => exact callTable_sturdy h hsafe
  | push i overwrite =>
    simp only [step]
    cases hheld : s.held[i]? with
    | none => exact h
    | some n =>
      have hpush := h.pushWithDuplicate (hsafe n hheld)
      simp only [push]
      grind

theorem run_sturdy (h : Sturdy s.tables) {calls : List (TreeCall K V)}
    (hsafe : SafeCalls cmp key hash calls s) :
    Sturdy (CallRuns.run (step cmp key hash) calls s).2.tables := by
  induction calls generalizing s with
  | nil => exact h
  | cons call calls ih => exact ih (step_sturdy h hsafe.1) hsafe.2

/-- In a run of safe calls every bucket is balanced, and a search in it is logarithmic. -/
theorem buckets_balanced_of_safe (calls : List (TreeCall K V))
    (hsafe : SafeCalls cmp key hash calls (start cmp key)) :
    let final := (CallRuns.run (step cmp key hash) calls (start cmp key)).2.tables
    ∀ b ∈ final.table1.table ++ final.table2.table,
      b.Balanced ∧ ∀ k, b.comparisons cmp key k ≤ 2 * Nat.log 2 (b.toList.length + 1) + 1 := by
  intro final b hmem
  have hsturdy := run_sturdy sturdy_new hsafe
  have hb : b.Sturdy := by
    rcases mem_append.1 hmem with hmem | hmem
    · exact hsturdy.table1 b hmem
    · exact hsturdy.table2 b hmem
  exact ⟨hb.balanced, hb.balanced.comparisons_le⟩

/-- Three keys share a bucket of the first table, and the fifth insertion hands them over. -/
theorem buckets_balanced_of_safe_three :
    let calls : List (TreeCall Nat Nat) :=
      [.table (.insert 0), .table (.insert 4), .table (.insert 8), .table (.insert 1),
        .table (.insert 2)]
    let final := (CallRuns.run (step compare id id) calls (start compare id)).2.tables
    SafeCalls compare id id calls (start compare id) ∧
      ∀ b ∈ final.table1.table ++ final.table2.table,
        b.Balanced ∧ ∀ k, b.comparisons compare id k ≤ 2 * Nat.log 2 (b.toList.length + 1) + 1 := by
  intro calls final
  have hsafe : SafeCalls compare id id calls (start compare id) := by
    refine ⟨⟨?_, .inr (.inl (by decide))⟩, ⟨?_, .inr (.inl (by decide))⟩,
      ⟨?_, .inr (.inr ⟨rfl, .inr ⟨1, by decide, .right 0 4⟩⟩)⟩,
      ⟨?_, .inr (.inl (by decide))⟩, ⟨?_, .inr (.inl (by decide))⟩, trivial⟩
    · intro i hi
      cases hi
    · intro i hi
      cases hi
    · intro i hi
      cases hi
    · intro i hi
      cases hi
    · intro i hi
      cases hi
      exact ⟨.inr (.inl (by decide)), .inr (.inl (by decide)), .inr (.inl (by decide)), trivial⟩
  exact ⟨hsafe, buckets_balanced_of_safe calls hsafe⟩

/-- Four keys of one bucket go to one bucket, each with the height zero.  There the root has
no left child, and a right child with two children. -/
theorem buckets_unbalanced :
    let calls : List (TreeCall Nat Nat) :=
      [.table (.insert 0), .table (.insert 8), .table (.insert 24), .table (.insert 16),
        .table (.insert 1)]
    let final := (CallRuns.run (step compare id id) calls (start compare id)).2.tables
    ∃ b ∈ final.table1.table ++ final.table2.table, ¬ b.Balanced := by
  decide

end TreeHashTable

end Mmkv
