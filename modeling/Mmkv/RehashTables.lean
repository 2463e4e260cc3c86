import Mathlib.Data.List.Perm.Basic
import Mathlib.Data.List.GetD
import Mathlib.Data.Nat.Basic
import Mathlib.Algebra.Group.Nat.Defs

/-!
# Two bucket tables with an incremental rehash

`TreeHashTable` and `HashTable` are the same machine over two kinds of
buckets: a table that is full gets a second one of twice the size, and every
later call first moves one bucket over.  This module has that machine for an
arbitrary kind of bucket, its invariant, and the effect of each step on the
stored entries.  Entries are compared up to permutation, so that all a caller
has to know about a bucket is which values it holds.

Sizes and counters are natural numbers.  The mask of a table without buckets,
`size_t(-1)` in the source, is never read; here it is `0 - 1 = 0`.
-/

namespace Mmkv

open List Nat

open scoped List

structure Table (B : Type) where
  table : List B
  used : Nat
  sizeMask : Nat
  deriving Repr, DecidableEq

/-- What the rehash uses of a bucket type: the buckets' values in iteration
order, its nodes in the order in which they are handed over, and how a node is
linked into the bucket it moves to. -/
structure BucketKind (V B N : Type) where
  empty : B
  values : B → List V
  value : N → V
  nodes : B → List N
  put : N → B → B
  reset : Table B → Table B

namespace Table

variable {B : Type}

def new : Table B :=
  ⟨[], 0, 0 - 1⟩

def size (t : Table B) : Nat :=
  t.table.length

def bucketIndex (t : Table B) (h : Nat) : Nat :=
  h &&& t.sizeMask

def grow (empty : B) (n : Nat) (t : Table B) : Table B :=
  let table := t.table ++ replicate (n - t.size) empty
  { t with table := table, sizeMask := table.length - 1 }

def shrink (n : Nat) (t : Table B) : Table B :=
  let table := t.table.take n
  { t with table := table, sizeMask := table.length - 1 }

def bucket (empty : B) (t : Table B) (i : Nat) : B :=
  t.table.getD i empty

def setBucket (t : Table B) (i : Nat) (b : B) : Table B :=
  { t with table := t.table.set i b }

end Table

open Table

structure Tables (B : Type) where
  table1 : Table B
  table2 : Table B
  rehashMoveBucketIndex : Option Nat
  deriving Repr, DecidableEq

namespace Tables

variable {V B N X : Type} (kind : BucketKind V B N) (hash : V → Nat)

def new : Tables B :=
  ⟨Table.grow kind.empty 4 Table.new, Table.new, none⟩

def inRehashing (t : Tables B) : Bool :=
  t.rehashMoveBucketIndex.isSome

def size (t : Tables B) : Nat :=
  t.table1.used

/-- The stored values in the order of the iterators: the first table bucket by
bucket, then the second. -/
def entries (t : Tables B) : List V :=
  t.table1.table.flatMap kind.values ++ t.table2.table.flatMap kind.values

def rehash (t : Tables B) : Tables B :=
  if t.rehashMoveBucketIndex = none ∧ t.table1.size ≤ t.table1.used then
    { t with
      table2 := t.table2.grow kind.empty (t.table1.size * 2)
      rehashMoveBucketIndex := some 0 }
  else t

def moveNode (t : Table B) (n : N) : Table B :=
  let i := t.bucketIndex (hash (kind.value n))
  t.setBucket i (kind.put n (t.bucket kind.empty i))

def incrementalRehash (t : Tables B) : Tables B :=
  match t.rehashMoveBucketIndex with
  | none => t
  | some i =>
    let table2 := (kind.nodes (t.table1.bucket kind.empty i)).foldl
      (moveNode kind hash) t.table2
    let table1 := t.table1.setBucket i kind.empty
    if i + 1 ≠ table1.size then ⟨table1, table2, some (i + 1)⟩
    else if table2.table = [] then ⟨table1, table2, none⟩
    else
      ⟨{ table2 with used := table1.used }, kind.reset { table1 with used := table2.used }, none⟩

/-- `Clear`: after the shrink there are no buckets but the first four, and
each of them is cleared. -/
def clear (t : Tables B) : Tables B :=
  let table1 := t.table1.shrink 4
  { table1 := { table1 with
      table := table1.table.map fun _ => kind.empty
      used := 0 }
    table2 := if t.inRehashing then t.table2.shrink 0 else t.table2
    rehashMoveBucketIndex := none }

/-- The loop over the tables that stops at the first one in whose bucket for
the hash value `op` finds something. -/
def visit (op : B → Option X × B) (h : Nat) (t : Tables B) : Option X × Tables B :=
  let i := t.table1.bucketIndex h
  match op (t.table1.bucket kind.empty i) with
  | (some x, b) => (some x, { t with table1 := t.table1.setBucket i b })
  | (none, _) =>
    if t.inRehashing then
      let j := t.table2.bucketIndex h
      match op (t.table2.bucket kind.empty j) with
      | (some x, b) => (some x, { t with table2 := t.table2.setBucket j b })
      | (none, _) => (none, t)
    else (none, t)

def setUsed (used : Nat) (t : Tables B) : Tables B :=
  { t with table1 := { t.table1 with used := used } }

/-- `Find` and `FindNode`, for the bucket's way of finding a node. -/
def find (op : B → Option X × B) (h : Nat) (t : Tables B) : Option X × Tables B :=
  (t.incrementalRehash kind hash).visit kind op h

/-- `Extract`, for the bucket's way of unlinking a node. -/
def extract (op : B → Option X × B) (h : Nat) (t : Tables B) : Option X × Tables B :=
  match (t.incrementalRehash kind hash).visit kind op h with
  | (some x, t) => (some x, t.setUsed (t.size - 1))
  | (none, t) => (none, t)

/-- The bucket of the first table gets a new entry; `used` counts the entries
of both tables and is kept in the first one. -/
def addTo1 (t : Tables B) (h : Nat) (b : B) : Tables B :=
  { t with table1 :=
      { t.table1.setBucket (t.table1.bucketIndex h) b with used := t.table1.used + 1 } }

def addTo2 (t : Tables B) (h : Nat) (b : B) : Tables B :=
  { t with
    table1 := { t.table1 with used := t.table1.used + 1 }
    table2 := t.table2.setBucket (t.table2.bucketIndex h) b }

end Tables

/-! ## Buckets of one table -/

/-- The laws of a kind of bucket.  `ok` is the buckets' own invariant and
`apart` says of two values that their keys differ. -/
structure BucketKind.Lawful {V B N : Type} (kind : BucketKind V B N)
    (ok : B → Prop) (apart : V → V → Prop) : Prop where
  apart_symm : ∀ {a b}, apart a b → apart b a
  empty_ok : ok kind.empty
  values_empty : kind.values kind.empty = []
  pairwise_apart : ∀ {b}, ok b → (kind.values b).Pairwise apart
  nodes_perm : ∀ b, ((kind.nodes b).map kind.value).Perm (kind.values b)
  put_ok :
    ∀ {n b}, ok b → (∀ x ∈ kind.values b, apart x (kind.value n)) →
      ok (kind.put n b) ∧
        (kind.values (kind.put n b)).Perm (kind.value n :: kind.values b)
  reset_table : ∀ t, (kind.reset t).table = []

namespace Table

variable {V B N : Type} {kind : BucketKind V B N} {hash : V → Nat}
  {ok : B → Prop} {apart : V → V → Prop}

/-- A table is sound when its size is a power of two, its mask fits it, its
buckets are in order and every value is in the bucket its hash selects. -/
structure Sound (kind : BucketKind V B N) (hash : V → Nat) (ok : B → Prop)
    (t : Table B) : Prop where
  size_pow : ∃ m, t.size = 2 ^ m
  mask : t.sizeMask = t.size - 1
  buckets : ∀ b ∈ t.table, ok b
  placed :
    ∀ i b, t.table[i]? = some b → ∀ v ∈ kind.values b, hash v % t.size = i

def values (kind : BucketKind V B N) (t : Table B) : List V :=
  t.table.flatMap kind.values

variable {t : Table B} {i : Nat}

section

variable (empty : B)

theorem getElem?_bucket (hi : i < t.size) : t.table[i]? = some (t.bucket empty i) := by
  rw [bucket, getD_eq_getElem?_getD, getElem?_eq_getElem hi]
  rfl

theorem bucket_mem (hi : i < t.size) : t.bucket empty i ∈ t.table :=
  mem_of_getElem? (getElem?_bucket empty hi)

@[simp]
theorem size_setBucket (t : Table B) (i : Nat) (b : B) : (t.setBucket i b).size = t.size := by
  simp [setBucket, size]

theorem bucket_setBucket_self (hi : i < t.size) (b : B) : (t.setBucket i b).bucket empty i = b := by
  have hset : (t.setBucket i b).table[i]? = some b := getElem?_set_self hi
  rw [getElem?_bucket empty (by simpa using hi)] at hset
  exact Option.some.inj hset

theorem bucket_setBucket_of_ne {j : Nat} (hj : j ≠ i) (b : B) :
    (t.setBucket i b).bucket empty j = t.bucket empty j := by
  rw [bucket, setBucket, getD_eq_getElem?_getD, getElem?_set_ne (Ne.symm hj)]
  rfl

end

theorem values_eq_nil_of_table_nil (ht : t.table = []) : t.values kind = [] := by
  simp [values, ht]

theorem values_setBucket (kind : BucketKind V B N) (hi : i < t.size) :
    ∃ rest, (t.values kind).Perm (kind.values (t.bucket kind.empty i) ++ rest) ∧
      ∀ b, ((t.setBucket i b).values kind).Perm (kind.values b ++ rest) := by
  refine ⟨(t.table.take i).flatMap kind.values ++
    (t.table.drop (i + 1)).flatMap kind.values, ?_, ?_⟩
  · have hsplit : t.table = t.table.take i ++
        t.bucket kind.empty i :: t.table.drop (i + 1) := by
      have hget := List.getElem_of_getElem? (getElem?_bucket kind.empty hi)
      rw [← hget.2, List.getElem_cons_drop, List.take_append_drop]
    have hvalues : t.values kind = (t.table.take i).flatMap kind.values ++
        (kind.values (t.bucket kind.empty i) ++ (t.table.drop (i + 1)).flatMap kind.values) := by
      conv_lhs => rw [values, hsplit]
      simp
    rw [hvalues]
    exact List.perm_append_comm_assoc _ _ _
  · intro b
    have hset : (t.setBucket i b).values kind =
        (t.table.take i).flatMap kind.values ++
          (kind.values b ++ (t.table.drop (i + 1)).flatMap kind.values) := by
      rw [values, setBucket, List.set_eq_take_append_cons_drop,
        if_pos (show i < t.table.length from hi)]
      simp
    rw [hset]
    exact List.perm_append_comm_assoc _ _ _

variable (hsound : t.Sound kind hash ok)

include hsound

theorem Sound.size_pos : 0 < t.size := by
  obtain ⟨m, hm⟩ := hsound.size_pow
  rw [hm]
  exact Nat.two_pow_pos m

theorem Sound.bucketIndex_eq (h : Nat) : t.bucketIndex h = h % t.size := by
  obtain ⟨m, hm⟩ := hsound.size_pow
  rw [bucketIndex, hsound.mask, hm, and_two_pow_sub_one_eq_mod]

theorem Sound.bucketIndex_lt (h : Nat) : t.bucketIndex h < t.size := by
  rw [hsound.bucketIndex_eq]
  exact mod_lt h hsound.size_pos

theorem Sound.withUsed (used : Nat) : ({ t with used := used } : Table B).Sound kind hash ok :=
  ⟨hsound.size_pow, hsound.mask, hsound.buckets, hsound.placed⟩

theorem mem_values_iff_bucket {v : V} : v ∈ t.values kind ↔
      v ∈ kind.values (t.bucket kind.empty (hash v % t.size)) := by
  have hi : hash v % t.size < t.size := mod_lt _ hsound.size_pos
  constructor
  · intro hv
    obtain ⟨b, hb, hv⟩ := mem_flatMap.mp hv
    obtain ⟨i, hb⟩ := mem_iff_getElem?.mp hb
    have hplaced := hsound.placed i b hb v hv
    rw [← hplaced, getElem?_bucket kind.empty hi] at hb
    rwa [Option.some.inj hb]
  · intro hv
    exact mem_flatMap.mpr ⟨_, bucket_mem _ hi, hv⟩

/-- The bucket of a hash value holds what would go there. -/
theorem Sound.bucketOf (h : Nat) :
    ok (t.bucket kind.empty (t.bucketIndex h)) ∧
      ∀ v, v ∈ kind.values (t.bucket kind.empty (t.bucketIndex h)) ↔
        v ∈ t.values kind ∧ hash v % t.size = h % t.size := by
  have hi := hsound.bucketIndex_lt h
  refine ⟨hsound.buckets _ (bucket_mem _ hi), fun v => ⟨fun hv => ?_, fun hv => ?_⟩⟩
  · exact ⟨mem_flatMap.mpr ⟨_, bucket_mem _ hi, hv⟩,
      (hsound.placed _ _ (getElem?_bucket _ hi) v hv).trans (hsound.bucketIndex_eq h)⟩
  · have hmem := (mem_values_iff_bucket hsound).mp hv.1
    rwa [hv.2, ← hsound.bucketIndex_eq] at hmem

theorem Sound.setBucket {b : B} (hok : ok b)
    (hplaced : ∀ v ∈ kind.values b, hash v % t.size = i) :
    (t.setBucket i b).Sound kind hash ok where
  size_pow := by simpa using hsound.size_pow
  mask := by
    rw [size_setBucket]
    exact hsound.mask
  buckets := by
    intro c hc
    rcases mem_or_eq_of_mem_set hc with hc | rfl
    · exact hsound.buckets c hc
    · exact hok
  placed := by
    intro j c hc v hv
    rw [size_setBucket]
    rw [Table.setBucket, getElem?_set] at hc
    split at hc
    · grind
    · exact hsound.placed j c hc v hv

end Table

namespace Tables

variable {V B N X : Type} {kind : BucketKind V B N} {hash : V → Nat}
  {ok : B → Prop} {apart : V → V → Prop} {settled : Prop}

/-! ## The invariant of the two tables -/

/-- While the rehash stands at bucket `i` of the first table, the buckets
before `i` are empty and the two tables hold no equal keys.  `settled` is
for tables that put a new key into the second table only after the key's old
bucket was moved. -/
structure Moving (kind : BucketKind V B N) (hash : V → Nat) (ok : B → Prop)
    (apart : V → V → Prop) (settled : Prop) (t : Tables B) (i : Nat) : Prop where
  index_lt : i < t.table1.size
  table2 : t.table2.Sound kind hash ok
  size2 : t.table2.size = t.table1.size * 2
  moved : ∀ v ∈ t.table1.values kind, i ≤ hash v % t.table1.size
  cross :
    ∀ a ∈ t.table1.values kind, ∀ b ∈ t.table2.values kind,
      hash a % t.table2.size = hash b % t.table2.size → apart a b
  settled_lt : settled → ∀ v ∈ t.table2.values kind, hash v % t.table1.size < i

structure WF (kind : BucketKind V B N) (hash : V → Nat) (ok : B → Prop)
    (apart : V → V → Prop) (settled : Prop) (t : Tables B) : Prop where
  table1 : t.table1.Sound kind hash ok
  idle : t.rehashMoveBucketIndex = none → t.table2.table = []
  moving :
    ∀ i, t.rehashMoveBucketIndex = some i → t.Moving kind hash ok apart settled i
  counted : (t.entries kind).length ≤ t.size

/-- Two pairs of tables with the same entries and the same count. -/
structure SameEntries (kind : BucketKind V B N) (t t' : Tables B) : Prop where
  entries_perm : (t'.entries kind) ~ (t.entries kind)
  size : t'.size = t.size

theorem SameEntries.refl (t : Tables B) : SameEntries kind t t := ⟨.refl _, rfl⟩

variable {t t' : Tables B}

theorem SameEntries.trans {t'' : Tables B} (h : SameEntries kind t t')
    (h' : SameEntries kind t' t'') :
    SameEntries kind t t'' where
  entries_perm := h'.entries_perm.trans h.entries_perm
  size := h'.size.trans h.size

theorem entries_eq (t : Tables B) :
    t.entries kind = t.table1.values kind ++ t.table2.values kind := rfl

theorem mod_eq_of_mod_double {a b n : Nat} (h : a % (n * 2) = b % (n * 2)) : a % n = b % n := by
  rw [← mod_mul_right_mod a n 2, h, mod_mul_right_mod]

theorem Table.Sound.add {t : Table B} (hsound : t.Sound kind hash ok) {b : B} {v : V} (hok : ok b)
    (hvalues : (kind.values b) ~
      (v :: kind.values (t.bucket kind.empty (t.bucketIndex (hash v))))) :
    (t.setBucket (t.bucketIndex (hash v)) b).Sound kind hash ok ∧
      ((t.setBucket (t.bucketIndex (hash v)) b).values kind) ~ (v :: t.values kind) := by
  have hbucket := hsound.bucketOf (hash v)
  constructor
  · refine hsound.setBucket hok fun w hw => ?_
    rw [hsound.bucketIndex_eq]
    rcases mem_cons.mp (hvalues.mem_iff.mp hw) with rfl | hw
    · rfl
    · exact ((hbucket.2 w).mp hw).2
  · obtain ⟨rest, hold, hnew⟩ := values_setBucket kind (hsound.bucketIndex_lt (hash v))
    exact ((hnew b).trans (hvalues.append_right rest)).trans (hold.symm.cons v)

variable {i : Nat} {v : V}

section

variable (law : kind.Lawful ok apart)

include law

theorem sound_replicate (m used : Nat) :
    (Table.mk (replicate (2 ^ m) kind.empty) used (2 ^ m - 1)).Sound
      kind hash ok where
  size_pow := ⟨m, by simp [Table.size]⟩
  mask := by simp [Table.size]
  buckets := by
    intro b hb
    rw [eq_of_mem_replicate hb]
    exact law.empty_ok
  placed := by
    intro i b hb v hv
    rw [eq_of_mem_replicate (mem_of_getElem? hb), law.values_empty] at hv
    cases hv

theorem values_replicate (n used mask : Nat) :
    (Table.mk (replicate n kind.empty) used mask).values kind = [] := by
  simp [Table.values, flatMap_replicate, law.values_empty]

theorem entries_new : (new kind).entries kind = [] := by
  simp [entries, new, Table.grow, Table.new, Table.size, law.values_empty]

theorem wf_new : (new kind).WF kind hash ok apart settled where
  table1 := sound_replicate law 2 0
  idle := fun _ => rfl
  moving := fun i hi => by cases hi
  counted := by simp [entries_new law]

/-! ## Starting a rehash -/

theorem WF.rehash_spec (hwf : t.WF kind hash ok apart settled) :
    (t.rehash kind).WF kind hash ok apart settled ∧
      SameEntries kind t (t.rehash kind) := by
  unfold rehash
  split
  · rename_i hstart
    obtain ⟨m, hm⟩ := hwf.table1.size_pow
    have hsize : t.table1.size * 2 = 2 ^ (m + 1) := by rw [hm, pow_succ]
    have hgrow : t.table2.grow kind.empty (t.table1.size * 2) =
        ⟨replicate (2 ^ (m + 1)) kind.empty, t.table2.used, 2 ^ (m + 1) - 1⟩ := by
      rw [hsize]
      simp [Table.grow, Table.size, hwf.idle hstart.1]
    have hvalues := values_replicate law (2 ^ (m + 1)) t.table2.used (2 ^ (m + 1) - 1)
    have hentries : t.entries kind = t.table1.values kind := by
      rw [entries_eq, Table.values_eq_nil_of_table_nil (hwf.idle hstart.1), append_nil]
    have hsame : ({ t with
        table2 := t.table2.grow kind.empty (t.table1.size * 2)
        rehashMoveBucketIndex := some 0 } : Tables B).entries kind =
          t.entries kind := by
      rw [entries_eq, hentries, hgrow, hvalues, append_nil]
    refine ⟨⟨hwf.table1, (fun h => by cases h), ?_, ?_⟩, .of_eq hsame, rfl⟩
    · intro i hi
      cases hi
      rw [hgrow]
      exact {
        index_lt := hwf.table1.size_pos
        table2 := sound_replicate law (m + 1) _
        size2 := by rw [hsize, Table.size, length_replicate]
        moved := fun v hv => zero_le _
        cross := by grind
        settled_lt := by
          intro _ v hv
          rw [hvalues] at hv
          cases hv }
    · rw [hsame]
      exact hwf.counted
  · exact ⟨hwf, .refl t⟩

/-! ## Moving a bucket -/

theorem moveNode_spec {t : Table B} (hsound : t.Sound kind hash ok) {n : N}
    (hapart : ∀ x ∈ t.values kind,
      hash x % t.size = hash (kind.value n) % t.size → apart x (kind.value n)) :
    (moveNode kind hash t n).Sound kind hash ok ∧
      ((moveNode kind hash t n).values kind).Perm (kind.value n :: t.values kind) ∧
      (moveNode kind hash t n).size = t.size := by
  have hbucket := hsound.bucketOf (hash (kind.value n))
  have hput := law.put_ok (n := n) hbucket.1 fun x hx =>
    hapart x ((hbucket.2 x).mp hx).1 ((hbucket.2 x).mp hx).2
  have hadd := Table.Sound.add hsound hput.1 hput.2
  exact ⟨hadd.1, hadd.2, size_setBucket _ _ _⟩

theorem foldl_moveNode_spec {ns : List N} {t : Table B} (hsound : t.Sound kind hash ok)
    (hns : (ns.map kind.value).Pairwise apart)
    (hapart : ∀ n ∈ ns, ∀ x ∈ t.values kind,
      hash x % t.size = hash (kind.value n) % t.size → apart x (kind.value n)) :
    (ns.foldl (moveNode kind hash) t).Sound kind hash ok ∧
      ((ns.foldl (moveNode kind hash) t).values kind).Perm
        (ns.map kind.value ++ t.values kind) ∧
      (ns.foldl (moveNode kind hash) t).size = t.size := by
  induction ns generalizing t with
  | nil => exact ⟨hsound, .refl _, rfl⟩
  | cons n ns ih =>
    obtain ⟨hn, hns⟩ := pairwise_cons.mp hns
    obtain ⟨hstep, hvalues, hsize⟩ := moveNode_spec law hsound (hapart n mem_cons_self)
    have hrest : ∀ n' ∈ ns, ∀ x ∈ (moveNode kind hash t n).values kind,
        hash x % (moveNode kind hash t n).size =
          hash (kind.value n') % (moveNode kind hash t n).size →
        apart x (kind.value n') := by
      intro n' hn' x hx
      rw [hsize]
      rcases mem_cons.mp (hvalues.mem_iff.mp hx) with rfl | hx
      · exact fun _ => hn _ (mem_map_of_mem hn')
      · exact hapart n' (mem_cons_of_mem n hn') x hx
    obtain ⟨hfold, hperm, hsize'⟩ := ih hstep hns hrest
    refine ⟨hfold, ?_, hsize'.trans hsize⟩
    refine hperm.trans ((hvalues.append_left _).trans ?_)
    exact perm_middle

theorem bucket_perm_nodes {t : Table B} (hsound : t.Sound kind hash ok)
    (hi : i < t.size) :
    ((kind.nodes (t.bucket kind.empty i)).map kind.value).Pairwise apart ∧
      ∀ n ∈ kind.nodes (t.bucket kind.empty i),
        kind.value n ∈ t.values kind ∧ hash (kind.value n) % t.size = i := by
  have hperm := law.nodes_perm (t.bucket kind.empty i)
  have hmem := bucket_mem kind.empty hi
  constructor
  · exact (hperm.pairwise_iff law.apart_symm).mpr
      (law.pairwise_apart (hsound.buckets _ hmem))
  · intro n hn
    have hv := hperm.mem_iff.mp (mem_map_of_mem hn)
    exact ⟨mem_flatMap.mpr ⟨_, hmem, hv⟩, hsound.placed i _ (getElem?_bucket kind.empty hi) _ hv⟩

theorem mem_of_mem_emptied {t : Table B} (hi : i < t.size)
    (hv : v ∈ (t.setBucket i kind.empty).values kind) : v ∈ t.values kind := by
  obtain ⟨rest, hold, hnew⟩ := values_setBucket kind hi
  have hrest := (hnew kind.empty).mem_iff.mp hv
  rw [law.values_empty, nil_append] at hrest
  exact hold.mem_iff.mpr (mem_append_right _ hrest)

theorem emptied_sound {t : Table B} (hsound : t.Sound kind hash ok)
    (i : Nat) :
    (t.setBucket i kind.empty).Sound kind hash ok := by
  refine hsound.setBucket law.empty_ok ?_
  rw [law.values_empty]
  simp

theorem emptied_index_ne {t : Table B} (hsound : t.Sound kind hash ok)
    (hi : i < t.size) (hv : v ∈ (t.setBucket i kind.empty).values kind) : hash v % t.size ≠ i := by
  intro heq
  rw [mem_values_iff_bucket (emptied_sound law hsound i), size_setBucket,
    heq, bucket_setBucket_self _ hi, law.values_empty] at hv
  cases hv

/-- The two tables after bucket `i` was moved, before the index advances. -/
structure Moved (kind : BucketKind V B N) (hash : V → Nat) (ok : B → Prop)
    (apart : V → V → Prop) (settled : Prop) (t : Tables B) (i : Nat)
    (table1 table2 : Table B) : Prop where
  sound1 : table1.Sound kind hash ok
  sound2 : table2.Sound kind hash ok
  size1 : table1.size = t.table1.size
  size2 : table2.size = t.table1.size * 2
  entries_perm :
    (table1.values kind ++ table2.values kind).Perm (t.entries kind)
  moved : ∀ v ∈ table1.values kind, i + 1 ≤ hash v % t.table1.size
  cross :
    ∀ a ∈ table1.values kind, ∀ b ∈ table2.values kind,
      hash a % table2.size = hash b % table2.size → apart a b
  settled_lt : settled → ∀ v ∈ table2.values kind, hash v % t.table1.size < i + 1

theorem Moving.mem_of_moved (hsound1 : t.table1.Sound kind hash ok)
    (hmoving : t.Moving kind hash ok apart settled i)
    (hv : v ∈ ((kind.nodes (t.table1.bucket kind.empty i)).foldl
      (moveNode kind hash) t.table2).values kind) :
    hash v % t.table1.size = i ∨ v ∈ t.table2.values kind := by
  obtain ⟨hpairwise, hnodes⟩ := bucket_perm_nodes law hsound1 hmoving.index_lt
  obtain ⟨-, hvalues2, -⟩ := foldl_moveNode_spec law hmoving.table2
    hpairwise fun n hn x hx hmod =>
      law.apart_symm (hmoving.cross _ (hnodes n hn).1 x hx hmod.symm)
  grind

theorem Moving.moveBucket (hsound1 : t.table1.Sound kind hash ok)
    (hmoving : t.Moving kind hash ok apart settled i) :
    t.Moved kind hash ok apart settled i (t.table1.setBucket i kind.empty)
      ((kind.nodes (t.table1.bucket kind.empty i)).foldl (moveNode kind hash) t.table2) := by
  have hi := hmoving.index_lt
  obtain ⟨hpairwise, hnodes⟩ := bucket_perm_nodes law hsound1 hi
  obtain ⟨hsound2, hvalues2, hsize2⟩ := foldl_moveNode_spec law hmoving.table2
    hpairwise fun n hn x hx hmod =>
      law.apart_symm (hmoving.cross _ (hnodes n hn).1 x hx hmod.symm)
  have hsize2' := hsize2.trans hmoving.size2
  refine ⟨emptied_sound law hsound1 i, hsound2, size_setBucket _ _ _, hsize2', ?_, ?_, ?_, ?_⟩
  · obtain ⟨rest, hold, hnew⟩ := values_setBucket kind hi
    have hnew := hnew kind.empty
    rw [law.values_empty, nil_append] at hnew
    have hnodes_perm := law.nodes_perm (t.table1.bucket kind.empty i)
    calc
      _ ~ rest ++ (kind.values (t.table1.bucket kind.empty i) ++ t.table2.values kind) :=
        hnew.append (hvalues2.trans (hnodes_perm.append_right _))
      _ ~ (kind.values (t.table1.bucket kind.empty i) ++ rest) ++
            t.table2.values kind := by
        rw [← append_assoc]
        exact perm_append_comm.append_right _
      _ ~ _ := hold.symm.append_right _
  · intro v hv
    have hle := hmoving.moved v (mem_of_mem_emptied law hi hv)
    have hne := emptied_index_ne law hsound1 hi hv
    omega
  · intro a ha b hb hmod
    rcases hmoving.mem_of_moved law hsound1 hb with hb | hb
    · rw [hsize2'] at hmod
      have hne := emptied_index_ne law hsound1 hi ha
      exact absurd ((mod_eq_of_mod_double hmod).trans hb) hne
    · rw [hsize2] at hmod
      exact hmoving.cross a (mem_of_mem_emptied law hi ha) b hb hmod
  · intro hsettled v hv
    rcases hmoving.mem_of_moved law hsound1 hv with hv | hv
    · omega
    · exact lt_succ_of_lt (hmoving.settled_lt hsettled v hv)

omit law in
theorem Moved.values1_eq_nil {table1 table2 : Table B}
    (hmoved : t.Moved kind hash ok apart settled i table1 table2) (hlast : i + 1 = table1.size) :
    table1.values kind = [] := by
  refine eq_nil_iff_forall_not_mem.mpr fun v hv => ?_
  have hle := hmoved.moved v hv
  have hlt := mod_lt (hash v) hmoved.sound1.size_pos
  rw [hmoved.size1] at hlast hlt
  omega

theorem WF.incrementalRehash_spec (hwf : t.WF kind hash ok apart settled) :
    (t.incrementalRehash kind hash).WF kind hash ok apart settled ∧
      SameEntries kind t (t.incrementalRehash kind hash) := by
  unfold incrementalRehash
  split
  · exact ⟨hwf, .refl t⟩
  rename_i i hindex
  have hmoving := hwf.moving i hindex
  have hmoved := hmoving.moveBucket law hwf.table1
  dsimp only
  generalize (kind.nodes (t.table1.bucket kind.empty i)).foldl
    (moveNode kind hash) t.table2 = table2 at hmoved ⊢
  have hused : (t.table1.setBucket i kind.empty).used = t.table1.used := rfl
  generalize t.table1.setBucket i kind.empty = table1 at hmoved hused ⊢
  have hcounted := le_trans (le_of_eq hmoved.entries_perm.length_eq) hwf.counted
  split
  · rename_i hnext
    refine ⟨⟨hmoved.sound1, (fun h => by cases h), ?_, ?_⟩, hmoved.entries_perm, hused⟩
    · intro j hj
      cases hj
      have hlt := hmoving.index_lt
      rw [hmoved.size1] at hnext
      exact {
        index_lt := by
          rw [hmoved.size1]
          omega
        table2 := hmoved.sound2
        size2 := by rw [hmoved.size1, hmoved.size2]
        moved := by
          rw [hmoved.size1]
          exact hmoved.moved
        cross := hmoved.cross
        settled_lt := by
          rw [hmoved.size1]
          exact hmoved.settled_lt }
    · rw [entries_eq]
      simpa [size, hused] using hcounted
  · rename_i hlast
    have hlast : i + 1 = table1.size := not_not.mp hlast
    have hpos := hmoved.sound2.size_pos
    rw [if_neg (fun hnil => by simp [Table.size, hnil] at hpos)]
    have hnil := hmoved.values1_eq_nil hlast
    have hreset : (kind.reset { table1 with used := table2.used }).values kind = [] :=
      Table.values_eq_nil_of_table_nil (law.reset_table _)
    have hentries : ∀ used, ({ table2 with used := used } : Table B).values kind ++
        (kind.reset { table1 with used := table2.used }).values kind =
          table1.values kind ++ table2.values kind := by
      intro used
      rw [hreset, hnil, append_nil, nil_append]
      rfl
    refine ⟨⟨hmoved.sound2.withUsed _, fun _ => law.reset_table _,
      (fun j hj => by cases hj), ?_⟩, ?_, hused⟩
    · rw [entries_eq, hentries]
      simpa [size, hused] using hcounted
    · rw [entries_eq, hentries]
      exact hmoved.entries_perm

/-! ## Clearing -/

theorem WF.clear_spec (hwf : t.WF kind hash ok apart settled) :
    (t.clear kind).WF kind hash ok apart settled ∧
      (t.clear kind).entries kind = [] ∧ (t.clear kind).size = 0 := by
  have htable2 : (t.clear kind).table2.table = [] := by
    cases hindex : t.rehashMoveBucketIndex with
    | none => simp [clear, inRehashing, hindex, hwf.idle hindex]
    | some i => simp [clear, inRehashing, hindex, Table.shrink]
  have hvalues1 : (t.clear kind).table1.values kind = [] := by
    simp [clear, Table.values, law.values_empty]
  have hentries : (t.clear kind).entries kind = [] := by
    rw [entries_eq, hvalues1, Table.values_eq_nil_of_table_nil htable2]
    rfl
  obtain ⟨m, hm⟩ := hwf.table1.size_pow
  have hmin : min 4 (2 ^ m) = 2 ^ min 2 m := by
    rcases le_total m 2 with hle | hle
    · have hpow : 2 ^ m ≤ 2 ^ 2 := Nat.pow_le_pow_right (by decide) hle
      grind
    · have hpow : 2 ^ 2 ≤ 2 ^ m := Nat.pow_le_pow_right (by decide) hle
      grind
  have htable1 : (t.clear kind).table1 =
      ⟨replicate (2 ^ min 2 m) kind.empty, 0, 2 ^ min 2 m - 1⟩ := by
    have hlength : (t.table1.table.take 4).length = 2 ^ min 2 m := by
      rw [length_take, ← hmin, ← hm]
      rfl
    simp only [clear, Table.shrink, map_const', hlength]
  refine ⟨⟨?_, fun _ => htable2, (fun i hi => by cases hi), ?_⟩, hentries, rfl⟩
  · rw [htable1]
    exact sound_replicate law _ 0
  · grind

end

/-! ## Visiting the buckets of a hash value -/

/-- An operation on buckets that looks for a value with `hit`.  What it finds
is the value `res x`, and it leaves `stay x` in its place: the value itself, a
value with the same key, or nothing. -/
structure LawfulOp (kind : BucketKind V B N) (hash : V → Nat) (ok : B → Prop)
    (apart : V → V → Prop) (op : B → Option X × B) (hit : V → Prop)
    (res : X → V) (stay : X → List V) : Prop where
  miss : ∀ {b b'}, ok b → op b = (none, b') → ∀ v ∈ kind.values b, ¬ hit v
  found :
    ∀ {b b' x}, ok b → op b = (some x, b') →
      ok b' ∧ hit (res x) ∧ ∃ rest, (kind.values b) ~ (res x :: rest) ∧
        (kind.values b') ~ (stay x ++ rest)
  stay_le : ∀ x, (stay x).length ≤ 1
  stay_hash : ∀ x, ∀ w ∈ stay x, hash w = hash (res x)
  stay_apart : ∀ x, ∀ w ∈ stay x, ∀ v, apart (res x) v → apart w v

/-- The effect of `LawfulOp.found` on the bucket at `i` of one table. -/
structure Replaced (kind : BucketKind V B N) (t t' : Table B) (old : V)
    (new : List V) (rest : List V) : Prop where
  size : t'.size = t.size
  used : t'.used = t.used
  before : (t.values kind) ~ (old :: rest)
  after : (t'.values kind) ~ (new ++ rest)

variable {op : B → Option X × B} {hit : V → Prop} {res : X → V} {stay : X → List V} {x : X} {b' : B}
  {h : Nat}

theorem LawfulOp.setBucket (hop : LawfulOp kind hash ok apart op hit res stay) {t : Table B}
    (hsound : t.Sound kind hash ok)
    (hfound : op (t.bucket kind.empty (t.bucketIndex h)) = (some x, b')) :
    (t.setBucket (t.bucketIndex h) b').Sound kind hash ok ∧ hit (res x) ∧
      ∃ rest, Replaced kind t (t.setBucket (t.bucketIndex h) b') (res x) (stay x) rest := by
  obtain ⟨hok, hplaced⟩ := hsound.bucketOf h
  obtain ⟨hok', hhit, rest, hold, hnew⟩ := hop.found hok hfound
  obtain ⟨others, hothers, hset⟩ := values_setBucket kind (hsound.bucketIndex_lt h)
  refine ⟨hsound.setBucket hok' ?_, hhit, rest ++ others, ⟨size_setBucket _ _ _, rfl, ?_, ?_⟩⟩
  · intro v hv
    rw [hsound.bucketIndex_eq]
    rcases mem_append.mp (hnew.mem_iff.mp hv) with hv | hv
    · rw [hop.stay_hash x v hv]
      exact ((hplaced _).mp (hold.mem_iff.mpr mem_cons_self)).2
    · exact ((hplaced v).mp (hold.mem_iff.mpr (mem_cons_of_mem _ hv))).2
  · exact hothers.trans (hold.append_right others)
  · rw [← append_assoc]
    exact (hset b').trans (hnew.append_right others)

theorem LawfulOp.not_hit (hop : LawfulOp kind hash ok apart op hit res stay) {t : Table B}
    (hsound : t.Sound kind hash ok)
    (hmiss : op (t.bucket kind.empty (t.bucketIndex h)) = (none, b')) :
    ∀ v ∈ t.values kind, hash v = h → ¬ hit v := by
  intro v hv hh
  have hbucket := hsound.bucketOf h
  exact hop.miss hbucket.1 hmiss v ((hbucket.2 v).mpr ⟨hv, by rw [hh]⟩)

variable {rest : List V}

theorem LawfulOp.mem_replaced (hop : LawfulOp kind hash ok apart op hit res stay) {t t' : Table B}
    (hrep : Replaced kind t t' (res x) (stay x) rest) (hv : v ∈ t'.values kind) :
    ∃ u ∈ t.values kind, hash v = hash u ∧ ∀ w, apart u w → apart v w := by
  rcases mem_append.mp (hrep.after.mem_iff.mp hv) with hv | hv
  · exact ⟨res x, hrep.before.mem_iff.mpr mem_cons_self,
      hop.stay_hash x v hv, hop.stay_apart x v hv⟩
  · exact ⟨v, hrep.before.mem_iff.mpr (mem_cons_of_mem _ hv), rfl, fun _ h => h⟩

structure Visited (kind : BucketKind V B N) (t t' : Tables B) (old : V)
    (new : List V) : Prop where
  size : t'.size = t.size
  replaced : ∃ rest, (t.entries kind) ~ (old :: rest) ∧ (t'.entries kind) ~ (new ++ rest)

variable {old : V} {new : List V}

theorem Visited.counted (hvisited : Visited kind t t' old new) (hnew : new.length ≤ 1)
    (hcounted : (t.entries kind).length ≤ t.size) : (t'.entries kind).length ≤ t'.size := by
  obtain ⟨rest, hold, hafter⟩ := hvisited.replaced
  have h1 := hold.length_eq
  have h2 := hafter.length_eq
  rw [length_cons] at h1
  rw [length_append] at h2
  rw [hvisited.size]
  omega

theorem Replaced.visited1 {table1 : Table B} (hrep : Replaced kind t.table1 table1 old new rest) :
    Visited kind t { t with table1 := table1 } old new where
  size := hrep.used
  replaced :=
    ⟨rest ++ t.table2.values kind, hrep.before.append_right _, by
      rw [← append_assoc]
      exact hrep.after.append_right _⟩

theorem Replaced.visited2 {table2 : Table B} (hrep : Replaced kind t.table2 table2 old new rest) :
    Visited kind t { t with table2 := table2 } old new where
  size := rfl
  replaced := by
    refine ⟨t.table1.values kind ++ rest, ?_, ?_⟩
    · exact (hrep.before.append_left _).trans perm_middle
    · exact (hrep.after.append_left _).trans (perm_append_comm_assoc _ _ _)

section Replaced

variable {table : Table B} (hwf : t.WF kind hash ok apart settled)
  (hsound : table.Sound kind hash ok)

include hwf hsound

theorem WF.withTable1 (hsize : table.size = t.table1.size)
    (hcounted : (({ t with table1 := table } : Tables B).entries kind).length ≤ table.used)
    (hvalues : ∀ i, t.rehashMoveBucketIndex = some i → ∀ v ∈ table.values kind,
      i ≤ hash v % t.table1.size ∧ ∀ b ∈ t.table2.values kind,
        hash v % t.table2.size = hash b % t.table2.size → apart v b) :
    ({ t with table1 := table } : Tables B).WF kind hash ok apart settled where
  table1 := hsound
  idle := hwf.idle
  moving := by
    intro i hi
    have hmoving := hwf.moving i hi
    exact {
      index_lt := hsize ▸ hmoving.index_lt
      table2 := hmoving.table2
      size2 := hsize ▸ hmoving.size2
      moved := fun v hv => hsize ▸ (hvalues i hi v hv).1
      cross := fun a ha => (hvalues i hi a ha).2
      settled_lt := hsize ▸ hmoving.settled_lt }
  counted := hcounted

theorem WF.withTable2 (hindex : t.rehashMoveBucketIndex = some i)
    (hsize : table.size = t.table2.size)
    (hcounted : (({ t with table2 := table } : Tables B).entries kind).length ≤ t.size)
    (hvalues : ∀ v ∈ table.values kind, (settled → hash v % t.table1.size < i) ∧
      ∀ a ∈ t.table1.values kind, hash a % t.table2.size = hash v % t.table2.size → apart a v) :
    ({ t with table2 := table } : Tables B).WF kind hash ok apart settled where
  table1 := hwf.table1
  idle := fun hnone => by cases hindex.symm.trans hnone
  moving := by
    intro j hj
    obtain rfl : i = j := Option.some.inj (hindex.symm.trans hj)
    have hmoving := hwf.moving i hindex
    exact {
      index_lt := hmoving.index_lt
      table2 := hsound
      size2 := hsize.trans hmoving.size2
      moved := hmoving.moved
      cross := fun a ha b hb hmod => (hvalues b hb).2 a ha (hsize ▸ hmod)
      settled_lt := fun hsettled v hv => (hvalues v hv).1 hsettled }
  counted := hcounted

end Replaced

/-- The two ways a visit can end. -/
inductive VisitOutcome (kind : BucketKind V B N) (hash : V → Nat) (wf : Tables B → Prop)
    (hit : V → Prop) (res : X → V) (stay : X → List V) (h : Nat) (t : Tables B) :
    Option X × Tables B → Prop where
  | missed (fresh : ∀ v ∈ t.entries kind, hash v = h → ¬ hit v) :
      VisitOutcome kind hash wf hit res stay h t (none, t)
  | found {x : X} {t' : Tables B} (wf' : wf t') (hits : hit (res x))
      (visited : Visited kind t t' (res x) (stay x)) :
      VisitOutcome kind hash wf hit res stay h t (some x, t')

theorem visit_outcome (law : kind.Lawful ok apart)
    (hop : LawfulOp kind hash ok apart op hit res stay)
    (hwf : t.WF kind hash ok apart settled) (h : Nat) :
    VisitOutcome kind hash (WF kind hash ok apart settled) hit res stay h t
      (t.visit kind op h) := by
  unfold visit
  dsimp only
  split
  next x b' hfound =>
    obtain ⟨hsound, hhit, rest, hrep⟩ := hop.setBucket hwf.table1 hfound
    have hvisited := hrep.visited1
    refine .found (hwf.withTable1 hsound hrep.size
      (hvisited.counted (hop.stay_le x) hwf.counted) fun i hi v hv => ?_) hhit hvisited
    obtain ⟨u, hu, huv, happly⟩ := hop.mem_replaced hrep hv
    have hmoving := hwf.moving i hi
    rw [huv]
    exact ⟨hmoving.moved u hu, fun b hb hmod => happly b (hmoving.cross u hu b hb hmod)⟩
  next hmiss1 =>
    have h1 := hop.not_hit hwf.table1 hmiss1
    split
    next hrehashing =>
      obtain ⟨i, hindex⟩ := Option.isSome_iff_exists.mp hrehashing
      have hmoving := hwf.moving i hindex
      split
      next x b' hfound =>
        obtain ⟨hsound, hhit, rest, hrep⟩ := hop.setBucket hmoving.table2 hfound
        have hvisited := hrep.visited2
        refine .found (hwf.withTable2 hsound hindex hrep.size
          (hvisited.counted (hop.stay_le x) hwf.counted) fun v hv => ?_) hhit hvisited
        obtain ⟨u, hu, huv, happly⟩ := hop.mem_replaced hrep hv
        rw [huv]
        refine ⟨fun hsettled => hmoving.settled_lt hsettled u hu, fun a ha hmod => ?_⟩
        exact law.apart_symm (happly a (law.apart_symm (hmoving.cross a ha u hu hmod)))
      next hmiss2 =>
        have h2 := hop.not_hit hmoving.table2 hmiss2
        refine .missed fun v hv => ?_
        exact (mem_append.mp hv).elim (h1 v) (h2 v)
    next hidle =>
      refine .missed ?_
      rwa [entries_eq, values_eq_nil_of_table_nil
        (hwf.idle (Option.not_isSome_iff_eq_none.mp hidle)), append_nil]

/-- A visit with the hash of a stored value finds that value, or one that is
apart from it.  This needs settled tables: otherwise the value could be in the
second table and another one with the same key in its old bucket. -/
theorem visit_stored (law : kind.Lawful ok apart)
    (hop : LawfulOp kind hash ok apart op hit res stay) (hwf : t.WF kind hash ok apart True)
    (hv : v ∈ t.entries kind) (hhit : hit v) (hvisit : t.visit kind op (hash v) = (some x, t')) :
    res x = v ∨ apart (res x) v := by
  have hbucket : ∀ {t : Table B} {b' : B}, t.Sound kind hash ok →
      op (t.bucket kind.empty (t.bucketIndex (hash v))) = (some x, b') →
        (res x ∈ t.values kind ∧ hash (res x) % t.size = hash v % t.size) ∧
          (v ∈ t.values kind → res x = v ∨ apart (res x) v) := by
    intro t b' hsound hfound
    obtain ⟨hok, hplaced⟩ := hsound.bucketOf (hash v)
    obtain ⟨-, -, rest, hperm, -⟩ := hop.found hok hfound
    refine ⟨(hplaced _).mp (hperm.mem_iff.mpr mem_cons_self), fun hv => ?_⟩
    have hpairwise := (hperm.pairwise_iff law.apart_symm).mp (law.pairwise_apart hok)
    rcases mem_cons.mp (hperm.mem_iff.mp ((hplaced v).mpr ⟨hv, rfl⟩)) with heq | hrest
    · exact .inl heq.symm
    · exact .inr ((pairwise_cons.mp hpairwise).1 v hrest)
  rw [entries_eq, mem_append] at hv
  unfold visit at hvisit
  dsimp only at hvisit
  split at hvisit
  · rename_i y b' hfound
    cases hvisit
    rcases hv with hv | hv
    · exact (hbucket hwf.table1 hfound).2 hv
    · cases hindex : t.rehashMoveBucketIndex with
      | none => simp [values_eq_nil_of_table_nil (hwf.idle hindex)] at hv
      | some i =>
        have hmoving := hwf.moving i hindex
        obtain ⟨hmem, hplaced⟩ := (hbucket hwf.table1 hfound).1
        have hle := hmoving.moved _ hmem
        have hgt := hmoving.settled_lt trivial v hv
        omega
  · rename_i hmiss
    split at hvisit
    · rename_i hrehashing
      split at hvisit
      · rename_i y b' hfound
        cases hvisit
        obtain ⟨i, hi⟩ := Option.isSome_iff_exists.mp hrehashing
        rcases hv with hv | hv
        · exact absurd hhit (hop.not_hit hwf.table1 hmiss v hv rfl)
        · exact (hbucket (hwf.moving i hi).table2 hfound).2 hv
      · cases hvisit
    · cases hvisit

/-! ## Finding and extracting -/

/-- The two ways a search can end.  `distinct` is what is then known of every
stored entry, `hit` what is known of the one that was found. -/
inductive FindOutcome (kind : BucketKind V B N) (wf : Tables B → Prop) (distinct hit : V → Prop)
    (t : Tables B) : Option V × Tables B → Prop where
  | missed {t' : Tables B} (wf' : wf t') (same : SameEntries kind t t')
      (fresh : ∀ v ∈ t.entries kind, distinct v) : FindOutcome kind wf distinct hit t (none, t')
  | found {v : V} {t' : Tables B} (wf' : wf t') (same : SameEntries kind t t')
      (mem : v ∈ t.entries kind) (hits : hit v) : FindOutcome kind wf distinct hit t (some v, t')

@[inherit_doc FindOutcome]
inductive ExtractOutcome (kind : BucketKind V B N) (wf : Tables B → Prop)
    (distinct hit : V → Prop) (res : X → V) (t : Tables B) : Option X × Tables B → Prop where
  | missed {t' : Tables B} (wf' : wf t') (same : SameEntries kind t t')
      (fresh : ∀ v ∈ t.entries kind, distinct v) :
      ExtractOutcome kind wf distinct hit res t (none, t')
  | extracted {x : X} {t' : Tables B} (wf' : wf t') (size : t'.size + 1 = t.size)
      (hits : hit (res x)) (perm : (t.entries kind) ~ (res x :: t'.entries kind)) :
      ExtractOutcome kind wf distinct hit res t (some x, t')

section Outcomes

variable {wellFormed : Tables B → Prop} {distinct distinct' hit' : V → Prop}
  {r : Option X × Tables B} (hdistinct : ∀ v, distinct v → distinct' v)
  (hhit : ∀ v, hit v → hit' v)

include hdistinct hhit in
theorem FindOutcome.imp {r : Option V × Tables B}
    (h : FindOutcome kind wellFormed distinct hit t r) :
    FindOutcome kind wellFormed distinct' hit' t r := by
  cases h with
  | missed wf' same fresh => exact .missed wf' same fun v hv => hdistinct v (fresh v hv)
  | found wf' same mem hits => exact .found wf' same mem (hhit _ hits)

include hdistinct hhit in
theorem ExtractOutcome.imp (h : ExtractOutcome kind wellFormed distinct hit res t r) :
    ExtractOutcome kind wellFormed distinct' hit' res t r := by
  cases h with
  | missed wf' same fresh => exact .missed wf' same fun v hv => hdistinct v (fresh v hv)
  | extracted wf' size hits perm => exact .extracted wf' size (hhit _ hits) perm

theorem FindOutcome.kept {r : Option V × Tables B}
    (h : FindOutcome kind wellFormed distinct hit t r) :
    wellFormed r.2 ∧ SameEntries kind t r.2 := by
  cases h with
  | missed wf' same fresh => exact ⟨wf', same⟩
  | found wf' same mem hits => exact ⟨wf', same⟩

theorem ExtractOutcome.same_or_removed (h : ExtractOutcome kind wellFormed distinct hit res t r) :
    r.1 = none ∧ SameEntries kind t r.2 ∨
      ∃ x, r.1 = some x ∧ r.2.size + 1 = t.size ∧
        (t.entries kind) ~ (res x :: r.2.entries kind) := by
  cases h with
  | missed wf' same fresh => exact .inl ⟨rfl, same⟩
  | extracted wf' size hits perm => exact .inr ⟨_, rfl, size, perm⟩

theorem ExtractOutcome.wf (h : ExtractOutcome kind wellFormed distinct hit res t r) :
    wellFormed r.2 := by
  cases h with
  | missed wf' same fresh => exact wf'
  | extracted wf' size hits perm => exact wf'

end Outcomes

theorem WF.setUsed (hwf : t.WF kind hash ok apart settled) {used : Nat}
    (hused : (t.entries kind).length ≤ used) :
    (t.setUsed used).WF kind hash ok apart settled :=
  hwf.withTable1 (hwf.table1.withUsed used) rfl hused fun i hi v hv =>
    ⟨(hwf.moving i hi).moved v hv, (hwf.moving i hi).cross v hv⟩

section Search

variable (law : kind.Lawful ok apart) (hwf : t.WF kind hash ok apart settled) (h : Nat)

include law hwf

theorem find_outcome {op : B → Option V × B}
    (hop : LawfulOp kind hash ok apart op hit id fun v => [v]) :
    FindOutcome kind (WF kind hash ok apart settled) (fun v => hash v = h → ¬ hit v) hit t
      (t.find kind hash op h) := by
  have hstep := hwf.incrementalRehash_spec law
  have hout := visit_outcome law hop hstep.1 h
  unfold find
  generalize (t.incrementalRehash kind hash).visit kind op h = r at hout ⊢
  cases hout with
  | missed fresh =>
    exact .missed hstep.1 hstep.2 fun v hv => fresh v (hstep.2.entries_perm.mem_iff.mpr hv)
  | found wf' hits visited =>
    obtain ⟨rest, hold, hnew⟩ := visited.replaced
    have hmem := hstep.2.entries_perm.mem_iff.mp (hold.mem_iff.mpr mem_cons_self)
    exact .found wf' (hstep.2.trans ⟨hnew.trans hold.symm, visited.size⟩) hmem hits

theorem extract_outcome (hop : LawfulOp kind hash ok apart op hit res fun _ => []) :
    ExtractOutcome kind (WF kind hash ok apart settled) (fun v => hash v = h → ¬ hit v) hit res t
      (t.extract kind hash op h) := by
  have hstep := hwf.incrementalRehash_spec law
  have hout := visit_outcome law hop hstep.1 h
  unfold extract
  generalize (t.incrementalRehash kind hash).visit kind op h = r at hout ⊢
  cases hout with
  | missed fresh =>
    exact .missed hstep.1 hstep.2 fun v hv => fresh v (hstep.2.entries_perm.mem_iff.mpr hv)
  | @found x t' wf' hits visited =>
    obtain ⟨rest, hold, hnew⟩ := visited.replaced
    have hperm : (t.entries kind) ~ (res x :: t'.entries kind) :=
      hstep.2.entries_perm.symm.trans (hold.trans (hnew.symm.cons (res x)))
    have hsize : t'.size = t.size := visited.size.trans hstep.2.size
    have hlength := hperm.length_eq
    have hcounted := hwf.counted
    rw [length_cons] at hlength
    refine .extracted (wf'.setUsed ?_) ?_ hits hperm
    · omega
    · change t'.size - 1 + 1 = t.size
      omega

end Search

/-! ## Adding an entry -/

/-- The entry `v` was added and nothing else changed. -/
structure Added (kind : BucketKind V B N) (t t' : Tables B) (v : V) : Prop where
  entries_perm : (t'.entries kind) ~ (v :: t.entries kind)
  size : t'.size = t.size + 1

theorem WF.addTo1 (hwf : t.WF kind hash ok apart settled) (hok : ok b')
    (hvalues : (kind.values b') ~
      (v :: kind.values (t.table1.bucket kind.empty (t.table1.bucketIndex (hash v)))))
    (hmoved : ∀ i, t.rehashMoveBucketIndex = some i → i ≤ t.table1.bucketIndex (hash v) ∧
        ∀ b ∈ t.table2.values kind, hash v % t.table2.size = hash b % t.table2.size → apart v b) :
    (t.addTo1 (hash v) b').WF kind hash ok apart settled ∧
      Added kind t (t.addTo1 (hash v) b') v := by
  obtain ⟨hsound, hperm⟩ := Table.Sound.add hwf.table1 hok hvalues
  have hadded : Added kind t (t.addTo1 (hash v) b') v := ⟨hperm.append_right _, rfl⟩
  refine ⟨hwf.withTable1 (hsound.withUsed _) (size_setBucket _ _ _) ?_ ?_, hadded⟩
  · exact le_trans (le_of_eq hadded.entries_perm.length_eq) (succ_le_succ hwf.counted)
  · intro i hi w hw
    rcases mem_cons.mp (hperm.mem_iff.mp hw) with rfl | hw
    · rw [← hwf.table1.bucketIndex_eq]
      exact hmoved i hi
    · exact ⟨(hwf.moving i hi).moved w hw, (hwf.moving i hi).cross w hw⟩

theorem WF.addTo2 (hwf : t.WF kind hash ok apart settled)
    (hindex : t.rehashMoveBucketIndex = some i) (hok : ok b') (hvalues : (kind.values b') ~
      (v :: kind.values (t.table2.bucket kind.empty (t.table2.bucketIndex (hash v)))))
    (hcross : ∀ a ∈ t.table1.values kind,
      hash a % t.table2.size = hash v % t.table2.size → apart a v)
    (hsettled : settled → t.table1.bucketIndex (hash v) < i) :
    (t.addTo2 (hash v) b').WF kind hash ok apart settled ∧
      Added kind t (t.addTo2 (hash v) b') v := by
  have hmoving := hwf.moving i hindex
  obtain ⟨hsound, hperm⟩ := Table.Sound.add hmoving.table2 hok hvalues
  have hadded : Added kind t (t.addTo2 (hash v) b') v :=
    ⟨(hperm.append_left _).trans perm_middle, rfl⟩
  have hused := hwf.setUsed (le_succ_of_le hwf.counted)
  refine ⟨hused.withTable2 hsound hindex (size_setBucket _ _ _) ?_ ?_, hadded⟩
  · exact le_trans (le_of_eq hadded.entries_perm.length_eq) (succ_le_succ hwf.counted)
  · intro w hw
    rcases mem_cons.mp (hperm.mem_iff.mp hw) with rfl | hw
    · exact ⟨fun hs => hwf.table1.bucketIndex_eq _ ▸ hsettled hs, hcross⟩
    · exact ⟨fun hs => hmoving.settled_lt hs w hw, fun a ha => hmoving.cross a ha w hw⟩

/-- The two ways an insertion can end.  `distinct` is what is then known of
every stored entry and the new one, `equal` what is known of the duplicate. -/
inductive InsertOutcome (kind : BucketKind V B N) (wf : Tables B → Prop)
    (distinct equal : V → V → Prop) (elem : V) (t : Tables B) :
    Bool × V × Tables B → Prop where
  | inserted {t' : Tables B} (wf' : wf t') (added : Added kind t t' elem)
      (fresh : ∀ v ∈ t.entries kind, distinct v elem) :
      InsertOutcome kind wf distinct equal elem t (true, elem, t')
  | refused {duplicate : V} {t' : Tables B} (wf' : wf t')
      (same : SameEntries kind t t') (mem : duplicate ∈ t.entries kind)
      (eq : equal duplicate elem) :
      InsertOutcome kind wf distinct equal elem t (false, duplicate, t')

section

variable {wellFormed : Tables B → Prop} {distinct equal : V → V → Prop} {elem : V}
  {r : Bool × V × Tables B}

theorem InsertOutcome.of_same (hsame : SameEntries kind t t')
    (hout : InsertOutcome kind wellFormed distinct equal elem t' r) :
    InsertOutcome kind wellFormed distinct equal elem t r := by
  cases hout with
  | inserted wf' added fresh =>
    apply InsertOutcome.inserted wf'
    · exact ⟨added.entries_perm.trans (hsame.entries_perm.cons elem),
        by rw [added.size, hsame.size]⟩
    · intro v hv
      exact fresh v (hsame.entries_perm.mem_iff.mpr hv)
  | refused wf' same mem eq =>
    exact .refused wf' (hsame.trans same) (hsame.entries_perm.mem_iff.mp mem) eq

theorem InsertOutcome.imp {distinct' equal' : V → V → Prop}
    (hdistinct : ∀ v, distinct v elem → distinct' v elem)
    (hequal : ∀ v, equal v elem → equal' v elem)
    (hout : InsertOutcome kind wellFormed distinct equal elem t r) :
    InsertOutcome kind wellFormed distinct' equal' elem t r := by
  cases hout with
  | inserted wf' added fresh => exact .inserted wf' added fun v hv => hdistinct v (fresh v hv)
  | refused wf' same mem eq => exact .refused wf' same mem (hequal _ eq)

theorem InsertOutcome.wf (hout : InsertOutcome kind wellFormed distinct equal elem t r) :
    wellFormed r.2.2 := by
  cases hout with
  | inserted wf' added fresh => exact wf'
  | refused wf' same mem eq => exact wf'

end

/-! ## Separation of equal keys -/

theorem Table.Sound.pairwise_apart
    (law : kind.Lawful ok apart) {t : Table B} (hsound : t.Sound kind hash ok) :
    (t.values kind).Pairwise fun a b => hash a = hash b → apart a b := by
  refine pairwise_flatMap.mpr ⟨?_, pairwise_iff_getElem.mpr ?_⟩
  · intro b hb
    refine (law.pairwise_apart (hsound.buckets b hb)).imp ?_
    intro x y happly _
    exact happly
  · intro i j hi hj hij x hx y hy hhash
    have hplacedx := hsound.placed i _ (getElem?_eq_getElem hi) x hx
    have hplacedy := hsound.placed j _ (getElem?_eq_getElem hj) y hy
    grind

theorem WF.pairwise_apart (law : kind.Lawful ok apart) (hwf : t.WF kind hash ok apart settled) :
    (t.entries kind).Pairwise fun a b => hash a = hash b → apart a b := by
  have h1 := Table.Sound.pairwise_apart law hwf.table1
  rw [entries_eq]
  cases hindex : t.rehashMoveBucketIndex with
  | none =>
    rwa [values_eq_nil_of_table_nil (hwf.idle hindex), append_nil]
  | some i =>
    have hmoving := hwf.moving i hindex
    have h2 := Table.Sound.pairwise_apart law hmoving.table2
    refine pairwise_append.mpr ⟨h1, h2, fun a ha b hb hhash => ?_⟩
    exact hmoving.cross a ha b hb (by rw [hhash])

/-! ## Calls that leave the tables as they are -/

theorem incrementalRehash_idle (hindex : t.rehashMoveBucketIndex = none) :
    t.incrementalRehash kind hash = t := by
  unfold incrementalRehash
  rw [hindex]

end Tables

end Mmkv
