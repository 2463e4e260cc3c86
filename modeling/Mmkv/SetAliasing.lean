import Mmkv.TableGrowth
import Mmkv.TableIterators

/-!
# Set operations on one set

The operands of a set operation may be the same set, and the destination of a storing one may
be an operand.  A loop over a set then searches in it, which brings every member that it finds
to the front of its bucket, or inserts into it, which moves the running rehash on.
-/

namespace Mmkv

open IncrementalDoubling List Function HashDict HashTable SetHeap Table Nat

/-! ## Insertions that find their member -/

/-- No rehash is running, and where members are inserted none will start. -/
def HashTable.Quiet (inserts : Prop) (t : Tables (List Str)) : Prop :=
  t.rehashMoveBucketIndex = none ∧ (inserts → t.table1.used < t.table1.size)

namespace HashDict

variable {hash : Str → Nat} {s s' : StrSet hash}

theorem mem_entries_same (h : Same s s') (m : Str) : m ∈ s'.entries ↔ m ∈ s.entries := by
  rw [← lookup_isSome_iff, ← lookup_isSome_iff, h.lookup]

variable {m : Str}

theorem mem_insert (s : StrSet hash) (m x : Str) :
    x ∈ (s.insert m).2.entries ↔ x ∈ s.entries ∨ x = m := by
  rw [← lookup_isSome_iff, ← lookup_isSome_iff]
  cases hlookup : s.lookup (id m) with
  | some v =>
    obtain ⟨-, -, hsame⟩ := insertWithDuplicate_some m hlookup
    change ((s.insertWithDuplicate m).2.2.lookup x).isSome ↔ _
    rw [hsame.lookup]
    grind
  | none =>
    obtain ⟨-, -, hset, -⟩ := insertWithDuplicate_none m hlookup
    change ((s.insertWithDuplicate m).2.2.lookup x).isSome ↔ _
    rw [hset]
    by_cases hx : x = m
    · subst hx
      exact iff_of_true (Option.isSome_of_mem (KeyedStore.set_self id s.lookup x)) (.inr rfl)
    · rw [KeyedStore.set_of_ne id s.lookup hx]
      simp [hx]

end HashDict

namespace SetHeap

variable {hash : Str → Nat} {h h' : SetHeap hash} {dest : Str}

/-! ## The destination -/

/-- The set of `dest` has got the members with a property, all other sets are as before. -/
structure Gains (dest : Str) (S : Str → Prop) (h h' : SetHeap hash) : Prop where
  others : SameSetsOff dest h h'
  members : ∀ m, m ∈ (h'.sets dest).entries ↔ m ∈ (h.sets dest).entries ∨ S m

variable {S S' : Str → Prop} {h'' : SetHeap hash}

theorem Gains.of_sameSets (hg : Gains dest S h h')
    (hsame : SameSets h' h'') : Gains dest S h h'' :=
  ⟨fun k hk => (hg.others k hk).trans (hsame k), fun m =>
    (mem_entries_same (hsame dest) m).trans (hg.members m)⟩

theorem Gains.refl (dest : Str) (h : SetHeap hash) : Gains dest (fun _ => False) h h :=
  ⟨fun _ _ => .refl _, fun _ => (or_iff_left id).symm⟩

theorem Gains.congr (hg : Gains dest S h h')
    (hiff : ∀ m, m ∈ (h.sets dest).entries ∨ S m ↔ m ∈ (h.sets dest).entries ∨ S' m) :
    Gains dest S' h h' :=
  ⟨hg.others, fun m => (hg.members m).trans (hiff m)⟩

theorem Gains.trans (hg : Gains dest S h h')
    (hg' : Gains dest S' h' h'') : Gains dest (fun x => S x ∨ S' x) h h'' :=
  ⟨fun k hk => (hg.others k hk).trans (hg'.others k hk), fun m => by
    rw [hg'.members, hg.members, or_assoc]⟩

theorem Gains.store (hg : Gains dest S h h') (m : Str) :
    Gains dest (fun x => S x ∨ x = m) h (h'.store dest m) := by
  constructor
  · intro k hk
    have hset : (h'.store dest m).sets k = h'.sets k := update_of_ne hk _ _
    rw [hset]
    exact hg.others k hk
  · intro x
    have hset : (h'.store dest m).sets dest = ((h'.sets dest).insert m).2 := update_self _ _ _
    rw [hset, mem_insert, hg.members, or_assoc]

variable {k : Str}

/-- A member that is searched in a set, which may be the destination itself. -/
theorem Gains.onFound {S T : Str → Prop} (hg : Gains dest S h h') {found : Bool}
    (hT : ∀ x, T x ↔ (x ∈ (h.sets k).entries ↔ found = true)) (hS : ∀ x, S x → T x) (m : Str) :
    Gains dest (fun x => S x ∨ (x = m ∧ T x)) h (h'.onFound (.store dest) k found m) := by
  have hfind : (h'.search k m).1 = true ↔ m ∈ (h'.sets k).entries := by
    rw [← lookup_isSome_iff, ← (find_spec m (h'.sets k)).1]
    rfl
  have hmem : m ∈ (h'.sets k).entries ↔ m ∈ (h.sets k).entries ∨ (k = dest ∧ S m) := by
    by_cases hk : k = dest
    · subst hk
      simp [hg.members]
    · simp [mem_entries_same (hg.others k hk), hk]
  have hg' := hg.of_sameSets (search_sameSets k m h')
  have hT := hT m
  have hS := hS m
  unfold SetHeap.onFound
  dsimp only
  split
  next heq =>
    rw [← heq, hfind, hmem] at hT
    refine (hg'.store m).congr fun x => ?_
    grind
  next hne =>
    have hnot : ¬ (m ∈ (h'.sets k).entries ↔ found = true) := by
      rwa [← hfind, ← Bool.eq_iff_iff]
    refine hg'.congr fun x => ?_
    grind

variable {body : Str → SetHeap hash → SetHeap hash}
  {f g : Nat → SetHeap hash → Option (SetHeap hash)} {T : Str → Prop}

theorem Gains.foldl (hbody : ∀ S m h', (∀ x, S x → T x) → Gains dest S h h' →
      Gains dest (fun x => S x ∨ (x = m ∧ T x)) h (body m h'))
    (l : List Str) (hS : ∀ x, S x → T x) (hg : Gains dest S h h') :
    Gains dest (fun x => S x ∨ (x ∈ l ∧ T x)) h (l.foldl (fun h m => body m h) h') := by
  induction l generalizing S h' with
  | nil => exact hg.congr fun m => by simp
  | cons m l ih => grind

/-! ## Loops that come back -/

def Returns (f : Nat → Option (SetHeap hash)) (h' : SetHeap hash) : Prop :=
  ∃ n, ∀ fuel, n ≤ fuel → f fuel = some h'

/-- A run that comes back and adds the members with a property to the set of `dest`. -/
def Adds (dest : Str) (S : Str → Prop) (f : Nat → SetHeap hash → Option (SetHeap hash))
    (h : SetHeap hash) : Prop :=
  ∃ h', Returns (fun fuel => f fuel h) h' ∧ Gains dest S h h'

theorem Adds.congr (ha : Adds dest S f h) (hrun : ∀ fuel, g fuel h = f fuel h)
    (hiff : ∀ m, m ∈ (h.sets dest).entries ∨ S m ↔ m ∈ (h.sets dest).entries ∨ S' m) :
    Adds dest S' g h := by
  obtain ⟨h', ⟨n, hreturns⟩, hgains⟩ := ha
  exact ⟨h', ⟨n, fun fuel hfuel => (hrun fuel).trans (hreturns fuel hfuel)⟩, hgains.congr hiff⟩

theorem Adds.bind (ha : Adds dest S f h)
    (hb : ∀ h', Returns (fun fuel => f fuel h) h' → Gains dest S h h' → Adds dest S' g h') :
    Adds dest (fun x => S x ∨ S' x) (fun fuel h => (f fuel h).bind (g fuel)) h := by
  obtain ⟨h1, hreturns1, hgains1⟩ := ha
  obtain ⟨h2, ⟨n2, hreturns2⟩, hgains2⟩ := hb h1 hreturns1 hgains1
  obtain ⟨n1, hreturns1⟩ := hreturns1
  refine ⟨h2, ⟨n1 + n2, fun fuel hfuel => ?_⟩, hgains1.trans hgains2⟩
  grind

end SetHeap

namespace SetHeap

variable {hash : Str → Nat} {h h' : SetHeap hash} {dest : Str} {k k' : Str}

end SetHeap

namespace HashDict

variable {hash : Str → Nat} {s : StrSet hash} {inserts : Prop}

/-- The bucket in which a member is searched while no rehash is running. -/
theorem find_idle (hidle : s.tables.rehashMoveBucketIndex = none) {i : Nat}
    (hi : i < s.tables.table1.size) (hm : m ∈ s.tables.table1.bucket [] i) :
    ∃ l, (s.tables.table1.bucket [] i).Perm (m :: l) ∧
      (s.find m).2.tables =
        { s.tables with table1 := s.tables.table1.setBucket i (m :: l) } := by
  have hindex : s.tables.table1.bucketIndex (hash m) = i := by
    rw [s.wf.table1.bucketIndex_eq]
    exact s.wf.table1.placed i _ (Table.getElem?_bucket [] hi) m hm
  cases hextract : Slist.extractNodeIf (fun v => decide (id v = m))
      (s.tables.table1.bucket [] i) with
  | mk found l =>
    cases found with
    | none =>
      have hnone := (Slist.extractNodeIf_eq_none hextract).2 m hm
      simp at hnone
    | some v =>
      obtain ⟨hv, hperm, -⟩ := Slist.extractNodeIf_eq_some hextract
      obtain rfl : v = m := of_decide_eq_true hv
      refine ⟨l, hperm, ?_⟩
      have hvisit : (s.find v).2.tables = ((s.tables.incrementalRehash kind
          (hash ∘ id)).visit kind (moveToFront id v) (hash v)).2 := rfl
      rw [hvisit, Tables.incrementalRehash_idle hidle]
      simp only [Tables.visit, kind_empty, hindex, moveToFront, hextract]

theorem mem_bucket_idle (hidle : s.tables.rehashMoveBucketIndex = none)
    (hm : m ∈ s.entries) :
    m ∈ s.tables.table1.bucket [] (s.tables.table1.bucketIndex (hash m)) := by
  rw [s.wf.table1.bucketIndex_eq]
  refine (mem_values_iff_bucket s.wf.table1).1 ?_
  have hentries : s.entries = s.tables.table1.values kind ++
      s.tables.table2.table.flatMap id := rfl
  rwa [hentries, s.wf.idle hidle, flatMap_nil, append_nil] at hm

theorem quiet_find (hquiet : Quiet inserts s.tables) (hm : m ∈ s.entries) :
    Quiet inserts (s.find m).2.tables := by
  obtain ⟨l, -, htables⟩ := find_idle hquiet.1 (s.wf.table1.bucketIndex_lt (hash m))
    (mem_bucket_idle hquiet.1 hm)
  rw [htables]
  refine ⟨hquiet.1, fun h => ?_⟩
  have hroom := hquiet.2 h
  rwa [← size_setBucket] at hroom

end HashDict

theorem HashTable.scan_of_bucket {V : Type} {t : Tables (List V)} {i j : Nat} (hij : i ≤ j)
    (hj : j < t.table1.size) (hne : t.table1.bucket [] j ≠ []) :
    ∃ i' v, scan t 0 i = ⟨0, i', some v⟩ ∧ i' ≤ j ∧ v ∈ t.table1.bucket [] i' := by
  cases hfirst : firstBucket t.table1 i with
  | none => exact absurd (firstBucket_none hfirst hij hj) hne
  | some i' =>
    obtain ⟨-, v, b, hb⟩ := firstBucket_some hfirst
    refine ⟨i', v, ?_, ?_, by rw [hb]; exact mem_cons_self⟩
    · simp [scan, frontFrom, hfirst, hb]
    · by_contra hlt
      have hbefore := (List.find?_range'_eq_some.1 hfirst).2.2 j hij (Nat.lt_of_not_le hlt)
      grind

namespace SetHeap

variable {hash : Str → Nat} {h : SetHeap hash} {k dest : Str} {inserts : Prop}
  {cb : Str → SetHeap hash → SetHeap hash}

/-- The callback leaves a quiet set, if it gets one of its members. -/
def Leaves (cb : Str → SetHeap hash → SetHeap hash) (k : Str) (inserts : Prop) : Prop :=
  ∀ m h, Quiet inserts (h.sets k).tables → m ∈ (h.sets k).entries →
    ((cb m h).sets k).tables = (h.sets k).tables

variable (hcb : Leaves cb k inserts) {it : HashTable.Iterator Str} {j : Nat}

include hcb

section

variable (hquiet : Quiet inserts (h.sets k).tables)

include hquiet

theorem tables_onFound_self (found : Bool)
    (hm : m ∈ (h.sets k).entries) :
    ((h.onFound cb k found m).sets k).tables = ((h.sets k).find m).2.tables := by
  have hsearch : (h.search k m).2.sets k = ((h.sets k).find m).2 := update_self _ _ _
  unfold onFound
  dsimp only
  split
  · rw [← hsearch]
    refine hcb m _ ?_ ((mem_entries_same (search_sameSets k m h k) m).2 hm)
    rw [hsearch]
    exact quiet_find hquiet hm
  · rw [hsearch]

theorem Leaves.keep (hm : m ∈ (h.sets k).entries) (h' : SetHeap hash)
    (htables : (h'.sets k).tables = (h.sets k).tables) :
    ((cb m h').sets k).tables = (h.sets k).tables := by
  rw [← htables] at hquiet ⊢
  refine hcb m h' hquiet ?_
  rw [HashDict.entries, htables]
  exact hm

end

omit hcb

/-- An iterator before the end of a bucket with two members, in a set that is not rehashed. -/
structure Stuck (j : Nat) (t : Tables (List Str)) (it : HashTable.Iterator Str) : Prop where
  idle : t.rehashMoveBucketIndex = none
  lt : j < t.table1.size
  long : 2 ≤ (t.table1.bucket [] j).length
  tableIndex : it.tableIndex = 0
  le : it.bucketIndex ≤ j
  slot : ∃ m, it.slot = some m ∧ m ∈ t.table1.bucket [] it.bucketIndex

/-- The search brings the member to the front, so it has a successor again. -/
theorem Stuck.step {s : StrSet hash} (hs : Stuck j s.tables it) (hslot : it.slot = some m) :
    Stuck j (s.find m).2.tables (increment (s.find m).2.tables it) := by
  obtain ⟨m', hslot', hm⟩ := hs.slot
  obtain rfl : m' = m := Option.some.inj (hslot'.symm.trans hslot)
  have hi := lt_of_le_of_lt hs.le hs.lt
  obtain ⟨l, hperm, htables⟩ := find_idle hs.idle hi hm
  have hidle : (s.find m').2.tables.rehashMoveBucketIndex = none := by
    rw [htables]
    exact hs.idle
  have htable : (s.find m').2.tables.table1 =
      s.tables.table1.setBucket it.bucketIndex (m' :: l) := by rw [htables]
  generalize (s.find m').2 = s' at hidle htable ⊢
  have hsize : s'.tables.table1.size = s.tables.table1.size := by
    rw [htable, size_setBucket]
  have hself : s'.tables.table1.bucket [] it.bucketIndex = m' :: l := by
    rw [htable]
    exact bucket_setBucket_self [] hi _
  have hlong : 2 ≤ (s'.tables.table1.bucket [] j).length := by
    by_cases hj : j = it.bucketIndex
    · rw [hj, hself, ← hperm.length_eq, ← hj]
      exact hs.long
    · rw [htable, bucket_setBucket_of_ne [] hj]
      exact hs.long
  have hlt : j < s'.tables.table1.size := hsize ▸ hs.lt
  have hnext : (s'.tables.table1.table ++ s'.tables.table2.table).findSome?
      (nextInBucket m') = l.head? := by
    have hfront := bucket_mem [] (hsize ▸ hi : it.bucketIndex < s'.tables.table1.size)
    rw [hself] at hfront
    obtain ⟨bs1, bs2, hsplit⟩ := append_of_mem (mem_append_left s'.tables.table2.table hfront)
    have hnodup : (s'.tables.table1.table ++ s'.tables.table2.table).flatten.Nodup := by
      rw [← entries_eq_flatten]
      exact s'.nodup_entries
    exact (@behind_of_split _ _ _ bs1 bs2 [] l m' hsplit hnodup).2
  unfold increment
  simp only [hslot, hnext]
  cases l with
  | cons w l =>
    refine ⟨hidle, hlt, hlong, hs.tableIndex, hs.le, w, rfl, ?_⟩
    grind
  | nil =>
    -- The bucket has no other member, so it is not the one with two.
    have hne : it.bucketIndex ≠ j := by grind
    obtain ⟨i', w, hscan, hle, hw⟩ := scan_of_bucket
      (lt_of_le_of_ne hs.le hne) hlt (ne_nil_of_length_pos (lt_of_succ_lt hlong))
    rw [hs.tableIndex]
    rw [hscan]
    exact ⟨hidle, hlt, hlong, rfl, hle, w, rfl, hw⟩

include hcb

theorem Stuck.forEach (found : Bool) (fuel : Nat)
    (hquiet : Quiet inserts (h.sets k).tables) (hs : Stuck j (h.sets k).tables it) :
    forEach (fun h => (h.sets k).tables) (onFound cb k found) fuel it h = none := by
  induction fuel generalizing h it with
  | zero => rfl
  | succ fuel ih =>
    obtain ⟨m, hslot, hm⟩ := hs.slot
    replace hm : m ∈ (h.sets k).entries := by
      rw [HashDict.entries, entries_eq_flatten]
      have hb := bucket_mem [] (lt_of_le_of_lt hs.le hs.lt)
      exact mem_flatten_of_mem (mem_append_left _ hb) hm
    unfold forEach
    simp only [hslot]
    have hstep := hs.step hslot
    have hnext := quiet_find hquiet hm
    rw [← tables_onFound_self hcb hquiet found hm] at hstep hnext
    exact ih hnext hstep

end SetHeap

namespace SetOp

variable {hash : Str → Nat} {h : SetHeap hash} {k dest : Str}

/-- While a rehash is running, members are met twice and others not at all, although no bucket
has two. -/
example :
    let s : StrSet (fun s => (s.headD 0).toNat) :=
      [[4], [5], [6], [7], [0]].foldl (fun s m => (s.insert m).2) HashDict.new
    (∀ b ∈ s.tables.table1.table ++ s.tables.table2.table, b.length ≤ 1) ∧
      (SetOp.and.eval collect [1] [1] 8 ⟨fun _ => s, []⟩).map members =
        some [[5], [6], [7], [4], [5], [6], [7]] := by
  decide +kernel

/-- A rehash is running here too, and every member is met once. -/
example :
    let s : StrSet (fun s => (s.headD 0).toNat) :=
      [[4], [1], [2], [3], [5]].foldl (fun s m => (s.insert m).2) HashDict.new
    (SetOp.and.eval collect [1] [1] 8 ⟨fun _ => s, []⟩).map members =
      some [[1], [2], [3], [4], [5]] := by
  decide +kernel

end SetOp

end Mmkv
