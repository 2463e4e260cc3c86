import Mmkv.CStrings
import Mmkv.HashTable

/-!
# Dictionaries and sets of values

`Dictionary` and `HashSet` are hash tables with list buckets.  A `HashDict` is
such a table in order.  What it stores is read off by `lookup`; the calls are
described by what they answer and by the lookup and the size they leave.

The set operations walk over one table with an iterator while they search, and
in the storing forms change, tables that may be the same one.  They run on a
heap of named sets, so that two names for one set are one table.
-/

namespace Mmkv

open List HashTable Tables

open scoped List

/-! ## Popping some element -/

namespace HashTable

variable {K V : Type} (key : V → K) (hash : K → Nat)

/-- The first bucket from `j` on that is not empty. -/
def firstBucket (t : Table (List V)) (j : Nat) : Option Nat :=
  (List.range' j (t.size - j)).find? fun i => !(t.bucket [] i).isEmpty

def popFront (t : Table (List V)) (j : Nat) : Table (List V) :=
  t.setBucket j (t.bucket [] j).tail

def eraseRandom (t : Tables (List V)) : Bool × Tables (List V) :=
  let t := incrementalRehash key hash t
  match firstBucket t.table1 (t.rehashMoveBucketIndex.getD 0) with
  | some j => (true, { t with table1 := popFront t.table1 j })
  | none =>
    if t.inRehashing then
      match firstBucket t.table2 0 with
      | some j => (true, { t with table2 := popFront t.table2 j })
      | none => (false, t)
    else (false, t)

variable {key hash}

def popNode : List V → Option V × List V
  | [] => (none, [])
  | v :: b => (some v, b)

theorem kind_empty : (kind : BucketKind V (List V) V).empty = [] := rfl

theorem popNode_lawful : Tables.LawfulOp kind (hash ∘ key) (BucketOk key) (Apart key) popNode
      (fun _ => True) id (fun _ : V => []) where
  miss := by
    intro b b' hok hpop v hv
    cases b with
    | nil => cases hv
    | cons w b => cases hpop
  found := by
    intro b b' v hok hpop
    cases b with
    | nil => cases hpop
    | cons w b =>
      cases hpop
      exact ⟨(pairwise_cons.mp hok).2, trivial, b', .refl _, .refl _⟩
  stay_le := by simp
  stay_hash := by simp
  stay_apart := by simp

variable {i j : Nat} {t : Table (List V)}

theorem firstBucket_some (hfirst : firstBucket t i = some j) :
    j < t.size ∧ ∃ v b, t.bucket [] j = v :: b := by
  have hmem := mem_of_find?_eq_some hfirst
  have hfull := List.find?_eq_some_iff_append.mp hfirst
  rw [mem_range'_1] at hmem
  constructor
  · omega
  · cases hb : t.bucket [] j with
    | nil => simp [hb] at hfull
    | cons v b => exact ⟨v, b, rfl⟩

theorem firstBucket_none (hfirst : firstBucket t i = none) (hle : i ≤ j)
    (hlt : j < t.size) : t.bucket [] j = [] := by
  have hnone := List.find?_eq_none.mp hfirst j (by
    rw [mem_range'_1]
    omega)
  simpa using hnone

theorem bucketIndex_of_bucket
    (hsound : t.Sound kind (hash ∘ key) (BucketOk key)) {v : V} {b : List V} (hj : j < t.size)
    (hb : t.bucket [] j = v :: b) : t.bucketIndex (hash (key v)) = j := by
  rw [hsound.bucketIndex_eq]
  have hv : v ∈ kind.values (t.bucket [] j) := by
    rw [hb]
    exact mem_cons_self
  exact hsound.placed j _ (Table.getElem?_bucket [] hj) v hv

variable {t : Tables (List V)}

theorem visit_popNode1 (hwf : WF key hash t) (hfirst : firstBucket t.table1 i = some j) :
    ∃ v, t.visit kind popNode (hash (key v)) =
      (some v, { t with table1 := popFront t.table1 j }) := by
  rcases firstBucket_some hfirst with ⟨hlt, v, b, hb⟩
  have hindex := bucketIndex_of_bucket hwf.table1 hlt hb
  refine ⟨v, ?_⟩
  simp only [visit, kind_empty, hindex, hb, popNode, popFront, tail_cons]

theorem visit_popNode2 (hwf : WF key hash t) (hindex : t.rehashMoveBucketIndex = some i)
    (hempty : firstBucket t.table1 i = none) (hfirst : firstBucket t.table2 0 = some j) :
    ∃ v, t.visit kind popNode (hash (key v)) =
      (some v, { t with table2 := popFront t.table2 j }) := by
  have hmoving := hwf.moving i hindex
  rcases firstBucket_some hfirst with ⟨hlt, v, b, hb⟩
  have hindex2 := bucketIndex_of_bucket hmoving.table2 hlt hb
  have hbucket1 : t.table1.bucket [] (t.table1.bucketIndex (hash (key v))) = [] := by
    have hlt1 := hwf.table1.bucketIndex_lt (hash (key v))
    cases hb1 : t.table1.bucket [] (t.table1.bucketIndex (hash (key v))) with
    | nil => rfl
    | cons w b1 =>
      have hw : w ∈ t.table1.values kind := by
        refine mem_flatMap.mpr ⟨_, Table.bucket_mem [] hlt1, ?_⟩
        rw [hb1]
        exact mem_cons_self
      have hle := hmoving.moved w hw
      have hsame := bucketIndex_of_bucket hwf.table1 hlt1 hb1
      rw [hwf.table1.bucketIndex_eq] at hsame
      have hnil := firstBucket_none hempty (hsame ▸ hle) hlt1
      rw [hb1] at hnil
      cases hnil
  refine ⟨v, ?_⟩
  have hrehashing : t.inRehashing = true := by simp [inRehashing, hindex]
  simp only [visit, kind_empty, hbucket1, hrehashing, hindex2, hb, popNode,
    popFront, tail_cons, if_true]

/-- `EraseRandom` removes an entry without counting it, or there is none. -/
theorem eraseRandom_spec (hwf : WF key hash t) :
    WF key hash (eraseRandom key hash t).2 ∧ (eraseRandom key hash t).2.size = t.size ∧
      ((eraseRandom key hash t).1 = true ∧
          (∃ v, (entries t) ~ (v :: entries (eraseRandom key hash t).2)) ∨
        (eraseRandom key hash t).1 = false ∧
          Tables.SameEntries kind t (eraseRandom key hash t).2) := by
  have hstep := Tables.WF.incrementalRehash_spec kind_lawful hwf
  have hwf' : WF key hash (incrementalRehash key hash t) := hstep.1
  have hsame : Tables.SameEntries kind t (incrementalRehash key hash t) := hstep.2
  unfold eraseRandom
  generalize incrementalRehash key hash t = t' at hwf' hsame ⊢
  have hvisited : ∀ {v t''}, t'.visit kind popNode (hash (key v)) = (some v, t'') →
      WF key hash t'' ∧ t''.size = t.size ∧ ∃ v, (entries t) ~ (v :: entries t'') := by
    intro v t'' hvisit
    have hout := visit_outcome kind_lawful popNode_lawful hwf' (hash (key v))
    rw [hvisit] at hout
    cases hout with
    | found wf' hits visited =>
      obtain ⟨rest, hold, hnew⟩ := visited.replaced
      refine ⟨wf', visited.size.trans hsame.size, v, ?_⟩
      exact hsame.entries_perm.symm.trans (hold.trans (hnew.symm.cons v))
  dsimp only
  split
  · rename_i j hfirst
    rcases visit_popNode1 hwf' hfirst with ⟨v, hvisit⟩
    grind
  · rename_i hempty
    cases hindex : t'.rehashMoveBucketIndex with
    | none =>
      rw [if_neg (by simp [inRehashing, hindex])]
      exact ⟨hwf', hsame.size, Or.inr ⟨rfl, hsame⟩⟩
    | some i =>
      simp only [hindex, Option.getD_some] at hempty
      rw [if_pos (by simp [inRehashing, hindex])]
      split
      · rename_i j hfirst
        rcases visit_popNode2 hwf' hindex hempty hfirst with ⟨v, hvisit⟩
        grind
      · exact ⟨hwf', hsame.size, Or.inr ⟨rfl, hsame⟩⟩

end HashTable

/-! ## Tables in order -/

structure HashDict {K V : Type} (key : V → K) (hash : K → Nat) where
  tables : Tables (List V)
  wf : HashTable.WF key hash tables

namespace HashDict

variable {K V : Type} {key : V → K} {hash : K → Nat}

def new : HashDict key hash :=
  ⟨HashTable.new, wf_new kind_lawful⟩

def size (t : HashDict key hash) : Nat :=
  t.tables.size

def entries (t : HashDict key hash) : List V :=
  HashTable.entries t.tables

def eraseRandom (t : HashDict key hash) : Bool × HashDict key hash :=
  let r := HashTable.eraseRandom key hash t.tables
  (r.1, ⟨r.2, (eraseRandom_spec t.wf).1⟩)

variable [DecidableEq K]

def find (k : K) (t : HashDict key hash) : Option V × HashDict key hash :=
  let r := HashTable.find key hash k t.tables
  (r.1, ⟨r.2, (find_outcome t.wf k).kept.1⟩)

def insertWithDuplicate (elem : V) (t : HashDict key hash) : Bool × V × HashDict key hash :=
  let r := HashTable.insertWithDuplicate key hash elem t.tables
  (r.1, r.2.1, ⟨r.2.2, (insertWithDuplicate_outcome t.wf elem).wf⟩)

/-- Whether `Insert` hands out a node, and the table it leaves. -/
def insert (elem : V) (t : HashDict key hash) : Bool × HashDict key hash :=
  let r := t.insertWithDuplicate elem
  (r.1, r.2.2)

/-- A write of a value with the same key through the pointer to an entry. -/
def assign (elem : V) (t : HashDict key hash) : HashDict key hash :=
  ⟨HashTable.modify key hash (key elem) (fun v => if key v = key elem then elem else v) t.tables,
    modify_wf (fun v => by split <;> simp [*]) t.wf (key elem)⟩

def extract (k : K) (t : HashDict key hash) : Option V × HashDict key hash :=
  let r := HashTable.extract key hash k t.tables
  (r.1, ⟨r.2, (extract_outcome t.wf k).wf⟩)

def erase (k : K) (t : HashDict key hash) : Bool × HashDict key hash :=
  let r := t.extract k
  (r.1.isSome, r.2)

/-! ## What a table stores -/

def lookup (t : HashDict key hash) : KeyedStore K V :=
  KeyedStore.ofList key t.entries

theorem represents_lookup (t : HashDict key hash) : KeyedStore.Represents key t.entries t.lookup :=
  KeyedStore.represents_ofList (keys_nodup t.wf)

variable {t t' : HashDict key hash} {m : KeyedStore K V} {k : K} {v : V}

theorem lookup_eq_of_represents (hrep : KeyedStore.Represents key t.entries m) : t.lookup = m :=
  hrep.ofList_eq

theorem key_of_lookup (hlookup : t.lookup k = some v) : key v = k :=
  t.represents_lookup.key_of_some hlookup

theorem lookup_eq_of_perm (hperm : t'.entries ~ t.entries) : t'.lookup = t.lookup :=
  lookup_eq_of_represents (t.represents_lookup.perm hperm)

structure Same (t t' : HashDict key hash) : Prop where
  lookup : t'.lookup = t.lookup
  size : t'.size = t.size

theorem Same.refl (t : HashDict key hash) : Same t t := ⟨rfl, rfl⟩

theorem Same.trans {t1 t2 t3 : HashDict key hash} (h : Same t1 t2) (h' : Same t2 t3) : Same t1 t3 :=
  ⟨h'.lookup.trans h.lookup, h'.size.trans h.size⟩

theorem Same.symm (h : Same t t') : Same t' t := ⟨h.lookup.symm, h.size.symm⟩

theorem Same.of_sameEntries
    (hsame : Tables.SameEntries HashTable.kind t.tables t'.tables) : Same t t' :=
  ⟨lookup_eq_of_perm hsame.entries_perm, hsame.size⟩

theorem lookup_new : (new : HashDict key hash).lookup = KeyedStore.empty := by
  have hentries : (new : HashDict key hash).entries = [] :=
    entries_new (@kind_lawful _ _ key)
  apply lookup_eq_of_represents
  exact KeyedStore.Represents.nil

theorem find_spec (k : K) (t : HashDict key hash) :
    (t.find k).1 = t.lookup k ∧ Same t (t.find k).2 := by
  have hout := find_outcome t.wf k
  exact ⟨hout.answers t.represents_lookup, .of_sameEntries hout.kept.2⟩

theorem insertWithDuplicate_some (elem : V) (hlookup : t.lookup (key elem) = some v) :
    (t.insertWithDuplicate elem).1 = false ∧ (t.insertWithDuplicate elem).2.1 = v ∧
      Same t (t.insertWithDuplicate elem).2.2 := by
  rcases (insertWithDuplicate_outcome t.wf elem).answers t.represents_lookup with
    ⟨hnone, -⟩ | ⟨hsome, hfalse, hsame⟩
  · cases hlookup.symm.trans hnone
  · exact ⟨hfalse, Option.some.inj (hsome.symm.trans hlookup), .of_sameEntries hsame⟩

theorem insertWithDuplicate_none (elem : V) (hlookup : t.lookup (key elem) = none) :
    (t.insertWithDuplicate elem).1 = true ∧ (t.insertWithDuplicate elem).2.1 = elem ∧
      (t.insertWithDuplicate elem).2.2.lookup = t.lookup.set key elem ∧
      (t.insertWithDuplicate elem).2.2.size = t.size + 1 := by
  rcases (insertWithDuplicate_outcome t.wf elem).answers t.represents_lookup with
    ⟨-, htrue, helem, hadded⟩ | ⟨hsome, -⟩
  · refine ⟨htrue, helem, lookup_eq_of_represents ?_, hadded.size⟩
    exact (t.represents_lookup.cons hlookup).perm hadded.entries_perm
  · cases hlookup.symm.trans hsome

theorem extract_spec (k : K) (t : HashDict key hash) :
    (t.extract k).1 = t.lookup k ∧ (t.extract k).2.lookup = t.lookup.remove k ∧
      (t.extract k).2.size = t.size - (t.lookup k).toList.length := by
  have hanswers := (extract_outcome t.wf k).answers t.represents_lookup
  rw [Option.map_id_fun, id] at hanswers
  exact ⟨hanswers.1, lookup_eq_of_represents hanswers.2.1, hanswers.2.2⟩

theorem assign_spec (elem : V) (hlookup : t.lookup (key elem) = some v) :
    (t.assign elem).lookup = t.lookup.set key elem ∧ (t.assign elem).size = t.size := by
  have hv := t.represents_lookup.eq_some_iff.mp hlookup
  have hspec := modify_spec (k := key elem)
    (f := fun w => if key w = key elem then elem else w)
    (fun w => by split <;> simp [*]) t.wf hv.1 hv.2
  rcases hspec.2.2 with ⟨rest, hold, hnew⟩
  rw [if_pos hv.2] at hnew
  have hrep := (t.represents_lookup.perm hold.symm).replace hv.2.symm
  exact ⟨lookup_eq_of_represents (hrep.perm hnew), hspec.2.1⟩

end HashDict

/-! ## Iterators -/

namespace HashTable

/-- `slot` is the node, here its value, that the iterator points to.  A table
holds each value once, so the value determines the node. -/
structure Iterator (V : Type) where
  tableIndex : Nat
  bucketIndex : Nat
  slot : Option V
  deriving Repr, DecidableEq

variable {V H : Type} [DecidableEq V]

def frontFrom (t : Table (List V)) (j : Nat) : Option (Nat × V) :=
  match firstBucket t j with
  | none => none
  | some i => (t.bucket [] i).head?.map fun v => (i, v)

/-- The first node from bucket `j` of table `i` on. -/
def scan (t : Tables (List V)) (i j : Nat) : Iterator V :=
  match frontFrom (if i = 0 then t.table1 else t.table2) j with
  | some (j, v) => ⟨i, j, some v⟩
  | none =>
    match if i = 0 then frontFrom t.table2 0 else none with
    | some (j, v) => ⟨1, j, some v⟩
    | none => ⟨1, 0, none⟩

def begin (t : Tables (List V)) : Iterator V :=
  scan t 0 0

/-- The node that follows the node of `v` in its bucket. -/
def nextInBucket (v : V) : List V → Option V
  | [] => none
  | [_] => none
  | a :: b :: l => if a = v then some b else nextInBucket v (b :: l)

def increment (t : Tables (List V)) (it : Iterator V) : Iterator V :=
  match it.slot with
  | none => it
  | some v =>
    match (t.table1.table ++ t.table2.table).findSome? (nextInBucket v) with
    | some w => { it with slot := some w }
    | none => scan t it.tableIndex (it.bucketIndex + 1)

/-- The range-based loop over the table that `table` selects from the current
state.  Without enough fuel, as for a loop that never reaches the end, it does
not come back. -/
def forEach (table : H → Tables (List V)) (body : V → H → H) :
    Nat → Iterator V → H → Option H
  | 0, _, _ => none
  | fuel + 1, it, h =>
    match it.slot with
    | none => some h
    | some v =>
      let h := body v h
      forEach table body fuel (increment (table h) it) h

variable {table : H → Tables (List V)} {body : V → H → H} {h h' : H}

theorem forEach_inv {P : H → Prop} (hbody : ∀ v h, P h → P (body v h)) (fuel : Nat)
    (it : Iterator V) (hP : P h) (hrun : forEach table body fuel it h = some h') : P h' := by
  induction fuel generalizing it h with
  | zero => cases hrun
  | succ fuel ih =>
    simp only [forEach] at hrun
    grind

end HashTable

/-! ## Set operations -/

abbrev StrSet (hash : Str → Nat) : Type :=
  HashDict (id : Str → Str) hash

/-- Sets by the database key they are stored under, and what the callback
collected. -/
structure SetHeap (hash : Str → Nat) where
  sets : Str → StrSet hash
  members : List Str

namespace SetHeap

variable {hash : Str → Nat}

def search (k : Str) (m : Str) (h : SetHeap hash) : Bool × SetHeap hash :=
  let r := (h.sets k).find m
  (r.1.isSome, { h with sets := Function.update h.sets k r.2 })

def walk (k : Str) (body : Str → SetHeap hash → SetHeap hash) (fuel : Nat)
    (h : SetHeap hash) : Option (SetHeap hash) :=
  HashTable.forEach (fun h => (h.sets k).tables) body fuel
    (HashTable.begin (h.sets k).tables) h

def collect (m : Str) (h : SetHeap hash) : SetHeap hash :=
  { h with members := h.members ++ [m] }

def store (dest : Str) (m : Str) (h : SetHeap hash) : SetHeap hash :=
  { h with sets := Function.update h.sets dest ((h.sets dest).insert m).2 }

def lessSet (k₁ k₂ : Str) (h : SetHeap hash) : Str :=
  if (h.sets k₂).size > (h.sets k₁).size then k₁ else k₂

def moreSet (k₁ k₂ : Str) (h : SetHeap hash) : Str :=
  if (h.sets k₂).size > (h.sets k₁).size then k₂ else k₁

variable (cb : Str → SetHeap hash → SetHeap hash)

/-- Calls back for a member that is, or is not, found in the set of `k`. -/
def onFound (k : Str) (found : Bool) (m : Str) (h : SetHeap hash) : SetHeap hash :=
  let r := h.search k m
  if r.1 = found then cb m r.2 else r.2

def union (k₁ k₂ : Str) (fuel : Nat) (h : SetHeap hash) : Option (SetHeap hash) :=
  let less := h.lessSet k₁ k₂
  let more := h.moreSet k₁ k₂
  (h.walk more cb fuel).bind (walk less (onFound cb more false) fuel)

def intersection (k₁ k₂ : Str) (fuel : Nat) (h : SetHeap hash) : Option (SetHeap hash) :=
  let less := h.lessSet k₁ k₂
  let more := h.moreSet k₁ k₂
  h.walk less (onFound cb more true) fuel

def difference (k₁ k₂ : Str) (fuel : Nat) (h : SetHeap hash) : Option (SetHeap hash) :=
  h.walk k₁ (onFound cb k₂ false) fuel

/-! ### What the operations keep -/

def SameSets (h h' : SetHeap hash) : Prop :=
  ∀ k, (h.sets k).Same (h'.sets k)

/-- Every set but the one of `dest` has the same members. -/
def SameSetsOff (dest : Str) (h h' : SetHeap hash) : Prop :=
  ∀ k, k ≠ dest → (h.sets k).Same (h'.sets k)

theorem search_sameSets (k m : Str) (h : SetHeap hash) : SameSets h (h.search k m).2 := by
  intro k'
  by_cases hk : k' = k
  · subst hk
    simp only [SetHeap.search, Function.update_self]
    exact (HashDict.find_spec m _).2
  · simp only [SetHeap.search, Function.update_of_ne hk]
    exact .refl _

section Invariants

variable {cb : Str → SetHeap hash → SetHeap hash} {P : SetHeap hash → Prop}
  (hsearch : ∀ k m h, P h → P (h.search k m).2) (hcb : ∀ m h, P h → P (cb m h))
  {k₁ k₂ : Str} {fuel : Nat} {h h' : SetHeap hash}

include hsearch hcb

theorem onFound_inv (k : Str) (found : Bool) (m : Str) (h : SetHeap hash) (hP : P h) :
    P (h.onFound cb k found m) := by
  unfold SetHeap.onFound
  grind

theorem difference_inv (hP : P h) (hrun : h.difference cb k₁ k₂ fuel = some h') : P h' :=
  forEach_inv (onFound_inv hsearch hcb k₂ false) fuel _ hP hrun

theorem intersection_inv (hP : P h) (hrun : h.intersection cb k₁ k₂ fuel = some h') : P h' :=
  forEach_inv (onFound_inv hsearch hcb _ true) fuel _ hP hrun

theorem union_inv (hP : P h) (hrun : h.union cb k₁ k₂ fuel = some h') : P h' := by
  obtain ⟨h1, hfirst, hsecond⟩ := Option.bind_eq_some_iff.mp hrun
  have hP1 := forEach_inv hcb fuel _ hP hfirst
  exact forEach_inv (onFound_inv hsearch hcb _ false) fuel _ hP1 hsecond

end Invariants

end SetHeap

end Mmkv
