import Mmkv.KeyedStore

/-!
# The hash table with list buckets

`HashTable` is the two-table machine over singly linked lists.  Unlike the tree
table it puts every new key into the second table while a rehash is running, so
an entry whose old bucket was not moved yet may be in either table.  `FindSlot`
moves the entry it finds to the front of its bucket.

Here keys are compared with `==`.  Every run answers like the abstract store.
-/

namespace Mmkv

open List Tables KeyedStore

open scoped List

namespace Slist

variable {V : Type}

/-- `ExtractNodeIf`: unlinks the first node whose value satisfies the
predicate. -/
def extractNodeIf (pred : V → Bool) : List V → Option V × List V
  | [] => (none, [])
  | v :: l =>
    if pred v then (some v, l)
    else
      let (found, l) := extractNodeIf pred l
      (found, v :: l)

/-- The first value that satisfies the predicate, changed in place. -/
def modifyIf (pred : V → Bool) (f : V → V) : List V → Option V × List V
  | [] => (none, [])
  | v :: l =>
    if pred v then (some v, f v :: l)
    else
      let (found, l) := modifyIf pred f l
      (found, v :: l)

variable {pred : V → Bool} {l l' : List V}

theorem extractNodeIf_eq_none (hextract : extractNodeIf pred l = (none, l')) :
    l' = l ∧ ∀ v ∈ l, pred v = false := by
  induction l generalizing l' with
  | nil =>
    cases hextract
    simp
  | cons v l ih =>
    by_cases hpred : pred v = true
    · simp [extractNodeIf, hpred] at hextract
    · simp only [extractNodeIf, hpred] at hextract
      grind

variable {v : V}

theorem extractNodeIf_eq_some (hextract : extractNodeIf pred l = (some v, l')) :
    pred v = true ∧ l ~ (v :: l') ∧ l'.Sublist l := by
  induction l generalizing l' with
  | nil => cases hextract
  | cons w l ih =>
    by_cases hpred : pred w = true
    · simp [extractNodeIf, hpred] at hextract
      rw [← hextract.1, ← hextract.2]
      exact ⟨hpred, .refl _, sublist_cons_self w l⟩
    · simp only [extractNodeIf, hpred] at hextract
      cases hextract' : extractNodeIf pred l with
      | mk found rest =>
        simp [hextract'] at hextract
        rw [hextract.1] at hextract'
        have hrest := ih hextract'
        rw [← hextract.2]
        refine ⟨hrest.1, ?_, hrest.2.2.cons_cons w⟩
        exact (hrest.2.1.cons w).trans (.swap v w rest)

variable {f : V → V}

theorem modifyIf_eq_none (hmodify : modifyIf pred f l = (none, l')) :
    l' = l ∧ ∀ v ∈ l, pred v = false := by
  induction l generalizing l' with
  | nil =>
    cases hmodify
    simp
  | cons v l ih =>
    by_cases hpred : pred v = true
    · simp [modifyIf, hpred] at hmodify
    · simp only [modifyIf, hpred] at hmodify
      grind

theorem modifyIf_eq_some (hmodify : modifyIf pred f l = (some v, l')) :
    pred v = true ∧ ∃ l1 l2, l = l1 ++ v :: l2 ∧ l' = l1 ++ f v :: l2 := by
  induction l generalizing l' with
  | nil => cases hmodify
  | cons w l ih =>
    by_cases hpred : pred w = true
    · simp [modifyIf, hpred] at hmodify
      rw [← hmodify.1, ← hmodify.2]
      exact ⟨hpred, [], l, rfl, rfl⟩
    · simp only [modifyIf, hpred] at hmodify
      grind

end Slist

open Slist

namespace HashTable

variable {K V : Type}

/-- `Reset` is `Shrink(0)` and sets the mask too. -/
def kind : BucketKind V (List V) V where
  empty := []
  values := id
  value := id
  nodes := id
  put := List.cons
  reset := Table.shrink 0

def new : Tables (List V) :=
  Tables.new kind

def entries (t : Tables (List V)) : List V :=
  t.entries kind

def bucket1 (h : Nat) (t : Tables (List V)) : List V :=
  t.table1.bucket [] (t.table1.bucketIndex h)

def bucket2 (h : Nat) (t : Tables (List V)) : List V :=
  t.table2.bucket [] (t.table2.bucketIndex h)

def clear (t : Tables (List V)) : Tables (List V) :=
  t.clear kind

def incrementalRehash (key : V → K) (hash : K → Nat) (t : Tables (List V)) : Tables (List V) :=
  t.incrementalRehash kind (hash ∘ key)

section Calls

variable [DecidableEq K] (key : V → K) (hash : K → Nat)

def getDuplicate (elem : V) (b : List V) : Option V :=
  b.find? fun v => decide (key elem = key v)

def insertWithDuplicate (elem : V) (t : Tables (List V)) : Bool × V × Tables (List V) :=
  let t := incrementalRehash key hash (t.rehash kind)
  let h := hash (key elem)
  match t.rehashMoveBucketIndex with
  | none =>
    match getDuplicate key elem (bucket1 h t) with
    | some duplicate => (false, duplicate, t)
    | none => (true, elem, t.addTo1 h (elem :: bucket1 h t))
  | some i =>
    if t.table1.bucketIndex h < i then
      match getDuplicate key elem (bucket2 h t) with
      | some duplicate => (false, duplicate, t)
      | none => (true, elem, t.addTo2 h (elem :: bucket2 h t))
    else
      match getDuplicate key elem (bucket1 h t) with
      | some duplicate => (false, duplicate, t)
      | none =>
        match getDuplicate key elem (bucket2 h t) with
        | some duplicate => (false, duplicate, t)
        | none => (true, elem, t.addTo2 h (elem :: bucket2 h t))

def insert (elem : V) (t : Tables (List V)) : Option V × Tables (List V) :=
  match insertWithDuplicate key hash elem t with
  | (true, entry, t) => (some entry, t)
  | (false, _, t) => (none, t)

/-- The body of `FindSlot` on one bucket: the node of the key is unlinked and
put in front. -/
def moveToFront (k : K) (b : List V) : Option V × List V :=
  match extractNodeIf (fun v => decide (key v = k)) b with
  | (some v, b) => (some v, v :: b)
  | (none, b) => (none, b)

def find (k : K) : Tables (List V) → Option V × Tables (List V) :=
  Tables.find kind (hash ∘ key) (moveToFront key k) (hash k)

/-- A write through a pointer to the entry of the key, as `Find` and
`InsertWithDuplicate` hand it out. -/
def modify (k : K) (f : V → V) (t : Tables (List V)) : Tables (List V) :=
  (t.visit kind (modifyIf (fun v => decide (key v = k)) f) (hash k)).2

def extract (k : K) : Tables (List V) → Option V × Tables (List V) :=
  Tables.extract kind (hash ∘ key) (extractNodeIf fun v => decide (key v = k))
    (hash k)

def erase (k : K) (t : Tables (List V)) : Nat × Tables (List V) :=
  match extract key hash k t with
  | (some _, t) => (1, t)
  | (none, t) => (0, t)

end Calls

/-! ## The laws of list buckets -/

def Apart (key : V → K) (a b : V) : Prop :=
  key a ≠ key b

def BucketOk (key : V → K) (b : List V) : Prop :=
  b.Pairwise (Apart key)

def WF (key : V → K) (hash : K → Nat) (t : Tables (List V)) : Prop :=
  t.WF kind (hash ∘ key) (BucketOk key) (Apart key) False

variable {key : V → K} {hash : K → Nat}

theorem apart_symm {a b : V} (hapart : Apart key a b) : Apart key b a := Ne.symm hapart

variable {b : List V}

theorem bucketOk_of_perm {b' : List V} (hok : BucketOk key b) (hperm : b ~ b') : BucketOk key b' :=
  (hperm.pairwise_iff apart_symm).mp hok

theorem kind_lawful : (kind : BucketKind V (List V) V).Lawful (BucketOk key) (Apart key) where
  apart_symm := apart_symm
  empty_ok := List.Pairwise.nil
  values_empty := rfl
  pairwise_apart := fun hok => hok
  nodes_perm := by
    simp [kind]
  put_ok := by
    intro v b hok hapart
    constructor
    · apply pairwise_cons.mpr
      exact ⟨fun x hx => apart_symm (hapart x hx), hok⟩
    · exact .refl _
  reset_table := fun t => rfl

/-! ## Adding a new key -/

def InsertOutcome (key : V → K) (hash : K → Nat) :
    V → Tables (List V) → Bool × V × Tables (List V) → Prop :=
  Tables.InsertOutcome kind (WF key hash) (fun v elem => key v ≠ key elem)
    (fun v elem => key v = key elem)

section Insert

variable {t : Tables (List V)} {i : Nat} {elem : V}

theorem cons_ok (hok : BucketOk key b) (hfresh : ∀ v ∈ b, key v ≠ key elem) :
    BucketOk key (elem :: b) :=
  pairwise_cons.mpr ⟨fun v hv => (hfresh v hv).symm, hok⟩

theorem insert_idle (hwf : WF key hash t) (hindex : t.rehashMoveBucketIndex = none)
    (hfresh : ∀ v ∈ bucket1 (hash (key elem)) t, key v ≠ key elem) :
    InsertOutcome key hash elem t
      (true, elem, t.addTo1 (hash (key elem)) (elem :: bucket1 (hash (key elem)) t)) := by
  have hbucket := hwf.table1.bucketOf (hash (key elem))
  have hadd := Tables.WF.addTo1 hwf (cons_ok hbucket.1 hfresh) (.refl _)
    (fun i hi => by simp [hindex] at hi)
  apply Tables.InsertOutcome.inserted hadd.1 hadd.2
  intro v hv heq
  rcases mem_append.mp hv with hv | hv
  · exact hfresh v ((hbucket.2 v).mpr ⟨hv, by simp [heq]⟩) heq
  · rw [hwf.idle hindex] at hv
    cases hv

theorem insert_moving (hwf : WF key hash t) (hindex : t.rehashMoveBucketIndex = some i)
    (hfresh1 : ∀ v ∈ t.table1.values kind,
      hash (key v) % t.table1.size = hash (key elem) % t.table1.size → key v ≠ key elem)
    (hfresh2 : ∀ v ∈ bucket2 (hash (key elem)) t, key v ≠ key elem) :
    InsertOutcome key hash elem t
      (true, elem, t.addTo2 (hash (key elem)) (elem :: bucket2 (hash (key elem)) t)) := by
  have hmoving := hwf.moving i hindex
  have hbucket := hmoving.table2.bucketOf (hash (key elem))
  have hcross : ∀ a ∈ t.table1.values kind,
      hash (key a) % t.table2.size = hash (key elem) % t.table2.size →
        Apart key a elem := by
    intro a ha hmod
    rw [hmoving.size2] at hmod
    exact hfresh1 a ha (mod_eq_of_mod_double hmod)
  have hadd := Tables.WF.addTo2 hwf hindex (cons_ok hbucket.1 hfresh2) (.refl _) hcross
    (fun hfalse => hfalse.elim)
  apply Tables.InsertOutcome.inserted hadd.1 hadd.2
  intro v hv heq
  rcases mem_append.mp hv with hv | hv
  · exact hfresh1 v hv (by rw [heq]) heq
  · exact hfresh2 v ((hbucket.2 v).mpr ⟨hv, by simp [heq]⟩) heq

end Insert

variable {t : Tables (List V)}

theorem keys_nodup (hwf : WF key hash t) : ((entries t).map key).Nodup := by
  apply pairwise_map.mpr
  apply List.Pairwise.imp _ (Tables.WF.pairwise_apart kind_lawful hwf)
  intro a b hapart heq
  exact hapart (by simp [heq]) heq

def Stores (key : V → K) (hash : K → Nat) : Tables (List V) → KeyedStore K V → Prop :=
  Tables.Stores kind key (WF key hash)

theorem stores_new : Stores key hash new empty :=
  Tables.Stores.of_entries_nil (wf_new kind_lawful)
    (entries_new (@kind_lawful K V key)) rfl

theorem clear_stores {m : KeyedStore K V} (hstores : Stores key hash t m) :
    Stores key hash (clear t) empty := by
  have hspec := Tables.WF.clear_spec kind_lawful hstores.wf
  exact Tables.Stores.of_entries_nil hspec.1 hspec.2.1 hspec.2.2

/-! ## The calls on one bucket -/

variable [DecidableEq K]

theorem moveToFront_lawful (k : K) : Tables.LawfulOp kind (hash ∘ key) (BucketOk key) (Apart key)
      (moveToFront key k) (fun v => key v = k) id (fun v => [v]) where
  miss := by
    intro b b' hok hop v hv
    unfold moveToFront at hop
    split at hop
    · cases hop
    · rename_i hextract
      simpa using (extractNodeIf_eq_none hextract).2 v hv
  found := by
    intro b b' v hok hop
    unfold moveToFront at hop
    split at hop
    · rename_i w rest hextract
      cases hop
      have hspec := extractNodeIf_eq_some hextract
      refine ⟨bucketOk_of_perm hok hspec.2.1, ?_, rest, hspec.2.1, .refl _⟩
      simpa using hspec.1
    · cases hop
  stay_le := by simp
  stay_hash := by simp
  stay_apart := by grind

theorem extractNodeIf_lawful (k : K) : Tables.LawfulOp kind (hash ∘ key) (BucketOk key) (Apart key)
      (extractNodeIf fun v => decide (key v = k)) (fun v => key v = k) id
      (fun _ => []) where
  miss := by
    intro b b' hok hop v hv
    simpa using (extractNodeIf_eq_none hop).2 v hv
  found := by
    intro b b' v hok hop
    have hspec := extractNodeIf_eq_some hop
    refine ⟨hok.sublist hspec.2.2, ?_, b', hspec.2.1, .refl _⟩
    simpa using hspec.1
  stay_le := by simp
  stay_hash := by simp
  stay_apart := by simp

variable {f : V → V}

theorem modifyIf_lawful (hkey : ∀ v, key (f v) = key v) (k : K) :
    Tables.LawfulOp kind (hash ∘ key) (BucketOk key) (Apart key)
      (modifyIf (fun v => decide (key v = k)) f) (fun v => key v = k) id
      (fun v => [f v]) where
  miss := by
    intro b b' hok hop v hv
    simpa using (modifyIf_eq_none hop).2 v hv
  found := by
    intro b b' v hok hop
    have hspec := modifyIf_eq_some hop
    rcases hspec with ⟨hv, l1, l2, hb, hb'⟩
    have hmap : b'.map key = b.map key := by simp [hb, hb', hkey]
    refine ⟨?_, by simpa using hv, l1 ++ l2, ?_, ?_⟩
    · have hok : (b.map key).Pairwise (· ≠ ·) := pairwise_map.mpr hok
      rw [← hmap] at hok
      have hok' : b'.Pairwise fun x y => key x ≠ key y := pairwise_map.mp hok
      exact hok'
    · rw [hb]
      exact perm_middle
    · rw [hb']
      exact perm_middle
  stay_le := by simp
  stay_hash := by simp [hkey]
  stay_apart := by
    intro v w hw u hapart
    rw [mem_singleton.mp hw, Apart, hkey]
    exact hapart

/-! ## Specifications -/

variable {elem : V}

theorem getDuplicate_eq_none (hdup : getDuplicate key elem b = none) :
    ∀ v ∈ b, key v ≠ key elem := by
  intro v hv heq
  have hnone := List.find?_eq_none.mp hdup v hv
  simp [heq] at hnone

variable {v : V}

theorem getDuplicate_eq_some (hdup : getDuplicate key elem b = some v) :
    v ∈ b ∧ key v = key elem := by
  constructor
  · exact mem_of_find?_eq_some hdup
  · have hkey := List.find?_some hdup
    simpa [eq_comm] using hkey

theorem refused_of_getDuplicate (hwf : WF key hash t) (hb : ∀ w ∈ b, w ∈ entries t)
    (hdup : getDuplicate key elem b = some v) : InsertOutcome key hash elem t (false, v, t) := by
  have hspec := getDuplicate_eq_some hdup
  exact .refused hwf (.refl t) (hb v hspec.1) hspec.2

theorem insertWithDuplicate_outcome (hwf : WF key hash t) (elem : V) :
    InsertOutcome key hash elem t (insertWithDuplicate key hash elem t) := by
  have hrehash := Tables.WF.rehash_spec kind_lawful hwf
  have hstep := Tables.WF.incrementalRehash_spec kind_lawful hrehash.1
  unfold insertWithDuplicate
  dsimp only
  apply Tables.InsertOutcome.of_same (hrehash.2.trans hstep.2)
  change InsertOutcome key hash elem (incrementalRehash key hash (t.rehash kind)) _
  have hwf' : WF key hash (incrementalRehash key hash (t.rehash kind)) := hstep.1
  generalize incrementalRehash key hash (t.rehash kind) = t' at hwf' ⊢
  have hbucket1 := hwf'.table1.bucketOf (hash (key elem))
  have hmem1 : ∀ w ∈ bucket1 (hash (key elem)) t', w ∈ entries t' :=
    fun w hw => mem_append_left _ ((hbucket1.2 w).mp hw).1
  split
  · rename_i hindex
    split
    · rename_i v hdup
      exact refused_of_getDuplicate hwf' hmem1 hdup
    · rename_i hdup
      exact insert_idle hwf' hindex (getDuplicate_eq_none hdup)
  · rename_i i hindex
    have hbucket2 := (hwf'.moving i hindex).table2.bucketOf (hash (key elem))
    have hmem2 : ∀ w ∈ bucket2 (hash (key elem)) t', w ∈ entries t' :=
      fun w hw => mem_append_right _ ((hbucket2.2 w).mp hw).1
    by_cases hlt : t'.table1.bucketIndex (hash (key elem)) < i
    · rw [if_pos hlt]
      split
      · rename_i v hdup
        exact refused_of_getDuplicate hwf' hmem2 hdup
      · rename_i hdup
        apply insert_moving hwf' hindex _ (getDuplicate_eq_none hdup)
        intro v hv hmod
        have hle : i ≤ hash (key v) % t'.table1.size := (hwf'.moving i hindex).moved v hv
        rw [hwf'.table1.bucketIndex_eq] at hlt
        omega
    · rw [if_neg hlt]
      split
      · rename_i v hdup
        exact refused_of_getDuplicate hwf' hmem1 hdup
      · rename_i hdup1
        split
        · rename_i v hdup
          exact refused_of_getDuplicate hwf' hmem2 hdup
        · rename_i hdup2
          apply insert_moving hwf' hindex _ (getDuplicate_eq_none hdup2)
          intro v hv hmod
          exact getDuplicate_eq_none hdup1 v ((hbucket1.2 v).mpr ⟨hv, hmod⟩)

variable {k : K}

theorem find_outcome (hwf : WF key hash t) (k : K) :
    Tables.FindOutcome kind (WF key hash) (key · ≠ k) (key · = k) t (find key hash k t) :=
  (Tables.find_outcome kind_lawful hwf (hash k) (moveToFront_lawful k)).imp
    (fun v hne heq => hne (by simp [heq]) heq) fun _ => id

theorem extract_outcome (hwf : WF key hash t) (k : K) :
    Tables.ExtractOutcome kind (WF key hash) (key · ≠ k) (key · = k) id t
      (extract key hash k t) :=
  (Tables.extract_outcome kind_lawful hwf (hash k) (extractNodeIf_lawful k)).imp
    (fun v hne heq => hne (by simp [heq]) heq) fun _ => id

theorem erase_eq (k : K) (t : Tables (List V)) :
    erase key hash k t = ((extract key hash k t).1.toList.length, (extract key hash k t).2) := by
  unfold erase
  cases extract key hash k t with
  | mk found t' => cases found <;> rfl

section

variable (hkey : ∀ v, key (f v) = key v)

include hkey

theorem modify_outcome (hwf : WF key hash t) (k : K) :
    Tables.VisitOutcome kind (hash ∘ key) (WF key hash) (key · = k) id (fun v => [f v]) (hash k) t
      (t.visit kind (modifyIf (fun v => decide (key v = k)) f) (hash k)) :=
  visit_outcome kind_lawful (modifyIf_lawful hkey k) hwf (hash k)

theorem modify_spec (hwf : WF key hash t) (hv : v ∈ entries t)
    (hk : key v = k) :
    WF key hash (modify key hash k f t) ∧ (modify key hash k f t).size = t.size ∧
      ∃ rest, (entries t) ~ (v :: rest) ∧
        (entries (modify key hash k f t)) ~ (f v :: rest) := by
  have hout := modify_outcome hkey hwf k
  unfold modify
  generalize t.visit kind _ (hash k) = r at hout ⊢
  cases hout with
  | missed fresh => exact absurd hk (fresh v hv (by simp [hk]))
  | found wf' hits visited =>
    obtain ⟨rest, hold, hnew⟩ := visited.replaced
    have hw := hold.mem_iff.mpr mem_cons_self
    obtain rfl := inj_on_of_nodup_map (keys_nodup hwf) hw hv (hits.trans hk.symm)
    exact ⟨wf', visited.size, rest, hold, hnew⟩

theorem modify_wf (hwf : WF key hash t) (k : K) : WF key hash (modify key hash k f t) := by
  have hout := modify_outcome hkey hwf k
  unfold modify
  generalize t.visit kind _ (hash k) = r at hout ⊢
  cases hout with
  | missed fresh => exact hwf
  | found wf' hits visited => exact wf'

end

/-! ## Runs -/

def call (key : V → K) (hash : K → Nat) :
    TableCall K V → Tables (List V) → TableReply V × Tables (List V)
  | .insert elem, t =>
    let (entry, t) := insert key hash elem t
    (.entry entry, t)
  | .insertWithDuplicate elem, t =>
    let (success, entry, t) := insertWithDuplicate key hash elem t
    (.duplicate success entry, t)
  | .find k, t =>
    let (entry, t) := find key hash k t
    (.entry entry, t)
  | .extract k, t =>
    let (entry, t) := extract key hash k t
    (.entry entry, t)
  | .erase k, t =>
    let (count, t) := erase key hash k t
    (.erased count, t)
  | .clear, t => (.cleared, clear t)

section Stores

variable {t : Tables (List V)} {m : KeyedStore K V}

theorem modify_stores (hkey : ∀ v, key (f v) = key v) (hstores : Stores key hash t m)
    (hv : m k = some v) : Stores key hash (modify key hash k f t) (m.set key (f v)) := by
  have hmem := hstores.represents.eq_some_iff.mp hv
  obtain ⟨hwf, hsize, rest, hold, hnew⟩ := modify_spec hkey hstores.wf hmem.1 hmem.2
  refine ⟨hwf, ((hstores.represents.perm hold.symm).replace (hkey v)).perm hnew, ?_⟩
  rw [hsize, hstores.exact_size]
  exact hold.length_eq.trans hnew.length_eq.symm

end Stores

/-! ## The calls on a table with known entries -/

section Indexes

variable {t : Tables (List V)} {es rest : List V} {v : V}

def Indexes (key : V → K) (hash : K → Nat) : Tables (List V) → List V → Prop :=
  Tables.Indexes kind key (WF key hash)

omit [DecidableEq K] in
theorem indexes_new : Indexes key hash new [] := ⟨_, stores_new, .nil⟩

omit [DecidableEq K] in
theorem Indexes.clear (h : Indexes key hash t es) : Indexes key hash (clear t) [] := by
  obtain ⟨m, hstores, -⟩ := h
  exact ⟨_, clear_stores hstores, .nil⟩

section

variable (h : Indexes key hash t es)
include h

theorem Indexes.insert_new (hnew : ∀ v ∈ es, key v ≠ key elem) :
    ∃ t', insertWithDuplicate key hash elem t = (true, elem, t') ∧
      Indexes key hash t' (elem :: es) :=
  Tables.Indexes.insert_new h (insertWithDuplicate_outcome h.wellFormed elem) hnew

theorem Indexes.insert_duplicate (hv : v ∈ es) (hkey : key v = key elem) :
    ∃ t', insertWithDuplicate key hash elem t = (false, v, t') ∧ Indexes key hash t' es :=
  Tables.Indexes.insert_duplicate h (insertWithDuplicate_outcome h.wellFormed elem) hv hkey

theorem Indexes.find (k : K) : (find key hash k t).1 = ofList key es k ∧
      Indexes key hash (find key hash k t).2 es :=
  Tables.Indexes.find h (find_outcome h.wellFormed k)

theorem Indexes.extract (hperm : es ~ v :: rest) :
    ∃ t', extract key hash (key v) t = (some v, t') ∧ Indexes key hash t' rest := by
  obtain ⟨_, t', hextract, rfl, hrest⟩ :=
    Tables.Indexes.extract h (extract_outcome h.wellFormed (key v)) hperm
  exact ⟨t', hextract, hrest⟩

theorem Indexes.extract_none (hk : ∀ v ∈ es, key v ≠ k) :
    ∃ t', HashTable.extract key hash k t = (none, t') ∧ Indexes key hash t' es :=
  Tables.Indexes.extract_none h (extract_outcome h.wellFormed k) hk

theorem Indexes.erase (hperm : es ~ v :: rest) :
    Indexes key hash (erase key hash (key v) t).2 rest := by
  obtain ⟨t', hextract, hrest⟩ := h.extract hperm
  rw [HashTable.erase, hextract]
  exact hrest

theorem Indexes.modify (hperm : es ~ v :: rest) (hkey : ∀ v, key (f v) = key v) :
    Indexes key hash (modify key hash (key v) f t) (f v :: rest) := by
  obtain ⟨m, hstores, hrep⟩ := h
  have hrep' := hrep.perm hperm.symm
  have hsome : m (key v) = some v := (hrep'.mem_iff v).1 mem_cons_self
  exact ⟨_, modify_stores hkey hstores hsome, hrep'.replace (hkey v)⟩

end

end Indexes

theorem call_simulates : CallRuns.Simulates (call key hash) (step key) (Stores key hash) := by
  intro c t m hstores
  cases c with
  | insert elem =>
    have hout := insertWithDuplicate_outcome hstores.wf elem
    simp only [call, insert, step]
    generalize insertWithDuplicate key hash elem t = r at hout
    rcases r with ⟨success, entry, t'⟩
    rcases hstores.insert hout with ⟨hm, rfl, rfl, hnext⟩ | ⟨hm, rfl, hnext⟩
    · simp only [hm]
      exact ⟨trivial, hnext⟩
    · simp only [hm]
      exact ⟨trivial, hnext⟩
  | insertWithDuplicate elem =>
    have hout := insertWithDuplicate_outcome hstores.wf elem
    simp only [call, step]
    generalize insertWithDuplicate key hash elem t = r at hout
    rcases r with ⟨success, entry, t'⟩
    rcases hstores.insert hout with ⟨hm, rfl, rfl, hnext⟩ | ⟨hm, rfl, hnext⟩
    · simp only [hm]
      exact ⟨trivial, hnext⟩
    · simp only [hm]
      exact ⟨trivial, hnext⟩
  | find k =>
    have hfind := hstores.find (find_outcome hstores.wf k)
    exact ⟨congrArg TableReply.entry hfind.1, hfind.2⟩
  | extract k =>
    have hextract := hstores.extract (extract_outcome hstores.wf k)
    rw [Option.map_id_fun, id] at hextract
    exact ⟨congrArg TableReply.entry hextract.1, hextract.2⟩
  | erase k =>
    have hextract := hstores.extract (extract_outcome hstores.wf k)
    simp only [call, erase, step, ← hextract.1]
    generalize extract key hash k t = r at hextract
    obtain ⟨found, t'⟩ := r
    cases found with
    | none => exact ⟨rfl, hextract.2⟩
    | some v => exact ⟨rfl, hextract.2⟩
  | clear => exact ⟨rfl, clear_stores hstores⟩

/-- Every run from the fresh table answers like the abstract store.  After it
the two tables together hold exactly the store's entries, each key once over
all buckets, and `size` is their number. -/
theorem run_answers_like_store (calls : List (TableCall K V)) :
    let final := CallRuns.run (call key hash) calls new
    let store := CallRuns.run (step key) calls empty
    final.1 = store.1 ∧
      (∀ v, v ∈ entries final.2 ↔ store.2 (key v) = some v) ∧
      (∀ k v, store.2 k = some v → key v = k) ∧
      ((entries final.2).map key).Nodup ∧
      final.2.size = (entries final.2).length := by
  have hrun := (@call_simulates K V key hash _).run calls stores_new
  have hstores := hrun.2
  intro final store
  refine ⟨hrun.1, hstores.represents.mem_iff, ?_, hstores.represents.nodup, hstores.exact_size⟩
  intro k v hkv
  exact hstores.represents.key_of_some hkv

end HashTable

end Mmkv
