import Mmkv.TreeHashTable

/-!
# Runs of the hash table with AVL buckets

A caller issues any sequence of table calls and may hold extracted nodes, to
push them back later under the same or another key.  For every hash function
and every comparator that identifies equal keys only, the replies are those of
a partial function from keys to entries, and after every call the two tables
together store exactly the entries of that function.
-/

namespace Mmkv

open scoped List

/-- A call on a tree table, or a push of the `i`-th node that the caller holds
after extracting it.  The caller may first have overwritten its value. -/
inductive TreeCall (K V : Type) where
  | table (call : TableCall K V)
  | push (i : Nat) (overwrite : Option V)
  deriving Repr, DecidableEq

inductive TreeReply (V : Type) where
  | table (reply : TableReply V)
  | pushed (success : Bool)
  | noNode
  deriving Repr, DecidableEq

structure TreeState (V : Type) where
  tables : Tables (AvlTree V)
  held : List (AvlNode V)

namespace TreeHashTable

variable {K V : Type} (cmp : K → K → Ordering) (key : V → K) (hash : K → Nat)

def callTable :
    TableCall K V → TreeState V → TableReply V × TreeState V
  | .insert elem, s =>
    let (entry, t) := insert cmp key hash elem s.tables
    (.entry entry, { s with tables := t })
  | .insertWithDuplicate elem, s =>
    let (success, entry, t) := insertWithDuplicate cmp key hash elem s.tables
    (.duplicate success entry, { s with tables := t })
  | .find k, s =>
    let (entry, t) := find cmp key hash k s.tables
    (.entry entry, { s with tables := t })
  | .extract k, s =>
    let (node, t) := extract cmp key hash k s.tables
    (.entry (node.map AvlNode.value), ⟨t, node.toList ++ s.held⟩)
  | .erase k, s =>
    let (count, t) := erase cmp key hash k s.tables
    (.erased count, { s with tables := t })
  | .clear, s => (.cleared, { s with tables := clear cmp key s.tables })

def step : TreeCall K V → TreeState V → TreeReply V × TreeState V
  | .table call, s =>
    let (reply, s) := callTable cmp key hash call s
    (.table reply, s)
  | .push i overwrite, s =>
    match s.held[i]? with
    | none => (.noNode, s)
    | some n =>
      let n := { n with value := overwrite.getD n.value }
      match push cmp key hash n s.tables with
      | (true, t) => (.pushed true, ⟨t, s.held.eraseIdx i⟩)
      | (false, t) => (.pushed false, ⟨t, s.held.set i n⟩)

def start : TreeState V :=
  ⟨new cmp key, []⟩

end TreeHashTable

namespace KeyedStore

variable {K V : Type} [DecidableEq K] (key : V → K)

/-- The abstract store together with the values in the caller's hands. -/
def treeStep :
    TreeCall K V → KeyedStore K V × List V → TreeReply V × KeyedStore K V × List V
  | .table call, (m, held) =>
    let (reply, m') := step key call m
    match call with
    | .extract k => (.table reply, m', (m k).toList ++ held)
    | _ => (.table reply, m', held)
  | .push i overwrite, (m, held) =>
    match held[i]? with
    | none => (.noNode, m, held)
    | some v =>
      let v := overwrite.getD v
      match m (key v) with
      | none => (.pushed true, m.set key v, held.eraseIdx i)
      | some _ => (.pushed false, m, held.set i v)

end KeyedStore

namespace TreeHashTable

variable {K V : Type} {cmp : K → K → Ordering} {key : V → K} {hash : K → Nat}

/-- The table stores the entries of `m` and counts them exactly. -/
def Stores (cmp : K → K → Ordering) (key : V → K) (hash : K → Nat) :
    Tables (AvlTree V) → KeyedStore K V → Prop :=
  Tables.Stores (kind cmp key) key (WF cmp key hash)

variable [Std.TransCmp cmp]

theorem stores_new : Stores cmp key hash (new cmp key) KeyedStore.empty :=
  Tables.Stores.of_entries_nil wf_new entries_new rfl

variable {t : Tables (AvlTree V)} {m : KeyedStore K V}

theorem stores_clear (hstores : Stores cmp key hash t m) :
    Stores cmp key hash (clear cmp key t) KeyedStore.empty := by
  have hspec := clear_spec hstores.wf
  exact Tables.Stores.of_entries_nil hspec.1 hspec.2.1 hspec.2.2

theorem ne_of_fresh {k k' : K} (h : hash k' = hash k → cmp k' k ≠ .eq) : k' ≠ k := by
  rintro rfl
  exact h rfl Std.ReflCmp.compare_self

def Indexes (cmp : K → K → Ordering) (key : V → K) (hash : K → Nat) :
    Tables (AvlTree V) → List V → Prop :=
  Tables.Indexes (kind cmp key) key (WF cmp key hash)

variable {es rest : List V} {v : V} {f : V → V}

theorem indexes_new : Indexes cmp key hash (new cmp key) [] := ⟨_, stores_new, .nil⟩

theorem Indexes.clear (h : Indexes cmp key hash t es) :
    Indexes cmp key hash (clear cmp key t) [] := by
  obtain ⟨m, hstores, -⟩ := h
  exact ⟨_, stores_clear hstores, .nil⟩

theorem modify_stores [DecidableEq K] (hkey : ∀ v, key (f v) = key v)
    (hstores : Stores cmp key hash t m) {v : V} (hv : m (key v) = some v) :
    Stores cmp key hash (modify cmp key hash (key v) f t) (m.set key (f v)) := by
  have hmem : v ∈ entries cmp key t := (hstores.represents.mem_iff v).mpr hv
  obtain ⟨rest, hold, hnew⟩ := modify_stored hstores.wf hkey hmem
  have hspec := modify_spec hstores.wf (k := key v) hkey
  refine ⟨hspec.1, ((hstores.represents.perm hold.symm).replace (hkey v)).perm hnew, ?_⟩
  rw [hspec.2.1, hstores.exact_size]
  exact hold.length_eq.trans hnew.length_eq.symm

theorem Indexes.modify [DecidableEq K] (h : Indexes cmp key hash t es)
    (hperm : es ~ v :: rest) (hkey : ∀ v, key (f v) = key v) :
    Indexes cmp key hash (modify cmp key hash (key v) f t) (f v :: rest) := by
  obtain ⟨m, hstores, hrep⟩ := h
  have hrep' := hrep.perm hperm.symm
  have hsome : m (key v) = some v := (hrep'.mem_iff v).1 List.mem_cons_self
  exact ⟨_, modify_stores hkey hstores hsome, hrep'.replace (hkey v)⟩

variable [Std.LawfulEqCmp cmp] {elem : V}

theorem find_exactly (hwf : WF cmp key hash t) (k : K) :
    Tables.FindOutcome (kind cmp key) (WF cmp key hash) (key · ≠ k) (key · = k) t
      (find cmp key hash k t) :=
  (find_outcome hwf k).imp (fun _ => ne_of_fresh) fun _ => Std.LawfulEqCmp.eq_of_compare

theorem extract_exactly (hwf : WF cmp key hash t) (k : K) :
    Tables.ExtractOutcome (kind cmp key) (WF cmp key hash) (key · ≠ k) (key · = k) AvlNode.value t
      (extract cmp key hash k t) :=
  (extract_outcome hwf k).imp (fun _ => ne_of_fresh) fun _ => Std.LawfulEqCmp.eq_of_compare

theorem InsertOutcome.exactly {r : Bool × V × Tables (AvlTree V)}
    (hout : InsertOutcome cmp key hash elem t r) :
    Tables.InsertOutcome (kind cmp key) (WF cmp key hash) (key · ≠ key ·) (key · = key ·) elem t
      r :=
  hout.imp (fun _ => ne_of_fresh) fun _ => Std.LawfulEqCmp.eq_of_compare

variable [DecidableEq K] {m : KeyedStore K V × List V} {s : TreeState V}

/-! ## The calls on a table with known entries -/

section Indexes

variable (h : Indexes cmp key hash t es)
include h

theorem Indexes.insert_new (hnew : ∀ v ∈ es, key v ≠ key elem) :
    ∃ t', insertWithDuplicate cmp key hash elem t = (true, elem, t') ∧
      Indexes cmp key hash t' (elem :: es) :=
  Tables.Indexes.insert_new h (insertWithDuplicate_outcome h.wellFormed elem).exactly hnew

theorem Indexes.insert_duplicate (hv : v ∈ es) (hkey : key v = key elem) :
    ∃ t', insertWithDuplicate cmp key hash elem t = (false, v, t') ∧
      Indexes cmp key hash t' es :=
  Tables.Indexes.insert_duplicate h (insertWithDuplicate_outcome h.wellFormed elem).exactly hv hkey

theorem Indexes.find (k : K) : (find cmp key hash k t).1 = KeyedStore.ofList key es k ∧
      Indexes cmp key hash (find cmp key hash k t).2 es :=
  Tables.Indexes.find h (find_exactly h.wellFormed k)

theorem Indexes.extract (hperm : es ~ v :: rest) :
    ∃ n t', extract cmp key hash (key v) t = (some n, t') ∧ n.value = v ∧
      Indexes cmp key hash t' rest :=
  Tables.Indexes.extract h (extract_exactly h.wellFormed (key v)) hperm

theorem Indexes.extract_none {k : K} (hk : ∀ v ∈ es, key v ≠ k) :
    ∃ t', TreeHashTable.extract cmp key hash k t = (none, t') ∧
      Indexes cmp key hash t' es :=
  Tables.Indexes.extract_none h (extract_exactly h.wellFormed k) hk

theorem Indexes.erase (hperm : es ~ v :: rest) :
    Indexes cmp key hash (erase cmp key hash (key v) t).2 rest := by
  obtain ⟨n, t', hextract, -, hrest⟩ := h.extract hperm
  rw [TreeHashTable.erase, hextract]
  exact hrest

end Indexes

/-- How a tree table and its caller's nodes stand for the abstract store. -/
structure Simulated (cmp : K → K → Ordering) (key : V → K) (hash : K → Nat)
    (s : TreeState V) (m : KeyedStore K V × List V) : Prop where
  stores : Stores cmp key hash s.tables m.1
  held : s.held.map AvlNode.value = m.2

theorem callTable_simulates (hsim : Simulated cmp key hash s m) (call : TableCall K V) :
    (step cmp key hash (.table call) s).1 =
        (KeyedStore.treeStep key (.table call) m).1 ∧
      Simulated cmp key hash (step cmp key hash (.table call) s).2
        (KeyedStore.treeStep key (.table call) m).2 := by
  have hstores := hsim.stores
  cases call with
  | insert elem =>
    have hout := insertWithDuplicate_outcome hstores.wf elem
    simp only [step, callTable, TreeHashTable.insert, KeyedStore.treeStep, KeyedStore.step]
    generalize insertWithDuplicate cmp key hash elem s.tables = r at hout
    rcases r with ⟨success, entry, t⟩
    rcases hstores.insert hout.exactly with ⟨hm, rfl, rfl, hnext⟩ | ⟨hm, rfl, hnext⟩
    · simp only [hm]
      exact ⟨trivial, hnext, hsim.held⟩
    · simp only [hm]
      exact ⟨trivial, hnext, hsim.held⟩
  | insertWithDuplicate elem =>
    have hout := insertWithDuplicate_outcome hstores.wf elem
    simp only [step, callTable, KeyedStore.treeStep, KeyedStore.step]
    generalize insertWithDuplicate cmp key hash elem s.tables = r at hout
    rcases r with ⟨success, entry, t⟩
    rcases hstores.insert hout.exactly with ⟨hm, rfl, rfl, hnext⟩ | ⟨hm, rfl, hnext⟩
    · simp only [hm]
      exact ⟨trivial, hnext, hsim.held⟩
    · simp only [hm]
      exact ⟨trivial, hnext, hsim.held⟩
  | find k =>
    have hfind := hstores.find (find_exactly hstores.wf k)
    constructor
    · simp only [step, callTable, KeyedStore.treeStep, KeyedStore.step, hfind.1]
    · exact ⟨hfind.2, hsim.held⟩
  | extract k =>
    have hextract := hstores.extract (extract_exactly hstores.wf k)
    constructor
    · simp only [step, callTable, KeyedStore.treeStep, KeyedStore.step, hextract.1]
    · refine ⟨hextract.2, ?_⟩
      simp only [step, callTable, KeyedStore.treeStep, List.map_append, hsim.held, ← hextract.1]
      cases (extract cmp key hash k s.tables).1 with
      | none => rfl
      | some n => rfl
  | erase k =>
    have hextract := hstores.extract (extract_exactly hstores.wf k)
    simp only [step, callTable, erase, KeyedStore.treeStep, KeyedStore.step]
    generalize extract cmp key hash k s.tables = r at hextract
    rcases r with ⟨found, t⟩
    cases found with
    | none =>
      simp only [← hextract.1]
      exact ⟨rfl, hextract.2, hsim.held⟩
    | some n =>
      simp only [← hextract.1]
      exact ⟨rfl, hextract.2, hsim.held⟩
  | clear => exact ⟨rfl, stores_clear hstores, hsim.held⟩

theorem push_simulates (hsim : Simulated cmp key hash s m) (i : Nat) (overwrite : Option V) :
    (step cmp key hash (.push i overwrite) s).1 =
        (KeyedStore.treeStep key (.push i overwrite) m).1 ∧
      Simulated cmp key hash (step cmp key hash (.push i overwrite) s).2
        (KeyedStore.treeStep key (.push i overwrite) m).2 := by
  have hget : m.2[i]? = s.held[i]?.map AvlNode.value := by
    rw [← hsim.held, List.getElem?_map]
  simp only [step, KeyedStore.treeStep, hget]
  cases s.held[i]? with
  | none => exact ⟨rfl, hsim⟩
  | some n =>
    simp only [Option.map_some, push]
    have hout := pushWithDuplicate_outcome hsim.stores.wf
      ({ n with value := overwrite.getD n.value } : AvlNode V)
    generalize pushWithDuplicate cmp key hash
      ({ n with value := overwrite.getD n.value } : AvlNode V) s.tables = r at hout
    rcases r with ⟨success, entry, t⟩
    rcases hsim.stores.insert hout.exactly with ⟨hm, rfl, rfl, hnext⟩ | ⟨hm, rfl, hnext⟩
    · simp only [hm]
      refine ⟨trivial, hnext, ?_⟩
      simp only [← hsim.held, List.eraseIdx_map]
    · simp only [hm]
      refine ⟨trivial, hnext, ?_⟩
      simp only [← hsim.held, List.map_set]

theorem step_simulates : CallRuns.Simulates (step cmp key hash) (KeyedStore.treeStep key)
      (Simulated cmp key hash) := by
  intro call s m hsim
  cases call with
  | table call => exact callTable_simulates hsim call
  | push i overwrite => exact push_simulates hsim i overwrite

/-- Every run from the fresh table answers like the abstract store.  After it
the tables hold exactly the store's entries, each key once and never in both
tables, and `size` is their number.  Since the calls are arbitrary, this holds
after every call, whatever bucket the rehash has reached. -/
theorem run_refines_store (calls : List (TreeCall K V)) :
    let final := CallRuns.run (step cmp key hash) calls (start cmp key)
    let store := CallRuns.run (KeyedStore.treeStep key) calls (KeyedStore.empty, [])
    final.1 = store.1 ∧
      (∀ v, v ∈ entries cmp key final.2.tables ↔ store.2.1 (key v) = some v) ∧
      (∀ k v, store.2.1 k = some v → key v = k) ∧
      ((entries cmp key final.2.tables).map key).Nodup ∧
      (∀ a ∈ final.2.tables.table1.values (kind cmp key),
        ∀ b ∈ final.2.tables.table2.values (kind cmp key), key a ≠ key b) ∧
      final.2.tables.size = (entries cmp key final.2.tables).length := by
  have hstart : Simulated cmp key hash (start cmp key)
      (KeyedStore.empty, []) :=
    ⟨stores_new, rfl⟩
  have hrun := step_simulates.run calls hstart
  have hstores := hrun.2.stores
  intro final store
  refine ⟨hrun.1, hstores.represents.mem_iff, ?_, hstores.represents.nodup,
    hstores.tables_disjoint, hstores.exact_size⟩
  intro k v hkv
  exact hstores.represents.key_of_some hkv

/-- A run whose keys all collide: the fifth insertion starts a rehash, key 2
is extracted while it is running, renamed to 9 and pushed back. -/
theorem run_refines_store_colliding :
    (CallRuns.run (step (compare : Nat → Nat → Ordering) (Prod.fst : Nat × Nat → Nat) (fun _ => 6))
      [.table (.insert (1, 10)), .table (.insert (2, 20)), .table (.insert (3, 30)),
        .table (.insert (4, 40)), .table (.insertWithDuplicate (5, 50)),
        .table (.insertWithDuplicate (3, 31)), .table (.extract 2),
        .push 0 (some (9, 20)), .table (.find 2), .table (.find 9),
        .table (.erase 7)]
      (start compare Prod.fst)).1 =
      [.table (.entry (some (1, 10))), .table (.entry (some (2, 20))),
        .table (.entry (some (3, 30))), .table (.entry (some (4, 40))),
        .table (.duplicate true (5, 50)), .table (.duplicate false (3, 30)),
        .table (.entry (some (2, 20))), .pushed true, .table (.entry none),
        .table (.entry (some (9, 20))), .table (.erased 0)] := by
  rw [(run_refines_store _).1]
  decide

end TreeHashTable

end Mmkv
