import Mmkv.HashCollections
import Mmkv.TableGrowth

/-!
# The counter of the tables and the ways to remove

`used` counts what `Insert`, `Push`, `Extract` and `Erase` do.  `EraseNode`,
`EraseAfterFindSlot` and `EraseRandom` take an entry out and leave the counter, so that it is too
great by the number of these removals since the last `Clear`.
-/

namespace Mmkv

open scoped List

namespace Tables

variable {V B N X : Type} {kind : BucketKind V B N} {hash : V → Nat} {ok : B → Prop}
variable {apart : V → V → Prop} {settled : Prop} {wf : Tables B → Prop}
variable {t t' : Tables B} {lost : Nat} {v : V} {res : X → V}

/-- The counter is too great by `lost`. -/
structure Counts (kind : BucketKind V B N) (wf : Tables B → Prop) (t : Tables B) (lost : Nat) :
    Prop where
  wf : wf t
  size : t.size = (t.entries kind).length + lost

namespace Counts

theorem cleared (hwf : wf t) (hentries : t.entries kind = []) (hsize : t.size = 0) :
    Counts kind wf t 0 :=
  ⟨hwf, by rw [hsize, hentries]; rfl⟩

section

variable (h : Counts kind wf t lost) {distinct hit : V → Prop}

include h

theorem same (hwf : wf t') (hsame : SameEntries kind t t') : Counts kind wf t' lost :=
  ⟨hwf, by rw [hsame.size, h.size, hsame.entries_perm.length_eq]⟩

theorem insert {distinct equal : V → V → Prop} {r : Bool × V × Tables B}
    (hout : InsertOutcome kind wf distinct equal v t r) :
    Counts kind wf r.2.2 lost := by
  cases hout with
  | inserted hwf hadded hfresh =>
    refine ⟨hwf, ?_⟩
    rw [hadded.size, h.size, hadded.entries_perm.length_eq, List.length_cons]
    omega
  | refused hwf hsame hmem heq => exact h.same hwf hsame

theorem uncounted (hwf : wf t') (hsize : t'.size = t.size)
    (hperm : (t.entries kind) ~ (v :: t'.entries kind)) : Counts kind wf t' (lost + 1) := by
  have hlength := hperm.length_eq
  have hcount := h.size
  rw [List.length_cons] at hlength
  exact ⟨hwf, by omega⟩

theorem find {r : Option V × Tables B}
    (hout : FindOutcome kind wf distinct hit t r) : Counts kind wf r.2 lost :=
  h.same hout.kept.1 hout.kept.2

theorem extract {r : Option X × Tables B} (hout : ExtractOutcome kind wf distinct hit res t r) :
    Counts kind wf r.2 lost := by
  rcases hout.same_or_removed with ⟨-, hsame⟩ | ⟨x, -, hsize, hperm⟩
  · exact h.same hout.wf hsame
  · have hlength := hperm.length_eq
    have hcount := h.size
    rw [List.length_cons] at hlength
    exact ⟨hout.wf, by omega⟩

end

/-- A bucket operation that takes the entry out of its bucket, with no look at the counter. -/
theorem visit (law : kind.Lawful ok apart) {op : B → Option X × B} {hit : V → Prop}
    (hop : LawfulOp kind hash ok apart op hit res fun _ => [])
    (h : Counts kind (WF kind hash ok apart settled) t lost) (i : Nat) :
    Counts kind (WF kind hash ok apart settled) (t.visit kind op i).2
      (lost + (t.visit kind op i).1.isSome.toNat) := by
  have hout := visit_outcome law hop h.wf i
  generalize t.visit kind op i = r at hout ⊢
  cases hout with
  | missed fresh => exact h
  | found wf' hits visited =>
    obtain ⟨rest, hold, hnew⟩ := visited.replaced
    exact h.uncounted wf' visited.size (hold.trans (hnew.symm.cons _))

/-- What a caller reads off the counter. -/
theorem size_iff (h : Counts kind wf t lost) : (t.size = (t.entries kind).length ↔ lost = 0) ∧
      ((t.size = 0 ↔ t.entries kind = []) ↔ lost = 0 ∨ t.entries kind ≠ []) := by
  simp only [h.size, ne_eq, ← List.length_eq_zero_iff]
  omega

end Counts

end Tables

/-! ## The table with tree buckets -/

/-- A call on a tree table, or `FindNode` and `EraseNode` of what it found. -/
inductive NodeCall (K V : Type) where
  | call (c : TreeCall K V)
  | eraseNode (k : K)
  deriving Repr, DecidableEq

namespace TreeHashTable

variable {K V : Type} (cmp : K → K → Ordering) (key : V → K) (hash : K → Nat)

def findEraseNode (k : K) (t : Tables (AvlTree V)) : Bool × Tables (AvlTree V) :=
  match find cmp key hash k t with
  | (some _, t) =>
    ((t.visit (kind cmp key) (AvlTree.extract cmp key k) (hash k)).1.isSome,
      eraseNode cmp key hash k t)
  | (none, t) => (false, t)

/-- The table, with the number of nodes erased by `EraseNode` since the last `Clear`. -/
def nodeStep : NodeCall K V → TreeState V × Nat → TreeState V × Nat
  | .call (.table .clear), r => ((step cmp key hash (.table .clear) r.1).2, 0)
  | .call c, r => ((step cmp key hash c r.1).2, r.2)
  | .eraseNode k, r =>
    let (erased, t) := findEraseNode cmp key hash k r.1.tables
    ({ r.1 with tables := t }, r.2 + erased.toNat)

def runNodes (calls : List (NodeCall K V)) : TreeState V × Nat :=
  calls.foldl (fun r c => nodeStep cmp key hash c r) (start cmp key, 0)

variable {cmp key hash} [Std.TransCmp cmp]

abbrev Counts (cmp : K → K → Ordering) (key : V → K) (hash : K → Nat) :
    Tables (AvlTree V) → Nat → Prop :=
  Tables.Counts (kind cmp key) (WF cmp key hash)

variable {t : Tables (AvlTree V)} {lost : Nat}

theorem counts_findEraseNode (h : Counts cmp key hash t lost) (k : K) :
    Counts cmp key hash (findEraseNode cmp key hash k t).2
      (lost + (findEraseNode cmp key hash k t).1.toNat) := by
  have hfind := h.find (find_outcome h.wf k)
  unfold findEraseNode
  split
  next v t' hfound =>
    rw [hfound] at hfind
    exact hfind.visit kind_lawful (extractOp_lawful k) (hash k)
  next t' hfound =>
    rw [hfound] at hfind
    exact hfind

theorem counts_push {s : TreeState V} (h : Counts cmp key hash s.tables lost) (i : Nat)
    (overwrite : Option V) :
    Counts cmp key hash (step cmp key hash (.push i overwrite) s).2.tables lost := by
  simp only [step]
  cases s.held[i]? with
  | none => exact h
  | some n =>
    have hpush := h.insert (pushWithDuplicate_outcome h.wf
      ({ n with value := overwrite.getD n.value } : AvlNode V))
    simp only [push]
    grind

theorem counts_nodeStep {r : TreeState V × Nat} (h : Counts cmp key hash r.1.tables r.2)
    (c : NodeCall K V) :
    Counts cmp key hash (nodeStep cmp key hash c r).1.tables (nodeStep cmp key hash c r).2 := by
  cases c with
  | eraseNode k => exact counts_findEraseNode h k
  | call c =>
    cases c with
    | push i overwrite => exact counts_push h i overwrite
    | table c =>
      cases c with
      | insert elem =>
        change Counts cmp key hash (insert cmp key hash elem r.1.tables).2 r.2
        rw [insert_snd]
        exact h.insert (insertWithDuplicate_outcome h.wf elem)
      | insertWithDuplicate elem => exact h.insert (insertWithDuplicate_outcome h.wf elem)
      | find k => exact h.find (find_outcome h.wf k)
      | extract k => exact h.extract (extract_outcome h.wf k)
      | erase k =>
        change Counts cmp key hash (erase cmp key hash k r.1.tables).2 r.2
        rw [erase_eq]
        exact h.extract (extract_outcome h.wf k)
      | clear =>
        obtain ⟨hwf, hentries, hsize⟩ := clear_spec h.wf
        exact .cleared hwf hentries hsize

theorem counts_runNodes (calls : List (NodeCall K V)) :
    Counts cmp key hash (runNodes cmp key hash calls).1.tables
      (runNodes cmp key hash calls).2 :=
  List.foldlRecOn calls _
    (motive := fun r : TreeState V × Nat => Counts cmp key hash r.1.tables r.2)
    (.cleared wf_new entries_new rfl) fun _ h c _ => counts_nodeStep h c

end TreeHashTable

/-! ## The table with list buckets -/

/-- A call on a table, `FindSlot` and `EraseAfterFindSlot` of what it found, or `EraseRandom`. -/
inductive SlotCall (K V : Type) where
  | call (c : TableCall K V)
  | eraseAfterFindSlot (k : K)
  | eraseRandom
  deriving Repr, DecidableEq

namespace HashTable

variable {K V : Type} [DecidableEq K] (key : V → K) (hash : K → Nat)

/-- The slot is the head of the bucket to which `FindSlot` moved the node. -/
def findEraseSlot (k : K) (t : Tables (List V)) : Bool × Tables (List V) :=
  match find key hash k t with
  | (some _, t) =>
    let r := t.visit kind (Slist.extractNodeIf fun v => decide (key v = k)) (hash k)
    (r.1.isSome, r.2)
  | (none, t) => (false, t)

def slotStep : SlotCall K V → Tables (List V) × Nat → Tables (List V) × Nat
  | .call .clear, r => (clear r.1, 0)
  | .call c, r => ((call key hash c r.1).2, r.2)
  | .eraseAfterFindSlot k, r =>
    let (erased, t) := findEraseSlot key hash k r.1
    (t, r.2 + erased.toNat)
  | .eraseRandom, r =>
    let (erased, t) := eraseRandom key hash r.1
    (t, r.2 + erased.toNat)

def runSlots (calls : List (SlotCall K V)) : Tables (List V) × Nat :=
  calls.foldl (fun r c => slotStep key hash c r) (new, 0)

variable {key hash}

abbrev Counts (key : V → K) (hash : K → Nat) : Tables (List V) → Nat → Prop :=
  Tables.Counts kind (WF key hash)

variable {t : Tables (List V)} {lost : Nat}

theorem counts_findEraseSlot (h : Counts key hash t lost) (k : K) :
    Counts key hash (findEraseSlot key hash k t).2
      (lost + (findEraseSlot key hash k t).1.toNat) := by
  have hfind := h.find (find_outcome h.wf k)
  unfold findEraseSlot
  split
  next v t' hfound =>
    rw [hfound] at hfind
    exact hfind.visit kind_lawful (extractNodeIf_lawful k) (hash k)
  next t' hfound =>
    rw [hfound] at hfind
    exact hfind

omit [DecidableEq K] in
theorem counts_eraseRandom (h : Counts key hash t lost) :
    Counts key hash (eraseRandom key hash t).2 (lost + (eraseRandom key hash t).1.toNat) := by
  obtain ⟨hwf, hsize, ⟨hfound, v, hperm⟩ | ⟨hfound, hsame⟩⟩ := eraseRandom_spec h.wf
  · rw [hfound]
    exact h.uncounted hwf hsize hperm
  · rw [hfound]
    exact h.same hwf hsame

theorem counts_slotStep {r : Tables (List V) × Nat} (h : Counts key hash r.1 r.2)
    (c : SlotCall K V) :
    Counts key hash (slotStep key hash c r).1 (slotStep key hash c r).2 := by
  cases c with
  | eraseAfterFindSlot k => exact counts_findEraseSlot h k
  | eraseRandom => exact counts_eraseRandom h
  | call c =>
    cases c with
    | insert elem =>
      change Counts key hash (insert key hash elem r.1).2 r.2
      rw [insert_snd]
      exact h.insert (insertWithDuplicate_outcome h.wf elem)
    | insertWithDuplicate elem => exact h.insert (insertWithDuplicate_outcome h.wf elem)
    | find k => exact h.find (find_outcome h.wf k)
    | extract k => exact h.extract (extract_outcome h.wf k)
    | erase k =>
      change Counts key hash (erase key hash k r.1).2 r.2
      rw [erase_eq]
      exact h.extract (extract_outcome h.wf k)
    | clear =>
      obtain ⟨hwf, hentries, hsize⟩ := Tables.WF.clear_spec kind_lawful h.wf
      exact .cleared hwf hentries hsize

theorem counts_runSlots (calls : List (SlotCall K V)) :
    Counts key hash (runSlots key hash calls).1 (runSlots key hash calls).2 :=
  List.foldlRecOn calls _ (motive := fun r : Tables (List V) × Nat => Counts key hash r.1 r.2)
    (.cleared (Tables.wf_new kind_lawful) rfl rfl) fun _ h c _ => counts_slotStep h c

end HashTable

/-! ## Sizes -/

/-- After any calls `size()` is the number of entries if and only if nothing was removed around
the counter since the last `Clear`, and a wrong counter shows in `IsEmpty` when nothing is left. -/
theorem size_eq_entries_iff {K V : Type} [DecidableEq K] (cmp : K → K → Ordering)
    [Std.TransCmp cmp] (key : V → K) (hash : K → Nat) :
    (∀ calls : List (NodeCall K V), let r := TreeHashTable.runNodes cmp key hash calls
      let entries := TreeHashTable.entries cmp key r.1.tables
      (r.1.tables.size = entries.length ↔ r.2 = 0) ∧
        ((r.1.tables.size = 0 ↔ entries = []) ↔ r.2 = 0 ∨ entries ≠ [])) ∧
    ∀ calls : List (SlotCall K V),
      let r := HashTable.runSlots key hash calls
      let entries := HashTable.entries r.1
      (r.1.size = entries.length ↔ r.2 = 0) ∧
        ((r.1.size = 0 ↔ entries = []) ↔ r.2 = 0 ∨ entries ≠ []) :=
  ⟨fun calls => (TreeHashTable.counts_runNodes calls).size_iff,
    fun calls => (HashTable.counts_runSlots calls).size_iff⟩

/-- Two insertions and an `Erase`. -/
theorem size_eq_entries_erase :
    let calls : List (SlotCall Nat Nat) := [.call (.insert 1), .call (.insert 2), .call (.erase 1)]
    (HashTable.runSlots id id calls).1.size = 1 ∧
      HashTable.entries (HashTable.runSlots id id calls).1 = [2] ∧
      (HashTable.runSlots id id calls).1.size =
        (HashTable.entries (HashTable.runSlots id id calls).1).length :=
  ⟨by decide, by decide, (((size_eq_entries_iff compare id id).2 _).1).2 (by decide)⟩

/-- An insertion and each of the three removals: nothing is left, and the counter says one. -/
theorem size_of_uncounted :
    let r := TreeHashTable.runNodes (compare : Nat → Nat → Ordering) id id
      [.call (.table (.insert 1)), .eraseNode 1]
    let slots : List (SlotCall Nat Nat) := [.call (.insert 1), .eraseAfterFindSlot 1]
    let random : List (SlotCall Nat Nat) := [.call (.insert 1), .eraseRandom]
    (r.1.tables.size = 1 ∧ TreeHashTable.entries compare id r.1.tables = []) ∧
      ∀ calls ∈ [slots, random], (HashTable.runSlots id id calls).1.size = 1 ∧
        HashTable.entries (HashTable.runSlots id id calls).1 = [] := by
  decide

end Mmkv
