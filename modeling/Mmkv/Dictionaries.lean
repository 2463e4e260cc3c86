import Mmkv.CStrings
import Mmkv.TreeHashTable

/-!
# The dictionaries of a database

`dict_` and `exp_dict_` are tree hash tables over `strcmp`.  The calls that the
database makes on them are collected in `DictOp`, so that a database command can
be run on the tables and on a partial function from keys to values.  The two
answer alike as long as the keys in play are not confused by `strcmp`.
-/

namespace Mmkv

open TreeHashTable

open scoped List

structure KeyValue (V : Type) where
  key : Str
  value : V
  deriving Repr, DecidableEq

def KeyValue.assign {V : Type} (v : V) (kv : KeyValue V) : KeyValue V :=
  { kv with value := v }

/-- `write` is an assignment through the pointer to the value of the entry with
the stored key `k`.  `extract` hands out a node, which is then dropped or, with
another key, pushed. -/
inductive DictOp (V : Type) where
  | find (k : Str)
  | insertKvWithDuplicate (k : Str) (v : V)
  | write (k : Str) (v : V)
  | extract (k : Str)
  | dropNode
  | push (k : Str) (v : V)
  | eraseNode (k : Str)
  | erase (k : Str)
  | size
  | clear
  deriving Repr, DecidableEq

namespace DictOp

variable {V : Type}

@[reducible] def Ans : DictOp V → Type
  | .find _ => Option (KeyValue V)
  | .insertKvWithDuplicate _ _ => Bool × KeyValue V
  | .write _ _ => Unit
  | .extract _ => Option (KeyValue V)
  | .dropNode => Unit
  | .push _ _ => Bool
  | .eraseNode _ => Unit
  | .erase _ => Nat
  | .size => Nat
  | .clear => Unit

/-- The keys of the call are in `U`. -/
def On (U : Set Str) : DictOp V → Prop
  | .find k => k ∈ U
  | .insertKvWithDuplicate k _ => k ∈ U
  | .write k _ => k ∈ U
  | .extract k => k ∈ U
  | .dropNode => True
  | .push k _ => k ∈ U
  | .eraseNode k => k ∈ U
  | .erase k => k ∈ U
  | .size => True
  | .clear => True

end DictOp

/-! ## On the tables -/

/-- A tree hash table in order.  `extracted` are the heights that the nodes
handed out by `Extract` and not yet dropped or pushed kept from their trees, the
last one first. -/
structure Dict (hash : Str → Nat) (V : Type) where
  tables : Tables (AvlTree (KeyValue V))
  extracted : List Nat
  wf : TreeHashTable.WF strcmp KeyValue.key hash tables

namespace Dict

variable {hash : Str → Nat} {V : Type}

def new : Dict hash V :=
  ⟨TreeHashTable.new strcmp KeyValue.key, [], wf_new⟩

def entries (d : Dict hash V) : List (KeyValue V) :=
  TreeHashTable.entries strcmp KeyValue.key d.tables

def find (k : Str) (d : Dict hash V) : Option (KeyValue V) × Dict hash V :=
  let r := TreeHashTable.find strcmp KeyValue.key hash k d.tables
  (r.1, ⟨r.2, d.extracted, (find_outcome d.wf k).kept.1⟩)

def insertKvWithDuplicate (k : Str) (v : V) (d : Dict hash V) : (Bool × KeyValue V) × Dict hash V :=
  let r := TreeHashTable.insertWithDuplicate strcmp KeyValue.key hash ⟨k, v⟩ d.tables
  ((r.1, r.2.1), ⟨r.2.2, d.extracted, (insertWithDuplicate_outcome d.wf ⟨k, v⟩).wf⟩)

def write (k : Str) (v : V) (d : Dict hash V) : Dict hash V where
  tables := TreeHashTable.modify strcmp KeyValue.key hash k (KeyValue.assign v) d.tables
  extracted := d.extracted
  wf := (modify_spec d.wf (f := KeyValue.assign v) fun _ => rfl).1

def extract (k : Str) (d : Dict hash V) : Option (KeyValue V) × Dict hash V :=
  let r := TreeHashTable.extract strcmp KeyValue.key hash k d.tables
  (r.1.map AvlNode.value, ⟨r.2, r.1.toList.map AvlNode.height ++ d.extracted,
      (extract_outcome d.wf k).wf⟩)

def dropNode (d : Dict hash V) : Dict hash V :=
  { d with extracted := d.extracted.tail }

def push (k : Str) (v : V) (d : Dict hash V) : Bool × Dict hash V :=
  let node : AvlNode (KeyValue V) := ⟨⟨k, v⟩, d.extracted.headD 1⟩
  let r := TreeHashTable.push strcmp KeyValue.key hash node d.tables
  (r.1, ⟨r.2, d.extracted.tail, push_wf d.wf node⟩)

def eraseNode (k : Str) (d : Dict hash V) : Dict hash V where
  tables := TreeHashTable.eraseNode strcmp KeyValue.key hash k d.tables
  extracted := d.extracted
  wf := (eraseNode_spec d.wf).1

def erase (k : Str) (d : Dict hash V) : Nat × Dict hash V :=
  let r := TreeHashTable.erase strcmp KeyValue.key hash k d.tables
  (r.1, ⟨r.2, d.extracted, erase_wf d.wf k⟩)

def clear (d : Dict hash V) : Dict hash V where
  tables := TreeHashTable.clear strcmp KeyValue.key d.tables
  extracted := d.extracted
  wf := (clear_spec d.wf).1

def step : (op : DictOp V) → Dict hash V → op.Ans × Dict hash V
  | .find k, d => d.find k
  | .insertKvWithDuplicate k v, d => d.insertKvWithDuplicate k v
  | .write k v, d => ((), d.write k v)
  | .extract k, d => d.extract k
  | .dropNode, d => ((), d.dropNode)
  | .push k v, d => d.push k v
  | .eraseNode k, d => ((), d.eraseNode k)
  | .erase k, d => d.erase k
  | .size, d => (d.tables.size, d)
  | .clear, d => ((), d.clear)

end Dict

/-! ## Calls with any key -/

namespace Dict

variable {hash : Str → Nat} {V : Type} (d : Dict hash V) (k : Str)

theorem find_spec : (d.find k).2.entries.Perm d.entries ∧ ∀ kv ∈ (d.find k).1, kv ∈ d.entries := by
  have hout := find_outcome d.wf k
  refine ⟨hout.kept.2.entries_perm, ?_⟩
  change ∀ kv ∈ (TreeHashTable.find strcmp KeyValue.key hash k d.tables).1, _
  generalize TreeHashTable.find strcmp KeyValue.key hash k d.tables = r at hout ⊢
  cases hout with
  | missed wf' same fresh => simp
  | found wf' same mem hits =>
    rintro _ ⟨⟩
    exact mem

theorem find_eq_none_of_empty {d : Dict hash V} (hd : d.entries = []) (k : Str) :
    (d.find k).1 = none := by
  cases hfind : (d.find k).1 with
  | none => rfl
  | some kv =>
    have hmem := (d.find_spec k).2 kv hfind
    simp [hd] at hmem

variable {kv : KeyValue V}

variable {r : Bool × KeyValue V × Tables (AvlTree (KeyValue V))}

/-- What an insertion answers, and how the entries change. -/
theorem inserted_spec {elem : KeyValue V}
    (hout : TreeHashTable.InsertOutcome strcmp KeyValue.key hash elem d.tables r) :
    (r.1 = true ∧ r.2.1 = elem ∧ (TreeHashTable.entries strcmp KeyValue.key r.2.2).Perm
        (elem :: d.entries)) ∨
      (r.1 = false ∧ r.2.1 ∈ d.entries ∧
        (TreeHashTable.entries strcmp KeyValue.key r.2.2).Perm d.entries) := by
  cases hout with
  | inserted wf' added fresh => exact .inl ⟨rfl, rfl, added.entries_perm⟩
  | refused wf' same mem eq => exact .inr ⟨rfl, mem, same.entries_perm⟩

theorem insertKvWithDuplicate_spec (v : V) : ((d.insertKvWithDuplicate k v).1 = (true, ⟨k, v⟩) ∧
        (d.insertKvWithDuplicate k v).2.entries.Perm (⟨k, v⟩ :: d.entries)) ∨
      ((d.insertKvWithDuplicate k v).1.1 = false ∧ (d.insertKvWithDuplicate k v).1.2 ∈ d.entries ∧
        (d.insertKvWithDuplicate k v).2.entries.Perm d.entries) := by
  have hspec := d.inserted_spec (insertWithDuplicate_outcome d.wf ⟨k, v⟩)
  exact hspec.imp_left fun h => ⟨Prod.ext h.1 h.2.1, h.2.2⟩

theorem extract_spec : (d.extract k).1 = none ∧ (d.extract k).2.entries.Perm d.entries ∨
      ∃ kv, (d.extract k).1 = some kv ∧ d.entries.Perm (kv :: (d.extract k).2.entries) := by
  rcases (extract_outcome d.wf k).same_or_removed with
    ⟨hnone, hsame⟩ | ⟨n, hsome, -, hperm⟩
  · exact .inl ⟨congrArg (Option.map AvlNode.value) hnone, hsame.entries_perm⟩
  · exact .inr ⟨n.value, congrArg (Option.map AvlNode.value) hsome, hperm⟩

theorem erase_eq : (d.erase k).1 = (d.extract k).1.toList.length ∧
    (d.erase k).2.tables = (d.extract k).2.tables := by
  have heq : TreeHashTable.erase strcmp KeyValue.key hash k d.tables = _ :=
    TreeHashTable.erase_eq k d.tables
  refine ⟨(congrArg Prod.fst heq).trans ?_, congrArg Prod.snd heq⟩
  change _ = ((TreeHashTable.extract strcmp KeyValue.key hash k d.tables).1.map _).toList.length
  cases (TreeHashTable.extract strcmp KeyValue.key hash k d.tables).1 <;> rfl

end Dict

/-! ## On a partial function -/

/-- `used` is what the table reports as its size. -/
structure AbsDict (V : Type) where
  get : Str → Option V
  used : Nat

namespace AbsDict

variable {V : Type} {a : AbsDict V} {k : Str}

def empty : AbsDict V :=
  ⟨fun _ => none, 0⟩

def set (a : AbsDict V) (k : Str) (v : V) : AbsDict V :=
  { a with get := Function.update a.get k (some v) }

def remove (a : AbsDict V) (k : Str) : AbsDict V :=
  { a with get := Function.update a.get k none }

def insert (a : AbsDict V) (k : Str) (v : V) : AbsDict V :=
  { a.set k v with used := a.used + 1 }

def extract (a : AbsDict V) (k : Str) : AbsDict V :=
  { a.remove k with used := a.used - 1 }

def step : (op : DictOp V) → AbsDict V → op.Ans × AbsDict V
  | .find k, a => ((a.get k).map (KeyValue.mk k), a)
  | .insertKvWithDuplicate k v, a =>
    match a.get k with
    | some old => ((false, ⟨k, old⟩), a)
    | none => ((true, ⟨k, v⟩), a.insert k v)
  | .write k v, a =>
    match a.get k with
    | some _ => ((), a.set k v)
    | none => ((), a)
  | .extract k, a =>
    match a.get k with
    | some v => (some ⟨k, v⟩, a.extract k)
    | none => (none, a)
  | .dropNode, a => ((), a)
  | .push k v, a =>
    match a.get k with
    | some _ => (false, a)
    | none => (true, a.insert k v)
  | .eraseNode k, a => ((), a.remove k)
  | .erase k, a =>
    match a.get k with
    | some _ => (1, a.extract k)
    | none => (0, a)
  | .size, a => (a.used, a)
  | .clear, _ => ((), empty)

def store (a : AbsDict V) : KeyedStore Str (KeyValue V) :=
  fun k => (a.get k).map (KeyValue.mk k)

theorem store_set (a : AbsDict V) (kv : KeyValue V) :
    a.store.set KeyValue.key kv = (a.set kv.key kv.value).store := by
  funext k
  by_cases hk : k = kv.key
  · subst hk
    rw [KeyedStore.set_self]
    simp [store, set]
  · rw [KeyedStore.set_of_ne _ _ hk]
    simp [store, set, hk]

theorem store_remove (a : AbsDict V) (k : Str) : a.store.remove k = (a.remove k).store := by
  funext k'
  by_cases hk : k' = k
  · subst hk
    rw [KeyedStore.remove_self]
    simp [store, remove]
  · rw [KeyedStore.remove_of_ne _ hk]
    simp [store, remove, hk]

theorem store_eq_none : a.store k = none ↔ a.get k = none := by
  simp [store]

theorem store_eq_some :
    a.store k = some kv ↔ a.get k = some kv.value ∧ kv.key = k := by
  rcases kv with ⟨k', v⟩
  simp [store]
  tauto

theorem get_remove (a : AbsDict V) (k k' : Str) :
    (a.remove k).get k' = if k' = k then none else a.get k' := by
  simp [remove, Function.update_apply]

end AbsDict

/-- The call looks for a stored key. -/
def DictOp.OnStored {V : Type} (a : AbsDict V) : DictOp V → Prop
  | .find k | .extract k | .eraseNode k | .erase k => (a.get k).isSome
  | .dropNode => True
  | _ => False

/-! ## The tables answer like the function -/

/-- The tables hold the entries of the function and report its size; the stored
keys are in `U`. -/
structure Dict.Holds {hash : Str → Nat} {V : Type} (U : Set Str) (d : Dict hash V)
    (a : AbsDict V) : Prop where
  represents : KeyedStore.Represents KeyValue.key d.entries a.store
  size : d.tables.size = a.used
  keys : ∀ k v, a.get k = some v → k ∈ U

namespace Dict

variable {hash : Str → Nat} {V : Type} {U : Set Str} {d d' : Dict hash V} {a : AbsDict V}
  {kv : KeyValue V}

theorem Holds.mem_iff (hd : Holds U d a) : kv ∈ d.entries ↔ a.get kv.key = some kv.value := by
  rw [hd.represents.mem_iff, AbsDict.store_eq_some]
  simp

theorem Holds.mem_keys (hd : Holds U d a) (hkv : kv ∈ d.entries) : kv.key ∈ U :=
  hd.keys _ _ (hd.mem_iff.mp hkv)

variable {k : Str} {op : DictOp V}

/-- A stored key that compares equal to a key of `U` is that key. -/
theorem Holds.key_eq (hU : Separated U) (hd : Holds U d a) (hk : k ∈ U) (hkv : kv ∈ d.entries)
    (hcmp : strcmp kv.key k = .eq) : a.get k = some kv.value ∧ kv = ⟨k, kv.value⟩ := by
  have hkey := hU _ (hd.mem_keys hkv) _ hk hcmp
  subst hkey
  exact ⟨hd.mem_iff.mp hkv, rfl⟩

/-- The key is stored, or `strcmp` does not take a stored key for it. -/
def Resolves (d : Dict hash V) (k : Str) : Prop :=
  (∃ kv ∈ d.entries, kv.key = k) ∨ ∀ kv ∈ d.entries, strcmp kv.key k ≠ .eq

theorem Holds.resolves (hU : Separated U) (hd : Holds U d a) (hk : k ∈ U) : d.Resolves k := by
  by_cases h : ∃ kv ∈ d.entries, strcmp kv.key k = .eq
  · obtain ⟨kv, hkv, hcmp⟩ := h
    exact .inl ⟨kv, hkv, hU _ (hd.mem_keys hkv) _ hk hcmp⟩
  · exact .inr fun kv hkv hcmp => h ⟨kv, hkv, hcmp⟩

theorem Holds.resolves_stored (hd : Holds U d a) (hk : (a.get k).isSome) : d.Resolves k := by
  obtain ⟨v, hget⟩ := Option.isSome_iff_exists.mp hk
  exact .inl ⟨⟨k, v⟩, hd.mem_iff.mpr hget, rfl⟩

/-- What a lookup finds is the entry of the key. -/
theorem Resolves.entry (hk : d.Resolves k) (hd : Holds U d a) (hkv : kv ∈ d.entries)
    (hcmp : strcmp kv.key k = .eq) (hexact : ∀ kv' ∈ d.entries, kv'.key = k → kv = kv') :
    a.get k = some kv.value ∧ kv = ⟨k, kv.value⟩ := by
  obtain ⟨kv', hkv', hkey⟩ | hnone := hk
  · obtain rfl := hexact kv' hkv' hkey
    subst hkey
    exact ⟨hd.mem_iff.mp hkv, rfl⟩
  · exact absurd hcmp (hnone kv hkv)

theorem Holds.get_of_fresh (hd : Holds U d a)
    (hfresh : ∀ kv ∈ d.entries, hash kv.key = hash k → strcmp kv.key k ≠ .eq) : a.get k = none := by
  cases hget : a.get k with
  | none => rfl
  | some v =>
    have hmem : (⟨k, v⟩ : KeyValue V) ∈ d.entries := hd.mem_iff.mpr hget
    exact absurd (strcmp_self k) (hfresh _ hmem rfl)

theorem Holds.same (hd : Holds U d a)
    (hsame : Tables.SameEntries (TreeHashTable.kind strcmp KeyValue.key) d.tables d'.tables) :
    Holds U d' a where
  represents := hd.represents.perm hsame.entries_perm
  size := hsame.size.trans hd.size
  keys := hd.keys

theorem Holds.added (hd : Holds U d a) {v : V} (hk : k ∈ U) (hnone : a.get k = none)
    (hadded : Tables.Added (TreeHashTable.kind strcmp KeyValue.key) d.tables d'.tables ⟨k, v⟩) :
    Holds U d' (a.insert k v) where
  represents := by
    have hcons := hd.represents.cons (v := ⟨k, v⟩) (AbsDict.store_eq_none.mpr hnone)
    rw [AbsDict.store_set] at hcons
    exact hcons.perm hadded.entries_perm
  size := by rw [hadded.size, hd.size]; rfl
  keys := by
    intro k' v' hget
    by_cases hkk : k' = k
    · rwa [hkk]
    · apply hd.keys k' v'
      simpa [AbsDict.insert, AbsDict.set, hkk] using hget

theorem Holds.removed (hd : Holds U d a) {used : Nat} (hperm : d.entries ~ (kv :: d'.entries))
    (hsize : d'.tables.size = used) :
    Holds U d' { a.remove kv.key with used := used } where
  represents := by
    have htail := (hd.represents.perm hperm.symm).tail
    rwa [AbsDict.store_remove] at htail
  size := hsize
  keys := by
    intro k' v' hget
    by_cases hkk : k' = kv.key
    · simp [AbsDict.remove, hkk] at hget
    · apply hd.keys k' v'
      simpa [AbsDict.remove, hkk] using hget

section Lookups

variable (hd : Holds U d a) {k : Str} (hk : d.Resolves k)

include hd hk

theorem find_holds : (d.find k).1 = (a.get k).map (KeyValue.mk k) ∧ Holds U (d.find k).2 a := by
  have hout := find_outcome d.wf k
  refine ⟨?_, hd.same hout.kept.2⟩
  change (TreeHashTable.find strcmp KeyValue.key hash k d.tables).1 = _
  generalize hfind : TreeHashTable.find strcmp KeyValue.key hash k d.tables = r at hout ⊢
  cases hout with
  | missed wf' same fresh =>
    rw [hd.get_of_fresh fresh]
    rfl
  | found wf' same mem hits =>
    have hkey := hk.entry hd mem hits fun kv' hkv' heq =>
      find_exact d.wf hkv' (heq ▸ hfind)
    rw [hkey.1, Option.map_some, ← hkey.2]

theorem extract_holds : (d.extract k).1 = (AbsDict.step (.extract k) a).1 ∧
      Holds U (d.extract k).2 (AbsDict.step (.extract k) a).2 := by
  have hout := extract_outcome d.wf k
  have htables : (d.extract k).2.tables =
      (TreeHashTable.extract strcmp KeyValue.key hash k d.tables).2 := rfl
  have hans : (d.extract k).1 =
      (TreeHashTable.extract strcmp KeyValue.key hash k d.tables).1.map AvlNode.value := rfl
  generalize hextract : TreeHashTable.extract strcmp KeyValue.key hash k d.tables = r
    at hout htables hans
  cases hout with
  | missed wf' same fresh =>
    simp only [AbsDict.step, hd.get_of_fresh fresh]
    exact ⟨hans, hd.same (htables ▸ same)⟩
  | @extracted node t wf' size hits perm =>
    have hkey := hk.entry hd (perm.mem_iff.mpr List.mem_cons_self) hits fun kv' hkv' heq =>
      extract_exact d.wf hkv' (heq ▸ hextract)
    have hk' : node.value.key = k := by rw [hkey.2]
    have hremoved : Holds U (d.extract k).2
        { a.remove node.value.key with used := a.used - 1 } := by
      apply hd.removed
      · unfold entries
        rwa [htables]
      · rw [htables, ← hd.size, ← size]
        rfl
    rw [hk'] at hremoved
    simp only [AbsDict.step, hkey.1]
    exact ⟨by rw [hans, ← hkey.2]; rfl, hremoved⟩

theorem eraseNode_holds : Holds U (d.eraseNode k) (a.remove k) := by
  have hspec := eraseNode_spec (k := k) d.wf
  obtain ⟨kv, hkv, rfl⟩ | hnone := hk
  · exact hd.removed (eraseNode_stored d.wf hkv) (hspec.2.1.trans hd.size)
  rcases hspec.2.2 with ⟨kv, hcmp, hperm⟩ | ⟨hsame, hfresh⟩
  · exact absurd hcmp (hnone kv (hperm.mem_iff.mpr List.mem_cons_self))
  · have hnone : a.get k = none := hd.get_of_fresh hfresh
    have hremove : a.remove k = a := by
      simp [AbsDict.remove, ← hnone]
    rw [hremove]
    apply hd.same
    simp only [eraseNode, hsame]
    exact .refl _

theorem erase_holds : (d.erase k).1 = (AbsDict.step (.erase k) a).1 ∧
      Holds U (d.erase k).2 (AbsDict.step (.erase k) a).2 := by
  have hextract := extract_holds hd hk
  have herase := d.erase_eq k
  have hholds : Holds U (d.erase k).2 (AbsDict.step (.extract k) a).2 :=
    hextract.2.same (herase.2 ▸ .refl _)
  rw [herase.1, hextract.1]
  cases hget : a.get k with
  | none =>
    simp only [AbsDict.step, hget] at hholds ⊢
    exact ⟨rfl, hholds⟩
  | some v =>
    simp only [AbsDict.step, hget] at hholds ⊢
    exact ⟨rfl, hholds⟩

end Lookups

section Calls

variable (hU : Separated U) (hd : Holds U d a) {k : Str} (hk : k ∈ U)

include hU hd hk

/-- An insertion answers like the function, whichever way it is made. -/
theorem insertOutcome_holds (d' : Dict hash V) {v : V}
    (hout : TreeHashTable.InsertOutcome strcmp KeyValue.key hash ⟨k, v⟩ d.tables r)
    (htables : d'.tables = r.2.2) :
    (r.1, r.2.1) = (AbsDict.step (.insertKvWithDuplicate k v) a).1 ∧
      Holds U d' (AbsDict.step (.insertKvWithDuplicate k v) a).2 := by
  cases hout with
  | inserted wf' added fresh =>
    have hnone : a.get k = none := hd.get_of_fresh fresh
    simp only [AbsDict.step, hnone]
    exact ⟨trivial, hd.added hk hnone (htables ▸ added)⟩
  | refused wf' same mem eq =>
    have hkey := hd.key_eq hU hk mem eq
    simp only [AbsDict.step, hkey.1]
    exact ⟨by rw [← hkey.2], hd.same (htables ▸ same)⟩

theorem insertKvWithDuplicate_holds (v : V) :
    (d.insertKvWithDuplicate k v).1 = (AbsDict.step (.insertKvWithDuplicate k v) a).1 ∧
      Holds U (d.insertKvWithDuplicate k v).2
        (AbsDict.step (.insertKvWithDuplicate k v) a).2 :=
  insertOutcome_holds hU hd hk _ (insertWithDuplicate_outcome d.wf ⟨k, v⟩) rfl

theorem write_holds (v : V) : Holds U (d.write k v) (AbsDict.step (.write k v) a).2 := by
  have hspec := modify_spec d.wf (k := k) (f := KeyValue.assign v) fun _ => rfl
  rcases hspec.2.2 with ⟨kv, rest, hcmp, hold, hnew⟩ | ⟨hsame, hfresh⟩
  · have hmem : kv ∈ d.entries := hold.mem_iff.mpr List.mem_cons_self
    have hkey := hd.key_eq hU hk hmem hcmp
    have hk' : kv.key = k := by rw [hkey.2]
    simp only [AbsDict.step, hkey.1]
    constructor
    · have hreplace := (hd.represents.perm hold.symm).replace (w := kv.assign v) rfl
      rw [AbsDict.store_set] at hreplace
      have hset : a.set (kv.assign v).key (kv.assign v).value = a.set k v := by
        rw [← hk']
        rfl
      rw [← hset]
      exact hreplace.perm hnew
    · exact hspec.2.1.trans hd.size
    · intro k' v' hget
      by_cases hkk : k' = k
      · rwa [hkk]
      · apply hd.keys k' v'
        simpa [AbsDict.set, hkk] using hget
  · have hnone : a.get k = none := hd.get_of_fresh hfresh
    simp only [AbsDict.step, hnone]
    apply hd.same
    simp only [write, hsame]
    exact .refl _

theorem push_holds (v : V) : (d.push k v).1 = (AbsDict.step (.push k v) a).1 ∧
      Holds U (d.push k v).2 (AbsDict.step (.push k v) a).2 := by
  have hout := pushWithDuplicate_outcome d.wf (⟨⟨k, v⟩, d.extracted.headD 1⟩ : AvlNode (KeyValue V))
  have hholds := insertOutcome_holds hU hd hk (d.push k v).2 hout rfl
  cases hget : a.get k with
  | none =>
    simp only [AbsDict.step, hget] at hholds ⊢
    exact ⟨congrArg Prod.fst hholds.1, hholds.2⟩
  | some old =>
    simp only [AbsDict.step, hget] at hholds ⊢
    exact ⟨congrArg Prod.fst hholds.1, hholds.2⟩

end Calls

theorem clear_holds (d : Dict hash V) : Holds U d.clear AbsDict.empty := by
  have hspec := clear_spec d.wf
  have hentries : d.clear.entries = [] := hspec.2.1
  constructor
  · rw [hentries]
    exact KeyedStore.Represents.nil
  · exact hspec.2.2
  · simp [AbsDict.empty]

theorem step_holds (hU : Separated U) (hd : Holds U d a) (hop : op.On U) :
    (d.step op).1 = (a.step op).1 ∧ Holds U (d.step op).2 (a.step op).2 := by
  cases op with
  | find k => exact find_holds hd (hd.resolves hU hop)
  | insertKvWithDuplicate k v => exact insertKvWithDuplicate_holds hU hd hop v
  | write k v => exact ⟨rfl, write_holds hU hd hop v⟩
  | extract k => exact extract_holds hd (hd.resolves hU hop)
  | dropNode => exact ⟨rfl, hd.represents, hd.size, hd.keys⟩
  | push k v => exact push_holds hU hd hop v
  | eraseNode k => exact ⟨rfl, eraseNode_holds hd (hd.resolves hU hop)⟩
  | erase k => exact erase_holds hd (hd.resolves hU hop)
  | size => exact ⟨hd.size, hd⟩
  | clear => exact ⟨rfl, clear_holds d⟩

/-- Whatever the other keys are, a stored key is found. -/
theorem step_holds_stored (hd : Holds U d a) (hop : op.OnStored a) :
    (d.step op).1 = (a.step op).1 ∧ Holds U (d.step op).2 (a.step op).2 := by
  cases op with
  | find k => exact find_holds hd (hd.resolves_stored hop)
  | extract k => exact extract_holds hd (hd.resolves_stored hop)
  | dropNode => exact ⟨rfl, hd.represents, hd.size, hd.keys⟩
  | eraseNode k => exact ⟨rfl, eraseNode_holds hd (hd.resolves_stored hop)⟩
  | erase k => exact erase_holds hd (hd.resolves_stored hop)
  | _ => exact hop.elim

end Dict

end Mmkv
