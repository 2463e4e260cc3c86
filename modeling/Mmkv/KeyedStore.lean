import Mathlib.Data.List.Perm.Basic
import Mathlib.Data.List.Nodup
import Mmkv.RehashTables
import Mmkv.CallRuns

/-!
# What a hash table is for

The abstract counterpart of both hash tables is a partial function from keys to
entries.  `KeyedStore.step` says how it answers each call; the two tables are
shown to answer alike.  `Represents` ties such a function to the list of
entries that a table really holds.
-/

namespace Mmkv

open List Function

open scoped List

inductive TableCall (K V : Type) where
  | insert (elem : V)
  | insertWithDuplicate (elem : V)
  | find (k : K)
  | extract (k : K)
  | erase (k : K)
  | clear
  deriving Repr, DecidableEq

/-- What a call hands back: an entry or a null pointer, the pair of
`InsertWithDuplicate`, the count of `Erase`, or nothing. -/
inductive TableReply (V : Type) where
  | entry (found : Option V)
  | duplicate (success : Bool) (entry : V)
  | erased (count : Nat)
  | cleared
  deriving Repr, DecidableEq

def KeyedStore (K V : Type) : Type :=
  K → Option V

namespace KeyedStore

variable {K V : Type}

def empty : KeyedStore K V :=
  fun _ => none

/-! ## Representation by a list of entries -/

/-- The list holds exactly the entries of the store, each key once. -/
structure Represents (key : V → K) (entries : List V) (m : KeyedStore K V) : Prop where
  mem_iff : ∀ v, v ∈ entries ↔ m (key v) = some v
  key_of_some : ∀ {k v}, m k = some v → key v = k
  nodup : (entries.map key).Nodup

section

variable {key : V → K} {entries entries' : List V} {m : KeyedStore K V} {v : V} {k : K}

theorem Represents.nil : Represents key ([] : List V) (empty : KeyedStore K V) where
  mem_iff := by simp [empty]
  key_of_some := by simp [empty]
  nodup := nodup_nil

variable (hrep : Represents key entries m)

include hrep

theorem Represents.perm (hperm : entries' ~ entries) : Represents key entries' m where
  mem_iff := fun v => hperm.mem_iff.trans (hrep.mem_iff v)
  key_of_some := hrep.key_of_some
  nodup := (hperm.map key).nodup_iff.mpr hrep.nodup

theorem Represents.eq_some_iff : m k = some v ↔ v ∈ entries ∧ key v = k := by
  constructor
  · intro hm
    obtain rfl := hrep.key_of_some hm
    exact ⟨(hrep.mem_iff v).mpr hm, rfl⟩
  · rintro ⟨hv, rfl⟩
    exact (hrep.mem_iff v).mp hv

theorem Represents.eq_none_iff : m k = none ↔ ∀ v ∈ entries, key v ≠ k := by
  constructor
  · intro hm v hv hk
    rw [← hk, (hrep.mem_iff v).mp hv] at hm
    cases hm
  · intro hall
    cases hm : m k with
    | none => rfl
    | some v =>
      obtain ⟨hv, hk⟩ := hrep.eq_some_iff.mp hm
      exact absurd hk (hall v hv)

theorem Represents.list_perm (hrep' : Represents key entries' m) : entries ~ entries' := by
  apply (perm_ext_iff_of_nodup hrep.nodup.of_map hrep'.nodup.of_map).mpr
  intro v
  rw [hrep.mem_iff, hrep'.mem_iff]

end

/-! ## The calls -/

variable [DecidableEq K] (key : V → K)

def set (m : KeyedStore K V) (v : V) : KeyedStore K V :=
  Function.update m (key v) (some v)

def remove (m : KeyedStore K V) (k : K) : KeyedStore K V :=
  Function.update m k none

def step : TableCall K V → KeyedStore K V → TableReply V × KeyedStore K V
  | .insert elem, m =>
    match m (key elem) with
    | none => (.entry (some elem), m.set key elem)
    | some _ => (.entry none, m)
  | .insertWithDuplicate elem, m =>
    match m (key elem) with
    | none => (.duplicate true elem, m.set key elem)
    | some old => (.duplicate false old, m)
  | .find k, m => (.entry (m k), m)
  | .extract k, m => (.entry (m k), m.remove k)
  | .erase k, m => (.erased (if (m k).isSome then 1 else 0), m.remove k)
  | .clear, _ => (.cleared, empty)

variable (m : KeyedStore K V) {v : V} {k : K}

theorem set_self (v : V) : m.set key v (key v) = some v := update_self ..

theorem set_of_ne (hk : k ≠ key v) : m.set key v k = m k := update_of_ne hk ..

theorem remove_self (k : K) : m.remove k k = none := update_self ..

theorem remove_of_ne {k' : K} (hk : k' ≠ k) : m.remove k k' = m k' := update_of_ne hk ..

variable {key m} {entries rest : List V}

def ofList (key : V → K) (entries : List V) : KeyedStore K V :=
  fun k => entries.find? fun v => decide (key v = k)

theorem represents_ofList (hnodup : (entries.map key).Nodup) :
    Represents key entries (ofList key entries) where
  mem_iff := by
    intro v
    constructor
    · intro hv
      cases hfind : ofList key entries (key v) with
      | none =>
        have hnone := List.find?_eq_none.mp hfind v hv
        simp at hnone
      | some w =>
        have hkey : key w = key v := by simpa using List.find?_some hfind
        have hw : w ∈ entries := mem_of_find?_eq_some hfind
        exact congrArg some (inj_on_of_nodup_map hnodup hw hv hkey)
    · intro hfind
      exact mem_of_find?_eq_some hfind
  key_of_some := by
    intro k v hfind
    simpa using List.find?_some hfind
  nodup := hnodup

theorem Represents.ofList_eq (hrep : Represents key entries m) : ofList key entries = m := by
  funext k
  apply Option.ext
  intro v
  rw [(represents_ofList hrep.nodup).eq_some_iff, hrep.eq_some_iff]

theorem Represents.cons (hrep : Represents key entries m) {v : V} (hfresh : m (key v) = none) :
    Represents key (v :: entries) (m.set key v) where
  mem_iff := by
    intro w
    by_cases hkey : key w = key v
    · have hw : w ∉ entries := fun hw => hrep.eq_none_iff.mp hfresh w hw hkey
      rw [hkey, set_self]
      simp [hw, eq_comm]
    · have hne : w ≠ v := fun h => hkey (congrArg key h)
      rw [set_of_ne key m hkey]
      simp [hne, hrep.mem_iff]
  key_of_some := by
    intro k w hm
    by_cases hk : k = key v
    · subst hk
      rw [set_self] at hm
      rw [Option.some.inj hm]
    · rw [set_of_ne key m hk] at hm
      exact hrep.key_of_some hm
  nodup := by
    refine nodup_cons.mpr ⟨fun hmem => ?_, hrep.nodup⟩
    obtain ⟨w, hw, hkey⟩ := mem_map.mp hmem
    exact hrep.eq_none_iff.mp hfresh w hw hkey

theorem Represents.tail (hrep : Represents key (v :: rest) m) :
    Represents key rest (m.remove (key v)) where
  mem_iff := by
    intro w
    have hnotin := (nodup_cons.mp hrep.nodup).1
    by_cases hkey : key w = key v
    · have hw : w ∉ rest := fun hw => hnotin (hkey ▸ mem_map_of_mem hw)
      rw [hkey, remove_self]
      simp [hw]
    · have hne : w ≠ v := fun h => hkey (congrArg key h)
      rw [remove_of_ne m hkey, ← hrep.mem_iff]
      simp [hne]
  key_of_some := by
    intro k w hm
    by_cases hk : k = key v
    · rw [hk, remove_self] at hm
      cases hm
    · rw [remove_of_ne m hk] at hm
      exact hrep.key_of_some hm
  nodup := (nodup_cons.mp hrep.nodup).2

theorem Represents.replace {w : V} (hrep : Represents key (v :: rest) m) (hkey : key w = key v) :
    Represents key (w :: rest) (m.set key w) := by
  have hcons := hrep.tail.cons (v := w) (by rw [hkey, remove_self])
  have hset : (m.remove (key v)).set key w = m.set key w := by
    rw [← hkey]
    exact update_idem ..
  rwa [hset] at hcons

theorem remove_of_eq_none (hm : m k = none) : m.remove k = m := by
  rw [remove, ← hm]
  exact update_eq_self k m

end KeyedStore

/-! ## Representation by two tables -/

/-- The tables are well formed, store the entries of `m` and count them
exactly. -/
structure Tables.Stores {K V B N : Type} (kind : BucketKind V B N) (key : V → K)
    (wf : Tables B → Prop) (t : Tables B) (m : KeyedStore K V) : Prop where
  wf : wf t
  represents : KeyedStore.Represents key (t.entries kind) m
  exact_size : t.size = (t.entries kind).length

namespace Tables

variable {K V B N : Type} {kind : BucketKind V B N} {key : V → K}
  {wf : Tables B → Prop} {t t' : Tables B} {m : KeyedStore K V}

theorem Stores.of_entries_nil (hwf : wf t) (hentries : t.entries kind = []) (hsize : t.size = 0) :
    Stores kind key wf t KeyedStore.empty where
  wf := hwf
  represents := by
    rw [hentries]
    exact KeyedStore.Represents.nil
  exact_size := by simp [hentries, hsize]

theorem Stores.same (hstores : Stores kind key wf t m) (hwf : wf t')
    (hsame : SameEntries kind t t') :
    Stores kind key wf t' m where
  wf := hwf
  represents := hstores.represents.perm hsame.entries_perm
  exact_size := by
    rw [hsame.size, hstores.exact_size, hsame.entries_perm.length_eq]

theorem Stores.added [DecidableEq K] {v : V} (hstores : Stores kind key wf t m) (hwf : wf t')
    (hadded : Added kind t t' v) (hnone : m (key v) = none) :
    Stores kind key wf t' (m.set key v) where
  wf := hwf
  represents := (hstores.represents.cons hnone).perm hadded.entries_perm
  exact_size := by
    rw [hadded.size, hstores.exact_size, hadded.entries_perm.length_eq]
    rfl

/-! ### The calls by their outcomes -/

section Outcomes

variable {X : Type} {res : X → V} {k : K} {elem : V} {rf : Option V × Tables B}
  {rx : Option X × Tables B} {ri : Bool × V × Tables B}

theorem FindOutcome.answers (hrep : KeyedStore.Represents key (t.entries kind) m)
    (hout : FindOutcome kind wf (key · ≠ k) (key · = k) t rf) : rf.1 = m k := by
  cases hout with
  | missed wf' same fresh => exact (hrep.eq_none_iff.mpr fresh).symm
  | found wf' same mem hits => exact (hrep.eq_some_iff.mpr ⟨mem, hits⟩).symm

theorem InsertOutcome.answers (hrep : KeyedStore.Represents key (t.entries kind) m)
    (hout : InsertOutcome kind wf (key · ≠ key ·) (key · = key ·) elem t ri) :
    (m (key elem) = none ∧ ri.1 = true ∧ ri.2.1 = elem ∧ Added kind t ri.2.2 elem) ∨
      (m (key elem) = some ri.2.1 ∧ ri.1 = false ∧ SameEntries kind t ri.2.2) := by
  cases hout with
  | inserted wf' added fresh => exact .inl ⟨hrep.eq_none_iff.mpr fresh, rfl, rfl, added⟩
  | refused wf' same mem eq => exact .inr ⟨hrep.eq_some_iff.mpr ⟨mem, eq⟩, rfl, same⟩

theorem Stores.find (hstores : Stores kind key wf t m)
    (hout : FindOutcome kind wf (key · ≠ k) (key · = k) t rf) :
    rf.1 = m k ∧ Stores kind key wf rf.2 m :=
  ⟨hout.answers hstores.represents, hstores.same hout.kept.1 hout.kept.2⟩

variable [DecidableEq K]

theorem ExtractOutcome.answers (hrep : KeyedStore.Represents key (t.entries kind) m)
    (hout : ExtractOutcome kind wf (key · ≠ k) (key · = k) res t rx) :
    rx.1.map res = m k ∧ KeyedStore.Represents key (rx.2.entries kind) (m.remove k) ∧
      rx.2.size = t.size - (m k).toList.length := by
  cases hout with
  | missed wf' same fresh =>
    have hnone := hrep.eq_none_iff.mpr fresh
    rw [hnone, KeyedStore.remove_of_eq_none hnone]
    exact ⟨rfl, hrep.perm same.entries_perm, same.size⟩
  | extracted wf' size hits perm =>
    have hsome := hrep.eq_some_iff.mpr ⟨perm.mem_iff.mpr mem_cons_self, hits⟩
    rw [hsome, ← hits]
    exact ⟨rfl, (hrep.perm perm.symm).tail, (Nat.sub_eq_of_eq_add size.symm).symm⟩

theorem Stores.extract (hstores : Stores kind key wf t m)
    (hout : ExtractOutcome kind wf (key · ≠ k) (key · = k) res t rx) :
    rx.1.map res = m k ∧ Stores kind key wf rx.2 (m.remove k) := by
  have hanswers := hout.answers hstores.represents
  refine ⟨hanswers.1, hout.wf, hanswers.2.1, ?_⟩
  have hsize := hstores.exact_size
  cases hout with
  | missed wf' same fresh => rw [same.size, hsize, same.entries_perm.length_eq]
  | extracted wf' size hits perm =>
    have hlength := perm.length_eq
    rw [length_cons] at hlength
    dsimp only
    omega

theorem Stores.insert {success : Bool} {entry : V} (hstores : Stores kind key wf t m)
    (hout : InsertOutcome kind wf (key · ≠ key ·) (key · = key ·) elem t (success, entry, t')) :
    (m (key elem) = none ∧ success = true ∧ entry = elem ∧ Stores kind key wf t' (m.set key elem)) ∨
      (m (key elem) = some entry ∧ success = false ∧ Stores kind key wf t' m) := by
  rcases hout.answers hstores.represents with
    ⟨hnone, htrue, helem, hadded⟩ | ⟨hsome, hfalse, hsame⟩
  · exact .inl ⟨hnone, htrue, helem, hstores.added hout.wf hadded hnone⟩
  · exact .inr ⟨hsome, hfalse, hstores.same hout.wf hsame⟩

end Outcomes

def Indexes (kind : BucketKind V B N) (key : V → K) (wf : Tables B → Prop) (t : Tables B)
    (es : List V) : Prop :=
  ∃ m, Stores kind key wf t m ∧ KeyedStore.Represents key es m

section Indexes

variable {es es' : List V} (h : Indexes kind key wf t es)

include h

theorem Indexes.perm (hperm : es' ~ es) : Indexes kind key wf t es' := by
  obtain ⟨m, hstores, hrep⟩ := h
  exact ⟨m, hstores, hrep.perm hperm⟩

theorem Indexes.wellFormed : wf t := by
  obtain ⟨m, hstores, -⟩ := h
  exact hstores.wf

theorem Indexes.nodup : (es.map key).Nodup := by
  obtain ⟨m, -, hrep⟩ := h
  exact hrep.nodup

theorem Indexes.entries_perm : (t.entries kind) ~ es := by
  obtain ⟨m, hstores, hrep⟩ := h
  exact hstores.represents.list_perm hrep

theorem Indexes.size : t.size = es.length := by
  have hperm := h.entries_perm
  obtain ⟨m, hstores, -⟩ := h
  rw [hstores.exact_size, hperm.length_eq]

variable [DecidableEq K] {X : Type} {res : X → V} {k : K} {elem v : V} {rest : List V}
  {rf : Option V × Tables B} {rx : Option X × Tables B} {ri : Bool × V × Tables B}

theorem Indexes.find (hout : FindOutcome kind wf (key · ≠ k) (key · = k) t rf) :
    rf.1 = KeyedStore.ofList key es k ∧ Indexes kind key wf rf.2 es := by
  obtain ⟨m, hstores, hrep⟩ := h
  have hfind := hstores.find hout
  rw [hrep.ofList_eq]
  exact ⟨hfind.1, m, hfind.2, hrep⟩

theorem Indexes.insert_new (hout : InsertOutcome kind wf (key · ≠ key ·) (key · = key ·) elem t ri)
    (hnew : ∀ v ∈ es, key v ≠ key elem) :
    ∃ t', ri = (true, elem, t') ∧ Indexes kind key wf t' (elem :: es) := by
  obtain ⟨m, hstores, hrep⟩ := h
  have hnone := hrep.eq_none_iff.mpr hnew
  obtain ⟨success, entry, t'⟩ := ri
  rcases hstores.insert hout with ⟨-, rfl, rfl, hnext⟩ | ⟨hm, -, -⟩
  · exact ⟨t', rfl, _, hnext, hrep.cons hnone⟩
  · cases hnone.symm.trans hm

theorem Indexes.insert_duplicate
    (hout : InsertOutcome kind wf (key · ≠ key ·) (key · = key ·) elem t ri)
    (hv : v ∈ es) (hkey : key v = key elem) :
    ∃ t', ri = (false, v, t') ∧ Indexes kind key wf t' es := by
  obtain ⟨m, hstores, hrep⟩ := h
  have hsome : m (key elem) = some v := hrep.eq_some_iff.mpr ⟨hv, hkey⟩
  obtain ⟨success, entry, t'⟩ := ri
  rcases hstores.insert hout with ⟨hm, -, -, -⟩ | ⟨hm, rfl, hnext⟩
  · cases hsome.symm.trans hm
  · cases hsome.symm.trans hm
    exact ⟨t', rfl, m, hnext, hrep⟩

/-- The entry that is taken out is the one with the key. -/
theorem Indexes.extract (hout : ExtractOutcome kind wf (key · ≠ key v) (key · = key v) res t rx)
    (hperm : es ~ v :: rest) :
    ∃ x t', rx = (some x, t') ∧ res x = v ∧ Indexes kind key wf t' rest := by
  obtain ⟨m, hstores, hrep⟩ := h
  have hrep' := hrep.perm hperm.symm
  have hsome : m (key v) = some v := (hrep'.mem_iff v).1 mem_cons_self
  have hextract := hstores.extract hout
  rw [hsome] at hextract
  obtain ⟨x, hx, hvalue⟩ := Option.map_eq_some_iff.1 hextract.1
  exact ⟨x, _, Prod.ext hx rfl, hvalue, _, hextract.2, hrep'.tail⟩

theorem Indexes.extract_none (hout : ExtractOutcome kind wf (key · ≠ k) (key · = k) res t rx)
    (hk : ∀ v ∈ es, key v ≠ k) : ∃ t', rx = (none, t') ∧ Indexes kind key wf t' es := by
  obtain ⟨m, hstores, hrep⟩ := h
  have hnone := hrep.eq_none_iff.mpr hk
  have hextract := hstores.extract hout
  rw [hnone, KeyedStore.remove_of_eq_none hnone] at hextract
  exact ⟨_, Prod.ext (Option.map_eq_none_iff.1 hextract.1) rfl, _, hextract.2, hrep⟩

end Indexes

theorem Stores.tables_disjoint (hstores : Stores kind key wf t m) :
    ∀ a ∈ t.table1.values kind, ∀ b ∈ t.table2.values kind, key a ≠ key b := by
  have hnodup : ((t.table1.values kind ++ t.table2.values kind).map key).Nodup :=
    hstores.represents.nodup
  grind

end Tables

end Mmkv
