import Mmkv.Blist
import Mmkv.HashTable

/-!
# The caches that order keys by their last update

`LruCache` and `MruCache` keep a list of pointers to keys, the key that was updated last in
front, and a dictionary from the keys to the nodes of the list.  They differ in the end of
the list where a victim is taken, and `MruCache` does not ask whether there is one.

A pointer to a key is the key here, and to follow it the dictionary must still hold the key.
Addresses of new list nodes are given with the call.  `Clear` is given as many rounds as
the list counts nodes.
-/

namespace Mmkv.Replacement

open BNodes BoundedLoops List HashTable
open scoped List

structure CacheEntry (P K : Type) where
  key : K
  value : Option P
  deriving Repr, DecidableEq

structure ListCache (P K : Type) where
  maxSize : Nat
  cache : Blist P
  nodes : BNodes P K
  dict : Tables (List (CacheEntry P K))

structure Eviction (P K : Type) where
  makeRoom : ListCache P K → Option (ListCache P K)
  victim : ListCache P K → Option (Option K)
  delVictim : ListCache P K → Option (ListCache P K)

namespace ListCache

variable {P K : Type} [DecidableEq P] [DecidableEq K] (hash : K → Nat)

def new (maxSize : Nat) : ListCache P K :=
  ⟨maxSize, Blist.new, ⟨fun _ => none⟩, HashTable.new⟩

def stored (k : K) (c : ListCache P K) : Bool :=
  (entries c.dict).any fun e => decide (e.key = k)

def deref (k : K) (c : ListCache P K) : Option K :=
  if c.stored k then some k else none

def touch (node : Option P) (c : ListCache P K) : Option (ListCache P K) := do
  let (cache, nodes) ← c.cache.extract c.nodes node
  let (cache, nodes) ← cache.pushFront nodes (← node)
  return { c with cache := cache, nodes := nodes }

/-- The entry is new: a node in front, and the entry gets a pointer to it. -/
def pushNew (a : P) (k : K) (c : ListCache P K) : Option (ListCache P K) := do
  let (cache, nodes) ← c.cache.pushFront (c.nodes.createNode a k) a
  let _ ← c.deref k
  let dict := modify CacheEntry.key hash k
    (fun e => { e with value := cache.header }) c.dict
  return { c with cache := cache, nodes := nodes, dict := dict }

def updateEntry (ev : Eviction P K) (a : P) (k : K) (c : ListCache P K) :
    Option (Option K × ListCache P K) :=
  if c.maxSize = 0 then some (none, c)
  else
    match insertWithDuplicate CacheEntry.key hash ⟨k, none⟩ c.dict with
    | (true, _, dict) => do
      let c ← ev.makeRoom { c with dict := dict }
      let c ← c.pushNew hash a k
      return (some (← c.cache.front c.nodes), c)
    | (false, duplicate, dict) => do
      let c ← touch duplicate.value { c with dict := dict }
      return (some (← c.cache.front c.nodes), c)

def search (k : K) (c : ListCache P K) : Option K × ListCache P K :=
  let (kv, dict) := find CacheEntry.key hash k c.dict
  (kv.map CacheEntry.key, { c with dict := dict })

def delEntry (k : K) (c : ListCache P K) : Option (Bool × ListCache P K) :=
  match extract CacheEntry.key hash k c.dict with
  | (some entry, dict) => do
    let (cache, nodes) ← c.cache.erase c.nodes entry.value
    return (true, { c with cache := cache, nodes := nodes, dict := dict })
  | (none, dict) => some (false, { c with dict := dict })

def clear (c : ListCache P K) : Option (ListCache P K) := do
  let (cache, nodes) ← c.cache.clear c.nodes c.cache.count
  return { c with cache := cache, nodes := nodes, dict := HashTable.clear c.dict }

/-- `dict_.Erase` of the key that the pointer from the list points to. -/
def eraseKey (k : K) (c : ListCache P K) : Option (ListCache P K) := do
  let k ← c.deref k
  return { c with dict := (erase CacheEntry.key hash k c.dict).2 }

end ListCache

namespace LruCache

variable {P K : Type} [DecidableEq P] [DecidableEq K] (hash : K → Nat)

def dropBack (c : ListCache P K) : Option (ListCache P K) := do
  let c ← c.eraseKey hash (← c.cache.back c.nodes)
  let (cache, nodes) ← c.cache.popBack c.nodes
  return { c with cache := cache, nodes := nodes }

def makeRoom (c : ListCache P K) : Option (ListCache P K) := do
  let c ← if c.maxSize ≤ c.cache.count then dropBack hash c else some c
  if c.cache.count < c.maxSize then some c else none

def victim (c : ListCache P K) : Option (Option K) :=
  if c.cache.empty then some none else (c.cache.back c.nodes).map some

def delVictim (c : ListCache P K) : Option (ListCache P K) :=
  if c.cache.empty then some c else dropBack hash c

def eviction : Eviction P K :=
  ⟨makeRoom hash, victim, delVictim hash⟩

end LruCache

namespace MruCache

variable {P K : Type} [DecidableEq P] [DecidableEq K] (hash : K → Nat)

def victim (c : ListCache P K) : Option (Option K) :=
  (c.cache.front c.nodes).map some

def delVictim (c : ListCache P K) : Option (ListCache P K) := do
  let c ← c.eraseKey hash (← c.cache.front c.nodes)
  let (cache, nodes) ← c.cache.popFront c.nodes
  return { c with cache := cache, nodes := nodes }

def makeRoom (c : ListCache P K) : Option (ListCache P K) :=
  if c.maxSize ≤ c.cache.count then delVictim hash c else some c

def eviction : Eviction P K :=
  ⟨makeRoom hash, victim, delVictim hash⟩

end MruCache

/-! ## Calls -/

/-- The calls of the interface; a new list node is put at the given address. -/
inductive CacheCall (P K : Type) where
  | updateEntry (entry : K) (a : P)
  | search (key : K)
  | delEntry (key : K)
  | victim
  | delVictim
  | clear
  deriving Repr, DecidableEq

inductive CacheReply (K : Type) where
  | entry (key : Option K)
  | deleted (success : Bool)
  | done
  deriving Repr, DecidableEq

namespace ListCache

variable {P K : Type} [DecidableEq P] [DecidableEq K] (hash : K → Nat) (ev : Eviction P K)

def step : CacheCall P K → ListCache P K → Option (CacheReply K × ListCache P K)
  | .updateEntry k a, c => do
    let (entry, c) ← c.updateEntry hash ev a k
    return (.entry entry, c)
  | .search k, c =>
    let (entry, c) := c.search hash k
    some (.entry entry, c)
  | .delEntry k, c => do
    let (success, c) ← c.delEntry hash k
    return (.deleted success, c)
  | .victim, c => do
    let entry ← ev.victim c
    return (.entry entry, c)
  | .delVictim, c => do
    let c ← ev.delVictim c
    return (.done, c)
  | .clear, c => do
    let c ← c.clear
    return (.done, c)

def Admits : CacheCall P K → ListCache P K → Prop
  | .updateEntry _ a, c => c.nodes.node a = none
  | _, _ => True

inductive Run (maxSize : Nat) : List (CacheCall P K) → ListCache P K → Prop
  | new : Run maxSize [] (new maxSize)
  | call {calls : List (CacheCall P K)} {c c' : ListCache P K} {call : CacheCall P K}
      {reply : CacheReply K} (run : Run maxSize calls c) (admits : Admits call c)
      (step : c.step hash ev call = some (reply, c')) : Run maxSize (calls ++ [call]) c'

end ListCache

/-! ## The list and the dictionary agree -/

def entryOf {P K : Type} (x : P × K) : CacheEntry P K :=
  ⟨x.2, some x.1⟩

def ListCache.Indexed {P K : Type} (hash : K → Nat) (c : ListCache P K)
    (es : List (CacheEntry P K)) : Prop :=
  HashTable.Indexes CacheEntry.key hash c.dict es

/-- The list holds these nodes, and the dictionary has their entries. -/
structure ListCache.Tracks {P K : Type} (hash : K → Nat) (c : ListCache P K)
    (xs : List (P × K)) : Prop where
  list : c.cache.Holds c.nodes xs
  dict : c.Indexed hash (xs.map entryOf)

namespace ListCache

variable {P K : Type} {hash : K → Nat} {c : ListCache P K}
  {xs before behind : List (P × K)} {x : P × K} {es rest : List (CacheEntry P K)}

theorem map_key_entryOf (xs : List (P × K)) :
    (xs.map entryOf).map CacheEntry.key = xs.map Prod.snd :=
  map_map

theorem Tracks.keys_nodup (h : c.Tracks hash xs) : (xs.map Prod.snd).Nodup := by
  have hnodup := Tables.Indexes.nodup h.dict
  rwa [map_key_entryOf] at hnodup

theorem tracks_new (maxSize : Nat) : (new maxSize : ListCache P K).Tracks hash [] :=
  ⟨Blist.holds_new _, HashTable.indexes_new⟩

theorem map_entryOf_perm (before behind : List (P × K)) (x : P × K) :
    (before ++ x :: behind).map entryOf ~ entryOf x :: (before ++ behind).map entryOf :=
  perm_middle.map entryOf

variable {k : K}

theorem key_ne_of_not_mem (hk : k ∉ xs.map Prod.snd) : ∀ e ∈ xs.map entryOf, e.key ≠ k := by
  rintro e he rfl
  obtain ⟨x, hx, rfl⟩ := mem_map.1 he
  exact hk (mem_map_of_mem hx)

variable [DecidableEq K] {e : CacheEntry P K}

theorem Indexed.deref (h : c.Indexed hash es) (he : e ∈ es) :
    c.deref e.key = some e.key := by
  have hstored : c.stored e.key = true := by
    have hmem : e ∈ entries c.dict := (Tables.Indexes.entries_perm h).mem_iff.2 he
    exact any_eq_true.2 ⟨e, hmem, decide_eq_true rfl⟩
  rw [ListCache.deref, if_pos hstored]

theorem Indexed.eraseKey (h : c.Indexed hash es) (hperm : es ~ e :: rest) :
    ∃ dict, c.eraseKey hash e.key = some { c with dict := dict } ∧
      HashTable.Indexes CacheEntry.key hash dict rest := by
  refine ⟨_, ?_, HashTable.Indexes.erase h hperm⟩
  rw [ListCache.eraseKey, h.deref (hperm.mem_iff.2 mem_cons_self)]
  rfl

theorem Tracks.search (h : c.Tracks hash xs) (k : K) :
    (c.search hash k).1 = (if k ∈ xs.map Prod.snd then some k else none) ∧
      (c.search hash k).2.Tracks hash xs := by
  have hfind := HashTable.Indexes.find h.dict k
  refine ⟨?_, h.list, hfind.2⟩
  change (find CacheEntry.key hash k c.dict).1.map CacheEntry.key = _
  rw [hfind.1]
  have hrep := KeyedStore.represents_ofList (Tables.Indexes.nodup h.dict)
  split
  next hk =>
    obtain ⟨x, hx, rfl⟩ := mem_map.1 hk
    have hsome := hrep.eq_some_iff.2 ⟨mem_map_of_mem hx, rfl⟩
    rw [show KeyedStore.ofList CacheEntry.key (xs.map entryOf) x.2 = _ from hsome]
    rfl
  next hk =>
    rw [hrep.eq_none_iff.2 (key_ne_of_not_mem hk)]
    rfl

variable [DecidableEq P]

omit [DecidableEq K] in
theorem Tracks.clear (h : c.Tracks hash xs) :
    ∃ c', c.clear = some c' ∧ c'.Tracks hash [] ∧ c'.maxSize = c.maxSize := by
  obtain ⟨cache, nodes, hrun, hlist, -⟩ := h.list.clear (Nat.le_of_eq h.list.count.symm)
  refine ⟨{ c with cache := cache, nodes := nodes, dict := HashTable.clear c.dict }, ?_,
    ⟨hlist, HashTable.Indexes.clear h.dict⟩, rfl⟩
  rw [ListCache.clear, hrun]
  rfl

theorem Tracks.delEntry (h : c.Tracks hash (before ++ x :: behind)) :
    ∃ c', c.delEntry hash x.2 = some (true, c') ∧ c'.Tracks hash (before ++ behind) ∧
      c'.maxSize = c.maxSize := by
  obtain ⟨dict, hextract, hdict⟩ := HashTable.Indexes.extract h.dict
    (map_entryOf_perm before behind x)
  obtain ⟨cache, nodes, hrun, hlist, -⟩ := h.list.erase
  refine ⟨{ c with cache := cache, nodes := nodes, dict := dict }, ?_, ⟨hlist, hdict⟩, rfl⟩
  rw [ListCache.delEntry, show x.2 = (entryOf x).key from rfl, hextract]
  simp only [entryOf, hrun]
  rfl

theorem Tracks.delEntry_none (h : c.Tracks hash xs) (hk : k ∉ xs.map Prod.snd) :
    ∃ c', c.delEntry hash k = some (false, c') ∧ c'.Tracks hash xs ∧
      c'.maxSize = c.maxSize := by
  obtain ⟨dict, hextract, hdict⟩ := HashTable.Indexes.extract_none h.dict (key_ne_of_not_mem hk)
  refine ⟨{ c with dict := dict }, ?_, ⟨h.list, hdict⟩, rfl⟩
  rw [ListCache.delEntry, hextract]

omit [DecidableEq K] in
theorem touch_spec (hlist : c.cache.Holds c.nodes (before ++ x :: behind)) :
    ∃ cache nodes, touch (some x.1) c = some { c with cache := cache, nodes := nodes } ∧
      cache.Holds nodes (x :: (before ++ behind)) := by
  obtain ⟨cache1, nodes1, hrun1, hlist1, hx, -⟩ := hlist.extract
  have hfresh : x.1 ∉ addrs (before ++ behind) := by
    have hperm : addrs (before ++ x :: behind) ~ x.1 :: addrs (before ++ behind) :=
      perm_middle.map Prod.fst
    exact (nodup_cons.1 (hperm.nodup_iff.1 hlist.nodup)).1
  obtain ⟨cache2, nodes2, hrun2, hlist2, -⟩ := hlist1.pushFront hx hfresh
  refine ⟨cache2, nodes2, ?_, hlist2⟩
  simp only [touch, hrun1, some_bind, hrun2]
  rfl

theorem pushNew_spec {a : P} (ha : c.nodes.node a = none) (hlist : c.cache.Holds c.nodes xs)
    (hdict : c.Indexed hash (⟨k, none⟩ :: xs.map entryOf)) :
    ∃ c', c.pushNew hash a k = some c' ∧ c'.Tracks hash ((a, k) :: xs) ∧
      c'.maxSize = c.maxSize := by
  have hfresh : a ∉ addrs xs := hlist.not_mem ha
  have hcreated : c.cache.Holds (c.nodes.createNode a k) xs :=
    { hlist with segment := hlist.segment.update_other hfresh _ }
  obtain ⟨cache, nodes, hrun, hpushed, -⟩ := hcreated.pushFront (node_write_self _ _) hfresh
  have hmodify := HashTable.Indexes.modify hdict (.refl _)
    (fun e => (rfl : ({ e with value := cache.header } : CacheEntry P K).key = e.key))
  refine ⟨⟨c.maxSize, cache, nodes, modify CacheEntry.key hash k
    (fun e => { e with value := cache.header }) c.dict⟩, ?_, ⟨hpushed, ?_⟩, rfl⟩
  · have hderef := hdict.deref mem_cons_self
    simp only [pushNew, hrun, some_bind, hderef]
    rfl
  · have hentry : (⟨k, cache.header⟩ : CacheEntry P K) = entryOf (a, k) := by
      rw [hpushed.header]
      rfl
    change HashTable.Indexes _ _ _ (entryOf (a, k) :: xs.map entryOf)
    rw [← hentry]
    exact hmodify

end ListCache

/-! ## Victims -/

inductive ListEnd where
  | back
  | front
  deriving Repr, DecidableEq

namespace ListEnd

variable {A B : Type}

def drop : ListEnd → List A → List A
  | back, l => l.dropLast
  | front, l => l.tail

def pick : ListEnd → List A → Option A
  | back, l => l.getLast?
  | front, l => l.head?

theorem drop_map (e : ListEnd) (f : A → B) (l : List A) : e.drop (l.map f) = (e.drop l).map f := by
  cases e with
  | back => exact map_dropLast.symm
  | front => exact map_tail.symm

theorem pick_map (e : ListEnd) (f : A → B) (l : List A) : e.pick (l.map f) = (e.pick l).map f := by
  cases e with
  | back => exact List.getLast?_map
  | front => exact List.head?_map

theorem split (e : ListEnd) {l : List A} (hl : l ≠ []) :
    ∃ before x behind, l = before ++ x :: behind ∧ e.drop l = before ++ behind ∧
      e.pick l = some x := by
  cases e with
  | back =>
    obtain ⟨init, x, rfl⟩ := (eq_nil_or_concat' l).resolve_left hl
    exact ⟨init, x, [], rfl, by simp [drop], by simp [pick]⟩
  | front =>
    obtain ⟨x, rest, rfl⟩ := exists_cons_of_ne_nil hl
    exact ⟨[], x, rest, rfl, rfl, rfl⟩

end ListEnd

structure Eviction.TakesFrom {P K : Type} (ev : Eviction P K) (hash : K → Nat) (e : ListEnd) :
    Prop where
  makeRoom : ∀ {c : ListCache P K} {xs : List (P × K)} {k : K}, 1 ≤ c.maxSize →
    xs.length ≤ c.maxSize → c.cache.Holds c.nodes xs →
    c.Indexed hash (⟨k, none⟩ :: xs.map entryOf) →
    ∃ c', ev.makeRoom c = some c' ∧ c'.maxSize = c.maxSize ∧
      (∀ a, c.nodes.node a = none → c'.nodes.node a = none) ∧
      let ys := if c.maxSize ≤ xs.length then e.drop xs else xs
      c'.cache.Holds c'.nodes ys ∧ c'.Indexed hash (⟨k, none⟩ :: ys.map entryOf)
  victim : ∀ {c : ListCache P K} {xs : List (P × K)}, xs ≠ [] → c.Tracks hash xs →
    ev.victim c = some ((e.pick xs).map Prod.snd)
  delVictim : ∀ {c : ListCache P K} {xs : List (P × K)}, xs ≠ [] → c.Tracks hash xs →
    ∃ c', ev.delVictim c = some c' ∧ c'.maxSize = c.maxSize ∧ c'.Tracks hash (e.drop xs)

section Ends

variable {P K : Type} [DecidableEq P] [DecidableEq K] {hash : K → Nat} {c : ListCache P K}
  {xs : List (P × K)}

theorem LruCache.dropBack_spec (es : List (CacheEntry P K)) (hxs : xs ≠ [])
    (hlist : c.cache.Holds c.nodes xs)
    (hdict : c.Indexed hash (es ++ xs.map entryOf)) :
    ∃ c', LruCache.dropBack hash c = some c' ∧ c'.maxSize = c.maxSize ∧
      (∀ a, c.nodes.node a = none → c'.nodes.node a = none) ∧
      c'.cache.Holds c'.nodes xs.dropLast ∧
      c'.Indexed hash (es ++ xs.dropLast.map entryOf) := by
  obtain ⟨before, x, behind, hsplit, hdrop, hpick⟩ := ListEnd.split .back hxs
  replace hdrop : xs.dropLast = before ++ behind := hdrop
  have hback : c.cache.back c.nodes = some x.2 := by
    rw [hlist.back, show xs.getLast? = some x from hpick]
    rfl
  have hperm : es ++ xs.map entryOf ~ entryOf x :: (es ++ xs.dropLast.map entryOf) := by grind
  obtain ⟨dict, herase, hindexed⟩ := hdict.eraseKey hperm
  obtain ⟨cache, nodes, hpop, hpopped, hframe⟩ := hlist.popBack
  refine ⟨⟨c.maxSize, cache, nodes, dict⟩, ?_, rfl, ?_, hpopped, hindexed⟩
  · replace herase : c.eraseKey hash x.2 = some { c with dict := dict } := herase
    simp only [LruCache.dropBack, hback, some_bind, herase, hpop]
    rfl
  · intro a ha
    exact (hframe a (hlist.not_mem ha)).trans ha

theorem MruCache.delVictim_spec (es : List (CacheEntry P K)) (hxs : xs ≠ [])
    (hlist : c.cache.Holds c.nodes xs)
    (hdict : c.Indexed hash (es ++ xs.map entryOf)) :
    ∃ c', MruCache.delVictim hash c = some c' ∧ c'.maxSize = c.maxSize ∧
      (∀ a, c.nodes.node a = none → c'.nodes.node a = none) ∧
      c'.cache.Holds c'.nodes xs.tail ∧ c'.Indexed hash (es ++ xs.tail.map entryOf) := by
  obtain ⟨x, rest, rfl⟩ := exists_cons_of_ne_nil hxs
  have hfront : c.cache.front c.nodes = some x.2 := hlist.front
  obtain ⟨dict, herase, hindexed⟩ := hdict.eraseKey (e := entryOf x) perm_middle
  obtain ⟨cache, nodes, hpop, hpopped, hframe⟩ := hlist.popFront
  refine ⟨⟨c.maxSize, cache, nodes, dict⟩, ?_, rfl, ?_, hpopped, hindexed⟩
  · replace herase : c.eraseKey hash x.2 = some { c with dict := dict } := herase
    simp only [MruCache.delVictim, hfront, some_bind, herase, hpop]
    rfl
  · intro a ha
    exact (hframe a (hlist.not_mem ha)).trans ha

theorem LruCache.takesFrom : (eviction hash : Eviction P K).TakesFrom hash .back where
  makeRoom := by
    intro c xs k hsize hlength hlist hdict
    by_cases hfull : c.maxSize ≤ xs.length
    · have hxs : xs ≠ [] := ne_nil_of_length_pos (by omega)
      obtain ⟨c', hrun, hmax, hfree, hlist', hdict'⟩ :=
        LruCache.dropBack_spec [⟨k, none⟩] hxs hlist hdict
      refine ⟨c', ?_, hmax, hfree, ?_⟩
      · have hroom : c'.cache.count < c'.maxSize := by
          rw [hlist'.count, length_dropLast, hmax]
          omega
        simp [LruCache.eviction, LruCache.makeRoom, hlist.count, hfull, hrun, hroom]
      · simp only [if_pos hfull]
        exact ⟨hlist', hdict'⟩
    · refine ⟨c, ?_, rfl, fun _ ha => ha, ?_⟩
      · simp [LruCache.eviction, LruCache.makeRoom, hlist.count, hfull, Nat.lt_of_not_le hfull]
      · grind
  victim := by
    intro c xs hxs h
    have hempty : c.cache.empty = false := by
      obtain ⟨x, rest, rfl⟩ := exists_cons_of_ne_nil hxs
      simp [Blist.empty, h.list.header, headPtr]
    obtain ⟨before, x, behind, -, -, hpick⟩ := ListEnd.split .back hxs
    simp only [LruCache.eviction, LruCache.victim, hempty, h.list.back,
      show xs.getLast? = some x from hpick, hpick]
    rfl
  delVictim := by
    intro c xs hxs h
    have hempty : c.cache.empty = false := by
      obtain ⟨x, rest, rfl⟩ := exists_cons_of_ne_nil hxs
      simp [Blist.empty, h.list.header, headPtr]
    obtain ⟨c', hrun, hmax, -, hlist', hdict'⟩ := LruCache.dropBack_spec [] hxs h.list h.dict
    refine ⟨c', ?_, hmax, hlist', hdict'⟩
    simpa [LruCache.eviction, LruCache.delVictim, hempty] using hrun

/-- `MruCache` evicts at the front, where the most recent key is. -/
theorem MruCache.takesFrom : (MruCache.eviction hash : Eviction P K).TakesFrom hash .front where
  makeRoom := by
    intro c xs k hsize hlength hlist hdict
    by_cases hfull : c.maxSize ≤ xs.length
    · have hxs : xs ≠ [] := ne_nil_of_length_pos (by omega)
      obtain ⟨c', hrun, hmax, hfree, hlist', hdict'⟩ :=
        MruCache.delVictim_spec [⟨k, none⟩] hxs hlist hdict
      refine ⟨c', ?_, hmax, hfree, ?_⟩
      · simpa [MruCache.eviction, MruCache.makeRoom, hlist.count, hfull] using hrun
      · simp only [if_pos hfull]
        exact ⟨hlist', hdict'⟩
    · refine ⟨c, ?_, rfl, fun _ ha => ha, ?_⟩
      · simp [MruCache.eviction, MruCache.makeRoom, hlist.count, hfull]
      · grind
  victim := by
    intro c xs hxs h
    obtain ⟨x, rest, rfl⟩ := exists_cons_of_ne_nil hxs
    simp [MruCache.eviction, MruCache.victim, h.list.front, ListEnd.pick]
  delVictim := by
    intro c xs hxs h
    obtain ⟨c', hrun, hmax, -, hlist', hdict'⟩ := MruCache.delVictim_spec [] hxs h.list h.dict
    exact ⟨c', hrun, hmax, hlist', hdict'⟩

end Ends

/-! ## Calls on lists of keys -/

section Keys

variable {P K : Type} [DecidableEq K] {maxSize : Nat} {ks : List K}

def keysStep (e : ListEnd) (maxSize : Nat) : CacheCall P K → List K → List K
  | .updateEntry k _, ks =>
    k :: (if k ∈ ks then ks.erase k else if maxSize ≤ ks.length then e.drop ks else ks)
  | .delEntry k, ks => ks.erase k
  | .delVictim, ks => e.drop ks
  | .clear, _ => []
  | .search _, ks => ks
  | .victim, ks => ks

def keysReply (e : ListEnd) : CacheCall P K → List K → CacheReply K
  | .updateEntry k _, _ => .entry (some k)
  | .search k, ks => .entry (if k ∈ ks then some k else none)
  | .delEntry k, ks => .deleted (decide (k ∈ ks))
  | .victim, ks => .entry (e.pick ks)
  | .delVictim, _ => .done
  | .clear, _ => .done

theorem length_keysStep_le {e : ListEnd} (hsize : 1 ≤ maxSize)
    (hlength : ks.length ≤ maxSize) (call : CacheCall P K) :
    (keysStep e maxSize call ks).length ≤ maxSize := by
  have hdrop : (e.drop ks).length = ks.length - 1 := by
    cases e with
    | back => exact length_dropLast
    | front => exact length_tail
  cases call with
  | updateEntry k a =>
    simp only [keysStep, length_cons]
    grind
  | delEntry k => exact Nat.le_trans length_erase_le hlength
  | delVictim =>
    simp only [keysStep]
    omega
  | clear => exact Nat.zero_le _
  | search k => exact hlength
  | victim => exact hlength

/-- What the interface promises of a call, by the victim and the keys before and after it. -/
def CacheCall.Promises (victim : Option K) (ks ks' : List K) : CacheCall P K → Prop
  | .updateEntry k _ => ∀ k', k' ∈ ks' ↔ k' = k ∨ k' ∈ ks
  | .delEntry k => ∀ k', k' ∈ ks' ↔ k' ∈ ks ∧ k' ≠ k
  | .delVictim => ∀ k', k' ∈ ks' ↔ k' ∈ ks ∧ victim ≠ some k'
  | .clear => ks' = []
  | .search _ | .victim => ∀ k', k' ∈ ks' ↔ k' ∈ ks

theorem promises_keysStep (hnodup : ks.Nodup) (e : ListEnd)
    (hroom : ks.length < maxSize) (call : CacheCall P K) :
    call.Promises (e.pick ks) ks (keysStep e maxSize call ks) ∧
      (keysStep e maxSize call ks).Nodup := by
  cases call with
  | updateEntry k a =>
    have hroom := Nat.not_le_of_lt hroom
    simp only [CacheCall.Promises, keysStep, hroom, if_false]
    grind
  | delEntry k => exact ⟨fun k' => by grind [keysStep], hnodup.erase k⟩
  | delVictim =>
    by_cases hks : ks = []
    · cases e <;> simp [CacheCall.Promises, keysStep, ListEnd.drop, hks]
    · obtain ⟨before, k, behind, rfl, hdrop, hpick⟩ := e.split hks
      simp only [CacheCall.Promises, keysStep, hdrop, hpick]
      grind
  | clear => exact ⟨rfl, nodup_nil⟩
  | search k => exact ⟨fun _ => Iff.rfl, hnodup⟩
  | victim => exact ⟨fun _ => Iff.rfl, hnodup⟩

theorem exists_split {xs : List (P × K)} (hk : k ∈ xs.map Prod.snd)
    (hnodup : (xs.map Prod.snd).Nodup) :
    ∃ before x behind, xs = before ++ x :: behind ∧ x.2 = k ∧
      (before ++ behind).map Prod.snd = (xs.map Prod.snd).erase k := by
  obtain ⟨x, hx, rfl⟩ := mem_map.1 hk
  obtain ⟨before, behind, rfl⟩ := append_of_mem hx
  grind

variable [DecidableEq P] {hash : K → Nat} {ev : Eviction P K} {e : ListEnd}
  {c : ListCache P K} {xs : List (P × K)}

namespace ListCache

theorem updateEntry_new (hev : ev.TakesFrom hash e) (hsize : 1 ≤ c.maxSize)
    (h : c.Tracks hash xs) (hlength : xs.length ≤ c.maxSize) {a : P}
    (ha : c.nodes.node a = none) (hk : k ∉ xs.map Prod.snd) :
    ∃ c', c.updateEntry hash ev a k = some (some k, c') ∧ c'.maxSize = c.maxSize ∧
      c'.Tracks hash ((a, k) :: if c.maxSize ≤ xs.length then e.drop xs else xs) := by
  obtain ⟨dict, hinsert, hdict⟩ := HashTable.Indexes.insert_new h.dict
    (show ∀ v ∈ _, _ ≠ CacheEntry.key ⟨k, none⟩ from key_ne_of_not_mem hk)
  obtain ⟨c1, hroom, hmax1, hfree, hlist1, hdict1⟩ := @hev.makeRoom
    { c with dict := dict } xs k hsize hlength h.list hdict
  obtain ⟨c2, hpush, htracks, hmax2⟩ := pushNew_spec (hfree a ha) hlist1 hdict1
  refine ⟨c2, ?_, hmax2.trans hmax1, htracks⟩
  have hfront : c2.cache.front c2.nodes = some k := htracks.list.front
  have hpos : c.maxSize ≠ 0 := by omega
  simp only [updateEntry, if_neg hpos, hinsert, hroom, some_bind, hpush, hfront]
  rfl

theorem updateEntry_old (ev : Eviction P K) (hsize : 1 ≤ c.maxSize)
    {before behind : List (P × K)} {x : P × K}
    (h : c.Tracks hash (before ++ x :: behind)) (a : P) :
    ∃ c', c.updateEntry hash ev a x.2 = some (some x.2, c') ∧ c'.maxSize = c.maxSize ∧
      c'.Tracks hash (x :: (before ++ behind)) := by
  have hmem : entryOf x ∈ (before ++ x :: behind).map entryOf := mem_map_of_mem (by simp)
  obtain ⟨dict, hinsert, hdict⟩ := HashTable.Indexes.insert_duplicate h.dict hmem
    (show (entryOf x).key = CacheEntry.key ⟨x.2, none⟩ from rfl)
  obtain ⟨cache, nodes, htouch, hlist⟩ := @touch_spec P K
    { c with dict := dict } before behind x _ h.list
  refine ⟨⟨c.maxSize, cache, nodes, dict⟩, ?_, rfl, hlist,
    Tables.Indexes.perm hdict (map_entryOf_perm before behind x).symm⟩
  have hfront : cache.front nodes = some x.2 := hlist.front
  have hpos : c.maxSize ≠ 0 := by omega
  replace htouch : touch (entryOf x).value { c with dict := dict } = _ := htouch
  simp only [updateEntry, if_neg hpos, hinsert, htouch, some_bind, hfront]
  rfl

/-- One call on the cache is one call on the list of its keys, with the same answer. -/
theorem Tracks.step (hev : ev.TakesFrom hash e) (hsize : 1 ≤ c.maxSize) (h : c.Tracks hash xs)
    (hlength : xs.length ≤ c.maxSize) {call : CacheCall P K} (hadmits : Admits call c)
    (hempty : call = .victim ∨ call = .delVictim → xs = [] →
      ev.victim c = some none ∧ ev.delVictim c = some c) :
    ∃ c' xs', c.step hash ev call = some (keysReply e call (xs.map Prod.snd), c') ∧
      c'.maxSize = c.maxSize ∧ c'.Tracks hash xs' ∧
      xs'.map Prod.snd = keysStep e c.maxSize call (xs.map Prod.snd) := by
  cases call with
  | updateEntry k a =>
    by_cases hk : k ∈ xs.map Prod.snd
    · obtain ⟨before, x, behind, rfl, rfl, herase⟩ := exists_split hk h.keys_nodup
      obtain ⟨c', hrun, hmax, htracks⟩ := updateEntry_old ev hsize h a
      refine ⟨c', _, ?_, hmax, htracks, ?_⟩
      · simp only [ListCache.step, hrun]
        rfl
      · rw [map_cons, herase]
        simp only [keysStep, if_pos hk]
    · obtain ⟨c', hrun, hmax, htracks⟩ := updateEntry_new hev hsize h hlength hadmits hk
      refine ⟨c', _, ?_, hmax, htracks, ?_⟩
      · simp only [ListCache.step, hrun]
        rfl
      · simp only [keysStep, if_neg hk, map_cons, length_map, e.drop_map]
        split
        · rfl
        · rfl
  | search k =>
    have hsearch := h.search k
    refine ⟨(c.search hash k).2, xs, ?_, rfl, hsearch.2, rfl⟩
    simp only [ListCache.step, keysReply, ← hsearch.1]
  | delEntry k =>
    by_cases hk : k ∈ xs.map Prod.snd
    · obtain ⟨before, x, behind, rfl, rfl, herase⟩ := exists_split hk h.keys_nodup
      obtain ⟨c', hrun, htracks, hmax⟩ := h.delEntry
      refine ⟨c', _, ?_, hmax, htracks, herase⟩
      simp only [ListCache.step, hrun, keysReply, decide_eq_true hk]
      rfl
    · obtain ⟨c', hrun, htracks, hmax⟩ := h.delEntry_none hk
      refine ⟨c', xs, ?_, hmax, htracks, (erase_of_not_mem hk).symm⟩
      simp only [ListCache.step, hrun, keysReply, decide_eq_false hk]
      rfl
  | victim =>
    refine ⟨c, xs, ?_, rfl, h, rfl⟩
    by_cases hxs : xs = []
    · subst hxs
      simp only [ListCache.step, (hempty (.inl rfl) rfl).1]
      cases e with
      | back => rfl
      | front => rfl
    · simp only [ListCache.step, hev.victim hxs h, keysReply, e.pick_map]
      rfl
  | delVictim =>
    by_cases hxs : xs = []
    · subst hxs
      refine ⟨c, [], ?_, rfl, h, ?_⟩
      · simp only [ListCache.step, (hempty (.inr rfl) rfl).2]
        rfl
      · cases e with
        | back => rfl
        | front => rfl
    · obtain ⟨c', hrun, hmax, htracks⟩ := hev.delVictim hxs h
      refine ⟨c', e.drop xs, ?_, hmax, htracks, (e.drop_map _ _).symm⟩
      simp only [ListCache.step, hrun]
      rfl
  | clear =>
    obtain ⟨c', hrun, htracks, hmax⟩ := h.clear
    refine ⟨c', [], ?_, hmax, htracks, rfl⟩
    simp only [ListCache.step, hrun]
    rfl

end ListCache

end Keys

end Mmkv.Replacement
