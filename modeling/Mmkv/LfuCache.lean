import Mmkv.RecencyCaches
import Mmkv.TreeHashTableRuns

/-!
# The cache that counts updates

`LfuCache` has a list of frequencies, each with the list of keys that were updated so often,
and a dictionary from keys to the two nodes of a key.  Frequency nodes and item nodes are
allocated apart, and their addresses are given with the call.  Frequencies are natural
numbers.

The keys of a frequency stand in the order in which they reached it.
-/

namespace Mmkv.Replacement

open BNodes BoundedLoops List Blist
open scoped List

structure FreqValue (Q : Type) where
  freq : Nat
  items : Blist Q
  deriving Repr, DecidableEq

structure NodeCtx (P Q : Type) where
  fnode : Option P
  inode : Option Q
  deriving Repr, DecidableEq

structure LfuEntry (P Q K : Type) where
  key : K
  value : NodeCtx P Q
  deriving Repr, DecidableEq

structure LfuCache (P Q K : Type) where
  freqList : Blist P
  fnodes : BNodes P (FreqValue Q)
  inodes : BNodes Q K
  dict : Tables (AvlTree (LfuEntry P Q K))

namespace LfuCache

variable {P Q K : Type} [DecidableEq P] [DecidableEq Q] [DecidableEq K]
  (cmp : K → K → Ordering) (hash : K → Nat)

def new : LfuCache P Q K :=
  ⟨Blist.new, ⟨fun _ => none⟩, ⟨fun _ => none⟩, TreeHashTable.new cmp LfuEntry.key⟩

/-- A pointer to a key can be followed while the dictionary has the key. -/
def deref (k : K) (c : LfuCache P Q K) : Option K :=
  if (TreeHashTable.entries cmp LfuEntry.key c.dict).any fun e => decide (e.key = k) then some k
  else none

def onItems (op : Blist Q → BNodes Q K → Option (Blist Q × BNodes Q K)) (p : P)
    (c : LfuCache P Q K) : Option (LfuCache P Q K) := do
  let n ← c.fnodes.node p
  let (items, inodes) ← op n.value.items c.inodes
  let fnodes ← c.fnodes.update p fun n => { n with value := { n.value with items := items } }
  return { c with fnodes := fnodes, inodes := inodes }

/-- `SetFreqNode` on the context of the key. -/
def setFreqNode (k : K) (p : P) (c : LfuCache P Q K) : Option (LfuCache P Q K) := do
  let n ← c.fnodes.node p
  let inode ← n.value.items.backNode c.inodes
  let k ← c.deref cmp k
  let dict := TreeHashTable.modify cmp LfuEntry.key hash k
    (fun e => { e with value := ⟨some p, inode⟩ }) c.dict
  return { c with dict := dict }

def pushFreqFront (a : P) (freq : Nat) (c : LfuCache P Q K) : Option (LfuCache P Q K) := do
  let (freqList, fnodes) ← c.freqList.pushFront (c.fnodes.createNode a ⟨freq, Blist.new⟩) a
  return { c with freqList := freqList, fnodes := fnodes }

def insertFreqAfter (p a : P) (freq : Nat) (c : LfuCache P Q K) : Option (LfuCache P Q K) := do
  let (freqList, fnodes) ← c.freqList.insertAfter
    (c.fnodes.createNode a ⟨freq, Blist.new⟩) (some p) a
  return { c with freqList := freqList, fnodes := fnodes }

/-- `if (items.empty()) freq_list_.Erase(fnode)`; there is nothing for the destructor of the
items to do. -/
def eraseIfEmpty (p : P) (c : LfuCache P Q K) : Option (LfuCache P Q K) := do
  let n ← c.fnodes.node p
  if n.value.items.empty then do
    let (freqList, fnodes) ← c.freqList.erase c.fnodes (some p)
    return { c with freqList := freqList, fnodes := fnodes }
  else
    return c

/-- `freq_list_.empty() || freq_list_.Front().freq > 1`, and the node is added then. -/
def ensureFirst (a : P) (c : LfuCache P Q K) : Option (LfuCache P Q K) :=
  if c.freqList.empty then c.pushFreqFront a 1
  else do
    let front ← c.freqList.front c.fnodes
    if 1 < front.freq then c.pushFreqFront a 1 else return c

def addEntry (a : P) (b : Q) (k : K) (c : LfuCache P Q K) : Option (LfuCache P Q K) := do
  let c ← c.ensureFirst a
  let front ← c.freqList.header
  let c ← c.onItems (fun items m => items.pushBack (m.createNode b k) b) front
  c.setFreqNode cmp hash k front

/-- `!p_fnode_next || p_fnode_next->value.freq - 1 > old_freq`, and the node is added then. -/
def ensureNext (p a : P) (c : LfuCache P Q K) : Option (LfuCache P Q K) := do
  let n ← c.fnodes.node p
  match n.next with
  | none => c.insertFreqAfter p a (n.value.freq + 1)
  | some next => do
    let nn ← c.fnodes.node next
    if n.value.freq < nn.value.freq - 1 then c.insertFreqAfter p a (n.value.freq + 1)
    else return c

/-- The entry exists: its item goes to the end of the next frequency. -/
def promote (a : P) (k : K) (ctx : NodeCtx P Q) (c : LfuCache P Q K) :
    Option (LfuCache P Q K) := do
  let p ← ctx.fnode
  let c ← c.ensureNext p a
  let n ← c.fnodes.node p
  let next ← n.next
  let c ← c.onItems (fun items m => items.extract m ctx.inode) p
  let inode ← ctx.inode
  let c ← c.onItems (fun items m => items.pushBack m inode) next
  let n ← c.fnodes.node p
  let c ← c.setFreqNode cmp hash k (← n.next)
  c.eraseIfEmpty p

def updateEntry (a : P) (b : Q) (k : K) (c : LfuCache P Q K) : Option (Option K × LfuCache P Q K) :=
  match TreeHashTable.insertWithDuplicate cmp LfuEntry.key hash ⟨k, none, none⟩ c.dict with
  | (true, _, dict) => do
    let c ← addEntry cmp hash a b k { c with dict := dict }
    return (some k, c)
  | (false, duplicate, dict) => do
    let c ← promote cmp hash a k duplicate.value { c with dict := dict }
    return (some k, c)

def delEntry (k : K) (c : LfuCache P Q K) : Option (Bool × LfuCache P Q K) :=
  match TreeHashTable.extract cmp LfuEntry.key hash k c.dict with
  | (none, dict) => some (false, { c with dict := dict })
  | (some n, dict) => do
    let fnode ← n.value.value.fnode
    let c ← onItems (fun items m => items.erase m n.value.value.inode) fnode
      { c with dict := dict }
    let c ← c.eraseIfEmpty fnode
    return (true, c)

def victim (c : LfuCache P Q K) : Option (Option K) :=
  if c.dict.size = 0 then some none
  else do
    let front ← c.freqList.front c.fnodes
    let k ← front.items.front c.inodes
    return some k

def popIfEmpty (p : P) (c : LfuCache P Q K) : Option (LfuCache P Q K) := do
  let n ← c.fnodes.node p
  if n.value.items.empty then do
    let (freqList, fnodes) ← c.freqList.popFront c.fnodes
    return { c with freqList := freqList, fnodes := fnodes }
  else
    return c

def delVictim (c : LfuCache P Q K) : Option (LfuCache P Q K) :=
  if c.dict.size = 0 then some c
  else do
    let front ← c.freqList.header
    let n ← c.fnodes.node front
    let k ← n.value.items.front c.inodes
    let c ← c.onItems popFront front
    let c ← c.popIfEmpty front
    let k ← c.deref cmp k
    return { c with dict := (TreeHashTable.erase cmp LfuEntry.key hash k c.dict).2 }

def search (k : K) (c : LfuCache P Q K) : Option K × LfuCache P Q K :=
  let (kv, dict) := TreeHashTable.find cmp LfuEntry.key hash k c.dict
  (kv.map LfuEntry.key, { c with dict := dict })

/-- A round of `freq_list_.Clear()`: the destructor of the node clears its items. -/
def clearRound (c : LfuCache P Q K) : Option (Round (LfuCache P Q K)) := do
  let h ← c.freqList.header
  let first ← c.fnodes.node h
  let (_, inodes) ← first.value.items.clear c.inodes first.value.items.count
  let fnodes ← c.fnodes.dropNode h
  return .next { c with
    freqList := { c.freqList with header := first.next }, fnodes := fnodes, inodes := inodes }

def clear (c : LfuCache P Q K) : Option (LfuCache P Q K) := do
  let c := { c with dict := TreeHashTable.clear cmp LfuEntry.key c.dict }
  let c ← whileDo (fun c => c.freqList.header.isSome) clearRound c.freqList.count c
  return { c with freqList := { c.freqList with count := 0 } }

/-- The calls of the interface; new nodes are put at the given addresses. -/
def step : CacheCall (P × Q) K → LfuCache P Q K → Option (CacheReply K × LfuCache P Q K)
  | .updateEntry k (a, b), c => do
    let (entry, c) ← c.updateEntry cmp hash a b k
    return (.entry entry, c)
  | .search k, c =>
    let (entry, c) := c.search cmp hash k
    some (.entry entry, c)
  | .delEntry k, c => do
    let (success, c) ← c.delEntry cmp hash k
    return (.deleted success, c)
  | .victim, c => do
    let entry ← c.victim
    return (.entry entry, c)
  | .delVictim, c => do
    let c ← c.delVictim cmp hash
    return (.done, c)
  | .clear, c => do
    let c ← c.clear cmp
    return (.done, c)

def Admits : CacheCall (P × Q) K → LfuCache P Q K → Prop
  | .updateEntry _ (a, b), c => c.fnodes.node a = none ∧ c.inodes.node b = none
  | _, _ => True

inductive Run : List (CacheCall (P × Q) K) → LfuCache P Q K → Prop
  | new : Run [] (new cmp)
  | call {calls : List (CacheCall (P × Q) K)} {c c' : LfuCache P Q K}
      {call : CacheCall (P × Q) K} {reply : CacheReply K} (run : Run calls c)
      (admits : Admits call c) (step : c.step cmp hash call = some (reply, c')) :
      Run (calls ++ [call]) c'

end LfuCache

/-! ## The nodes of the cache -/

structure FreqGroup (P Q K : Type) where
  addr : P
  freq : Nat
  items : List (Q × K)

namespace FreqGroup

variable {P Q K : Type}

def listOf (ys : List (Q × K)) : Blist Q :=
  ⟨headPtr ys none, ys.length⟩

def node (g : FreqGroup P Q K) : P × FreqValue Q :=
  (g.addr, ⟨g.freq, listOf g.items⟩)

def entries (g : FreqGroup P Q K) : List (LfuEntry P Q K) :=
  g.items.map fun y => ⟨y.2, some g.addr, some y.1⟩

def keep (g : FreqGroup P Q K) : List (FreqGroup P Q K) :=
  match g.items with
  | [] => []
  | _ :: _ => [g]

variable {ys : List (Q × K)} {m : BNodes Q K}

theorem eq_listOf {l : Blist Q} (h : l.Holds m ys) :
    l = listOf ys := by
  rw [listOf, ← h.header, ← h.count]

end FreqGroup

open FreqGroup

namespace LfuCache

open FreqGroup

variable {P Q K : Type}

structure View (c : LfuCache P Q K) (gs : List (FreqGroup P Q K)) : Prop where
  freqs : c.freqList.Holds c.fnodes (gs.map node)
  items : ∀ g ∈ gs, (listOf g.items).Holds c.inodes g.items
  disjoint : gs.Pairwise fun g g' => ∀ q ∈ addrs g.items, q ∉ addrs g'.items

def allEntries (gs : List (FreqGroup P Q K)) : List (LfuEntry P Q K) :=
  gs.flatMap entries

variable {c : LfuCache P Q K} {gs before behind : List (FreqGroup P Q K)}
  {g : FreqGroup P Q K} {a : P} {y : Q × K} {f : Nat}

namespace View

theorem withDict (h : c.View gs) (dict : Tables (AvlTree (LfuEntry P Q K))) :
    View { c with dict := dict } gs :=
  ⟨h.freqs, h.items, h.disjoint⟩

theorem node (h : c.View (before ++ g :: behind)) : ∃ prev, c.fnodes.node g.addr =
      some ⟨prev, headPtr (behind.map node) none, g.freq, listOf g.items⟩ := by
  have hsplit := h.freqs
  rw [map_append, map_cons] at hsplit
  exact ⟨_, hsplit.split.2.1⟩

theorem mid_items (h : c.View (before ++ g :: behind)) : (listOf g.items).Holds c.inodes g.items :=
  h.items g (mem_append_right _ mem_cons_self)

theorem mid_disjoint (h : c.View (before ++ g :: behind)) :
    ∀ g' ∈ before ++ behind, ∀ q ∈ addrs g'.items, q ∉ addrs g.items := by
  have hpairs := h.disjoint
  grind [pairwise_cons]

theorem disjoint_insert (h : (before ++ behind).Pairwise fun g g' : FreqGroup P Q K =>
    ∀ q ∈ addrs g.items, q ∉ addrs g'.items) (a : P) (f : Nat) :
    (before ++ ⟨a, f, []⟩ :: behind).Pairwise fun g g' : FreqGroup P Q K =>
      ∀ q ∈ addrs g.items, q ∉ addrs g'.items := by
  grind [pairwise_cons]

theorem disjoint_replace (h : c.View (before ++ g :: behind))
    (hys : ∀ g' ∈ before ++ behind, ∀ q ∈ addrs g'.items, q ∉ addrs ys) :
    (before ++ { g with items := ys } :: behind).Pairwise fun g g' : FreqGroup P Q K =>
      ∀ q ∈ addrs g.items, q ∉ addrs g'.items := by
  have hpairs := h.disjoint
  grind [pairwise_cons]

theorem disjoint_erase (h : c.View (before ++ g :: behind)) :
    (before ++ behind).Pairwise fun g g' : FreqGroup P Q K =>
      ∀ q ∈ addrs g.items, q ∉ addrs g'.items :=
  h.disjoint.sublist (List.Sublist.append_left (sublist_cons_self _ _) _)

variable [DecidableEq P]

theorem pushFreqFront (h : c.View gs) (ha : c.fnodes.node a = none) (f : Nat) :
    ∃ c', c.pushFreqFront a f = some c' ∧ c'.View (⟨a, f, []⟩ :: gs) ∧ c'.inodes = c.inodes ∧
      c'.dict = c.dict := by
  have hfresh := h.freqs.not_mem ha
  have hcreated : c.freqList.Holds (c.fnodes.createNode a ⟨f, Blist.new⟩) (gs.map _) :=
    { h.freqs with segment := h.freqs.segment.update_other hfresh _ }
  obtain ⟨l, m, hrun, hlist, -⟩ := hcreated.pushFront (node_write_self _ _) hfresh
  refine ⟨{ c with freqList := l, fnodes := m }, ?_, ⟨hlist, ?_, ?_⟩, rfl, rfl⟩
  · simp only [LfuCache.pushFreqFront, hrun]
    rfl
  · intro g hg
    rcases mem_cons.1 hg with rfl | hg
    · exact Blist.holds_new _
    · exact h.items g hg
  · exact @disjoint_insert P Q K [] gs h.disjoint a f

section

variable (h : c.View (before ++ g :: behind))

include h

theorem insertFreqAfter (ha : c.fnodes.node a = none) (f : Nat) :
    ∃ c', c.insertFreqAfter g.addr a f = some c' ∧
      c'.View (before ++ g :: ⟨a, f, []⟩ :: behind) ∧ c'.inodes = c.inodes ∧
      c'.dict = c.dict := by
  have hfreqs := h.freqs
  rw [map_append, map_cons] at hfreqs
  have hfresh := hfreqs.not_mem ha
  have hcreated : c.freqList.Holds (c.fnodes.createNode a ⟨f, Blist.new⟩) _ :=
    { hfreqs with segment := hfreqs.segment.update_other hfresh _ }
  obtain ⟨l, m, hrun, hlist, -⟩ := hcreated.insertAfter (node_write_self _ _) hfresh
  refine ⟨{ c with freqList := l, fnodes := m }, ?_, ⟨?_, ?_, ?_⟩, rfl, rfl⟩
  · replace hrun : c.freqList.insertAfter (c.fnodes.createNode a ⟨f, Blist.new⟩) (some g.addr) a =
      _ := hrun
    simp only [LfuCache.insertFreqAfter, hrun]
    rfl
  · rw [map_append, map_cons, map_cons]
    exact hlist
  · intro g' hg'
    have hmem : g' = ⟨a, f, []⟩ ∨ g' ∈ before ++ g :: behind := by grind
    rcases hmem with rfl | hmem
    · exact Blist.holds_new _
    · exact h.items g' hmem
  · have hsplit :
        before ++ g :: ⟨a, f, []⟩ :: behind = (before ++ [g]) ++ ⟨a, f, []⟩ :: behind := by
      simp
    rw [hsplit]
    apply disjoint_insert
    rw [append_assoc]
    exact h.disjoint

theorem onItems (op : Blist Q → BNodes Q K → Option (Blist Q × BNodes Q K)) {l : Blist Q}
    {touched : List Q} (hrun : op (listOf g.items) c.inodes = some (l, m))
    (hlist : l.Holds m ys) (hframe : ∀ b ∉ touched, m.node b = c.inodes.node b)
    (htouched : ∀ g' ∈ before ++ behind, ∀ q ∈ addrs g'.items, q ∉ touched)
    (hys : ∀ q ∈ addrs ys, q ∈ touched) :
    ∃ fnodes, c.onItems op g.addr = some { c with fnodes := fnodes, inodes := m } ∧
      View { c with fnodes := fnodes, inodes := m }
        (before ++ { g with items := ys } :: behind) := by
  obtain ⟨prev, hnode⟩ := h.node
  have hfreqs := h.freqs
  rw [map_append, map_cons] at hfreqs
  obtain ⟨fnodes, hset, hfreqs'⟩ := hfreqs.setValue fun v => { v with items := l }
  refine ⟨fnodes, ?_, ⟨?_, ?_, h.disjoint_replace ?_⟩⟩
  · replace hset : c.fnodes.update g.addr _ = some fnodes := hset
    simp only [LfuCache.onItems, hnode, some_bind, hrun, hset]
    rfl
  · rw [map_append, map_cons]
    rw [eq_listOf hlist] at hfreqs'
    exact hfreqs'
  · intro g' hg'
    have hmem : g' = { g with items := ys } ∨ g' ∈ before ++ behind := by grind
    rcases hmem with rfl | hmem
    · rw [eq_listOf hlist] at hlist
      exact hlist
    · exact (h.items g' (by grind)).congr fun q hq => hframe q (htouched g' hmem q hq)
  · grind

theorem eraseIfEmpty :
    ∃ c', c.eraseIfEmpty g.addr = some c' ∧ c'.inodes = c.inodes ∧ c'.dict = c.dict ∧
      c'.View (before ++ keep g ++ behind) := by
  obtain ⟨prev, hnode⟩ := h.node
  unfold keep
  cases hitems : g.items with
  | nil =>
    have hfreqs := h.freqs
    rw [map_append, map_cons] at hfreqs
    obtain ⟨l, m, hrun, hlist, -⟩ := hfreqs.erase
    replace hrun : c.freqList.erase c.fnodes (some g.addr) = _ := hrun
    refine ⟨{ c with freqList := l, fnodes := m }, ?_, rfl, rfl, ⟨?_, ?_, ?_⟩⟩
    · simp [LfuCache.eraseIfEmpty, hnode, hitems, listOf, headPtr, empty, hrun]
    · simpa using hlist
    · exact fun g' hg' => h.items g' (by grind)
    · simpa using h.disjoint_erase
  | cons y ys =>
    refine ⟨c, ?_, rfl, rfl, by simpa using h⟩
    simp [LfuCache.eraseIfEmpty, hnode, hitems, listOf, headPtr, empty]

end

theorem popIfEmpty (h : c.View (g :: behind)) :
    ∃ c', c.popIfEmpty g.addr = some c' ∧ c'.inodes = c.inodes ∧ c'.dict = c.dict ∧
      c'.View (keep g ++ behind) := by
  obtain ⟨prev, hnode⟩ := @View.node _ _ _ c [] behind g h
  unfold keep
  cases hitems : g.items with
  | nil =>
    obtain ⟨l, m, hrun, hlist, -⟩ := h.freqs.popFront
    refine ⟨{ c with freqList := l, fnodes := m }, ?_, rfl, rfl, ⟨?_, ?_, ?_⟩⟩
    · simp [LfuCache.popIfEmpty, hnode, hitems, listOf, headPtr, empty, hrun]
    · simpa using hlist
    · intro g' hg'
      exact h.items g' (mem_cons_of_mem _ (by simpa using hg'))
    · simpa using (pairwise_cons.1 h.disjoint).2
  | cons y ys =>
    refine ⟨c, ?_, rfl, rfl, by simpa using h⟩
    simp [LfuCache.popIfEmpty, hnode, hitems, listOf, headPtr, empty]

end View

/-! ## Entries -/

def Indexed (cmp : K → K → Ordering) (hash : K → Nat) (c : LfuCache P Q K)
    (es : List (LfuEntry P Q K)) : Prop :=
  TreeHashTable.Indexes cmp LfuEntry.key hash c.dict es

theorem allEntries_append (gs gs' : List (FreqGroup P Q K)) :
    allEntries (gs ++ gs') = allEntries gs ++ allEntries gs' :=
  flatMap_append

theorem allEntries_perm (before behind : List (FreqGroup P Q K)) (a : P) (f : Nat)
    (ys zs : List (Q × K)) (y : Q × K) :
    allEntries (before ++ ⟨a, f, ys ++ y :: zs⟩ :: behind) ~
      ⟨y.2, some a, some y.1⟩ :: allEntries (before ++ ⟨a, f, ys ++ zs⟩ :: behind) := by
  simp only [allEntries, flatMap_append, flatMap_cons, entries, map_append,
    map_cons, append_assoc, cons_append]
  exact ((perm_middle.append_left _).trans perm_middle).trans (.refl _)

theorem allEntries_keep (before behind : List (FreqGroup P Q K)) (g : FreqGroup P Q K) :
    allEntries (before ++ keep g ++ behind) = allEntries (before ++ g :: behind) := by
  cases hitems : g.items with
  | nil => simp [allEntries, entries, keep, hitems]
  | cons y ys => simp [allEntries, keep, hitems]

/-- The item comes last in the group of the frequency, which is in front of the larger ones. -/
def appendAt (a : P) (f : Nat) (y : Q × K) : List (FreqGroup P Q K) → List (FreqGroup P Q K)
  | [] => [⟨a, f, [y]⟩]
  | g :: gs =>
    if f < g.freq then ⟨a, f, [y]⟩ :: g :: gs
    else { g with items := g.items ++ [y] } :: gs

theorem addrs_subset (ys zs : List (Q × K)) (y : Q × K) :
    ∀ q ∈ addrs (ys ++ zs), q ∈ addrs (ys ++ y :: zs) := by
  grind

theorem not_mem_addrs_of_nodup {ys zs : List (Q × K)}
    (h : (addrs (ys ++ y :: zs)).Nodup) : y.1 ∉ addrs (ys ++ zs) := by
  grind

/-- The groups `gs`, with one for the frequency in front. -/
structure Prepared (a : P) (f : Nat) (gs : List (FreqGroup P Q K)) (next : FreqGroup P Q K)
    (rest : List (FreqGroup P Q K)) : Prop where
  append : ∀ y, appendAt a f y gs = { next with items := next.items ++ [y] } :: rest
  entries : allEntries (next :: rest) = allEntries gs

theorem prepared_new (hgs : ∀ g ∈ gs.head?, f < g.freq) :
    Prepared a f gs ⟨a, f, []⟩ gs where
  append := by
    intro y
    cases gs with
    | nil => rfl
    | cons g gs => exact if_pos (hgs g rfl)
  entries := rfl

theorem prepared_old (hg : ¬ f < g.freq) : Prepared a f (g :: gs) g gs where
  append := fun _ => if_neg hg
  entries := rfl

namespace View

variable [DecidableEq P]

theorem ensureFirst (h : c.View gs) (ha : c.fnodes.node a = none) :
    ∃ c' next rest, c.ensureFirst a = some c' ∧ c'.View (next :: rest) ∧
      c'.inodes = c.inodes ∧ c'.dict = c.dict ∧ Prepared a 1 gs next rest := by
  cases gs with
  | nil =>
    have hempty : c.freqList.empty = true := by
      rw [empty, h.freqs.header]
      rfl
    obtain ⟨c', hrun, hview, hinodes, hdict⟩ := h.pushFreqFront ha 1
    refine ⟨c', _, _, ?_, hview, hinodes, hdict, prepared_new fun g hg => by cases hg⟩
    rw [LfuCache.ensureFirst, if_pos hempty, hrun]
  | cons g gs =>
    have hempty : ¬ c.freqList.empty = true := by
      rw [empty, h.freqs.header]
      exact fun hnone => by cases hnone
    have hfront : c.freqList.front c.fnodes = some ⟨g.freq, listOf g.items⟩ := h.freqs.front
    by_cases hfreq : 1 < g.freq
    · obtain ⟨c', hrun, hview, hinodes, hdict⟩ := h.pushFreqFront ha 1
      refine ⟨c', _, _, ?_, hview, hinodes, hdict, prepared_new fun g' hg' => ?_⟩
      · simp only [LfuCache.ensureFirst, if_neg hempty, hfront, some_bind, if_pos hfreq, hrun]
      · cases hg'
        exact hfreq
    · refine ⟨c, _, _, ?_, h, rfl, rfl, prepared_old hfreq⟩
      simp only [LfuCache.ensureFirst, if_neg hempty, hfront, some_bind, if_neg hfreq]
      rfl

theorem ensureNext (h : c.View (before ++ g :: behind)) (ha : c.fnodes.node a = none) :
    ∃ c' next rest, c.ensureNext g.addr a = some c' ∧ c'.View (before ++ g :: next :: rest) ∧
      c'.inodes = c.inodes ∧ c'.dict = c.dict ∧ Prepared a (g.freq + 1) behind next rest := by
  obtain ⟨prev, hnode⟩ := h.node
  obtain ⟨c', hrun, hview, hinodes, hdict⟩ := h.insertFreqAfter ha (g.freq + 1)
  cases behind with
  | nil =>
    refine ⟨c', _, _, ?_, hview, hinodes, hdict, prepared_new fun g hg => by cases hg⟩
    simp only [LfuCache.ensureNext, hnode, some_bind]
    exact hrun
  | cons next rest =>
    have hsplit : before ++ g :: next :: rest = (before ++ [g]) ++ next :: rest := by simp
    obtain ⟨prev', hnext⟩ := (hsplit ▸ h : c.View ((before ++ [g]) ++ next :: rest)).node
    by_cases hfreq : g.freq < next.freq - 1
    · refine ⟨c', _, _, ?_, hview, hinodes, hdict, prepared_new fun g' hg' => ?_⟩
      · simp only [LfuCache.ensureNext, hnode, some_bind, map_cons, headPtr]
        simp only [FreqGroup.node, hnext, some_bind, if_pos hfreq, hrun]
      · cases hg'
        omega
    · refine ⟨c, _, _, ?_, h, rfl, rfl, prepared_old (by omega)⟩
      simp only [LfuCache.ensureNext, hnode, some_bind, map_cons, headPtr]
      simp only [FreqGroup.node, hnext, some_bind, if_neg hfreq]
      rfl

end View

section Dictionary

variable [DecidableEq K] {cmp : K → K → Ordering} {hash : K → Nat}
  {es rest : List (LfuEntry P Q K)}

theorem Indexed.deref (h : c.Indexed cmp hash es) {e : LfuEntry P Q K} (he : e ∈ es) :
    c.deref cmp e.key = some e.key := by
  have hmem : e ∈ TreeHashTable.entries cmp LfuEntry.key c.dict :=
    (Tables.Indexes.entries_perm h).mem_iff.2 he
  rw [LfuCache.deref, if_pos (any_eq_true.2 ⟨e, hmem, decide_eq_true rfl⟩)]

theorem View.setFreqNode [Std.TransCmp cmp] {ctx : NodeCtx P Q}
    (h : c.View (before ++ ⟨g.addr, g.freq, ys ++ [y]⟩ :: behind))
    (hdict : c.Indexed cmp hash es) (hperm : es ~ ⟨y.2, ctx⟩ :: rest) :
    ∃ dict, c.setFreqNode cmp hash y.2 g.addr = some { c with dict := dict } ∧
      TreeHashTable.Indexes cmp LfuEntry.key hash dict
        (⟨y.2, some g.addr, some y.1⟩ :: rest) := by
  obtain ⟨prev, hnode⟩ := h.node
  have hback : (listOf (ys ++ [y])).backNode c.inodes = some (some y.1) := by
    rw [h.mid_items.backNode (by simp), lastPtr_concat]
  have hderef : c.deref cmp y.2 = some y.2 :=
    hdict.deref (e := ⟨y.2, ctx⟩) (hperm.mem_iff.2 mem_cons_self)
  have hmodify := TreeHashTable.Indexes.modify hdict hperm
    (fun e => (rfl : ({ e with value := ⟨some g.addr, some y.1⟩ } : LfuEntry P Q K).key = e.key))
  refine ⟨_, ?_, hmodify⟩
  simp only [LfuCache.setFreqNode, hnode, some_bind, hback, hderef]
  rfl

end Dictionary

/-! ## Calls -/

/-- All pointers are right, and the dictionary has the nodes of every key. -/
structure Tracks (cmp : K → K → Ordering) (hash : K → Nat) (c : LfuCache P Q K)
    (gs : List (FreqGroup P Q K)) : Prop where
  view : c.View gs
  dict : c.Indexed cmp hash (allEntries gs)

section Calls

variable {cmp : K → K → Ordering} {hash : K → Nat} {p a : P} {f : Nat} {ys zs : List (Q × K)}
  {y : Q × K}

theorem size_eq (h : c.Tracks cmp hash gs) : c.dict.size = (allEntries gs).length :=
  Tables.Indexes.size h.dict

theorem victim_spec (h : c.Tracks cmp hash (⟨p, f, y :: ys⟩ :: behind)) :
    c.victim = some (some y.2) := by
  have hsize : c.dict.size ≠ 0 := by
    rw [size_eq h]
    simp [allEntries, entries]
  have hfront : c.freqList.front c.fnodes = some ⟨f, listOf (y :: ys)⟩ := h.view.freqs.front
  have hitem : (listOf (y :: ys)).front c.inodes = some y.2 := (h.view.items _ mem_cons_self).front
  simp only [victim, if_neg hsize, hfront, some_bind, hitem]
  rfl

variable [Std.TransCmp cmp]

theorem search_spec [DecidableEq K] [Std.LawfulEqCmp cmp]
    (h : c.Tracks cmp hash gs) (k : K) : (c.search cmp hash k).1 =
        (KeyedStore.ofList LfuEntry.key (allEntries gs) k).map LfuEntry.key ∧
      (c.search cmp hash k).2.Tracks cmp hash gs := by
  have hfind := TreeHashTable.Indexes.find h.dict k
  exact ⟨congrArg (Option.map LfuEntry.key) hfind.1, h.view.withDict _, hfind.2⟩

variable [DecidableEq P] [DecidableEq Q]

theorem View.pushBack (h : c.View (before ++ g :: behind)) (y : Q × K)
    (hm : ∀ b ≠ y.1, m.node b = c.inodes.node b) (hy : m.node y.1 = some ⟨none, none, y.2⟩)
    (hfresh : ∀ g' ∈ before ++ g :: behind, y.1 ∉ addrs g'.items)
    (op : Blist Q → BNodes Q K → Option (Blist Q × BNodes Q K))
    (hop : ∀ items, op items c.inodes = items.pushBack m y.1) :
    ∃ c', c.onItems op g.addr = some c' ∧ c'.dict = c.dict ∧
      c'.View (before ++ ⟨g.addr, g.freq, g.items ++ [y]⟩ :: behind) := by
  have hg := hfresh g (mem_append_right _ mem_cons_self)
  have hholds : (listOf g.items).Holds m g.items := h.mid_items.congr (by grind)
  have hdisjoint := h.mid_disjoint
  obtain ⟨l, m', hrun, hlist, hframe⟩ := hholds.pushBack hy hg
  have hrest : ∀ b ∉ y.1 :: addrs g.items, m'.node b = c.inodes.node b := by grind
  obtain ⟨fnodes, hrun', hview⟩ := h.onItems op (hop _ ▸ hrun) hlist hrest (by grind) (by grind)
  exact ⟨_, hrun', rfl, hview⟩

theorem delItem_spec (h : c.View (before ++ ⟨p, f, ys ++ y :: zs⟩ :: behind)) :
    ∃ c1 c2, c.onItems (fun items m => items.erase m (some y.1)) p = some c1 ∧
      c1.eraseIfEmpty p = some c2 ∧ c2.dict = c.dict ∧
      c2.View (before ++ keep ⟨p, f, ys ++ zs⟩ ++ behind) := by
  obtain ⟨l, m, herase, hlist, hframe⟩ := h.mid_items.erase
  obtain ⟨fnodes, hrun, hview⟩ := h.onItems (fun items m => items.erase m (some y.1)) herase hlist
    hframe h.mid_disjoint (addrs_subset ys zs y)
  obtain ⟨c2, herase', -, hdict, hview'⟩ := hview.eraseIfEmpty
  exact ⟨_, c2, hrun, herase', hdict, hview'⟩

theorem clear_rounds {q : Option P} {fuel : Nat}
    (hheader : c.freqList.header = headPtr (gs.map node) none)
    (hsegment : c.fnodes.Segment q (gs.map node) none)
    (hnodup : (addrs (gs.map node)).Nodup)
    (hitems : ∀ g ∈ gs, (listOf g.items).Holds c.inodes g.items)
    (hdisjoint : gs.Pairwise fun g g' => ∀ q ∈ addrs g.items, q ∉ addrs g'.items)
    (hfuel : gs.length ≤ fuel) :
    ∃ c', whileDo (fun c => c.freqList.header.isSome) clearRound fuel c = some c' ∧
      c'.freqList.header = none ∧ c'.dict = c.dict := by
  induction gs generalizing c q fuel with
  | nil => exact ⟨c, whileDo_exit (by rw [hheader]; rfl) fuel, hheader, rfl⟩
  | cons g gs ih =>
    obtain ⟨fuel, rfl⟩ : ∃ n, fuel = n + 1 :=
      Nat.exists_eq_add_one_of_ne_zero (Nat.ne_zero_of_lt hfuel)
    obtain ⟨l, m, hclear, -, hframe⟩ := (hitems g mem_cons_self).clear (Nat.le_refl _)
    have hx := nodup_cons.1 hnodup
    have hpairs := pairwise_cons.1 hdisjoint
    have hfirst : c.fnodes.node g.addr =
        some ⟨q, headPtr (gs.map node) none, g.freq, listOf g.items⟩ := hsegment.1
    obtain ⟨c', hrun, hnone, hdict⟩ := @ih
      ⟨⟨headPtr (gs.map node) none, c.freqList.count⟩, c.fnodes.write g.addr none, m,
        c.dict⟩ _ fuel rfl (hsegment.2.update_other hx.1 none) hx.2
      (fun g' hg' => (hitems g' (mem_cons_of_mem _ hg')).congr fun b hb =>
        hframe b fun hmem => hpairs.1 g' hg' b hmem hb)
      hpairs.2 (Nat.le_of_succ_le_succ hfuel)
    refine ⟨c', ?_, hnone, hdict⟩
    have hround : clearRound c = some (.next
        ⟨⟨headPtr (gs.map node) none, c.freqList.count⟩, c.fnodes.write g.addr none, m,
          c.dict⟩) := by
      replace hheader : c.freqList.header = some g.addr := hheader
      replace hclear : (listOf g.items).clear c.inodes (listOf g.items).count = _ := hclear
      simp only [clearRound, hheader, hfirst, hclear, dropNode_of_some hfirst, some_bind]
      rfl
    rw [whileDo_next (by rw [hheader]; rfl) hround]
    exact hrun

theorem clear_spec (h : c.Tracks cmp hash gs) :
    ∃ c', c.clear cmp = some c' ∧ c'.Tracks cmp hash [] := by
  have hview := h.view.withDict (TreeHashTable.clear cmp LfuEntry.key c.dict)
  have hcount : gs.length ≤ c.freqList.count := by
    rw [h.view.freqs.count, length_map]
  obtain ⟨c', hrun, hnone, hdict⟩ := clear_rounds hview.freqs.header hview.freqs.segment
    hview.freqs.nodup hview.items hview.disjoint hcount
  refine ⟨⟨⟨none, 0⟩, c'.fnodes, c'.inodes, c'.dict⟩, ?_, ⟨holds_new _, ?_, .nil⟩, ?_⟩
  · simp only [clear, hrun, some_bind, hnone]
    rfl
  · intro g hg
    cases hg
  · rw [Indexed, hdict]
    exact TreeHashTable.Indexes.clear h.dict

variable [DecidableEq K]

/-- A new key goes behind the keys that were used once. -/
theorem addEntry_spec {b : Q} {k : K} (h : c.View gs)
    (hdict : c.Indexed cmp hash (⟨k, none, none⟩ :: allEntries gs))
    (ha : c.fnodes.node a = none) (hb : c.inodes.node b = none) :
    ∃ c', c.addEntry cmp hash a b k = some c' ∧
      c'.Tracks cmp hash (appendAt a 1 (b, k) gs) := by
  obtain ⟨c1, next, rest, hensure, hview1, hinodes, hdict1, hprepared⟩ := h.ensureFirst ha
  have hheader : c1.freqList.header = some next.addr := hview1.freqs.header
  have hfresh : ∀ g' ∈ next :: rest, b ∉ addrs g'.items := fun g' hg' =>
    (hview1.items g' hg').not_mem (hinodes ▸ hb)
  obtain ⟨c2, hpush, hdict2, hview2⟩ :=
    (show c1.View ([] ++ next :: rest) from hview1).pushBack (b, k)
      (fun q hq => node_write_of_ne hq _) (node_write_self _ _) hfresh
      (fun items m => items.pushBack (m.createNode b k) b) (fun _ => rfl)
  have hindexed : c2.Indexed cmp hash (⟨k, none, none⟩ :: allEntries gs) := by
    rw [Indexed, hdict2, hdict1]
    exact hdict
  obtain ⟨dict, hset, hfinal⟩ := hview2.setFreqNode hindexed (.refl _)
  refine ⟨{ c2 with dict := dict }, ?_, ?_, ?_⟩
  · simp only [addEntry, hensure, some_bind, hheader, hpush]
    exact hset
  · rw [hprepared.append]
    exact hview2.withDict dict
  · rw [hprepared.append]
    refine Tables.Indexes.perm hfinal ?_
    rw [← hprepared.entries]
    have hperm := allEntries_perm [] rest next.addr next.freq next.items [] (b, k)
    rwa [append_nil] at hperm

/-- A key that is used goes from its group to the one of the next frequency. -/
theorem promote_spec (h : c.Tracks cmp hash (before ++ ⟨p, f, ys ++ y :: zs⟩ :: behind))
    (ha : c.fnodes.node a = none) :
    ∃ c', c.promote cmp hash a y.2 ⟨some p, some y.1⟩ = some c' ∧
      c'.Tracks cmp hash (before ++ keep ⟨p, f, ys ++ zs⟩ ++ appendAt a (f + 1) y behind) := by
  obtain ⟨c1, next, rest, hensure, hview1, hinodes, hdict1, hprepared⟩ := h.view.ensureNext ha
  obtain ⟨prev, hnode1⟩ := hview1.node
  obtain ⟨l, m, hextract, hlist, hy, hframe⟩ := hview1.mid_items.extract
  obtain ⟨fnodes2, hrun2, hview2⟩ := hview1.onItems (fun items m => items.extract m (some y.1))
    hextract hlist hframe hview1.mid_disjoint (addrs_subset ys zs y)
  -- the item goes from its group, which may be empty now, to the next one
  have hsplit : ∀ next' : FreqGroup P Q K, before ++ ⟨p, f, ys ++ zs⟩ :: next' :: rest =
      (before ++ [⟨p, f, ys ++ zs⟩]) ++ next' :: rest := by simp
  have hfresh : ∀ g' ∈ before ++ ⟨p, f, ys ++ zs⟩ :: next :: rest, y.1 ∉ addrs g'.items := by
    have hown := not_mem_addrs_of_nodup hview1.mid_items.nodup
    have hothers := hview1.mid_disjoint
    grind
  rw [hsplit] at hview2 hfresh
  obtain ⟨c3, hrun3, hdict3, hview3⟩ := hview2.pushBack y (fun _ _ => rfl) hy hfresh
    (fun items m => items.pushBack m y.1) (fun _ => rfl)
  have hindexed : c3.Indexed cmp hash (allEntries (before ++ ⟨p, f, ys ++ y :: zs⟩ :: behind)) := by
    rw [Indexed, hdict3]
    exact hdict1 ▸ h.dict
  obtain ⟨dict, hset, hfinal⟩ := hview3.setFreqNode hindexed (allEntries_perm _ _ _ _ _ _ _)
  rw [← hsplit] at hview3
  obtain ⟨prev3, hnode3⟩ := hview3.node
  obtain ⟨c5, herase, -, hdict5, hview5⟩ := (hview3.withDict dict).eraseIfEmpty
  refine ⟨c5, ?_, ?_, ?_⟩
  · replace hensure : c.ensureNext p a = some c1 := hensure
    replace hnode1 : c1.fnodes.node p = some ⟨prev, some next.addr, f, _⟩ := hnode1
    replace hnode3 : c3.fnodes.node p = some ⟨prev3, some next.addr, f, _⟩ := hnode3
    simp only [promote, some_bind, hensure, hnode1, hrun2, hrun3, hnode3, hset]
    exact herase
  · rw [hprepared.append]
    exact hview5
  · rw [hprepared.append, Indexed, hdict5, allEntries_keep]
    refine Tables.Indexes.perm hfinal ?_
    rw [hsplit]
    have hperm := allEntries_perm (before ++ [⟨p, f, ys ++ zs⟩]) rest next.addr next.freq
      next.items [] y
    rw [append_nil] at hperm
    refine hperm.trans (.cons _ (.of_eq ?_))
    rw [allEntries_append, show allEntries (⟨next.addr, next.freq, next.items⟩ :: rest) = _ from
      hprepared.entries, ← allEntries_append, append_assoc]
    rfl

variable [Std.LawfulEqCmp cmp]

theorem delEntry_spec (h : c.Tracks cmp hash (before ++ ⟨p, f, ys ++ y :: zs⟩ :: behind)) :
    ∃ c', c.delEntry cmp hash y.2 = some (true, c') ∧
      c'.Tracks cmp hash (before ++ keep ⟨p, f, ys ++ zs⟩ ++ behind) := by
  obtain ⟨n, dict, hextract, hvalue, hdict⟩ :=
    TreeHashTable.Indexes.extract h.dict (allEntries_perm before behind p f ys zs y)
  obtain ⟨c1, c2, hrun, herase, hdict2, hview⟩ := delItem_spec (h.view.withDict dict)
  refine ⟨c2, ?_, hview, ?_⟩
  · replace hextract : TreeHashTable.extract cmp LfuEntry.key hash y.2 c.dict = _ := hextract
    simp only [delEntry, hextract, hvalue, some_bind, hrun, herase]
    rfl
  · rw [Indexed, hdict2, allEntries_keep]
    exact hdict

theorem delEntry_none {k : K} (h : c.Tracks cmp hash gs) (hk : ∀ e ∈ allEntries gs, e.key ≠ k) :
    ∃ c', c.delEntry cmp hash k = some (false, c') ∧ c'.Tracks cmp hash gs := by
  obtain ⟨dict, hextract, hdict⟩ := TreeHashTable.Indexes.extract_none h.dict hk
  refine ⟨{ c with dict := dict }, ?_, h.view.withDict dict, hdict⟩
  rw [delEntry, hextract]

/-- The victim is the first key of the lowest frequency. -/
theorem delVictim_spec (h : c.Tracks cmp hash (⟨p, f, y :: ys⟩ :: behind)) :
    ∃ c', c.delVictim cmp hash = some c' ∧ c'.Tracks cmp hash (keep ⟨p, f, ys⟩ ++ behind) := by
  have hsize : c.dict.size ≠ 0 := by
    rw [size_eq h]
    simp [allEntries, entries]
  have hview : c.View ([] ++ ⟨p, f, y :: ys⟩ :: behind) := h.view
  obtain ⟨prev, hnode⟩ := hview.node
  have hheader : c.freqList.header = some p := hview.freqs.header
  have hitem : (listOf (y :: ys)).front c.inodes = some y.2 := hview.mid_items.front
  obtain ⟨l, m, hpop, hlist, hframe⟩ := hview.mid_items.popFront
  obtain ⟨fnodes, hrun, hview1⟩ := hview.onItems popFront hpop hlist hframe
    hview.mid_disjoint (addrs_subset [] ys y)
  obtain ⟨c2, hpop2, -, hdict2, hview2⟩ := View.popIfEmpty hview1
  have hperm := allEntries_perm [] behind p f [] ys y
  have hindexed : c2.Indexed cmp hash (allEntries (⟨p, f, y :: ys⟩ :: behind)) := by
    rw [Indexed, hdict2]
    exact h.dict
  have hderef := hindexed.deref (hperm.mem_iff.2 mem_cons_self)
  refine ⟨{ c2 with dict := (TreeHashTable.erase cmp LfuEntry.key hash y.2 c2.dict).2 }, ?_,
    hview2.withDict _, ?_⟩
  · replace hnode : c.fnodes.node p = some ⟨prev, _, f, listOf (y :: ys)⟩ := hnode
    simp only [delVictim, if_neg hsize, hheader, hnode, hitem, hrun, hpop2, hderef, some_bind]
    rfl
  · have hkeep := allEntries_keep [] behind (⟨p, f, ys⟩ : FreqGroup P Q K)
    rw [nil_append, nil_append] at hkeep
    rw [hkeep]
    exact TreeHashTable.Indexes.erase hindexed hperm

end Calls

end LfuCache

end Mmkv.Replacement
