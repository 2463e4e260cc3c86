import Mathlib.Data.List.TakeWhile
import Mmkv.DatabaseStates

/-!
# Iterators of the two tables

The iterators of `TreeHashTable` and `HashTable` go over the first table bucket by bucket and
then over the second one.  What an iterator has before it is a list, `remaining`; every
increment takes its first element away, so that a loop over a table which is not changed sees
the entries one after the other.  The set operations are such loops as long as their two
operands are different sets.
-/

namespace Mmkv

open List HashTable SetHeap TreeHashTable

/-! ## Iterators over any kind of bucket -/

namespace Tables

abbrev Iterator (C : Type) : Type :=
  HashTable.Iterator C

section Model

variable {B C : Type} (front : B → Option C) (empty : B)

def frontFrom (t : Table B) (j : Nat) : Option (Nat × C) :=
  (range' j (t.size - j)).findSome? fun i =>
    (front (t.bucket empty i)).map fun c => (i, c)

/-- The constructor: the first node from bucket `j` of table `i` on. -/
def scan (t : Tables B) (i j : Nat) : Iterator C :=
  match frontFrom front empty (if i = 0 then t.table1 else t.table2) j with
  | some (j, c) => ⟨i, j, some c⟩
  | none =>
    match if i = 0 then frontFrom front empty t.table2 0 else none with
    | some (j, c) => ⟨1, j, some c⟩
    | none => ⟨1, 0, none⟩

def increment (next : C → Option C) (t : Tables B) (it : Iterator C) : Iterator C :=
  match it.slot with
  | none => it
  | some c =>
    match next c with
    | some c => { it with slot := some c }
    | none => scan front empty t it.tableIndex (it.bucketIndex + 1)

/-- A loop from an iterator to the end that lists the values. -/
def iterate {I V : Type} (next : I → I) (value : I → Option V) : Nat → I → Option (List V)
  | 0, _ => none
  | fuel + 1, it =>
    match value it with
    | none => some []
    | some v => (iterate next value fuel (next it)).map (v :: ·)

end Model

variable {V B C : Type}

/-- The values from bucket `j` of table `i` on. -/
def valuesFrom (values : B → List V) (t : Tables B) (i j : Nat) : List V :=
  if i = 0 then (t.table1.table.drop j).flatMap values ++ t.table2.table.flatMap values
  else (t.table2.table.drop j).flatMap values

/-- A cursor in a bucket has a value and the values behind it. -/
structure Cursors (values : B → List V) (front : B → Option C) (next : C → Option C)
    (value : C → V) (behind : C → List V) (t : Tables B) : Prop where
  front : ∀ b ∈ t.table1.table ++ t.table2.table,
    values b = (front b).elim [] fun c => value c :: behind c
  next : ∀ c, behind c = (next c).elim [] fun c => value c :: behind c

def remaining (values : B → List V) (value : C → V) (behind : C → List V) (t : Tables B)
    (it : Iterator C) : List V :=
  it.slot.elim [] fun c =>
    value c :: (behind c ++ valuesFrom values t it.tableIndex (it.bucketIndex + 1))

variable {values : B → List V} {front : B → Option C} (empty : B) {next : C → Option C}
  {value : C → V} {behind : C → List V} {t : Tables B}

theorem frontFrom_spec {t : Table B}
    (hfront : ∀ b ∈ t.table, values b = (front b).elim [] fun c => value c :: behind c)
    (j : Nat) :
    (t.table.drop j).flatMap values = (frontFrom front empty t j).elim [] fun p =>
      value p.2 :: (behind p.2 ++ (t.table.drop (p.1 + 1)).flatMap values) := by
  unfold frontFrom
  generalize hn : t.size - j = n
  induction n generalizing j with
  | zero =>
    have hdrop : t.table.drop j = [] := drop_eq_nil_of_le (Nat.sub_eq_zero_iff_le.1 hn)
    simp [hdrop]
  | succ n ih =>
    have hlt : j < t.size := by omega
    obtain ⟨hj, hget⟩ := List.getElem_of_getElem? (Table.getElem?_bucket empty hlt)
    have hdrop : t.table.drop j = t.bucket empty j :: t.table.drop (j + 1) := by
      rw [drop_eq_getElem_cons hj, hget]
    rw [hdrop, flatMap_cons, hfront _ (Table.bucket_mem empty hlt), range'_succ,
      List.findSome?_cons]
    cases front (t.bucket empty j) with
    | none => exact ih (j + 1) (by omega)
    | some c => rfl

namespace Cursors

variable (h : Cursors values front next value behind t) {it : Iterator C}

include h

theorem remaining_scan (i j : Nat) :
    remaining values value behind t (scan front empty t i j) = valuesFrom values t i j := by
  have hfirst := frontFrom_spec (t := t.table1) empty fun b hb => h.front b (mem_append_left _ hb)
  have hsecond := frontFrom_spec (t := t.table2) empty fun b hb => h.front b (mem_append_right _ hb)
  unfold valuesFrom scan
  by_cases hi : i = 0
  · subst hi
    have hrest := hsecond 0
    rw [drop_zero] at hrest
    rw [if_pos rfl, if_pos rfl, if_pos rfl, hfirst j]
    cases frontFrom front empty t.table1 j with
    | some p => simp [remaining, valuesFrom]
    | none =>
      rw [hrest]
      cases frontFrom front empty t.table2 0 with
      | some p => simp [remaining, valuesFrom]
      | none => rfl
  · rw [if_neg hi, if_neg hi, if_neg hi, hsecond j]
    cases frontFrom front empty t.table2 j with
    | some p => simp [remaining, valuesFrom, hi]
    | none => rfl

/-- An increment leaves what is behind the node. -/
theorem remaining_increment {c : C} (hslot : it.slot = some c) :
    remaining values value behind t it =
      value c :: remaining values value behind t (increment front empty next t it) := by
  have hnext := h.next c
  unfold increment
  rw [remaining, hslot]
  dsimp only [Option.elim_some]
  rw [hnext]
  cases next c with
  | none => rw [h.remaining_scan]; rfl
  | some c' => simp [remaining]

theorem iterate_eq {fuel : Nat} (hfuel : (remaining values value behind t it).length < fuel) :
    iterate (increment front empty next t) (fun it => it.slot.map value) fuel it =
      some (remaining values value behind t it) := by
  induction fuel generalizing it with
  | zero => omega
  | succ fuel ih =>
    cases hslot : it.slot with
    | none => simp [iterate, hslot, remaining]
    | some c =>
      rw [h.remaining_increment empty hslot] at hfuel ⊢
      simp [iterate, hslot, ih (Nat.lt_of_succ_lt_succ hfuel)]

end Cursors

end Tables

/-! ## Trees -/

namespace AvlTree

variable {V : Type}

/-- A node of a tree with the way to its root. -/
structure Place (V : Type) where
  left : AvlTree V
  value : V
  height : Nat
  right : AvlTree V
  path : List (Crumb V)

def firstNode : AvlTree V → List (Crumb V) → Option (Place V)
  | nil, _ => none
  | node nil value h right, path => some ⟨nil, value, h, right, path⟩
  | node left value h right, path => firstNode left (.inLeft value h right :: path)

/-- The loop of `_GetNextNode` to the first parent that is entered from its left. -/
def climb : AvlTree V → List (Crumb V) → Option (Place V)
  | _, [] => none
  | t, .inLeft value h right :: path => some ⟨t, value, h, right, path⟩
  | t, .inRight left value h :: path => climb (node left value h t) path

def getNextNode (p : Place V) : Option (Place V) :=
  match p.right with
  | nil => climb (node p.left p.value p.height nil) p.path
  | right => firstNode right (.inRight p.left p.value p.height :: p.path)

def Place.behind (p : Place V) : List V :=
  p.right.toList ++ after p.path

theorem firstNode_spec {t : AvlTree V} (ht : t ≠ nil) (path : List (Crumb V)) :
    ((firstNode t path).elim [] fun p => p.value :: p.behind) = t.toList ++ after path := by
  fun_induction firstNode t path with
  | case1 => exact absurd rfl ht
  | case2 => rfl
  | case3 left value h right path hleft ih =>
    rw [ih (by simpa using hleft)]
    simp [toList, after]

theorem firstNode_values (t : AvlTree V) :
    ((t.firstNode []).elim [] fun p => p.value :: p.behind) = t.toList := by
  cases t with
  | nil => rfl
  | node left value h right => rw [firstNode_spec (by simp), after, append_nil]

theorem climb_spec (t : AvlTree V) (path : List (Crumb V)) :
    ((climb t path).elim [] fun p => p.value :: p.behind) = after path := by
  fun_induction climb t path with
  | case1 => rfl
  | case2 => rfl
  | case3 t left value h path ih => exact ih

theorem getNextNode_spec (p : Place V) :
    p.behind = (getNextNode p).elim [] fun p => p.value :: p.behind := by
  unfold getNextNode
  cases hright : p.right with
  | nil => rw [climb_spec, Place.behind, hright]; rfl
  | node left value h right =>
    rw [firstNode_spec (by simp), Place.behind, hright]
    rfl

end AvlTree

namespace TreeHashTable

variable {V : Type}

def begin (t : Tables (AvlTree V)) : Tables.Iterator (AvlTree.Place V) :=
  Tables.scan (fun b => b.firstNode []) .nil t 0 0

def increment (t : Tables (AvlTree V)) :
    Tables.Iterator (AvlTree.Place V) → Tables.Iterator (AvlTree.Place V) :=
  Tables.increment (fun b => b.firstNode []) .nil AvlTree.getNextNode t

theorem cursors (t : Tables (AvlTree V)) :
    Tables.Cursors AvlTree.toList (fun b => b.firstNode []) AvlTree.getNextNode
      AvlTree.Place.value AvlTree.Place.behind t where
  front b _ := (AvlTree.firstNode_values b).symm
  next := AvlTree.getNextNode_spec

end TreeHashTable

/-! ## Lists -/

namespace HashTable

variable {V : Type}

theorem frontFrom_eq (t : Table (List V)) (j : Nat) :
    frontFrom t j = Tables.frontFrom head? [] t j := by
  unfold frontFrom Tables.frontFrom firstBucket
  generalize range' j (t.size - j) = l
  induction l with
  | nil => rfl
  | cons i l ih =>
    cases hb : t.bucket [] i with
    | nil => simpa [hb] using ih
    | cons v b => simp [hb]

variable (t : Tables (List V))

theorem scan_eq (i j : Nat) : scan t i j = Tables.scan head? [] t i j := by
  simp only [scan, frontFrom_eq]
  rfl

variable [DecidableEq V]

theorem increment_eq : increment t = Tables.increment head? []
      (fun v => (t.table1.table ++ t.table2.table).findSome? (nextInBucket v)) t := by
  unfold increment
  simp only [scan_eq]
  rfl

/-- The values behind `v` in its bucket. -/
def behind (bs : List (List V)) (v : V) : List V :=
  bs.flatMap fun b => (b.dropWhile fun w => decide (w ≠ v)).tail

theorem behind_of_not_mem {bs : List (List V)} {v : V} (hv : ∀ b ∈ bs, v ∉ b) :
    behind bs v = [] ∧ bs.findSome? (nextInBucket v) = none := by
  have hnext : ∀ b : List V, v ∉ b → nextInBucket v b = none := by
    intro b hb
    fun_induction nextInBucket v b with
    | case1 => rfl
    | case2 => rfl
    | case3 => simp at hb
    | case4 a b l ha ih => exact ih fun h => hb (mem_cons_of_mem _ h)
  constructor
  · refine flatMap_eq_nil_iff.2 fun b hb => ?_
    have hne : ∀ w ∈ b, decide (w ≠ v) = true := fun w hw =>
      decide_eq_true fun heq => hv b hb (heq ▸ hw)
    rw [dropWhile_eq_nil_iff.2 hne]
    rfl
  · grind

theorem nextInBucket_append {v : V} {l1 : List V} (hl1 : v ∉ l1) (l2 : List V) :
    nextInBucket v (l1 ++ v :: l2) = l2.head? := by
  induction l1 with
  | nil => cases l2 <;> simp [nextInBucket]
  | cons w l1 ih =>
    rw [mem_cons, not_or] at hl1
    have hstep : nextInBucket v (w :: (l1 ++ v :: l2)) = nextInBucket v (l1 ++ v :: l2) := by
      cases hrest : l1 ++ v :: l2 with
      | nil => simp at hrest
      | cons x l => rw [nextInBucket, if_neg (Ne.symm hl1.1)]
    exact hstep.trans (ih hl1.2)

theorem behind_of_split {bs bs1 bs2 : List (List V)} {l1 l2 : List V} {v : V}
    (hbs : bs = bs1 ++ (l1 ++ v :: l2) :: bs2) (hnodup : bs.flatten.Nodup) :
    behind bs v = l2 ∧ bs.findSome? (nextInBucket v) = l2.head? := by
  have hsplit : bs.flatten = (bs1.flatten ++ l1) ++ v :: (l2 ++ bs2.flatten) := by
    simp [hbs]
  rw [hsplit, nodup_middle, nodup_cons] at hnodup
  have hother : ∀ b, b ∈ bs1 ∨ b ∈ bs2 → v ∉ b := fun b hb hv => hnodup.1 <| by
    rcases hb with hb | hb
    · simp [mem_flatten_of_mem hb hv]
    · simp [mem_flatten_of_mem hb hv]
  have hl1 : v ∉ l1 := fun hv => hnodup.1 (by simp [hv])
  obtain ⟨hbehind1, hnext1⟩ := behind_of_not_mem fun b hb => hother b (.inl hb)
  obtain ⟨hbehind2, hnext2⟩ := behind_of_not_mem fun b hb => hother b (.inr hb)
  have hne : ∀ w ∈ l1, decide (w ≠ v) = true := fun w hw =>
    decide_eq_true fun heq => hl1 (heq ▸ hw)
  have hdrop : ((l1 ++ v :: l2).dropWhile fun w => decide (w ≠ v)).tail = l2 := by
    rw [dropWhile_append_of_pos hne]
    simp
  unfold behind at hbehind1 hbehind2 ⊢
  subst hbs
  constructor
  · grind
  · rw [findSome?_append, findSome?_cons, hnext1, hnext2, nextInBucket_append hl1]
    cases l2 <;> rfl

omit [DecidableEq V] in
theorem entries_eq_flatten : entries t = (t.table1.table ++ t.table2.table).flatten := by
  simp [entries, Tables.entries, kind, flatMap_id]

theorem cursors {t : Tables (List V)} (hnodup : (entries t).Nodup) : Tables.Cursors id head?
      (fun v => (t.table1.table ++ t.table2.table).findSome? (nextInBucket v)) id
      (behind (t.table1.table ++ t.table2.table)) t := by
  rw [entries_eq_flatten] at hnodup
  generalize hbs : t.table1.table ++ t.table2.table = bs at hnodup
  refine ⟨fun b hb => ?_, fun v => ?_⟩
  · rw [hbs] at hb
    obtain ⟨bs1, bs2, rfl⟩ := append_of_mem hb
    cases b with
    | nil => rfl
    | cons v l =>
      have hbehind := (@behind_of_split _ _ _ bs1 bs2 [] l v rfl hnodup).1
      exact congrArg (v :: ·) hbehind.symm
  · by_cases hv : ∃ b ∈ bs, v ∈ b
    · obtain ⟨b, hb, hv⟩ := hv
      obtain ⟨l1, l2, rfl⟩ := append_of_mem hv
      obtain ⟨bs1, bs2, rfl⟩ := append_of_mem hb
      obtain ⟨hbehind, hnext⟩ := behind_of_split rfl hnodup
      rw [hbehind, hnext]
      cases l2 with
      | nil => rfl
      | cons w l2 =>
        have hassoc : l1 ++ v :: w :: l2 = (l1 ++ [v]) ++ w :: l2 := by simp
        rw [hassoc] at hnodup ⊢
        rw [head?_cons, Option.elim_some, (behind_of_split rfl hnodup).1]
        rfl
    · simp only [not_exists, not_and] at hv
      obtain ⟨hbehind, hnext⟩ := behind_of_not_mem hv
      rw [hbehind, hnext]
      rfl

def rest (t : Tables (List V)) (it : Iterator V) : List V :=
  Tables.remaining id id (behind (t.table1.table ++ t.table2.table)) t it

variable {t : Tables (List V)} {it : Iterator V}

theorem rest_begin (hnodup : (entries t).Nodup) : rest t (begin t) = entries t := by
  rw [rest, begin, scan_eq, (cursors hnodup).remaining_scan]
  rfl

theorem rest_increment (hnodup : (entries t).Nodup) {v : V}
    (hslot : it.slot = some v) : rest t it = v :: rest t (increment t it) := by
  rw [rest, (cursors hnodup).remaining_increment [] hslot, ← increment_eq]
  rfl

/-- A loop whose body does not change its table sees the entries in their order. -/
theorem forEach_eq {H : Type} {table : H → Tables (List V)} {body : V → H → H} {P : H → Prop}
    (hnodup : (entries t).Nodup) (htable : ∀ h, P h → table h = t) (fuel : Nat)
    (hbody : ∀ v ∈ rest t it, ∀ h, P h → P (body v h)) {h : H} (hP : P h) :
    forEach table body fuel it h = if (rest t it).length < fuel then
      some ((rest t it).foldl (fun h v => body v h) h) else none := by
  induction fuel generalizing it h with
  | zero => rfl
  | succ fuel ih =>
    unfold forEach
    cases hslot : it.slot with
    | none => simp [rest, Tables.remaining, hslot]
    | some v =>
      rw [rest_increment hnodup hslot] at hbody ⊢
      grind

end HashTable

theorem HashDict.nodup_entries {K V : Type} {key : V → K} {hash : K → Nat}
    (d : HashDict key hash) : d.entries.Nodup :=
  List.Nodup.of_map key (keys_nodup d.wf)

variable {hash : Str → Nat}

/-- From begin to end an iterator lists the entries of either table, whatever their rehash has
reached, and no key is listed twice. -/
theorem iterators_complete {T W K V X : Type} [DecidableEq V] (cmp : T → T → Ordering)
    (tkey : W → T) {key : V → K} {khash : K → Nat} {hash : Str → Nat} (t : Tables (AvlTree W))
    (d : HashDict key khash) (dict : Dict hash X) (n : Nat) :
    Tables.iterate (increment t) (fun it => it.slot.map AvlTree.Place.value)
        ((entries cmp tkey t).length + 1 + n) (begin t) =
      some (entries cmp tkey t) ∧
    Tables.iterate (increment d.tables) HashTable.Iterator.slot
        (d.entries.length + 1 + n) (begin d.tables) = some d.entries ∧
    (d.entries.map key).Nodup ∧ (dict.entries.map KeyValue.key).Nodup := by
  refine ⟨?_, ?_, keys_nodup d.wf, dict.keys_nodup⟩
  · have hcursors := cursors t
    have hbegin : Tables.remaining _ _ _ t (begin t) =
        entries cmp tkey t := hcursors.remaining_scan .nil 0 0
    rw [← hbegin]
    refine hcursors.iterate_eq .nil ?_
    omega
  · have hcursors := cursors d.nodup_entries
    have hbegin : rest d.tables (begin d.tables) = d.entries :=
      rest_begin d.nodup_entries
    have hslot : (HashTable.Iterator.slot : HashTable.Iterator V → Option V) =
        fun it => it.slot.map id := by simp
    rw [hslot, increment_eq, ← hbegin]
    refine hcursors.iterate_eq [] ?_
    exact Nat.lt_of_lt_of_le (Nat.lt_succ_self _) (Nat.le_add_right _ n)

/-! ## Set operations on two sets -/

namespace SetHeap

variable {h : SetHeap hash} {P : SetHeap hash → Prop} {k : Str}

theorem walk_eq_ite {body : Str → SetHeap hash → SetHeap hash}
    (htables : ∀ h', P h' → (h'.sets k).tables = (h.sets k).tables)
    (hbody : ∀ m ∈ (h.sets k).entries, ∀ h', P h' → P (body m h')) (hP : P h) (fuel : Nat) :
    h.walk k body fuel = if (h.sets k).entries.length < fuel then
      some ((h.sets k).entries.foldl (fun h m => body m h) h) else none := by
  have hbegin : rest _ (begin (h.sets k).tables) = (h.sets k).entries :=
    rest_begin (h.sets k).nodup_entries
  rw [← hbegin] at hbody ⊢
  exact forEach_eq (h.sets k).nodup_entries htables fuel hbody hP

theorem walk_eq {body : Str → SetHeap hash → SetHeap hash}
    (hkeep : ∀ m h', (h'.sets k).tables = (h.sets k).tables →
      ((body m h').sets k).tables = (h.sets k).tables) {fuel : Nat}
    (hfuel : (h.sets k).entries.length < fuel) :
    h.walk k body fuel = some ((h.sets k).entries.foldl (fun h m => body m h) h) := by
  rw [walk_eq_ite (fun _ htables => htables) (fun m _ h' => hkeep m h') rfl, if_pos hfuel]

/-- The members so far, and the same sets. -/
structure Collected (h : SetHeap hash) (l : List Str) (h' : SetHeap hash) : Prop where
  members : h'.members = h.members ++ l
  same : SameSets h h'

theorem Collected.trans {h1 h2 h3 : SetHeap hash} {l1 l2 : List Str}
    (h : Collected h1 l1 h2) (h' : Collected h2 l2 h3) : Collected h1 (l1 ++ l2) h3 :=
  ⟨by rw [h'.members, h.members, append_assoc], fun k => (h.same k).trans (h'.same k)⟩

theorem foldl_collect (l : List Str) (h : SetHeap hash) :
    l.foldl (fun h m => collect m h) h = { h with members := h.members ++ l } := by
  induction l generalizing h with
  | nil => simp
  | cons m l ih => rw [foldl_cons, ih, collect, append_assoc, singleton_append]

theorem collected_onFound (k : Str) (found : Bool) (m : Str) :
    Collected h (if ((h.sets k).lookup m).isSome = found then [m] else [])
      (h.onFound collect k found m) := by
  have hfind : (h.search k m).1 = ((h.sets k).lookup m).isSome :=
    congrArg Option.isSome (HashDict.find_spec m (h.sets k)).1
  have hsame := search_sameSets k m h
  unfold onFound
  dsimp only
  rw [hfind]
  split
  · exact ⟨rfl, hsame⟩
  · exact ⟨(append_nil _).symm, hsame⟩

/-- Rounds that call back for the members with a property of the sets. -/
theorem collected_foldl {body : Str → SetHeap hash → SetHeap hash} {p : Str → Prop}
    [DecidablePred p]
    (hbody : ∀ m h', SameSets h h' → Collected h' (if p m then [m] else []) (body m h'))
    (l : List Str) {h' : SetHeap hash} (hsame : SameSets h h') :
    Collected h' (l.filter p) (l.foldl (fun h m => body m h) h') := by
  induction l generalizing h' with
  | nil => exact ⟨(append_nil _).symm, fun _ => .refl _⟩
  | cons m l ih =>
    have hstep := hbody m h' hsame
    have hrest := hstep.trans (ih fun k => (hsame k).trans (hstep.same k))
    grind

theorem lookup_isSome_iff (s : StrSet hash) (m : Str) : (s.lookup m).isSome ↔ m ∈ s.entries := by
  constructor
  · intro hm
    obtain ⟨v, hv⟩ := Option.isSome_iff_exists.1 hm
    obtain ⟨hmem, rfl⟩ := s.represents_lookup.eq_some_iff.1 hv
    exact hmem
  · intro hm
    exact Option.isSome_of_mem (s.represents_lookup.eq_some_iff.2 ⟨hm, rfl⟩)

variable {k k' : Str}

theorem sets_onFound (cb : Str → SetHeap hash → SetHeap hash)
    (hcb : ∀ m h, (cb m h).sets k = h.sets k) (hne : k ≠ k') (found : Bool) (m : Str) :
    (h.onFound cb k' found m).sets k = h.sets k := by
  have hsearch : (h.search k' m).2.sets k = h.sets k := Function.update_of_ne hne _ _
  unfold onFound
  grind

/-- Searches in the set of `k'` for members of the set of `k` leave the table of the latter. -/
def Steady (cb : Str → SetHeap hash → SetHeap hash) (k k' : Str) (h : SetHeap hash) : Prop :=
  ∀ found, ∀ m ∈ (h.sets k).entries, ∀ h' : SetHeap hash,
    (h'.sets k).tables = (h.sets k).tables →
      ((h'.onFound cb k' found m).sets k).tables = (h.sets k).tables

theorem steady_of_ne (cb : Str → SetHeap hash → SetHeap hash)
    (hcb : ∀ m h, (cb m h).sets k = h.sets k) (hne : k ≠ k') (h : SetHeap hash) :
    Steady cb k k' h := by
  intro found m _ h' htables
  rw [sets_onFound cb hcb hne]
  exact htables

theorem walk_onFound (hsteady : Steady collect k k' h) (found : Bool) {fuel : Nat}
    (hfuel : (h.sets k).entries.length < fuel) :
    ∃ h' l, h.walk k (onFound collect k' found) fuel = some h' ∧ Collected h l h' ∧ l.Nodup ∧
      ∀ m, m ∈ l ↔ m ∈ (h.sets k).entries ∧ (m ∈ (h.sets k').entries ↔ found) := by
  have hwalk := walk_eq_ite (fun _ htables => htables) (hsteady found) rfl fuel
  rw [if_pos hfuel] at hwalk
  refine ⟨_, _, hwalk, @collected_foldl _ h _ (fun m => ((h.sets k').lookup m).isSome = found) _
      (fun m h' hsame => ?_) _ _ fun _ => .refl _, (h.sets k).nodup_entries.filter _, fun m => ?_⟩
  · have hfound := @collected_onFound _ h' k' found m
    rwa [(hsame k').lookup] at hfound
  · rw [mem_filter, decide_eq_true_eq, Bool.eq_iff_iff, lookup_isSome_iff]

/-- The two loops of a union. -/
theorem union_walks (hsteady : Steady collect k k' h) {fuel : Nat}
    (hfuel : (h.sets k).entries.length < fuel) (hfuel' : (h.sets k').entries.length < fuel) :
    ∃ h' l, ((h.walk k' collect fuel).bind (walk k (onFound collect k' false) fuel)) = some h' ∧
      Collected h l h' ∧ l.Nodup ∧
      ∀ m, m ∈ l ↔ m ∈ (h.sets k).entries ∨ m ∈ (h.sets k').entries := by
  have hfirst := @walk_eq _ h k' collect (fun _ _ htables => htables) fuel hfuel'
  rw [foldl_collect] at hfirst
  obtain ⟨h', l, hrun, hcollected, hnodup, hmem⟩ :=
    @walk_onFound _ { h with members := h.members ++ (h.sets k').entries } k k' hsteady false
      fuel hfuel
  refine ⟨h', (h.sets k').entries ++ l, ?_, ⟨?_, hcollected.same⟩, ?_, fun m => ?_⟩
  · rw [hfirst]
    exact hrun
  · rw [hcollected.members, append_assoc]
  · refine nodup_append.2 ⟨(h.sets k').nodup_entries, hnodup, ?_⟩
    grind
  · grind

theorem lessSet_moreSet (k1 k2 : Str) (h : SetHeap hash) :
    h.lessSet k1 k2 = k1 ∧ h.moreSet k1 k2 = k2 ∨
      h.lessSet k1 k2 = k2 ∧ h.moreSet k1 k2 = k1 := by
  unfold lessSet moreSet
  grind

end SetHeap

/-- What a set operation makes of membership in its operands. -/
def SetOp.Of : SetOp → Prop → Prop → Prop
  | .and, a, b => a ∧ b
  | .or, a, b => a ∨ b
  | .sub, a, b => a ∧ ¬ b

theorem SetOp.eval_collects_of_steady (op : SetOp) {k1 k2 : Str}
    {h : SetHeap hash} (h12 : SetHeap.Steady collect k1 k2 h)
    (h21 : SetHeap.Steady collect k2 k1 h) {fuel : Nat}
    (hfuel1 : (h.sets k1).entries.length < fuel) (hfuel2 : (h.sets k2).entries.length < fuel) :
    ∃ h' l, op.eval collect k1 k2 fuel h = some h' ∧ h'.members = h.members ++ l ∧
      l.Nodup ∧ (∀ m, m ∈ l ↔ op.Of (m ∈ (h.sets k1).entries) (m ∈ (h.sets k2).entries)) ∧
      h.SameSets h' := by
  cases op with
  | and =>
    rw [eval, intersection]
    obtain ⟨hless, hmore⟩ | ⟨hless, hmore⟩ := h.lessSet_moreSet k1 k2
    · obtain ⟨h', l, hrun, hcollected, hnodup, hmem⟩ := walk_onFound h12 true hfuel1
      rw [hless, hmore]
      refine ⟨h', l, hrun, hcollected.members, hnodup, fun m => ?_, hcollected.same⟩
      simp [hmem, Of]
    · obtain ⟨h', l, hrun, hcollected, hnodup, hmem⟩ :=
        walk_onFound h21 true hfuel2
      rw [hless, hmore]
      refine ⟨h', l, hrun, hcollected.members, hnodup, fun m => ?_, hcollected.same⟩
      simp [hmem, Of, and_comm]
  | or =>
    rw [eval, union]
    obtain ⟨hless, hmore⟩ | ⟨hless, hmore⟩ := h.lessSet_moreSet k1 k2
    · obtain ⟨h', l, hrun, hcollected, hnodup, hmem⟩ := union_walks h12 hfuel1 hfuel2
      rw [hless, hmore]
      exact ⟨h', l, hrun, hcollected.members, hnodup, hmem, hcollected.same⟩
    · obtain ⟨h', l, hrun, hcollected, hnodup, hmem⟩ :=
        union_walks h21 hfuel2 hfuel1
      rw [hless, hmore]
      exact ⟨h', l, hrun, hcollected.members, hnodup, fun m => (hmem m).trans or_comm,
        hcollected.same⟩
  | sub =>
    obtain ⟨h', l, hrun, hcollected, hnodup, hmem⟩ := walk_onFound h12 false hfuel1
    refine ⟨h', l, hrun, hcollected.members, hnodup, fun m => ?_, hcollected.same⟩
    simp [hmem, Of]

/-- On different sets a set operation calls back once for each member of the result, whatever
the searches do to the tables, and leaves members and sizes as they were. -/
theorem SetOp.eval_collects (op : SetOp) {k₁ k₂ : Str} (hne : k₁ ≠ k₂)
    (h : SetHeap hash) {fuel : Nat} (hfuel₁ : (h.sets k₁).entries.length < fuel)
    (hfuel₂ : (h.sets k₂).entries.length < fuel) :
    ∃ h' l, op.eval collect k₁ k₂ fuel h = some h' ∧ h'.members = h.members ++ l ∧
      l.Nodup ∧ (∀ m, m ∈ l ↔ op.Of (m ∈ (h.sets k₁).entries) (m ∈ (h.sets k₂).entries)) ∧
      h.SameSets h' :=
  op.eval_collects_of_steady (steady_of_ne .collect (fun _ _ => rfl) hne h)
    (steady_of_ne .collect (fun _ _ => rfl) hne.symm h) hfuel₁ hfuel₂

theorem SetHeap.exists_pair (a b : StrSet hash) :
    ∃ h : SetHeap hash, h.sets [1] = a ∧ h.sets [2] = b ∧ h.members = [] :=
  ⟨⟨Function.update (fun _ => b) [1] a, []⟩, by simp, by simp, rfl⟩

/-- The intersection of `{a, b}` and `{a}`. -/
theorem SetOp.eval_collects_two :
    ∃ (h h' : SetHeap (fun _ => 0)) (l : List Str),
      (h.sets [1]).entries = [[98], [97]] ∧ (h.sets [2]).entries = [[97]] ∧
      SetOp.and.eval collect [1] [2] 3 h = some h' ∧ h'.members = l ∧ l.Nodup ∧
      ∀ m, m ∈ l ↔ m ∈ (h.sets [1]).entries ∧ m ∈ (h.sets [2]).entries := by
  obtain ⟨h, h₁, h₂, hnil⟩ := exists_pair
    (((HashDict.new : StrSet fun _ => 0).insert [97]).2.insert [98]).2
    ((HashDict.new : StrSet fun _ => 0).insert [97]).2
  replace h₁ : (h.sets [1]).entries = [[98], [97]] := (congrArg HashDict.entries h₁).trans rfl
  replace h₂ : (h.sets [2]).entries = [[97]] := (congrArg HashDict.entries h₂).trans rfl
  have hlt₁ : (h.sets [1]).entries.length < 3 := by rw [h₁]; decide
  have hlt₂ : (h.sets [2]).entries.length < 3 := by rw [h₂]; decide
  obtain ⟨h', l, hrun, hmembers, hnodup, hmem, -⟩ :=
    SetOp.eval_collects .and (by decide : ([1] : Str) ≠ [2]) h hlt₁ hlt₂
  rw [hnil, nil_append] at hmembers
  exact ⟨h, h', l, h₁, h₂, hrun, hmembers, hnodup, hmem⟩

end Mmkv
