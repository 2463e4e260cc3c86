import Mmkv.Blist
import Mmkv.ReferenceStore

/-!
# List commands

The list commands implement a map from keys to sequences, over lists of nodes in which the
previous node of the first one is the last one.  `ListGetRange` walks from the nearer end,
and from the last node it reads one position too far and in the wrong order.
-/

namespace Mmkv

open EffectPrograms List Function DbState

/-! ## Ranges -/

def sliceLeft (n : Nat) (l : Int) : Int :=
  if l < 0 then n + l else l

def sliceRight (n : Nat) (r : Int) : Int :=
  if r < 0 then n + r + 1 else r

def sliceValid (n : Nat) (l r : Int) : Prop :=
  0 ≤ sliceLeft n l ∧ sliceLeft n l < n ∧ sliceLeft n l ≤ sliceRight n r

instance (n : Nat) (l r : Int) : Decidable (sliceValid n l r) :=
  inferInstanceAs (Decidable (_ ∧ _ ∧ _))

/-- What `ListGetRange` is documented to answer. -/
def slice (l r : Int) (lst : List Str) : Reply :=
  if sliceValid lst.length l r then
    .ok (.strs ((lst.drop (sliceLeft lst.length l).toNat).take
      (min (sliceRight lst.length r) lst.length - sliceLeft lst.length l).toNat))
  else .fail .invalidRange

section Slices

variable {n a b : Nat} {l r : Int} {lst : List Str}

/-- All lists are read as they should be only if all positions are the right ones. -/
theorem reads_eq_iff {size : Nat} {f : Nat → Nat} (hsize : a + size ≤ n) (hf : ∀ i, f i < n) :
    (∀ lst : List Str, lst.length = n →
        (range size).map (fun i => lst.getD (f i) []) = (lst.drop a).take size) ↔
      ∀ i < size, f i = a + i := by
  constructor
  · intro hall i hi
    let lst := (range n).map fun j => replicate j (0 : UInt8)
    have hget : ∀ j < n, lst.getD j [] = replicate j (0 : UInt8) := by
      intro j hj
      simp [lst, hj]
    have hread := congrArg (fun xs => xs[i]?) (hall lst (by simp [lst]))
    have hlt : a + i < n := by omega
    simp only [getElem?_map, getElem?_range hi, Option.map_some,
      getElem?_take_of_lt hi, getElem?_drop, hget _ (hf i)] at hread
    have hlength := congrArg (Option.map length) hread
    simpa [lst, hlt] using hlength
  · intro hpos lst hlst
    refine ext_getElem? fun i => ?_
    grind

/-- With the right bound behind all elements the countdown from 0 takes 2 ^ 64 - 1 steps. -/
theorem wrapped_positions_iff (ha : 0 < a) (han : a < n) :
    (∀ i < n - a, (((n : Int) - 1 - (2 ^ 64 - 1 : Nat) - i) % n).toNat = a + i) ↔
      a + 1 = n ∧ 2 ^ 64 % n = 1 := by
  have hwrap : ∀ i : Nat, 0 < 2 ^ 64 % n + i → 2 ^ 64 % n + i ≤ n →
      (((n : Int) - 1 - (2 ^ 64 - 1 : Nat) - i) % n).toNat = n - (2 ^ 64 % n + i) := by
    intro i hpos hle
    have hdiv : (n : Int) * (2 ^ 64 / n : Nat) + (2 ^ 64 % n : Nat) = 2 ^ 64 := by
      exact_mod_cast Nat.div_add_mod (2 ^ 64) n
    have hsplit : (n : Int) - 1 - (2 ^ 64 - 1 : Nat) - i =
        (n - (2 ^ 64 % n + i) : Nat) + n * -(2 ^ 64 / n : Nat) := by
      rw [Int.mul_neg]
      omega
    rw [hsplit, Int.add_mul_emod_self_left, Int.emod_eq_of_lt (by omega) (by omega)]
    omega
  have hmod : 2 ^ 64 % n < n := Nat.mod_lt _ (by omega)
  constructor
  · intro hall
    have hfirst := hall 0 (by omega)
    have hne : 2 ^ 64 % n ≠ 0 := by
      intro hzero
      have hdvd : (n : Int) ∣ (n : Int) - 1 - (2 ^ 64 - 1 : Nat) - (0 : Nat) := by
        obtain ⟨q, hq⟩ := Nat.dvd_of_mod_eq_zero hzero
        exact ⟨1 - q, by rw [Int.mul_sub]; omega⟩
      omega
    rw [hwrap 0 (by omega) (by omega)] at hfirst
    have hsecond : ¬1 < n - a := by
      intro hlt
      have := hall 1 hlt
      rw [hwrap 1 (by omega) (by omega)] at this
      omega
    omega
  · rintro ⟨hlast, hone⟩ i hi
    rw [hwrap i (by omega) (by omega)]
    omega

theorem backward_positions_iff (hab : a ≤ b) (hbn : b ≤ n) (hback : n < a + b) (hn : n < 2 ^ 63) :
    (∀ i < b - a, (((n : Int) - 1 - toSize (toSize ((n : Int) - b) - 1) - i) % n).toNat = a + i) ↔
      a = b ∨ b = n ∧ a + 1 = n ∧ 2 ^ 64 % n = 1 := by
  by_cases hb : b = n
  · subst hb
    have hsteps : toSize (toSize ((b : Int) - b) - 1) = 2 ^ 64 - 1 := by
      rw [Int.sub_self]
      rfl
    rw [hsteps]
    by_cases hlt : a < b
    · rw [wrapped_positions_iff (by omega) hlt]
      omega
    · refine iff_of_true (fun i hi => ?_) (.inl ?_)
      all_goals omega
  · have hsteps : toSize (toSize ((n : Int) - b) - 1) = n - b - 1 := by
      unfold toSize
      omega
    rw [hsteps]
    constructor
    · intro hall
      by_contra hne
      have hfirst := hall 0 (by omega)
      have hread : (n : Int) - 1 - (n - b - 1 : Nat) - (0 : Nat) = b := by omega
      rw [hread, Int.emod_eq_of_lt (by omega) (by omega)] at hfirst
      omega
    · rintro (heq | hend) i hi
      all_goals omega

theorem toInt64_left (hn : n < 2 ^ 63) (hl : -2 ^ 63 ≤ l) :
    (if l < 0 then toInt64 (n + l) else l) = sliceLeft n l := by
  unfold sliceLeft
  split
  · exact toInt64_of_lt (by omega) (by omega)
  · rfl

theorem toInt64_right (hn : n < 2 ^ 63) (hr : -2 ^ 63 ≤ r) :
    (if r < 0 then toInt64 (n + r + 1) else r) = sliceRight n r := by
  unfold sliceRight
  split
  · exact toInt64_of_lt (by omega) (by omega)
  · rfl

section Bounds

variable (hlst : lst.length < 2 ^ 63) (hl : -2 ^ 63 ≤ l) (hr : -2 ^ 63 ≤ r)

include hlst hl hr

theorem listGetRange_of_invalid (hl' : l < 2 ^ 63) (h : ¬sliceValid lst.length l r) :
    listGetRange l r lst = .fail .invalidRange := by
  unfold listGetRange
  dsimp only
  rw [toInt64_left hlst hl, toInt64_right hlst hr]
  refine if_pos ?_
  unfold sliceValid at h
  have hbound : -2 ^ 63 ≤ sliceLeft lst.length l ∧ sliceLeft lst.length l < 2 ^ 63 := by
    unfold sliceLeft
    all_goals omega
  unfold toSize
  omega

/-- A range of valid positions is read forward or backward. -/
theorem listGetRange_of_valid (hr' : r < 2 ^ 63) (ha : sliceLeft lst.length l = a)
    (hb : sliceRight lst.length r = b) (hlt : a < lst.length) (hle : a ≤ b) :
    listGetRange l r lst = .ok (.strs (if lst.length < b ∨ a + b ≤ lst.length
      then (lst.drop a).take (min b lst.length - a)
      else readBackwards lst (lst.length - 1 - toSize (toSize (lst.length - b) - 1)) (b - a))) := by
  have hbound : b < 2 ^ 63 := by
    unfold sliceRight at hb
    all_goals omega
  have hsize : ∀ x : Nat, x < 2 ^ 64 → toSize x = x := fun x hx => by
    unfold toSize
    omega
  unfold listGetRange
  dsimp only
  rw [toInt64_left hlst hl, toInt64_right hlst hr, ha, hb, hsize a (by omega),
    hsize b (by omega), if_neg (by omega)]
  by_cases hforward : lst.length < b ∨ a + b ≤ lst.length
  · rw [if_pos hforward, if_pos]
    · grind
    · unfold toSize
      omega
  · rw [if_neg hforward, if_neg]
    · grind
    · unfold toSize
      omega

end Bounds

/-- All lists of a length are sliced as documented if the bounds are invalid, the elements are
read forward, or none is read, and in one case where the only element is met by chance. -/
theorem listGetRange_slices_iff (hn : n < 2 ^ 63) (l r : Int64) :
    (∀ lst : List Str, lst.length = n →
        listGetRange l.toInt r.toInt lst = slice l.toInt r.toInt lst) ↔
      (sliceValid n l.toInt r.toInt →
        n < sliceRight n r.toInt ∨ sliceLeft n l.toInt + sliceRight n r.toInt ≤ n ∨
        sliceLeft n l.toInt = sliceRight n r.toInt ∨
        sliceRight n r.toInt = n ∧ sliceLeft n l.toInt + 1 = n ∧ 2 ^ 64 % n = 1) := by
  by_cases hvalid : sliceValid n l.toInt r.toInt
  · obtain ⟨a, ha⟩ := Int.eq_ofNat_of_zero_le hvalid.1
    obtain ⟨b, hb⟩ := Int.eq_ofNat_of_zero_le (hvalid.1.trans hvalid.2.2)
    have hlt := hvalid.2.1
    have hle := hvalid.2.2
    rw [imp_iff_right hvalid, ha, hb]
    rw [ha] at hlt hle
    rw [hb] at hle
    have hread : ∀ lst : List Str, lst.length = n →
        (listGetRange l.toInt r.toInt lst = slice l.toInt r.toInt lst ↔
          (if n < b ∨ a + b ≤ n then (lst.drop a).take (min b n - a)
            else readBackwards lst (n - 1 - toSize (toSize (n - b) - 1)) (b - a)) =
          (lst.drop a).take (min b n - a)) := by
      rintro lst rfl
      rw [listGetRange_of_valid hn l.le_toInt r.le_toInt r.toInt_lt ha hb (by omega) (by omega),
        slice, if_pos hvalid, ha, hb]
      have hsize : (min (b : Int) lst.length - a).toNat = min b lst.length - a := by omega
      rw [hsize, Int.toNat_natCast]
      exact ⟨fun h => Output.strs.inj (congrArg Reply.out h), fun h => by rw [h]⟩
    rw [forall₂_congr hread]
    by_cases hforward : n < b ∨ a + b ≤ n
    · grind
    · simp only [if_neg hforward]
      have hreads := @reads_eq_iff n a (b - a)
        (fun i => (((n : Int) - 1 - toSize (toSize (n - b) - 1) - i) % n).toNat) (by omega)
        fun i => by
          have := Int.emod_lt_of_pos ((n : Int) - 1 - toSize (toSize (n - b) - 1) - i)
            (show (0 : Int) < n by omega)
          omega
      rw [min_eq_left (by omega)]
      refine (forall₂_congr ?_).trans (hreads.trans
        ((backward_positions_iff (by omega) (by omega) (by omega) hn).trans ?_))
      · rintro lst rfl
        rfl
      · omega
  · refine iff_of_true ?_ fun h => absurd h hvalid
    rintro lst rfl
    rw [listGetRange_of_invalid hn l.le_toInt r.le_toInt l.toInt_lt hvalid, slice, if_neg hvalid]

end Slices

/-- The range `[0, 1)`. -/
theorem listGetRange_forward : listGetRange 0 1 [[97], [98]] = .ok (.strs [[97]]) := by
  have hforward := (@listGetRange_slices_iff 2 (by decide) 0 1).2
    (fun _ => .inr (.inl (by decide))) [[97], [98]] rfl
  exact hforward

/-- Elements that are read backwards are the wrong ones, or in the wrong order. -/
theorem listGetRange_backward :
    listGetRange 2 3 [[97], [98], [99], [100]] = .ok (.strs [[100]]) ∧
      slice 2 3 [[97], [98], [99], [100]] = .ok (.strs [[99]]) ∧
      listGetRange 1 3 [[97], [98], [99]] = .ok (.strs [[99], [98]]) ∧
      slice 1 3 [[97], [98], [99]] = .ok (.strs [[98], [99]]) := by
  refine ⟨?_, ?_, ?_, ?_⟩
  all_goals decide +kernel

/-! ## Sequences -/

abbrev ListStore : Type :=
  Str → Option (List Str)

namespace ListStore

def empty : ListStore :=
  fun _ => none

def onList (k : Str) (body : List Str → Reply × List Str) (m : ListStore) : Reply × ListStore :=
  match m k with
  | none => (.fail .nonexists, m)
  | some l => ((body l).1, update m k (some (body l).2))

def step (m : ListStore) : Command → Reply × ListStore
  | .listAdd k elems =>
    if (m k).isSome then (.fail .exists, m)
    else (.ok .none, update m k (some elems))
  | .listAppend k elems =>
    (.ok .none, update m k (some ((m k).getD [] ++ elems)))
  | .listPrepend k elems => m.onList k fun l =>
    (.ok .none, elems.foldl (fun l elem => elem :: l) l)
  | .listPopFront k count => m.onList k fun l => (.ok .none, l.drop (min count l.length))
  | .listPopBack k count => m.onList k fun l =>
    (.ok .none, l.take (l.length - min count l.length))
  | .listGetAll k => m.onList k fun l => (.ok (.strs l), l)
  | .listGetSize k => m.onList k fun l => (.ok (.number l.length), l)
  | .listDel k =>
    if (m k).isSome then (.ok .none, update m k none) else (.fail .nonexists, m)
  | _ => (.fail .invalidRequest, m)

variable {body : List Str → Reply × List Str} {m : ListStore} {k : Str}

theorem onList_ok (hok : (m.onList k body).1.status = .ok) :
    ∃ l, m k = some l ∧ (m.onList k body).2 k = some (body l).2 := by
  unfold onList at hok ⊢
  cases hget : m k with
  | none =>
    rw [hget] at hok
    cases hok
  | some l => exact ⟨l, rfl, update_self _ _ _⟩

def runAll : List Command → ListStore → List Reply × ListStore
  | [], m => ([], m)
  | c :: cs, m => ((m.step c).1 :: (runAll cs (m.step c).2).1, (runAll cs (m.step c).2).2)

end ListStore

open ListStore

/-- The key of a list command; `ListGetRange` is not one of the sequence. -/
def Command.listKey : Command → Option Str
  | .listAdd k _ | .listAppend k _ | .listPrepend k _ | .listPopFront k _ | .listPopBack k _
  | .listGetAll k | .listGetSize k | .listDel k => some k
  | _ => none

variable {hash : Str → Nat} {C : Type} {c : Command}

/-- The values are lists, those of the store, and there are no deadlines. -/
structure AbsDb.HoldsLists (a : AbsDb hash C) (m : ListStore) : Prop where
  dict : ∀ k, a.dict.get k = (m k).map .strList
  expDict : ∀ k, a.expDict.get k = none

namespace AbsDb.HoldsLists

variable {a b : AbsDb hash C} {m : ListStore} {w : World C} {k : Str}

theorem lapsed (h : a.HoldsLists m) (k : Str) : a.lapsed w k = false := by
  simp [AbsDb.lapsed, AbsDb.expired_of_none (h.expDict k)]

theorem update (h : a.HoldsLists m) {o : Option (List Str)}
    (hdict : b.dict.get = update a.dict.get k (o.map .strList))
    (hexp : ∀ k', a.expDict.get k' = none → b.expDict.get k' = none) :
    b.HoldsLists (update m k o) where
  dict k' := by
    rw [hdict]
    by_cases hk : k' = k
    · grind
    · rw [update_of_ne hk, update_of_ne hk]
      exact h.dict k'
  expDict k' := hexp k' (h.expDict k')

theorem run_onValue (h : a.HoldsLists m) (hplain : w.Plain) (access : Access) :
    ∃ b, (Db.onValue w access .strList k fun l => some (body l)).run AbsDb.handler a =
      some ((m.onList k body).1, b) ∧ b.HoldsLists (m.onList k body).2 := by
  rw [Db.run_onValue hplain access _ _ (h.lapsed k), h.dict k]
  unfold onList
  cases m k with
  | none => exact ⟨a, rfl, h⟩
  | some l => exact ⟨_, rfl, h.update rfl fun _ hnone => hnone⟩

end AbsDb.HoldsLists

theorem Command.answers_list {w : World C} (hplain : w.Plain) {a : AbsDb hash C}
    (h : a.HoldsLists m) (hc : c.listKey = some k) :
    ∃ b, a.exec w c = some ((m.step c).1, b) ∧ b.HoldsLists (m.step c).2 := by
  unfold AbsDb.exec Command.run
  rw [Action.run_plain hplain]
  cases c
  case listAdd k elems =>
    simp only [action, MmkvDb.listAdd, Action.unguarded, step]
    rw [Db.run_insertNew hplain, h.dict k]
    cases m k with
    | none => exact ⟨_, rfl, h.update rfl fun _ hnone => hnone⟩
    | some l => exact ⟨a, rfl, h⟩
  case listAppend k elems =>
    simp only [action, MmkvDb.listAppend, Action.unguarded, step]
    rw [Db.run_addTo_current _ _ _ _ (h.lapsed k), Db.run_addTo hplain, h.dict k]
    cases m k with
    | none =>
      refine ⟨_, rfl, h.update ?_ fun _ hnone => hnone⟩
      simp [AbsDb.add, AbsDb.put, AbsDict.insert, AbsDict.set]
      rfl
    | some l => exact ⟨_, rfl, h.update rfl fun _ hnone => hnone⟩
  case listPrepend k elems =>
    simp only [step, foldl_flip_cons_eq_append, map_id']
    exact h.run_onValue hplain _
  case listPopFront k count => exact h.run_onValue hplain _
  case listPopBack k count => exact h.run_onValue hplain _
  case listGetAll k => exact h.run_onValue hplain _
  case listGetSize k => exact h.run_onValue hplain _
  case listDel k =>
    simp only [action, MmkvDb.listDel, Action.unguarded, step]
    rw [Db.run_eraseValue hplain, h.dict k]
    cases m k with
    | none => exact ⟨_, rfl, h.dict, h.expDict⟩
    | some l =>
      refine ⟨_, rfl, h.update rfl fun k' hnone => ?_⟩
      simp [AbsDict.remove, update_apply, hnone]
  all_goals cases hc

/-- `ListAppend` may go on with the empty key after `CheckExpire`. -/
theorem Command.keys_of_listKey (hc : c.listKey = some k)
    (w : World C) : c.keys w = [k] ∨ c.keys w = [k, []] := by
  cases c
  case listAppend k elems =>
    cases hc
    by_cases hmoves : w.movesExpired
    · exact .inr (if_pos hmoves)
    · exact .inl (if_neg hmoves)
  all_goals first | exact .inl (by cases hc; rfl) | cases hc

/-- A list command on a key without NUL bytes, without replacement and shards. -/
structure ListCall (w : World C) (c : Command) (k : Str) : Prop where
  plain : w.Plain
  key : c.listKey = some k
  nulFree : 0 ∉ k

theorem DbState.execAll_lists {calls : List (World C × Command)}
    (hcalls : ∀ call ∈ calls, ∃ k, ListCall call.1 call.2 k) {s : DbState hash C}
    (hs : s.KeysIn {k | 0 ∉ k}) (h : s.abs.HoldsLists m) :
    ∃ s', execAll calls s = some ((m.runAll (calls.map Prod.snd)).1, s') ∧
      s'.abs.HoldsLists (m.runAll (calls.map Prod.snd)).2 := by
  induction calls generalizing s m with
  | nil => exact ⟨s, rfl, h⟩
  | cons call calls ih =>
    obtain ⟨⟨k, hcall⟩, hcalls⟩ := forall_mem_cons.1 hcalls
    obtain ⟨b, hrun, hb⟩ := Command.answers_list hcall.plain h hcall.key
    have hkeys : ∀ k' ∈ call.2.keys call.1, 0 ∉ k' := by
      obtain hkeys | hkeys := Command.keys_of_listKey hcall.key call.1
      all_goals
        rw [hkeys]
        simpa using hcall.nulFree
    obtain ⟨s1, hexec, hs1, rfl⟩ := exec_of_abs separated_nulFree hkeys hs hrun
    obtain ⟨s2, hexec2, h2⟩ := ih hcalls hs1 hb
    exact ⟨s2, by simp [execAll, hexec, hexec2, runAll], h2⟩

theorem DbState.new_holdsLists (cache : C) : (new cache : DbState hash C).abs.HoldsLists empty where
  dict k := by
    have hentries : (Dict.new : Dict hash (MmkvData hash)).entries = [] := TreeHashTable.entries_new
    simp [new, abs, Dict.abs, hentries, empty]
  expDict := (new_refines cache).expDict

/-! ## Nodes -/

section Nodes

open BNodes

variable {P T : Type} [DecidableEq P]

/-- A push for each element, with the addresses that the allocator gives. -/
def Blist.pushAll (push : Blist P → BNodes P T → P → Option (Blist P × BNodes P T)) :
    List (P × T) → Blist P → BNodes P T → Option (Blist P × BNodes P T)
  | [], l, m => some (l, m)
  | (p, v) :: elems, l, m => do
    let (l, m) ← push l (m.createNode p v) p
    l.pushAll push elems m

def Blist.popAll (pop : Blist P → BNodes P T → Option (Blist P × BNodes P T)) :
    Nat → Blist P → BNodes P T → Option (Blist P × BNodes P T)
  | 0, l, m => some (l, m)
  | count + 1, l, m => do
    let (l, m) ← pop l m
    l.popAll pop count m

/-- The loop of `ListGetAll`. -/
def BNodes.readAll (m : BNodes P T) : Nat → Option P → Option (List T)
  | 0, _ => some []
  | size + 1, p => do
    let n ← m.node (← p)
    let rest ← m.readAll size n.next
    return n.value :: rest

/-- The loops of the commands over the nodes of a list. -/
def Command.onNodes (fresh : List P) (l : Blist P) (m : BNodes P Str) :
    Command → Option (Blist P × BNodes P Str)
  | .listAdd _ elems | .listAppend _ elems => l.pushAll Blist.pushBack (fresh.zip elems) m
  | .listPrepend _ elems => l.pushAll Blist.pushFront (fresh.zip elems) m
  | .listPopFront _ count => l.popAll Blist.popFront (min count l.count) m
  | .listPopBack _ count => l.popAll Blist.popBack (min count l.count) m
  | _ => some (l, m)

def Command.elems : Command → List Str
  | .listAdd _ elems | .listAppend _ elems | .listPrepend _ elems => elems
  | _ => []

section Loops

variable {α : Type} (xs elems : List α)

theorem foldl_concat_eq : elems.foldl (fun xs x => xs ++ [x]) xs = xs ++ elems := by
  induction elems generalizing xs with
  | nil => exact (append_nil xs).symm
  | cons x elems ih => rw [foldl_cons, ih, append_assoc, singleton_append]

theorem iterate_tail (n : Nat) : tail^[n] xs = xs.drop n := by
  induction n generalizing xs with
  | zero => rfl
  | succ n ih => rw [iterate_succ_apply, ih, drop_tail]

theorem iterate_dropLast (n : Nat) : dropLast^[n] xs = xs.take (xs.length - n) := by
  induction n generalizing xs with
  | zero => exact (take_length).symm
  | succ n ih =>
    rw [iterate_succ_apply, ih, length_dropLast, dropLast_eq_take, take_take]
    congr 1
    omega

end Loops

namespace Blist.Holds

variable {l : Blist P} {m : BNodes P T} {xs elems : List (P × T)}

/-- A run of pushes, each of which keeps the other nodes. -/
theorem pushAll (push : Blist P → BNodes P T → P → Option (Blist P × BNodes P T))
    (add : List (P × T) → P × T → List (P × T))
    (hpush : ∀ {l : Blist P} {m : BNodes P T} {xs : List (P × T)}, l.Holds m xs → ∀ {p v},
      m.node p = some ⟨none, none, v⟩ → p ∉ addrs xs →
      Gives (push l m p) m (p :: addrs xs) (add xs (p, v)))
    (h : l.Holds m xs) (hnodup : (addrs elems).Nodup)
    (hfree : ∀ p ∈ addrs elems, m.node p = none) :
    ∃ l' m', l.pushAll push elems m = some (l', m') ∧ l'.Holds m' (elems.foldl add xs) := by
  induction elems generalizing l m xs with
  | nil => exact ⟨l, m, rfl, h⟩
  | cons e elems ih =>
    obtain ⟨p, v⟩ := e
    obtain ⟨hp, hnodup⟩ := nodup_cons.1 hnodup
    obtain ⟨hpfree, hfree⟩ := forall_mem_cons.1 hfree
    have hfresh := h.not_mem hpfree
    have hother : ∀ b, b ≠ p → (m.createNode p v).node b = m.node b :=
      fun b hb => node_write_of_ne hb _
    have h1 : l.Holds (m.createNode p v) xs :=
      h.congr fun b hb => hother b fun heq => hfresh (heq ▸ hb)
    obtain ⟨l2, m2, hrun, h2, hframe⟩ := hpush h1 (node_write_self _ _) hfresh
    obtain ⟨l', m', hrest, h'⟩ := ih h2 hnodup fun q hq => by
      have hqp : q ≠ p := fun heq => hp (heq ▸ hq)
      have hqfree := hfree q hq
      rw [hframe q (not_mem_cons_of_ne_of_not_mem hqp (h.not_mem hqfree)), hother q hqp]
      exact hqfree
    exact ⟨l', m', by simp [Blist.pushAll, hrun, hrest], h'⟩

omit [DecidableEq P] in
theorem popAll (pop : Blist P → BNodes P T → Option (Blist P × BNodes P T))
    (drop : List (P × T) → List (P × T))
    (hpop : ∀ {l : Blist P} {m : BNodes P T} {xs : List (P × T)}, l.Holds m xs →
      Gives (pop l m) m (addrs xs) (drop xs)) (h : l.Holds m xs) (count : Nat) :
    ∃ l' m', l.popAll pop count m = some (l', m') ∧ l'.Holds m' (drop^[count] xs) := by
  induction count generalizing l m xs with
  | zero => exact ⟨l, m, rfl, h⟩
  | succ count ih =>
    obtain ⟨l1, m1, hrun, h1, -⟩ := hpop h
    obtain ⟨l', m', hrest, h'⟩ := ih h1
    exact ⟨l', m', by simp [Blist.popAll, hrun, hrest], h'⟩

end Blist.Holds

omit [DecidableEq P] in
theorem BNodes.Segment.readAll {m : BNodes P T} {p : Option P} {xs : List (P × T)}
    (h : m.Segment p xs none) : m.readAll xs.length (headPtr xs none) = some (xs.map Prod.snd) := by
  induction xs generalizing p with
  | nil => rfl
  | cons x xs ih =>
    have hhead : headPtr (x :: xs) none = some x.1 := rfl
    rw [hhead]
    simp [BNodes.readAll, h.1, ih h.2]

variable {l : Blist P} {m : BNodes P Str} {xs : List (P × Str)} {fresh : List P}

/-- The loops of a command that succeeds lead to the nodes of the new sequence. -/
theorem Command.onNodes_holds {store : ListStore} (hl : l.Holds m xs)
    (hxs : xs.map Prod.snd = (store k).getD []) (hc : c.listKey = some k)
    (hok : (store.step c).1.status = .ok) (hnodup : fresh.Nodup)
    (hfree : ∀ p ∈ fresh, m.node p = none) (hlength : fresh.length = c.elems.length) :
    ∃ l' m' ys, c.onNodes fresh l m = some (l', m') ∧ l'.Holds m' ys ∧
      ∀ lst, (store.step c).2 k = some lst → ys.map Prod.snd = lst := by
  have haddrs : addrs (fresh.zip c.elems) = fresh := map_fst_zip (by omega)
  have hvalues : (fresh.zip c.elems).map Prod.snd = c.elems := map_snd_zip (by omega)
  rw [← haddrs] at hnodup hfree
  have hback := hl.pushAll Blist.pushBack (fun xs x => xs ++ [x]) (fun h _ _ => h.pushBack)
    hnodup hfree
  rw [foldl_concat_eq] at hback
  have hmap : ∀ {lst}, store k = some lst → xs.map Prod.snd = lst := fun hget => by
    rw [hxs, hget, Option.getD_some]
  have hcount : ∀ {lst}, store k = some lst → l.count = lst.length := fun hget => by
    rw [hl.count, ← hmap hget, length_map]
  cases c
  case listAdd k elems =>
    cases hc
    obtain ⟨l', m', hrun, h'⟩ := hback
    refine ⟨l', m', _, hrun, h', fun lst hlst => ?_⟩
    rw [map_append, hxs, hvalues]
    cases hget : store k with
    | none => simpa [step, hget, Command.elems] using hlst
    | some old =>
      simp only [step, hget] at hok
      cases hok
  case listAppend k elems =>
    cases hc
    obtain ⟨l', m', hrun, h'⟩ := hback
    refine ⟨l', m', _, hrun, h', fun lst hlst => ?_⟩
    rw [map_append, hxs, hvalues]
    simpa [step, Command.elems] using hlst
  case listPrepend k elems =>
    cases hc
    obtain ⟨l', m', hrun, h'⟩ := hl.pushAll Blist.pushFront (fun xs x => x :: xs)
      (fun h _ _ => h.pushFront) hnodup hfree
    obtain ⟨old, hget, hnew⟩ := onList_ok hok
    refine ⟨l', m', _, hrun, h', fun lst hlst => ?_⟩
    rw [← Option.some.inj (hnew.symm.trans hlst)]
    simp only [foldl_flip_cons_eq_append, map_id', map_append, map_reverse, hvalues, hmap hget]
    rfl
  case listPopFront k count =>
    cases hc
    obtain ⟨old, hget, hnew⟩ := onList_ok hok
    obtain ⟨l', m', hrun, h'⟩ := hl.popAll Blist.popFront tail (fun h => h.popFront)
      (min count l.count)
    refine ⟨l', m', _, hrun, h', fun lst hlst => ?_⟩
    rw [iterate_tail, map_drop, hmap hget, hcount hget]
    exact Option.some.inj (hnew.symm.trans hlst)
  case listPopBack k count =>
    cases hc
    obtain ⟨old, hget, hnew⟩ := onList_ok hok
    obtain ⟨l', m', hrun, h'⟩ := hl.popAll Blist.popBack dropLast (fun h => h.popBack)
      (min count l.count)
    refine ⟨l', m', _, hrun, h', fun lst hlst => ?_⟩
    rw [iterate_dropLast, map_take, hmap hget, hcount hget, ← hl.count, hcount hget]
    exact Option.some.inj (hnew.symm.trans hlst)
  case listGetAll k | listGetSize k =>
    cases hc
    obtain ⟨old, hget, hnew⟩ := onList_ok hok
    refine ⟨l, m, xs, rfl, hl, fun lst hlst => ?_⟩
    rw [hmap hget]
    exact Option.some.inj (hnew.symm.trans hlst)
  case listDel k =>
    cases hc
    refine ⟨l, m, xs, rfl, hl, fun lst hlst => ?_⟩
    cases hget : store k with
    | none => simp [step, hget] at hlst
    | some old => simp [step, hget] at hlst
  all_goals cases hc

end Nodes

/-- From the empty database list commands answer as a map of sequences does.  The loops of
each command that succeeds lead from the nodes of the old sequence to the nodes of the new
one, and `ListGetAll` reads the values of all nodes. -/
theorem listCommands_sequences (cache : C) {calls : List (World C × Command)}
    (hcalls : ∀ call ∈ calls, ∃ k, ListCall call.1 call.2 k) :
    (∃ s : DbState hash C, execAll calls (new cache) =
        some ((runAll (calls.map Prod.snd) .empty).1, s) ∧
      s.abs.HoldsLists (runAll (calls.map Prod.snd) .empty).2) ∧
    ∀ {P : Type} [DecidableEq P] {l : Blist P} {m : BNodes P Str} {xs : List (P × Str)}
      {store : ListStore} {k : Str}, l.Holds m xs → xs.map Prod.snd = (store k).getD [] →
      m.readAll l.count l.header = some (xs.map Prod.snd) ∧
      ∀ {c : Command} {fresh : List P}, c.listKey = some k → (store.step c).1.status = .ok →
        fresh.Nodup → (∀ p ∈ fresh, m.node p = none) → fresh.length = c.elems.length →
        ∃ l' m' ys, c.onNodes fresh l m = some (l', m') ∧ l'.Holds m' ys ∧
          ∀ lst, (store.step c).2 k = some lst → ys.map Prod.snd = lst := by
  refine ⟨execAll_lists hcalls (keysIn_new _ cache)
    (new_holdsLists cache), fun {_ _ l m xs store k} hl hxs => ⟨?_, ?_⟩⟩
  · rw [hl.count, hl.header]
    exact hl.segment.readAll
  · intro c fresh hc hok hnodup hfree hlength
    exact Command.onNodes_holds hl hxs hc hok hnodup hfree hlength

/-- Two elements are appended to a new list, the first one is popped and all are listed. -/
theorem appended_popped_sequence :
    ∃ s : DbState (fun _ => 0) Unit,
      execAll [(.standalone false 0, .listAppend [97] [[98], [99]]),
        (.standalone false 0, .listPopFront [97] 1), (.standalone false 0, .listGetAll [97])]
        (new ()) = some ([.ok .none, .ok .none, .ok (.strs [[99]])], s) := by
  have hcall : ∀ c, c.listKey = some [97] →
      ∃ k, ListCall (.standalone false 0 : World Unit) c k :=
    fun c hc => ⟨[97], ⟨rfl, rfl⟩, hc, by decide⟩
  have hcalls : ∀ call ∈ [(.standalone false 0, .listAppend [97] [[98], [99]]),
      (.standalone false 0, .listPopFront [97] 1), (.standalone false 0, .listGetAll [97])],
      ∃ k, ListCall (call : World Unit × Command).1 call.2 k := by
    simpa using ⟨hcall _ rfl, hcall _ rfl, hcall _ rfl⟩
  obtain ⟨s, hexec, -⟩ := (@listCommands_sequences (fun _ => 0) Unit () _ hcalls).1
  exact ⟨s, hexec⟩

end Mmkv
