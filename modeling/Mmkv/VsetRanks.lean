import Mmkv.TableIterators
import Mmkv.VsetRanges

/-!
# Ranks in sorted sets

`GetAll` walks the tree with a stack of its own, `GetOrder` from node to successor and
`GetROrder` from node to predecessor, with no test for the end.  The three walks give one
order, and the two scans end at the member because dictionary and tree agree on its weight.
-/

namespace Mmkv

open List Option AvlTree

namespace AvlTree

variable {V : Type}

/-! ## The walk with a stack -/

/-- The inner loop of `DoInAll`. -/
def pushLefts : AvlTree V → List (V × AvlTree V) → List (V × AvlTree V)
  | nil, nodes => nodes
  | node left value _ right, nodes => pushLefts left ((value, right) :: nodes)

/-- The values in the order in which the callback gets them. -/
def doInAll : Nat → AvlTree V → List (V × AvlTree V) → Option (List V)
  | 0, _, _ => none
  | fuel + 1, root, nodes =>
    match pushLefts root nodes with
    | [] => some []
    | (value, right) :: nodes => (doInAll fuel right nodes).map (value :: ·)

def stacked (nodes : List (V × AvlTree V)) : List V :=
  nodes.flatMap fun n => n.1 :: n.2.toList

theorem stacked_pushLefts (t : AvlTree V) (nodes : List (V × AvlTree V)) :
    stacked (pushLefts t nodes) = t.toList ++ stacked nodes := by
  induction t generalizing nodes with
  | nil => rfl
  | node left value h right ihl _ =>
    rw [pushLefts, ihl]
    simp [stacked, toList]

variable {fuel : Nat}

theorem doInAll_eq {root : AvlTree V} {nodes : List (V × AvlTree V)}
    (hfuel : (root.toList ++ stacked nodes).length < fuel) :
    doInAll fuel root nodes = some (root.toList ++ stacked nodes) := by
  induction fuel generalizing root nodes with
  | zero => omega
  | succ fuel ih =>
    have hstacked := stacked_pushLefts root nodes
    rw [← hstacked] at hfuel ⊢
    unfold doInAll
    cases hpush : pushLefts root nodes with
    | nil => rfl
    | cons top nodes =>
      obtain ⟨value, right⟩ := top
      have hrest : stacked ((value, right) :: nodes) =
          value :: (right.toList ++ stacked nodes) := rfl
      grind

/-! ## The walk to predecessors -/

def lastNode : AvlTree V → List (Crumb V) → Option (Place V)
  | nil, _ => none
  | node left value h nil, path => some ⟨left, value, h, nil, path⟩
  | node left value h right, path => lastNode right (.inRight left value h :: path)

/-- The loop of `_GetPrevNode` to the first parent that is entered from its right. -/
def climbBack : AvlTree V → List (Crumb V) → Option (Place V)
  | _, [] => none
  | t, .inRight left value h :: path => some ⟨left, value, h, t, path⟩
  | t, .inLeft value h right :: path => climbBack (node t value h right) path

def getPrevNode (p : Place V) : Option (Place V) :=
  match p.left with
  | nil => climbBack (node nil p.value p.height p.right) p.path
  | left => lastNode left (.inLeft p.value p.height p.right :: p.path)

def Place.ahead (p : Place V) : List V :=
  (before p.path ++ p.left.toList).reverse

theorem lastNode_spec {t : AvlTree V} (ht : t ≠ nil) (path : List (Crumb V)) :
    ((lastNode t path).elim [] fun p => p.value :: p.ahead) =
      (before path ++ t.toList).reverse := by
  fun_induction lastNode t path with
  | case1 => exact absurd rfl ht
  | case2 => simp [toList, Place.ahead]
  | case3 left value h right path hright ih =>
    rw [ih (by simpa using hright)]
    simp [toList, before]

theorem climbBack_spec (t : AvlTree V) (path : List (Crumb V)) :
    ((climbBack t path).elim [] fun p => p.value :: p.ahead) = (before path).reverse := by
  fun_induction climbBack t path with
  | case1 => rfl
  | case2 => simp [before, Place.ahead]
  | case3 t value h right path ih => exact ih

theorem getPrevNode_spec (p : Place V) :
    p.ahead = (getPrevNode p).elim [] fun p => p.value :: p.ahead := by
  unfold getPrevNode
  cases hleft : p.left with
  | nil =>
    rw [climbBack_spec, Place.ahead, hleft]
    exact congrArg List.reverse (append_nil _)
  | node left value h right =>
    rw [lastNode_spec (by simp), Place.ahead, hleft]
    rfl

/-! ## Scans -/

/-- The loop of `GetOrder` and `GetROrder`. -/
def orderLoop (next : Place V → Option (Place V)) (found : V → Bool) :
    Nat → Option (Place V) → Nat → Option Nat
  | 0, _, _ => none
  | _ + 1, none, _ => none
  | fuel + 1, some p, order =>
    if found p.value then some order else orderLoop next found fuel (next p) (order + 1)

theorem orderLoop_eq {next : Place V → Option (Place V)} {rest : Place V → List V}
    (hnext : ∀ p, rest p = (next p).elim [] fun p => p.value :: rest p) (found : V → Bool)
    {it : Option (Place V)} {l : List V}
    (hit : (it.elim [] fun p => p.value :: rest p) = l) (hfuel : l.length < fuel)
    (order : Nat) :
    orderLoop next found fuel it order = (l.findIdx? found).map (· + order) := by
  induction fuel generalizing it l order with
  | zero => omega
  | succ fuel ih =>
    cases it with
    | none =>
      subst hit
      rfl
    | some p =>
      subst hit
      simp only [elim_some, length_cons] at hfuel ⊢
      rw [orderLoop, List.findIdx?_cons]
      split
      · simp
      · rw [ih (hnext p).symm (Nat.lt_of_succ_lt_succ hfuel), Option.map_map]
        congr 1
        grind

theorem lastNode_values (t : AvlTree V) :
    ((t.lastNode []).elim [] fun p => p.value :: p.ahead) = t.toList.reverse := by
  cases t with
  | nil => rfl
  | node left value h right => rw [lastNode_spec (by simp), before, nil_append]

end AvlTree

namespace Vset

variable {hash : Str → Nat} {v : Vset hash} {wms : List WeightValue} {wm : WeightValue} {i : Nat}

/-! ## Ranks -/

/-- The scan for a member and its weight, from the first node or back from the last one. -/
def scanOrder (fuel : Nat) (reverse : Bool) (w : Weight) (member : Str) (v : Vset hash) :
    Option Nat :=
  let found (wm : WeightValue) := wm.key.eq w && decide (wm.value = member)
  if reverse then AvlTree.orderLoop AvlTree.getPrevNode found fuel (v.tree.lastNode []) 0
  else AvlTree.orderLoop AvlTree.getNextNode found fuel (v.tree.firstNode []) 0

def entries (reverse : Bool) (v : Vset hash) : List WeightValue :=
  if reverse then v.getAll.reverse else v.getAll

theorem scanOrder_eq (hfuel : v.getAll.length < fuel) (reverse : Bool) (w : Weight)
    (member : Str) : v.scanOrder fuel reverse w member = orderIn w member (v.entries reverse) := by
  cases reverse with
  | false =>
    exact (orderLoop_eq getNextNode_spec _ (firstNode_values _) hfuel 0).trans map_id_apply
  | true =>
    exact (orderLoop_eq getPrevNode_spec _ (lastNode_values _)
      (by rwa [length_reverse]) 0).trans map_id_apply

theorem orderIn_eq_some {l : List WeightValue} (hnodup : (l.map WeightValue.value).Nodup)
    (hnumber : wm.key.isNaN = false) (hget : l[i]? = some wm) :
    orderIn wm.key wm.value l = some i := by
  obtain ⟨hi, heq⟩ := List.getElem?_eq_some_iff.1 hget
  refine List.findIdx?_eq_some_iff_getElem.2 ⟨hi, ?_, fun j hj => ?_⟩
  · simp [heq, Weight.eq, hnumber]
  · have hne := pairwise_iff_getElem.1 (pairwise_map.1 hnodup) j i (hj.trans hi) hi hj
    rw [heq] at hne
    simp [hne]

/-- Every member is listed once and in order of weight, and its rank from either end is its
place in that list. -/
structure Ranked (v : Vset hash) : Prop where
  once : (v.getAll.map WeightValue.value).Nodup
  ascending : v.getAll.Pairwise fun x y => x.key.gt y.key = false
  walked : ∀ fuel, v.count < fuel → v.tree.doInAll fuel [] = some v.getAll
  scanned : ∀ fuel, v.count < fuel → ∀ reverse w member,
    v.scanOrder fuel reverse w member = orderIn w member (v.entries reverse)
  absent : ∀ member, member ∉ v.getAll.map WeightValue.value →
    ∀ reverse, ∃ v', v.getOrder reverse member = some (none, v')
  present : ∀ i wm, v.getAll[i]? = some wm → ∃ j v₁ v₂,
    v.getOrder false wm.value = some (some i, v₁) ∧
    v.getOrder true wm.value = some (some j, v₂) ∧
    v.getAll.reverse[j]? = some wm ∧ i + j + 1 = v.count

theorem Agrees.getOrder_absent (ha : v.Agrees) {member : Str}
    (hmember : member ∉ v.getAll.map WeightValue.value) (reverse : Bool) :
    ∃ v', v.getOrder reverse member = some (none, v') := by
  unfold getOrder
  cases hweight : (v.getWeight member).1 with
  | none =>
    dsimp only
    rw [hweight]
    exact ⟨_, rfl⟩
  | some w =>
    have hmem := (ha.getWeight_iff member w).1 hweight
    exact absurd (mem_map_of_mem hmem) hmember

theorem Agrees.getOrder_present (ha : v.Agrees) (ho : v.Ordered) {reverse : Bool}
    (hget : (v.entries reverse)[i]? = some wm) :
    ∃ v', v.getOrder reverse wm.value = some (some i, v') := by
  have hperm : (v.entries reverse).Perm v.getAll := by
    cases reverse with
    | false => exact .refl _
    | true => exact reverse_perm _
  have hmem := hperm.mem_iff.1 (mem_of_getElem? hget)
  have horder := orderIn_eq_some ((hperm.map _).nodup_iff.2 ha.nodup) (ho.notNaN wm hmem) hget
  unfold getOrder
  dsimp only
  rw [(ha.getWeight_iff wm.value wm.key).2 hmem]
  exact ⟨_, congrArg (Option.map _) horder⟩

theorem Agrees.ranked (ha : v.Agrees) (ho : v.Ordered) : v.Ranked where
  once := ha.nodup
  ascending := ho.sorted.imp fun hle => by simp [Weight.gt, Int.not_lt.2 hle]
  walked fuel hfuel := by
    rw [ha.length] at hfuel
    have hwalk := @doInAll_eq _ fuel v.tree [] (by simpa [AvlTree.stacked] using hfuel)
    rwa [show AvlTree.stacked ([] : List (WeightValue × AvlTree WeightValue)) = [] from rfl,
      append_nil] at hwalk
  scanned fuel hfuel := scanOrder_eq (by rwa [ha.length] at hfuel)
  absent _ := ha.getOrder_absent
  present i wm hget := by
    have hi := (List.getElem?_eq_some_iff.1 hget).1
    have hlength : v.count = v.getAll.length := ha.length
    have hback : v.getAll.reverse[v.getAll.length - 1 - i]? = some wm := by grind
    obtain ⟨v1, hforth⟩ := ha.getOrder_present ho (show (v.entries false)[i]? = some wm from hget)
    obtain ⟨v2, hrank⟩ := ha.getOrder_present ho (show (v.entries true)[_]? = some wm from hback)
    exact ⟨_, v1, v2, hforth, hrank, hback, by omega⟩

/-! ## Insertions -/

def insertAll (wms : List WeightValue) (v : Vset hash) : Vset hash :=
  wms.foldl (fun v wm => (v.insert wm).2) v

def firstOf (member : Str) (wms : List WeightValue) : Option (KeyValue Weight) :=
  (wms.find? fun wm => wm.value = member).map fun wm => ⟨wm.value, wm.key⟩

theorem lookup_insert (wm : WeightValue) (v : Vset hash) (member : Str) :
    (v.insert wm).2.dict.lookup member =
      (v.dict.lookup member).or (firstOf member [wm]) := by
  have hdict : (v.insert wm).2.dict = (v.dict.insert ⟨wm.value, wm.key⟩).2 := by
    unfold Vset.insert
    grind
  have hfirst : firstOf member [wm] =
      if wm.value = member then some ⟨wm.value, wm.key⟩ else none := by
    by_cases hmember : wm.value = member
    · simp [firstOf, hmember]
    · simp [firstOf, hmember]
  rw [hdict, hfirst]
  cases hlookup : v.dict.lookup wm.value with
  | none =>
    obtain ⟨-, -, hset, -⟩ :=
      HashDict.insertWithDuplicate_none (⟨wm.value, wm.key⟩ : KeyValue Weight) hlookup
    refine (congrFun hset member).trans ?_
    by_cases hmember : wm.value = member
    · subst hmember
      rw [if_pos rfl, hlookup]
      exact KeyedStore.set_self KeyValue.key _ _
    · rw [if_neg hmember, or_none]
      exact KeyedStore.set_of_ne KeyValue.key _ (Ne.symm hmember)
  | some kv =>
    obtain ⟨-, -, hsame⟩ :=
      HashDict.insertWithDuplicate_some (⟨wm.value, wm.key⟩ : KeyValue Weight) hlookup
    refine (congrFun hsame.lookup member).trans ?_
    grind

theorem lookup_insertAll (wms : List WeightValue) (v : Vset hash) (member : Str) :
    (v.insertAll wms).dict.lookup member = (v.dict.lookup member).or (firstOf member wms) := by
  induction wms generalizing v with
  | nil => exact or_none.symm
  | cons wm wms ih =>
    refine (ih (v.insert wm).2).trans ?_
    rw [lookup_insert, Option.or_assoc]
    by_cases hmember : wm.value = member
    · simp [firstOf, hmember]
    · simp [firstOf, hmember]

theorem insertAll_agrees (hwms : ∀ wm ∈ wms, wm.key.isNaN = false)
    (ha : v.Agrees) (ho : v.Ordered) : (v.insertAll wms).Agrees ∧ (v.insertAll wms).Ordered := by
  induction wms generalizing v with
  | nil => exact ⟨ha, ho⟩
  | cons wm wms ih =>
    obtain ⟨hwm, hwms⟩ := forall_mem_cons.1 hwms
    obtain ⟨ha', ho'⟩ := insert_agrees ha ho hwm
    exact ih hwms ha' ho'

/-- After insertions of numbers a sorted set lists each member with the first weight that was
inserted for it, and ranks it by its place in that list. -/
theorem ranked_insertions (hwms : ∀ wm ∈ wms, wm.key.isNaN = false) :
    ((new : Vset hash).insertAll wms).Ranked ∧
      ∀ wm, wm ∈ ((new : Vset hash).insertAll wms).getAll ↔
        wms.find? (fun x => x.value = wm.value) = some wm := by
  have hnew : (new : Vset hash).Ordered := new_ordered
  obtain ⟨ha, ho⟩ := insertAll_agrees hwms new_agrees hnew
  have hempty : ∀ member, (new : Vset hash).dict.lookup member = none := fun member =>
    congrFun HashDict.lookup_new member
  refine ⟨ha.ranked ho, fun wm => ?_⟩
  rw [getAll, ha.mem_iff, lookup_insertAll, hempty, none_or, firstOf, map_eq_some_iff]
  constructor
  · rintro ⟨⟨w, member⟩, hfind, heq⟩
    cases heq
    exact hfind
  · exact fun hfind => ⟨wm, hfind, rfl⟩

/-- Two members share a weight, and the second weight of the first one is refused. -/
theorem ranked_three_insertions :
    ∃ v v₁ v₂ : Vset (fun _ => 0), v.Ranked ∧
      v.getAll = [⟨one, [97]⟩, ⟨one, [98]⟩, ⟨two, [99]⟩] ∧
      v.getOrder false [98] = some (some 1, v₁) ∧ v.getOrder true [97] = some (some 2, v₂) := by
  have hwms : ∀ wm ∈ [⟨one, [97]⟩, ⟨one, [98]⟩, ⟨two, [99]⟩, (⟨two, [97]⟩ : WeightValue)],
      wm.key.isNaN = false := by decide
  exact ⟨_, _, _, (ranked_insertions hwms).1, rfl, rfl, rfl⟩

end Vset

end Mmkv
