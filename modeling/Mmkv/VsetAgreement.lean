import Mmkv.Vset

/-!
# The two indexes of a sorted set

`Insert` and `Erase` change the dictionary and the tree, `EraseRange` and
`EraseRangeByWeight` only the tree.  `Erase` looks for the entry of the member from the
first entry of its weight that a search in the tree meets, which need not be the first one
in the order, and goes on from there.
-/

namespace Mmkv

open List Option AvlTree HashDict KeyedStore WeightValue

/-! ## Trees with equal keys -/

namespace AvlTree

variable {K V : Type} {cmp : K → K → Ordering} {key : V → K} {rank : V → Int} {k : K} {r : Int}

def rankOrder (x y : Int) : Ordering :=
  if y < x then .gt else if x = y then .eq else .lt

theorem rankOrder_eq {x y : Int} : rankOrder x y = .eq ↔ x = y := by
  unfold rankOrder
  grind

def RanksSorted (rank : V → Int) (l : List V) : Prop :=
  l.Pairwise fun x y => rank x ≤ rank y

/-- The entries compare with the key as their ranks with the rank. -/
def ComparesBy (cmp : K → K → Ordering) (key : V → K) (rank : V → Int) (k : K) (r : Int)
    (l : List V) : Prop :=
  ∀ x ∈ l, cmp (key x) k = rankOrder (rank x) r

structure Fits (rank : V → Int) (r : Int) (path : List (Crumb V)) : Prop where
  before_le : ∀ x ∈ before path, rank x ≤ r
  le_after : ∀ x ∈ after path, r ≤ rank x

variable {t : AvlTree V} {path : List (Crumb V)}

theorem Fits.slotEq (hpath : Fits rank r path) (hsorted : RanksSorted rank t.toList)
    (hcmp : ComparesBy cmp key rank k r t.toList) : Fits rank r (slotEq cmp key k t path) := by
  induction t generalizing path with
  | nil => exact hpath
  | node left value h right ihl ihr =>
    obtain ⟨hl, hr, hcross⟩ := pairwise_append.1 hsorted
    obtain ⟨hvr, hr⟩ := pairwise_cons.1 hr
    have hvalue : cmp (key value) k = rankOrder (rank value) r := hcmp value (by simp [toList])
    have hleft : ComparesBy cmp key rank k r left.toList :=
      fun x hx => hcmp x (by simp [toList, hx])
    have hright : ComparesBy cmp key rank k r right.toList :=
      fun x hx => hcmp x (by simp [toList, hx])
    have hgoLeft : r ≤ rank value → Fits rank r (.inLeft value h right :: path) := by
      refine fun hle => ⟨hpath.before_le, ?_⟩
      have hafter := hpath.le_after
      simp only [after]
      grind
    have hgoRight : rank value ≤ r → Fits rank r (.inRight left value h :: path) := by
      refine fun hle => ⟨?_, hpath.le_after⟩
      have hbefore := hpath.before_le
      have hcross := fun x hx => hcross x hx value mem_cons_self
      simp only [before]
      grind
    unfold AvlTree.slotEq
    rw [hvalue]
    unfold rankOrder
    by_cases hgt : r < rank value
    · simp only [if_pos hgt, ↓reduceIte]
      exact ihl (hgoLeft (Int.le_of_lt hgt)) hl hleft
    · by_cases heq : rank value = r
      · simp only [if_neg hgt, if_pos heq]
        split
        · exact ihl (hgoLeft (Int.le_of_eq heq.symm)) hl hleft
        · exact ihr (hgoRight (Int.le_of_eq heq)) hr hright
      · simp only [if_neg hgt, if_neg heq, Bool.false_eq_true, ↓reduceIte]
        exact ihr (hgoRight (Int.not_lt.1 hgt)) hr hright

theorem toList_slotEq (t : AvlTree V) (path : List (Crumb V)) :
    before (slotEq cmp key k t path) ++ after (slotEq cmp key k t path) =
      before path ++ t.toList ++ after path := by
  induction t generalizing path with
  | nil => simp [slotEq, toList]
  | node left value h right ihl ihr =>
    have hboth : ∀ goLeft : Bool,
        let slot := if goLeft then slotEq cmp key k left (.inLeft value h right :: path)
          else slotEq cmp key k right (.inRight left value h :: path)
        before slot ++ after slot =
          before path ++ toList (node left value h right) ++ after path := by
      intro goLeft
      cases goLeft with
      | true => simp [ihl, before, after, toList]
      | false => simp [ihr, before, after, toList]
    exact hboth _

theorem toList_insertEq {value : V} (hsorted : RanksSorted rank t.toList)
    (hcmp : ComparesBy cmp key rank (key value) (rank value) t.toList) :
    RanksSorted rank (t.insertEq cmp key value).toList ∧
      (t.insertEq cmp key value).toList.Perm (value :: t.toList) := by
  have hfits : Fits rank (rank value) (slotEq cmp key (key value) t []) :=
    Fits.slotEq ⟨by simp [before], by simp [after]⟩ hsorted hcmp
  have hlist : before (slotEq cmp key (key value) t []) ++
      after (slotEq cmp key (key value) t []) = t.toList := by
    rw [toList_slotEq]
    simp [before, after]
  rw [insertEq, toList_linkSlot, ← hlist]
  rw [← hlist] at hsorted
  refine ⟨?_, perm_middle⟩
  obtain ⟨hbefore, hafter, hcross⟩ := pairwise_append.1 hsorted
  refine pairwise_append.2 ⟨hbefore, pairwise_cons.2 ⟨hfits.le_after, hafter⟩, ?_⟩
  intro x hx y hy
  obtain rfl | hy := mem_cons.1 hy
  · exact hfits.before_le x hx
  · exact hcross x hx y hy

variable {x : V}

theorem search_ne_nil (hsorted : RanksSorted rank t.toList)
    (hcmp : ComparesBy cmp key rank k r t.toList) (hx : x ∈ t.toList) (hrank : rank x = r) :
    (search cmp key k t path).1 ≠ nil := by
  induction t generalizing path with
  | nil => simp [toList] at hx
  | node left value h right ihl ihr =>
    obtain ⟨hl, hr, hcross⟩ := pairwise_append.1 hsorted
    obtain ⟨hvr, hr⟩ := pairwise_cons.1 hr
    have hvalue : cmp (key value) k = rankOrder (rank value) r := hcmp value (by simp [toList])
    unfold search
    rw [hvalue]
    unfold rankOrder
    by_cases hgt : r < rank value
    · simp only [if_pos hgt]
      exact ihl hl (fun y hy => hcmp y (by simp [toList, hy])) (by grind [toList])
    · by_cases heq : rank value = r
      · grind
      · have hcross := fun x hx => hcross x hx value mem_cons_self
        simp only [if_neg hgt, if_neg heq]
        exact ihr hr (fun y hy => hcmp y (by simp [toList, hy])) (by grind [toList])

theorem findIndex_of_mem (hsorted : RanksSorted rank t.toList)
    (hcmp : ComparesBy cmp key rank k r t.toList) (hx : x ∈ t.toList) (hrank : rank x = r) :
    ∃ i y, t.findIndex cmp key k = some i ∧ t.toList[i]? = some y ∧ rank y = r := by
  have hne : (search cmp key k t []).1 ≠ nil := search_ne_nil hsorted hcmp hx hrank
  unfold findIndex
  cases hsearch : search cmp key k t [] with
  | mk found path =>
    rw [hsearch] at hne
    cases found with
    | nil => exact absurd rfl hne
    | node left y h right =>
      have hlist := toList_of_search_eq hsearch
      have hfound : (search cmp key k t []).1 = node left y h right := by rw [hsearch]
      have hroot : cmp (key y) k = .eq := search_root hfound
      have hmem : y ∈ t.toList := by
        rw [hlist]
        simp [toList]
      refine ⟨_, y, rfl, ?_, ?_⟩
      · rw [hlist, toList, append_assoc, ← append_assoc (before path),
          append_assoc, List.getElem?_append_right (by simp)]
        simp
      · rw [hcmp y hmem, rankOrder_eq] at hroot
        exact hroot

/-! ### Positions -/

variable {i : Nat}

theorem locate_spec (hi : i < t.toList.length) (path : List (Crumb V)) :
    ∃ left value h right path', locate i t path = (node left value h right, path') ∧
      before path' ++ left.toList = before path ++ t.toList.take i ∧
      right.toList ++ after path' = t.toList.drop (i + 1) ++ after path := by
  induction t generalizing i path with
  | nil => simp [toList] at hi
  | node left value h right ihl ihr =>
    unfold locate
    dsimp only
    split
    next hlt =>
      obtain ⟨l, v, h', r', path', hloc, hbefore, hafter⟩ := ihl hlt (.inLeft value h right :: path)
      refine ⟨l, v, h', r', path', hloc, ?_, ?_⟩
      · rw [hbefore, toList, take_append_of_le_length (Nat.le_of_lt hlt)]
        rfl
      · rw [hafter, toList, drop_append_of_le_length hlt]
        simp [after]
    next hlt =>
      split
      next heq =>
        refine ⟨left, value, h, right, path, rfl, ?_, ?_⟩
        · simp [toList, heq]
        · simp [toList, heq]
      next hne =>
        obtain ⟨j, hj⟩ : ∃ j, i = left.toList.length + 1 + j :=
          ⟨i - left.toList.length - 1, by omega⟩
        have hsub : i - left.toList.length - 1 = j := by omega
        have hjlt : j < right.toList.length := by
          simp only [toList, length_append, length_cons] at hi
          omega
        rw [hsub]
        obtain ⟨l, v, h', r', path', hloc, hbefore, hafter⟩ :=
          ihr hjlt (.inRight left value h :: path)
        have hlist : toList (node left value h right) =
            (left.toList ++ [value]) ++ right.toList := by simp [toList]
        have hlength : (left.toList ++ [value]).length = left.toList.length + 1 := by simp
        refine ⟨l, v, h', r', path', hloc, ?_, ?_⟩
        · rw [hbefore, hlist, hj, ← hlength, take_length_add_append]
          simp [before]
        · rw [hafter, hlist, hj, Nat.add_assoc, ← hlength, drop_length_add_append]
          rfl

theorem toList_eraseIndex (hi : i < t.toList.length) :
    (t.eraseIndex i).toList = t.toList.eraseIdx i := by
  obtain ⟨left, value, h, right, path, hloc, hbefore, hafter⟩ := locate_spec hi []
  rw [eraseIndex, hloc]
  rw [toList_eraseAt, hbefore, append_assoc, hafter, eraseIdx_eq_take_drop_succ]
  simp [before, after]

variable {pred : V → Bool}

theorem erasePosition_append {l1 : List V} (l2 : List V) (i : Nat) (hl1 : ∀ y ∈ l1, pred y = false)
    (hx : pred x = true) (heq : ∀ y ∈ l1 ++ [x], cmp (key y) k = .eq) :
    erasePosition cmp key k pred i (l1 ++ x :: l2) = some (some (i + l1.length)) := by
  induction l1 generalizing i with
  | nil => simp [erasePosition, hx]
  | cons y l1 ih =>
    have hy : pred y = false := hl1 y (.head _)
    have hrest := ih (i + 1) (fun z hz => hl1 z (.tail _ hz)) fun z hz => heq z (.tail _ hz)
    obtain ⟨z, l, hz, hzeq⟩ : ∃ z l, l1 ++ x :: l2 = z :: l ∧ cmp (key z) k = .eq := by
      cases l1 <;> grind
    rw [hz] at hrest
    rw [cons_append, hz]
    unfold erasePosition
    grind

theorem exists_of_erasePosition {l : List V} {j : Nat}
    (h : erasePosition cmp key k pred i l = some (some j)) :
    j < i + l.length ∧ ∃ x ∈ l, pred x = true := by
  induction l generalizing i with
  | nil => cases h
  | cons y l ih =>
    unfold erasePosition at h
    split at h
    next hy => grind
    next => grind

theorem bound_lt {p : V → Bool} {offset : Nat} {track : Option Nat}
    (h : bound p t offset track = some i) : track = some i ∨ i < offset + t.toList.length := by
  induction t generalizing offset track with
  | nil => exact .inl h
  | node left value height right ihl ihr =>
    have hlength : (toList (node left value height right)).length =
        left.toList.length + (right.toList.length + 1) := by
      rw [toList, length_append, length_cons]
    unfold bound at h
    grind

end AvlTree

theorem Weight.compare_eq_rankOrder {x y : Weight} (hx : x.isNaN = false)
    (hy : y.isNaN = false) : x.compare y = AvlTree.rankOrder x.rank y.rank := by
  simp [Weight.compare, Weight.gt, Weight.eq, AvlTree.rankOrder, hx, hy]

/-! ## Agreement -/

inductive VsetOp where
  | insert (wm : WeightValue)
  | erase (member : Str)
  | eraseRange (left right : Int64)
  | eraseRangeByWeight (left right : Weight)
  deriving Repr, DecidableEq

def VsetOp.Weighted : VsetOp → Prop
  | .insert wm => wm.key.isNaN = false
  | _ => True

/-- The operations that keep the agreement: an erased member is not left of the entry where
the search begins, a range of positions begins at or behind its end or behind all entries, as
with a negative left bound, and a range of weights above all weights. -/
def VsetOp.Keeps {hash : Str → Nat} (v : Vset hash) : VsetOp → Prop
  | .insert _ => True
  | .erase member => ∀ w i, v.dict.lookup member = some ⟨member, w⟩ →
      v.tree.findIndex Weight.compare key w = some i →
        ∀ wm ∈ v.tree.toList.take i, wm.value ≠ member
  | .eraseRange left right =>
    if left.toInt < 0 then v.count - left.toInt < 2 ^ 63
    else v.count ≤ left.toInt ∨ 0 ≤ right.toInt ∧ right.toInt ≤ left.toInt
  | .eraseRangeByWeight left _ => ∀ wm ∈ v.tree.toList, wm.key.compare left = .lt

namespace Vset

variable {hash : Str → Nat} {v v' : Vset hash}

def step : VsetOp → Vset hash → Option (Vset hash)
  | .insert wm, v => some (v.insert wm).2
  | .erase member, v => (v.erase member).map Prod.snd
  | .eraseRange left right, v => (v.eraseRange left.toInt right.toInt).map Prod.snd
  | .eraseRangeByWeight left right, v => (v.eraseRangeByWeight left right).map Prod.snd

def run : List VsetOp → Vset hash → Option (Vset hash)
  | [], v => some v
  | op :: ops, v => do
    let v ← v.step op
    run ops v

/-- The tree has one entry for each entry of the dictionary and no others, and the two
report the same size. -/
structure Agrees (v : Vset hash) : Prop where
  mem_iff : ∀ w member,
    ⟨w, member⟩ ∈ v.tree.toList ↔ v.dict.lookup member = some ⟨member, w⟩
  nodup : (v.tree.toList.map value).Nodup
  length : v.count = v.tree.toList.length
  size : v.count = v.dict.size

structure Ordered (v : Vset hash) : Prop where
  sorted : AvlTree.RanksSorted (fun wm => wm.key.rank) v.tree.toList
  notNaN : ∀ wm ∈ v.tree.toList, wm.key.isNaN = false

variable {w : Weight}

theorem Ordered.comparesBy (h : v.Ordered) (hw : w.isNaN = false) :
    AvlTree.ComparesBy Weight.compare key (fun wm => wm.key.rank) w w.rank
      v.tree.toList :=
  fun wm hwm => Weight.compare_eq_rankOrder (h.notNaN wm hwm) hw

/-! ### Insertion -/

variable {wm : WeightValue}

theorem Agrees.add (h : v.Agrees) (hnone : v.dict.lookup wm.value = none)
    (htree : v'.tree.toList.Perm (wm :: v.tree.toList))
    (hdict : v'.dict.lookup = v.dict.lookup.set KeyValue.key ⟨wm.value, wm.key⟩)
    (hcount : v'.count = v.count + 1) (hsize : v'.dict.size = v.dict.size + 1) :
    v'.Agrees where
  mem_iff w member := by
    rw [htree.mem_iff, mem_cons, h.mem_iff, hdict]
    by_cases hmember : member = wm.value
    · subst hmember
      rw [hnone, set_self KeyValue.key v.dict.lookup ⟨wm.value, wm.key⟩]
      cases wm
      simp [eq_comm]
    · have hne : member ≠ KeyValue.key (⟨wm.value, wm.key⟩ : KeyValue Weight) := hmember
      rw [set_of_ne KeyValue.key v.dict.lookup hne]
      grind
  nodup := by
    rw [(htree.map value).nodup_iff, map_cons, nodup_cons]
    refine ⟨?_, h.nodup⟩
    intro hmem
    obtain ⟨⟨w, member⟩, hmem, rfl⟩ := mem_map.1 hmem
    rw [h.mem_iff, hnone] at hmem
    cases hmem
  length := by rw [hcount, htree.length_eq, length_cons, h.length]
  size := by rw [hcount, hsize, h.size]

theorem Agrees.of_same (h : v.Agrees) (htree : v'.tree = v.tree) (hcount : v'.count = v.count)
    (hdict : HashDict.Same v.dict v'.dict) : v'.Agrees where
  mem_iff := by
    rw [htree, hdict.lookup]
    exact h.mem_iff
  nodup := by
    rw [htree]
    exact h.nodup
  length := by rw [hcount, htree, h.length]
  size := by rw [hcount, hdict.size, h.size]

theorem Ordered.of_tree_eq (h : v.Ordered) (htree : v'.tree = v.tree) : v'.Ordered := by
  constructor
  · rw [htree]
    exact h.sorted
  · rw [htree]
    exact h.notNaN

theorem insert_agrees (hv : v.Agrees) (ho : v.Ordered) {wm : WeightValue}
    (hwm : wm.key.isNaN = false) : (v.insert wm).2.Agrees ∧ (v.insert wm).2.Ordered := by
  let elem : KeyValue Weight := ⟨wm.value, wm.key⟩
  cases hlookup : v.dict.lookup wm.value with
  | some kv =>
    obtain ⟨hfalse, -, hsame⟩ := insertWithDuplicate_some elem hlookup
    have hflag : (v.dict.insert elem).1 = false := hfalse
    have hinsert : v.insert wm = (false, { v with dict := (v.dict.insert elem).2 }) :=
      if_neg (Bool.eq_false_iff.1 hflag)
    rw [hinsert]
    exact ⟨hv.of_same rfl rfl hsame, ho.of_tree_eq rfl⟩
  | none =>
    obtain ⟨htrue, -, hset, hsize⟩ := insertWithDuplicate_none elem hlookup
    have hinsert : v.insert wm =
        (true, ⟨v.tree.insertEq Weight.compare key wm, v.count + 1,
          (v.dict.insert elem).2⟩) := if_pos htrue
    rw [hinsert]
    obtain ⟨hsorted, hperm⟩ := toList_insertEq ho.sorted (ho.comparesBy hwm)
    refine ⟨hv.add hlookup hperm hset rfl hsize, hsorted, ?_⟩
    grind [hperm.mem_iff, ho.notNaN]

/-! ### Erasure -/

theorem Agrees.remove (h : v.Agrees) {w : Weight} {member : Str}
    (htree : v.tree.toList.Perm (⟨w, member⟩ :: v'.tree.toList))
    (hdict : v'.dict.lookup = v.dict.lookup.remove member)
    (hcount : v'.count = v.count - 1) (hsize : v'.dict.size = v.dict.size - 1) :
    v'.Agrees := by
  have hnodup := (htree.map value).nodup_iff.1 h.nodup
  rw [map_cons, nodup_cons] at hnodup
  refine ⟨?_, hnodup.2, ?_, by rw [hcount, hsize, h.size]⟩
  · intro w' member'
    rw [hdict]
    by_cases hmember : member' = member
    · subst hmember
      rw [remove_self]
      grind
    · rw [remove_of_ne _ hmember, ← h.mem_iff, htree.mem_iff, mem_cons]
      grind
  · have hlength := htree.length_eq
    rw [length_cons, ← h.length] at hlength
    omega

variable {member : Str} {i : Nat}

theorem eraseMember_eq (ho : v.Ordered) (hnodup : (v.tree.toList.map value).Nodup)
    (hmem : ⟨w, member⟩ ∈ v.tree.toList)
    (hfind : v.tree.findIndex Weight.compare key w = some i)
    (hleft : ∀ wm ∈ v.tree.toList.take i, wm.value ≠ member) :
    ∃ tree, v.eraseMember w member = some { v with tree := tree, count := v.count - 1 } ∧
      tree.toList.Sublist v.tree.toList ∧
      v.tree.toList.Perm (⟨w, member⟩ :: tree.toList) := by
  have hw : w.isNaN = false := ho.notNaN _ hmem
  obtain ⟨i', y, hfind', hy, hrank⟩ := findIndex_of_mem ho.sorted (ho.comparesBy hw) hmem rfl
  obtain rfl : i = i' := Option.some.inj (hfind.symm.trans hfind')
  have hsplit : v.tree.toList = v.tree.toList.take i ++ v.tree.toList.drop i :=
    (take_append_drop i _).symm
  have hdrop : (⟨w, member⟩ : WeightValue) ∈ v.tree.toList.drop i := by grind
  obtain ⟨l1, l2, hl⟩ := append_of_mem hdrop
  have hilt : i < v.tree.toList.length := (List.getElem?_eq_some_iff.1 hy).1
  rw [hl] at hsplit
  -- Other entries have other members.
  have hother : ∀ wm ∈ l1, decide (wm.value = member) = false := by
    rw [hsplit] at hnodup
    grind
  -- The entries on the way have the weight of the entry where the search began.
  have hequal : ∀ wm ∈ l1 ++ [⟨w, member⟩], Weight.compare wm.key w = .eq := by
    intro wm hwm
    have hmem' : wm ∈ l1 ++ ⟨w, member⟩ :: l2 := by grind
    have hsorted : AvlTree.RanksSorted (fun wm : WeightValue => wm.key.rank)
        (l1 ++ ⟨w, member⟩ :: l2) := by
      rw [← hl]
      exact ho.sorted.sublist (drop_sublist i _)
    have hle : wm.key.rank ≤ w.rank := by grind [AvlTree.RanksSorted]
    have hge : w.rank ≤ wm.key.rank := by
      have hhead : l1 ++ ⟨w, member⟩ :: l2 = y :: v.tree.toList.drop (i + 1) := by
        rw [← hl, drop_eq_getElem_cons hilt, (List.getElem?_eq_some_iff.1 hy).2]
      rw [hhead] at hsorted hmem'
      grind [AvlTree.RanksSorted, pairwise_cons]
    have hwm : wm.key.isNaN = false := ho.notNaN wm (by grind)
    rw [Weight.compare_eq_rankOrder hwm hw, rankOrder_eq]
    exact Int.le_antisymm hle hge
  have hposition := erasePosition_append l2 i hother
    (decide_eq_true (rfl : (⟨w, member⟩ : WeightValue).value = member)) hequal
  have htake : (v.tree.toList.take i).length = i := length_take_of_le (Nat.le_of_lt hilt)
  have hlist : v.tree.toList = (v.tree.toList.take i ++ l1) ++ ⟨w, member⟩ :: l2 := by
    rw [append_assoc, ← hsplit]
  have hlength : (v.tree.toList.take i ++ l1).length = i + l1.length := by
    rw [length_append, htake]
  have herase : (v.tree.eraseIndex (i + l1.length)).toList =
      (v.tree.toList.take i ++ l1) ++ l2 := by
    rw [toList_eraseIndex]
    · conv_lhs => rw [hlist]
      rw [eraseIdx_append_of_length_le (Nat.le_of_eq hlength), hlength, Nat.sub_self]
      rfl
    · rw [hlist, length_append, hlength]
      simp
  refine ⟨v.tree.eraseIndex (i + l1.length), ?_, ?_, ?_⟩
  · unfold eraseMember
    simp only [hfind, hl, hposition]
  · rw [herase]
    conv_rhs => rw [hlist]
    exact (List.Sublist.refl _).append (sublist_cons_self _ _)
  · rw [herase]
    conv_lhs => rw [hlist]
    exact perm_middle

variable {r : Bool × Vset hash}

theorem erase_agrees (hv : v.Agrees) (ho : v.Ordered) (hkeeps : (VsetOp.erase member).Keeps v)
    (hrun : v.erase member = some r) : r.2.Agrees ∧ r.2.Ordered := by
  obtain ⟨hfound, hdict, hsize⟩ := extract_spec member v.dict
  unfold erase at hrun
  dsimp only at hrun
  rw [hfound] at hrun
  cases hlookup : v.dict.lookup member with
  | none =>
    rw [hlookup] at hrun hsize
    cases hrun
    rw [remove_of_eq_none hlookup] at hdict
    exact ⟨hv.of_same rfl rfl ⟨hdict, hsize⟩, ho.of_tree_eq rfl⟩
  | some kv =>
    obtain ⟨k, w⟩ := kv
    obtain rfl : k = member := key_of_lookup hlookup
    rw [hlookup] at hrun hsize
    have hmem := (hv.mem_iff w k).2 hlookup
    obtain ⟨i, -, hfind, -⟩ :=
      findIndex_of_mem ho.sorted (ho.comparesBy (ho.notNaN _ hmem)) hmem rfl
    have ho' : ({ v with dict := (v.dict.extract k).2 } : Vset hash).Ordered := ho.of_tree_eq rfl
    obtain ⟨tree, herase, hsub, hperm⟩ :=
      eraseMember_eq ho' hv.nodup hmem hfind (hkeeps w i hlookup hfind)
    dsimp only at hrun
    rw [herase] at hrun
    cases hrun
    refine ⟨hv.remove hperm hdict rfl hsize, ho.sorted.sublist hsub, ?_⟩
    exact fun wm hwm => ho.notNaN wm (hsub.subset hwm)

/-! ### Ranges -/

theorem le_eraseRun (back : Bool) (n : Nat) (iter : Option Nat) (ret : Nat) (v : Vset hash) :
    ret ≤ (v.eraseRun back n iter ret).1 := by
  induction n generalizing iter ret v with
  | zero => exact Nat.le_refl _
  | succ n ih =>
    cases iter with
    | none => exact ih none ret v
    | some i => exact Nat.le_trans (Nat.le_succ ret) (ih _ _ _)

variable {back : Bool} {n : Nat} {iter : Option Nat} {ret : Nat}

/-- The tree counts its entries. -/
def Counted (v : Vset hash) : Prop :=
  v.count = v.tree.toList.length

def ValidIndex (v : Vset hash) (iter : Option Nat) : Prop :=
  ∀ i, iter = some i → i < v.tree.toList.length

theorem validIndex_begin (steps : Nat) :
    v.ValidIndex ((nextIndex v.tree.toList.length)^[steps] v.begin) := by
  induction steps with
  | zero =>
    intro i hi
    simp only [Function.iterate_zero, id_eq, begin] at hi
    grind
  | succ steps ih =>
    intro i hi
    rw [Function.iterate_succ_apply'] at hi
    generalize (nextIndex v.tree.toList.length)^[steps] v.begin = iter at hi
    cases iter with
    | none => cases hi
    | some j => grind [nextIndex]

theorem ValidIndex.prev (h : v.ValidIndex iter) : v.ValidIndex (prevIndex iter) := by
  intro i hi
  cases iter with
  | none => cases hi
  | some j => cases j <;> grind [ValidIndex, prevIndex]

theorem validIndex_beforeEnd (steps : Nat) : v.ValidIndex (prevIndex^[steps] v.beforeEnd) := by
  induction steps with
  | zero =>
    intro i hi
    simp only [Function.iterate_zero, id_eq, beforeEnd] at hi
    grind
  | succ steps ih =>
    rw [Function.iterate_succ_apply']
    exact ih.prev

theorem ValidIndex.erased (h : v.ValidIndex (some i)) :
    ValidIndex { v with tree := v.tree.eraseIndex i, count := v.count - 1 }
      (if back then prevIndex (some i)
        else if i < (v.tree.eraseIndex i).toList.length then some i else none) := by
  have hi := h i rfl
  intro j hj
  have hlength := toList_eraseIndex hi
  cases i <;> grind [prevIndex]

theorem eraseRun_length {ret' : Nat} (hiter : v.ValidIndex iter)
    (hrun : v.eraseRun back n iter ret = (ret', v')) :
    v'.tree.toList.length + ret' = v.tree.toList.length + ret ∧ v'.dict = v.dict := by
  induction n generalizing iter ret v with
  | zero =>
    cases hrun
    exact ⟨rfl, rfl⟩
  | succ n ih =>
    cases iter with
    | none => exact ih hiter hrun
    | some i =>
      have hi := hiter i rfl
      have hlength : (v.tree.eraseIndex i).toList.length + 1 = v.tree.toList.length := by
        rw [toList_eraseIndex hi, length_eraseIdx_of_lt hi]
        omega
      obtain ⟨hlength', hdict⟩ := ih hiter.erased hrun
      exact ⟨by grind, hdict⟩

/-- What is left after `n` entries have been erased from the tree. -/
def ErasesFrom (v : Vset hash) (n : Nat) (v' : Vset hash) : Prop :=
  ∃ back rounds iter, v.ValidIndex iter ∧ v.eraseRun back rounds iter 0 = (n, v')

theorem ErasesFrom.refl (v : Vset hash) : v.ErasesFrom 0 v :=
  ⟨false, 0, none, fun _ hi => (by cases hi), rfl⟩

theorem ErasesFrom.length (h : v.ErasesFrom n v') :
    v'.tree.toList.length + n = v.tree.toList.length ∧ v'.dict = v.dict := by
  obtain ⟨back, rounds, iter, hiter, hrun⟩ := h
  exact eraseRun_length hiter hrun

theorem eraseRange_erasesFrom {left right : Int} (hrun : v.eraseRange left right = some (n, v')) :
    v.ErasesFrom n v' := by
  unfold eraseRange at hrun
  dsimp only at hrun
  split at hrun
  next =>
    cases hrun
    exact .refl v
  next =>
    split at hrun
    all_goals
      obtain ⟨steps, -, hrun⟩ := bind_eq_some_iff.1 hrun
      obtain ⟨rounds, -, hrun⟩ := bind_eq_some_iff.1 hrun
    · exact ⟨_, _, _, validIndex_begin steps, Option.some.inj hrun⟩
    · exact ⟨_, _, _, validIndex_beforeEnd steps, Option.some.inj hrun⟩

theorem eraseRangeByWeight_erasesFrom {left right : Weight}
    (hrun : v.eraseRangeByWeight left right = some (n, v')) : v.ErasesFrom n v' := by
  unfold eraseRangeByWeight at hrun
  split at hrun
  next =>
    cases hrun
    exact .refl v
  next i hi =>
    obtain ⟨rounds, -, hrun⟩ := map_eq_some_iff.1 hrun
    have hlt := bound_lt hi
    exact ⟨_, _, _, by grind [ValidIndex], hrun⟩

theorem Agrees.erased_eq_zero (h : v.Agrees) (h' : v'.Agrees)
    (hlength : v'.tree.toList.length + n = v.tree.toList.length) (hdict : v'.dict = v.dict) :
    n = 0 := by
  have hsize := h'.size
  rw [hdict, ← h.size, h.length, h'.length] at hsize
  omega

theorem tree_eraseMember_of_left (hnodup : (v.tree.toList.map value).Nodup)
    (hfind : v.tree.findIndex Weight.compare key w = some i)
    (hwm : wm ∈ v.tree.toList.take i) (hmember : wm.value = member)
    (hrun : v.eraseMember w member = some v') : v'.tree = v.tree := by
  unfold eraseMember at hrun
  rw [hfind] at hrun
  dsimp only at hrun
  split at hrun
  next => cases hrun
  next =>
    cases hrun
    rfl
  next j hposition =>
    obtain ⟨-, wm', hwm', hpred⟩ := exists_of_erasePosition hposition
    rw [← take_append_drop i v.tree.toList, map_append] at hnodup
    have hdisjoint := (nodup_append.1 hnodup).2.2
    refine absurd ?_ (hdisjoint _ (mem_map_of_mem hwm) _ (mem_map_of_mem hwm'))
    rw [hmember, of_decide_eq_true hpred]

theorem dict_eraseMember (hrun : v.eraseMember w member = some v') : v'.dict = v.dict := by
  unfold eraseMember at hrun
  split at hrun
  next =>
    cases hrun
    rfl
  next => grind

theorem dict_erase (hrun : v.erase member = some r) : r.2.dict = (v.dict.extract member).2 := by
  unfold erase at hrun
  dsimp only at hrun
  split at hrun
  next =>
    cases hrun
    rfl
  next =>
    obtain ⟨v1, hmember, rfl⟩ := map_eq_some_iff.1 hrun
    exact dict_eraseMember hmember

theorem new_agrees : (new : Vset hash).Agrees where
  mem_iff w member := by
    rw [new, lookup_new]
    simp [AvlTree.toList, KeyedStore.empty]
  nodup := nodup_nil
  length := rfl
  size := rfl

/-- `GetWeight` answers for the members that `GetAll` lists. -/
theorem Agrees.getWeight_iff (h : v.Agrees) (member : Str) (w : Weight) :
    (v.getWeight member).1 = some w ↔ ⟨w, member⟩ ∈ v.getAll := by
  have hfind : (v.getWeight member).1 = (v.dict.lookup member).map KeyValue.value := by
    rw [← (find_spec member v.dict).1]
    rfl
  rw [getAll, h.mem_iff, hfind, map_eq_some_iff]
  constructor
  · rintro ⟨⟨k, w'⟩, hlookup, rfl⟩
    obtain rfl : k = member := key_of_lookup hlookup
    exact hlookup
  · exact fun hlookup => ⟨_, hlookup, rfl⟩

theorem insert_erased {found : Bool} (hrun : v.erase member = some (found, v')) (w : Weight) :
    (v'.insert ⟨w, member⟩).1 = true := by
  have hnone : v'.dict.lookup member = none := by
    have hdict : v'.dict = (v.dict.extract member).2 := dict_erase hrun
    rw [hdict, (extract_spec member v.dict).2.1, remove_self]
  let elem : KeyValue Weight := ⟨member, w⟩
  have hflag : (v'.dict.insert elem).1 = true := (insertWithDuplicate_none elem hnone).1
  exact congrArg Prod.fst (if_pos hflag)

def one : Weight := ⟨0x3ff0000000000000⟩

def two : Weight := ⟨0x4000000000000000⟩

end Vset

end Mmkv
