import Mmkv.AvlWalk

/-!
# Ranges of a sorted set

The bounds of a range of weights split the entries of the tree into those below it, those
inside and those above.  The loops over a range test for its end after their body, so they
go wrong where nothing is inside, and the descending one also where nothing is above.
-/

namespace Mmkv

open List Option AvlTree Nat Vset AvlHeap

/-! ## Bounds as positions -/

/-- The iterator at the first of the entries from a position on, or the end. -/
def firstIndex {α : Type} (i : Nat) (rest : List α) : Option Nat :=
  if rest.isEmpty then none else some i

variable {V : Type} {t : AvlTree V}

theorem AvlTree.bound_congr {p q : V → Bool} {offset : Nat} {track : Option Nat}
    (h : ∀ x ∈ t.toList, p x = q x) : t.bound p offset track = t.bound q offset track := by
  induction t generalizing offset track with
  | nil => rfl
  | node left value s right ihl ihr =>
    rw [bound, bound, h value (by simp [toList]), ihl fun x hx => h x (by simp [toList, hx]),
      ihr fun x hx => h x (by simp [toList, hx])]

theorem AvlTree.bound_of_ascends {p : V → Bool} (h : Ascends p t.toList) :
    t.bound p 0 none =
      firstIndex (t.toList.filter fun x => !p x).length (t.toList.filter p) := by
  rw [bound_eq_findIdx? h, or_none]
  conv_lhs => rw [← h.split]
  rw [List.findIdx?_append, List.findIdx?_eq_none_iff.2 (by simp)]
  cases hrest : t.toList.filter p with
  | nil => rfl
  | cons x rest =>
    have hx : p x = true := (mem_filter.1 (hrest ▸ mem_cons_self)).2
    simp [firstIndex, List.findIdx?_cons, hx]

namespace Vset

variable {hash : Str → Nat} {v : Vset hash} {l r : Weight} {x y : Int}

/-- The weight of the entry is between the two. -/
def within (l r : Weight) (wm : WeightValue) : Bool :=
  decide (l.rank ≤ wm.key.rank) && decide (wm.key.rank ≤ r.rank)

def below (l : Weight) (v : Vset hash) : List WeightValue :=
  v.tree.toList.filter fun wm => !decide (l.rank ≤ wm.key.rank)

def inside (l r : Weight) (v : Vset hash) : List WeightValue :=
  v.tree.toList.filter (within l r)

def above (r : Weight) (v : Vset hash) : List WeightValue :=
  v.tree.toList.filter fun wm => !decide (wm.key.rank ≤ r.rank)

/-- The bounds of a range, and the entries that they separate. -/
structure Split (l r : Weight) (v : Vset hash) : Prop where
  list : v.tree.toList = v.below l ++ (v.inside l r ++ v.above r)
  outside : (v.tree.toList.filter fun wm => !within l r wm) = v.below l ++ v.above r
  lower : v.lowerBound l = firstIndex (v.below l).length (v.inside l r ++ v.above r)
  upper : v.upperBound r = firstIndex (v.below l ++ v.inside l r).length (v.above r)

theorem rankOrder_ne_lt : AvlTree.rankOrder x y ≠ .lt ↔ y ≤ x := by
  unfold AvlTree.rankOrder
  grind

theorem rankOrder_eq_gt : AvlTree.rankOrder x y = .gt ↔ y < x := by
  unfold AvlTree.rankOrder
  grind

theorem Ordered.lowerBound_eq (ho : v.Ordered) (hl : l.isNaN = false) :
    v.lowerBound l = v.tree.bound (fun wm => decide (l.rank ≤ wm.key.rank)) 0 none :=
  bound_congr fun wm hwm => by
    rw [Weight.compare_eq_rankOrder (ho.notNaN wm hwm) hl]
    exact decide_eq_decide.2 rankOrder_ne_lt

theorem Ordered.upperBound_eq (ho : v.Ordered) (hr : r.isNaN = false) :
    v.upperBound r = v.tree.bound (fun wm => !decide (wm.key.rank ≤ r.rank)) 0 none :=
  bound_congr fun wm hwm => by
    rw [Weight.compare_eq_rankOrder (ho.notNaN wm hwm) hr, ← decide_not]
    exact decide_eq_decide.2 (rankOrder_eq_gt.trans Int.not_le.symm)

theorem Ordered.split (ho : v.Ordered) (hl : l.isNaN = false) (hr : r.isNaN = false)
    (hle : l.rank ≤ r.rank) : Split l r v := by
  have hp : Ascends (fun wm : WeightValue => decide (l.rank ≤ wm.key.rank)) v.tree.toList :=
    List.Pairwise.imp (fun hxy hx => by
      rw [decide_eq_true_eq] at hx ⊢
      exact Int.le_trans hx hxy) ho.sorted
  have hq : Ascends (fun wm : WeightValue => !decide (wm.key.rank ≤ r.rank)) v.tree.toList :=
    List.Pairwise.imp (fun hxy hx => by
      rw [Bool.not_eq_true', decide_eq_false_iff_not] at hx ⊢
      exact fun hy => hx (Int.le_trans hxy hy)) ho.sorted
  have hinside : (v.tree.toList.filter fun wm =>
      decide (l.rank ≤ wm.key.rank) && !!decide (wm.key.rank ≤ r.rank)) = v.inside l r :=
    filter_congr fun wm _ => by rw [Bool.not_not]; rfl
  have hlist := hp.split_range hq fun wm _ hwm => by grind
  rw [hinside] at hlist
  replace hlist : v.tree.toList = v.below l ++ (v.inside l r ++ v.above r) := hlist.symm
  have hlower : v.tree.toList.filter (fun wm => decide (l.rank ≤ wm.key.rank)) =
      v.inside l r ++ v.above r :=
    append_cancel_left (hp.split.trans hlist)
  have hupper : (v.tree.toList.filter fun wm => !!decide (wm.key.rank ≤ r.rank)) =
      v.below l ++ v.inside l r :=
    append_cancel_right (hq.split.trans (hlist.trans (append_assoc _ _ _).symm))
  refine ⟨hlist, ?_, ?_, ?_⟩
  · have hbelow : ∀ wm ∈ v.below l, (!within l r wm) = true := fun wm hwm => by
      have hwm := (mem_filter.1 hwm).2
      rw [Bool.not_eq_true'] at hwm ⊢
      rw [within, hwm, Bool.false_and]
    have habove : ∀ wm ∈ v.above r, (!within l r wm) = true := fun wm hwm => by
      have hwm := (mem_filter.1 hwm).2
      rw [Bool.not_eq_true'] at hwm ⊢
      rw [within, hwm, Bool.and_false]
    have hnone : ∀ wm ∈ v.inside l r, ¬ (!within l r wm) = true := fun wm hwm => by
      rw [(mem_filter.1 hwm).2]
      exact Bool.false_ne_true
    conv_lhs => rw [hlist]
    rw [filter_append, filter_append, filter_eq_self.2 hbelow,
      filter_eq_nil_iff.2 hnone, filter_eq_self.2 habove, nil_append]
  · rw [ho.lowerBound_eq hl, bound_of_ascends hp, hlower]
    rfl
  · rw [ho.upperBound_eq hr, bound_of_ascends hq, hupper]
    rfl

/-! ## Reads -/

theorem firstIndex_of_ne {α : Type} {rest : List α} (h : rest ≠ []) (i : Nat) :
    firstIndex i rest = some i :=
  if_neg (by simpa using h)

section

variable (h : Split l r v)

include h

theorem Split.getSizeByWeight : v.getSizeByWeight l r = some (v.inside l r).length := by
  rw [Vset.getSizeByWeight, h.lower, h.upper]
  by_cases hrest : v.inside l r ++ v.above r = []
  · rw [hrest, (append_eq_nil_iff.1 hrest).1]
    rfl
  · rw [firstIndex_of_ne hrest]
    by_cases habove : v.above r = []
    · have hlist := congrArg List.length h.list
      simp only [length_append, habove, length_nil] at hlist
      rw [habove]
      refine congrArg some ?_
      omega
    · rw [firstIndex_of_ne habove, length_append]
      refine (if_pos (le_add_right _ _)).trans (congrArg some ?_)
      omega

/-- The number of rounds of a loop that tests after its body. -/
theorem Split.distancePos (hrest : v.inside l r ++ v.above r ≠ []) :
    v.distancePos (v.below l).length (v.upperBound r) =
      if v.inside l r = [] then none else some (v.inside l r).length := by
  have hsize := h.getSizeByWeight
  rw [Vset.getSizeByWeight, h.lower, firstIndex_of_ne hrest] at hsize
  replace hsize : v.distance (v.below l).length (v.upperBound r) =
    some (v.inside l r).length := hsize
  rw [Vset.distancePos, hsize, h.upper]
  by_cases hinside : v.inside l r = []
  · have habove : v.above r ≠ [] := by simpa [hinside] using hrest
    rw [if_pos hinside, if_pos]
    rw [firstIndex_of_ne habove, hinside, append_nil]
  · rw [if_neg hinside, if_neg]
    unfold firstIndex
    split
    · exact fun heq => by cases heq
    · intro heq
      have hlength := Option.some.inj heq
      rw [length_append] at hlength
      exact hinside (length_eq_zero_iff.1 (by omega))

theorem Split.drop :
    (v.tree.toList.drop (v.below l).length).take (v.inside l r).length = v.inside l r := by
  rw [h.list, drop_left, take_left]

/-- The ascending range is right unless the loop starts at a bound that it has passed. -/
theorem Split.getRangeByWeight_iff :
    v.getRangeByWeight l r = some (v.inside l r) ↔ v.inside l r ≠ [] ∨ v.above r = [] := by
  rw [getRangeByWeight, h.lower]
  by_cases hrest : v.inside l r ++ v.above r = []
  · obtain ⟨hinside, habove⟩ := append_eq_nil_iff.1 hrest
    simp [hinside, habove, firstIndex]
  · rw [firstIndex_of_ne hrest]
    dsimp only
    rw [h.distancePos hrest]
    by_cases hinside : v.inside l r = []
    · grind
    · simp [hinside, h.drop]

/-- The descending range also needs an entry above it. -/
theorem Split.getRRangeByWeight_iff :
    v.getRRangeByWeight l r = some (v.inside l r).reverse ↔
      v.inside l r ≠ [] ∧ v.above r ≠ [] := by
  rw [getRRangeByWeight, h.lower, h.upper]
  by_cases habove : v.above r = []
  · have hend : firstIndex (v.below l ++ v.inside l r).length (v.above r) = none := by
      rw [habove]
      rfl
    grind
  · rw [firstIndex_of_ne habove, firstIndex_of_ne (by simp [habove])]
    dsimp only
    rw [length_append, Nat.add_sub_cancel_left, h.drop]
    by_cases hinside : v.inside l r = []
    · simp [hinside]
    · have hpos := length_pos_of_ne_nil hinside
      simp [hinside, habove, hpos]

end

/-! ## Erasure -/

/-- `n` rounds erase the next `n` entries. -/
theorem eraseRun_forward (a b c : List WeightValue) (ret : Nat)
    (hlist : v.tree.toList = a ++ (b ++ c)) :
    ∃ v' : Vset hash, v.eraseRun false b.length (firstIndex a.length (b ++ c)) ret =
        (ret + b.length, v') ∧ v'.tree.toList = a ++ c ∧ v'.dict = v.dict := by
  induction b generalizing v ret with
  | nil => exact ⟨v, rfl, hlist, rfl⟩
  | cons x b ih =>
    let v1 : Vset hash := { v with
      tree := v.tree.eraseIndex a.length
      count := v.count - 1 }
    have hlt : a.length < v.tree.toList.length := by grind
    have hlist1 : v1.tree.toList = a ++ (b ++ c) := by
      rw [toList_eraseIndex hlt, hlist, eraseIdx_append_of_length_le (Nat.le_refl _), Nat.sub_self]
      rfl
    have hiter : (if a.length < v1.tree.toList.length then some a.length else none) =
        firstIndex a.length (b ++ c) := by
      rw [hlist1, length_append]
      by_cases hrest : b ++ c = []
      · simp [hrest, firstIndex]
      · have hpos := length_pos_of_ne_nil hrest
        rw [firstIndex_of_ne hrest, if_pos (by omega)]
    obtain ⟨v', hrun, htree, hdict⟩ := ih (ret + 1) hlist1
    refine ⟨v', ?_, htree, hdict⟩
    rw [length_cons, cons_append, firstIndex_of_ne (cons_ne_nil _ _), eraseRun,
      ← add_assoc, add_right_comm, ← hrun, ← hiter]
    rfl

theorem Split.eraseRangeByWeight (h : Split l r v) :
    (v.inside l r ≠ [] ∨ v.above r = [] → ∃ v', v.eraseRangeByWeight l r =
        some ((v.inside l r).length, v') ∧ v'.tree.toList = v.below l ++ v.above r ∧
        v'.dict = v.dict) ∧
      (v.inside l r = [] → v.above r ≠ [] → v.eraseRangeByWeight l r = none) := by
  rw [Vset.eraseRangeByWeight, h.lower]
  by_cases hrest : v.inside l r ++ v.above r = []
  · obtain ⟨hinside, habove⟩ := append_eq_nil_iff.1 hrest
    have hlist := h.list
    rw [hinside, nil_append] at hlist
    rw [hrest, hinside]
    exact ⟨fun _ => ⟨v, rfl, hlist, rfl⟩, fun _ hne => absurd habove hne⟩
  · rw [firstIndex_of_ne hrest]
    dsimp only
    rw [h.distancePos hrest]
    constructor
    · intro hor
      have hinside : v.inside l r ≠ [] := fun hinside =>
        hor.elim (fun hne => hne hinside) fun habove => hrest (by rw [hinside, habove]; rfl)
      obtain ⟨v', hrun, htree, hdict⟩ := eraseRun_forward _ _ _ 0 h.list
      rw [firstIndex_of_ne hrest, zero_add] at hrun
      grind
    · grind

end Vset

/-! ## Order in every run -/

theorem AvlTree.plug_locate (i : Nat) (t : AvlTree V) (path : List (Crumb V)) :
    plug (locate i t path).2 (locate i t path).1 = plug path t := by
  induction t generalizing i path with
  | nil => rfl
  | node left value s right ihl ihr =>
    unfold locate
    dsimp only
    split
    · exact ihl _ _
    · split
      · rfl
      · exact ihr _ _

theorem AvlTree.sublist_eraseIndex (i : Nat) (t : AvlTree V) :
    (t.eraseIndex i).toList.Sublist t.toList := by
  have hplug := plug_locate i t []
  rw [eraseIndex]
  generalize locate i t [] = found at hplug ⊢
  obtain ⟨sub, path⟩ := found
  replace hplug : plug path sub = t := hplug
  rw [← hplug]
  cases sub with
  | nil => exact List.Sublist.refl _
  | node left x s right => exact sublist_eraseAt

namespace Vset

variable {hash : Str → Nat} {v v' : Vset hash} {l r : Weight}

theorem sublist_eraseRun (back : Bool) (n : Nat) (iter : Option Nat) (ret : Nat)
    (v : Vset hash) : (v.eraseRun back n iter ret).2.tree.toList.Sublist v.tree.toList := by
  induction n generalizing iter ret v with
  | zero => exact List.Sublist.refl _
  | succ n ih =>
    cases iter with
    | none => exact ih none ret v
    | some i => exact (ih _ _ _).trans (sublist_eraseIndex i v.tree)

theorem Ordered.of_sublist (ho : v.Ordered) (hsub : v'.tree.toList.Sublist v.tree.toList) :
    v'.Ordered :=
  ⟨ho.sorted.sublist hsub, fun wm hwm => ho.notNaN wm (hsub.subset hwm)⟩

theorem Ordered.insert (ho : v.Ordered) {wm : WeightValue} (hwm : wm.key.isNaN = false) :
    (v.insert wm).2.Ordered := by
  unfold Vset.insert
  dsimp only
  split
  · obtain ⟨hsorted, hperm⟩ := toList_insertEq ho.sorted (ho.comparesBy hwm)
    refine ⟨hsorted, fun wm' hwm' => ?_⟩
    obtain rfl | hwm' := mem_cons.1 (hperm.mem_iff.1 hwm')
    · exact hwm
    · exact ho.notNaN wm' hwm'
  · exact ho.of_tree_eq rfl

variable {w : Weight} {member : Str}

theorem Ordered.eraseMember (ho : v.Ordered) (hrun : v.eraseMember w member = some v') :
    v'.Ordered := by
  unfold Vset.eraseMember at hrun
  split at hrun
  next =>
    cases hrun
    exact ho
  next =>
    split at hrun
    next => cases hrun
    next =>
      cases hrun
      exact ho
    next j _ =>
      cases hrun
      exact ho.of_sublist (sublist_eraseIndex j v.tree)

theorem Ordered.step (ho : v.Ordered) {op : VsetOp} (hop : op.Weighted)
    (hstep : v.step op = some v') : v'.Ordered := by
  cases op with
  | insert wm =>
    cases hstep
    exact ho.insert hop
  | erase member =>
    obtain ⟨r, hrun, rfl⟩ := map_eq_some_iff.1 hstep
    unfold erase at hrun
    dsimp only at hrun
    split at hrun
    next =>
      cases hrun
      exact ho.of_tree_eq rfl
    next kv _ =>
      obtain ⟨v1, hmember, rfl⟩ := map_eq_some_iff.1 hrun
      have ho' : ({ v with dict := (v.dict.extract member).2 } : Vset hash).Ordered :=
        ho.of_tree_eq rfl
      exact ho'.eraseMember hmember
  | eraseRange left right =>
    obtain ⟨r, hrun, rfl⟩ := map_eq_some_iff.1 hstep
    unfold eraseRange at hrun
    dsimp only at hrun
    split at hrun
    next =>
      cases hrun
      exact ho
    next =>
      split at hrun
      all_goals
        obtain ⟨steps, -, hrun⟩ := bind_eq_some_iff.1 hrun
        obtain ⟨rounds, -, hrun⟩ := bind_eq_some_iff.1 hrun
        cases hrun
        exact ho.of_sublist (sublist_eraseRun _ _ _ _ v)
  | eraseRangeByWeight left right =>
    obtain ⟨r, hrun, rfl⟩ := map_eq_some_iff.1 hstep
    unfold eraseRangeByWeight at hrun
    split at hrun
    next =>
      cases hrun
      exact ho
    next =>
      obtain ⟨n, -, rfl⟩ := map_eq_some_iff.1 hrun
      exact ho.of_sublist (sublist_eraseRun _ _ _ _ v)

/-- A sorted set is in order after every run in which all weights are numbers. -/
theorem Ordered.run {ops : List VsetOp} (ho : v.Ordered) (hops : ∀ op ∈ ops, op.Weighted)
    (hrun : run ops v = some v') : v'.Ordered := by
  induction ops generalizing v with
  | nil =>
    cases hrun
    exact ho
  | cons op ops ih =>
    obtain ⟨v1, hstep, hrest⟩ := bind_eq_some_iff.1 hrun
    exact ih (ho.step (hops op mem_cons_self) hstep)
      (fun op' hop' => hops op' (mem_cons_of_mem _ hop')) hrest

theorem new_ordered : (new : Vset hash).Ordered :=
  ⟨List.Pairwise.nil, fun _ hwm => absurd hwm not_mem_nil⟩

/-! ## Weight ranges -/

/-- In a set whose tree and dictionary agree, the ranges of weights are read as they should be,
ascending unless nothing is inside and something above, descending only if something is inside
and something above. -/
theorem rangeByWeight_iff (h : v.Agrees ∧ v.Ordered) (hl : l.isNaN = false)
    (hr : r.isNaN = false) (hle : l.rank ≤ r.rank) :
    (v.getRangeByWeight l r = some (v.inside l r) ↔ v.inside l r ≠ [] ∨ v.above r = []) ∧
      (v.getRRangeByWeight l r = some (v.inside l r).reverse ↔
        v.inside l r ≠ [] ∧ v.above r ≠ []) := by
  have hsplit := h.2.split hl hr hle
  exact ⟨hsplit.getRangeByWeight_iff, hsplit.getRRangeByWeight_iff⟩

/-- Members with the weights 1 and 2. -/
def twoMembers : List VsetOp :=
  [.insert ⟨one, [97]⟩, .insert ⟨two, [98]⟩]

theorem insert_two_agrees {x y : WeightValue} (hx : x.key.isNaN = false)
    (hy : y.key.isNaN = false) :
    ∃ v : Vset hash, run [.insert x, .insert y] new = some v ∧ v.Agrees ∧ v.Ordered := by
  have hfirst : (insert x new).2.Agrees ∧ (insert x (new : Vset hash)).2.Ordered :=
    insert_agrees new_agrees new_ordered hx
  exact ⟨_, rfl, insert_agrees hfirst.1 hfirst.2 hy⟩

theorem exists_twoMembers :
    ∃ v : Vset (fun _ => 0), run twoMembers new = some v ∧ v.Agrees ∧ v.Ordered :=
  insert_two_agrees (by decide : one.isNaN = false) (by decide : two.isNaN = false)

theorem rangeByWeight_two :
    ∃ v : Vset (fun _ => 0), run twoMembers new = some v ∧
      v.getRangeByWeight one one = some [⟨one, [97]⟩] ∧
      v.getRRangeByWeight one one = some [⟨one, [97]⟩] := by
  obtain ⟨v, hrun, h⟩ := exists_twoMembers
  have hnumber : one.isNaN = false := by decide
  have hrange := rangeByWeight_iff h hnumber hnumber (Int.le_refl _)
  cases hrun
  exact ⟨_, rfl, hrange.1.2 (.inl (by decide)), hrange.2.2 ⟨by decide, by decide⟩⟩

/-- The end is dereferenced in the empty set, and behind a range with no weight. -/
theorem rangeByWeight_end :
    (new : Vset (fun _ => 0)).getRRangeByWeight one two = none ∧
      ∃ v : Vset (fun _ => 0), run [.insert ⟨two, [98]⟩] new = some v ∧
        v.inside one one = [] ∧ v.getRangeByWeight one one = none :=
  ⟨rfl, _, rfl, rfl, rfl⟩

/-- In a set whose tree and dictionary agree, a range of weights is erased from the tree unless
nothing is inside and something above.  It is never erased from the dictionary. -/
theorem eraseRangeByWeight_iff (h : v.Agrees ∧ v.Ordered) (hl : l.isNaN = false)
    (hr : r.isNaN = false) (hle : l.rank ≤ r.rank) :
    ((∃ v', v.eraseRangeByWeight l r = some ((v.inside l r).length, v') ∧
        v'.getAll = v.getAll.filter fun wm => !within l r wm) ↔
      v.inside l r ≠ [] ∨ v.above r = []) ∧
    ((∃ v', v.eraseRangeByWeight l r = some ((v.inside l r).length, v') ∧
        (v'.getAll = v.getAll.filter fun wm => !within l r wm) ∧ v'.Agrees) ↔
      v.inside l r = [] ∧ v.above r = []) := by
  obtain ⟨ha, ho⟩ := h
  have hsplit := ho.split hl hr hle
  obtain ⟨herases, hfails⟩ := hsplit.eraseRangeByWeight
  have hcond : ∀ n v', v.eraseRangeByWeight l r = some (n, v') →
      v.inside l r ≠ [] ∨ v.above r = [] := by
    intro n v' hsome
    by_contra hnot
    rw [not_or, not_not] at hnot
    rw [hfails hnot.1 hnot.2] at hsome
    cases hsome
  refine ⟨⟨fun ⟨v', hsome, _⟩ => hcond _ v' hsome, fun hor => ?_⟩, ?_, ?_⟩
  · obtain ⟨v', hsome, htree, -⟩ := herases hor
    exact ⟨v', hsome, htree.trans hsplit.outside.symm⟩
  · rintro ⟨v', hsome, -, ha'⟩
    obtain ⟨hlength, hdict⟩ := (eraseRangeByWeight_erasesFrom hsome).length
    have hinside := length_eq_zero_iff.1 (ha.erased_eq_zero ha' hlength hdict)
    grind
  · rintro ⟨hinside, habove⟩
    have hnone : v.lowerBound l = none := by
      rw [hsplit.lower, hinside, habove]
      rfl
    have hall := hsplit.list
    rw [hinside, habove, nil_append, append_nil] at hall
    refine ⟨v, by rw [eraseRangeByWeight, hnone, hinside]; rfl, ?_, ha⟩
    rw [getAll, hsplit.outside, habove, append_nil, hall]

theorem eraseRangeByWeight_two :
    ∃ v v' : Vset (fun _ => 0), run twoMembers new = some v ∧
      v.eraseRangeByWeight one one = some (1, v') ∧ v'.getAll = [⟨two, [98]⟩] := by
  obtain ⟨v, hrun, h⟩ := exists_twoMembers
  have hnumber : one.isNaN = false := by decide
  have herase := (eraseRangeByWeight_iff h hnumber hnumber (Int.le_refl _)).1.2
  cases hrun
  obtain ⟨v', hsome, hall⟩ := herase (.inl (by decide))
  exact ⟨_, v', rfl, hsome, hall⟩

/-- An erased member keeps its weight, and a range with no weight in it is never left. -/
theorem eraseRangeByWeight_kept :
    (∃ v v' : Vset (fun _ => 0), run twoMembers new = some v ∧
      v.eraseRangeByWeight one one = some (1, v') ∧ v'.getAll = [⟨two, [98]⟩] ∧
      (v'.getWeight [97]).1 = some one) ∧
    ∃ v : Vset (fun _ => 0), run [.insert ⟨two, [98]⟩] new = some v ∧
      v.inside one one = [] ∧ v.eraseRangeByWeight one one = none :=
  ⟨⟨_, _, rfl, rfl, rfl, rfl⟩, _, rfl, rfl, rfl⟩

/-! ## Erasure of a member -/

theorem erase_of_lookup (hlookup : v.dict.lookup member = some ⟨member, w⟩) :
    v.erase member = (({ v with dict := (v.dict.extract member).2 } : Vset hash).eraseMember
      w member).map fun v => (true, v) := by
  unfold erase
  dsimp only
  rw [(HashDict.extract_spec member v.dict).1, hlookup]

/-- The entry of a member is erased unless it lies to the left of the one that is found. -/
theorem Agrees.erase_iff (ha : v.Agrees) (ho : v.Ordered)
    (hlookup : v.dict.lookup member = some ⟨member, w⟩) :
    (∃ v', v.erase member = some (true, v') ∧ v.tree.toList.Perm (⟨w, member⟩ :: v'.tree.toList)) ↔
      (VsetOp.erase member).Keeps v := by
  rw [erase_of_lookup hlookup]
  constructor
  · rintro ⟨v', hrun, hperm⟩ w' i hlookup' hfind wm hwm hmember
    obtain rfl : w = w' := congrArg KeyValue.value (Option.some.inj (hlookup.symm.trans hlookup'))
    obtain ⟨v1, herase, heq⟩ := map_eq_some_iff.1 hrun
    have htree : v1.tree = v.tree :=
      tree_eraseMember_of_left (v := { v with dict := (v.dict.extract member).2 }) ha.nodup
        hfind hwm hmember herase
    have hlength := hperm.length_eq
    grind
  · intro hkeeps
    have hmem := (ha.mem_iff w member).2 hlookup
    obtain ⟨i, -, hfind, -⟩ :=
      findIndex_of_mem ho.sorted (ho.comparesBy (ho.notNaN _ hmem)) hmem rfl
    have ho' : ({ v with dict := (v.dict.extract member).2 } : Vset hash).Ordered :=
      ho.of_tree_eq rfl
    obtain ⟨tree, herase, -, hperm⟩ :=
      eraseMember_eq ho' ha.nodup hmem hfind (hkeeps w i hlookup hfind)
    exact ⟨_, by rw [herase]; rfl, hperm⟩

end Vset

/-! ## Multimaps and sorted sets -/

section Multimaps

variable {P K V : Type} [DecidableEq P] {cmp : K → K → Ordering} [Std.TransCmp cmp] {key : V → K}
  {hash : Str → Nat}

/-- Erasure with a predicate scans from the node that is found to the last entry with the key:
it misses what lies to the left of that node, and reads a null successor if no greater key
follows.  So it is with the members of a sorted set that share a weight. -/
theorem erase_among_equal_keys_iff :
    (∀ {c : UInt64} {h : AvlHeap P V} {es : List (P × V)} {other : P → Option (AvlBaseNode P V)}
      {t : AvlTree (P × V)} {fuel : Nat} (k : K) (pred : V → Bool),
      AvlHeap.Represents cmp key c h es other t → t.realHeight + t.toList.length < fuel →
        ((∃ r, eraseWhere fuel h cmp key pred k = some r ∧
          AvlHeap.ErasesOne cmp key c k pred h es r) ↔ AvlHeap.Meets cmp key k pred t)) ∧
    ∀ {v : Vset hash} {member : Str} {w : Weight},
      v.Agrees → v.Ordered → v.dict.lookup member = some ⟨member, w⟩ →
        ((∃ v', v.erase member = some (true, v') ∧
          v.tree.toList.Perm (⟨w, member⟩ :: v'.tree.toList)) ↔ (VsetOp.erase member).Keeps v) :=
  ⟨fun k pred hr hfuel => hr.eraseWhere_iff k pred hfuel,
    fun ha ho hlookup => ha.erase_iff ho hlookup⟩

/-- The key 3 twice, as two insertions leave it. -/
def equalKeys : AvlHeap Nat (Nat × Nat) where
  node
    | 1 => some ⟨none, none, some 2, 2, (3, 10)⟩
    | 2 => some ⟨some 1, none, none, 1, (3, 20)⟩
    | _ => none
  root := some 1
  count := 2

theorem equalKeys_represents :
    AvlHeap.Represents compare Prod.fst 0 equalKeys [(1, 3, 10), (2, 3, 20)] equalKeys.node
      (.node .nil (1, 3, 10) 2 (.node .nil (2, 3, 20) 1 .nil)) where
  view := ⟨⟨rfl, trivial, rfl, trivial, trivial⟩, trivial, rfl, by decide, fun _ _ => rfl⟩
  entries := .refl _
  sorted := by
    unfold AvlTree.KeysSorted
    decide
  avl := ⟨trivial, ⟨trivial, trivial, rfl, by decide, by decide⟩, rfl, by decide, by decide⟩
  count := rfl

/-- The second of two entries with one key, and of two members with one weight. -/
theorem erase_among_equal_keys_second :
    (∃ r, eraseWhere 5 equalKeys compare Prod.fst (fun v => v.2 = 20) 3 = some r ∧
      AvlHeap.ErasesOne compare Prod.fst 0 3 (fun v => v.2 = 20) equalKeys
        [(1, 3, 10), (2, 3, 20)] r) ∧
    ∃ v v' : Vset (fun _ => 0),
      run [.insert ⟨one, [97]⟩, .insert ⟨one, [98]⟩] new = some v ∧
        v.erase [98] = some (true, v') ∧
        v.tree.toList.Perm (⟨one, [98]⟩ :: v'.tree.toList) := by
  obtain ⟨htree, hset⟩ :=
    @erase_among_equal_keys_iff Nat Nat (Nat × Nat) _ compare _ Prod.fst fun _ => 0
  constructor
  · refine (htree 3 _ equalKeys_represents (by decide)).2 fun i hi => ?_
    obtain rfl : 0 = i := Option.some.inj hi
    exact .inl ⟨(2, 3, 20), by decide, rfl, rfl⟩
  · have hone : one.isNaN = false := by decide
    obtain ⟨v, hrun, ha, ho⟩ := @Vset.insert_two_agrees (fun _ => 0) ⟨one, [97]⟩
      ⟨one, [98]⟩ hone hone
    have hlookup : v.dict.lookup [98] = some ⟨[98], one⟩ := by
      cases hrun
      rfl
    obtain ⟨v', herase, hperm⟩ := (hset ha ho hlookup).2
      fun w i hlookup hfind wm hwm => by
        cases hrun
        obtain rfl : one = w := congrArg KeyValue.value (Option.some.inj hlookup)
        obtain rfl : 0 = i := Option.some.inj hfind
        cases hwm
    exact ⟨v, v', hrun, herase, hperm⟩

/-- Three members share the greatest weight.  The search begins at the first one and passes the
second one; behind it there is no successor. -/
theorem erase_among_equal_keys_end :
    ∃ v : Vset (fun _ => 0),
      run [.insert ⟨one, [97]⟩, .insert ⟨one, [98]⟩, .insert ⟨one, [99]⟩]
        new = some v ∧
      ⟨one, [99]⟩ ∈ v.getAll ∧ v.erase [99] = none :=
  ⟨_, rfl, by decide, rfl⟩

/-- The bounds are the first entries at or behind a key and behind it, and an iterator goes over
what is between them.  The size of a range of weights is the number of its members if all
weights are numbers. -/
theorem range_between_bounds :
    (∀ {c : UInt64} {h : AvlHeap P V} {es : List (P × V)} {other : P → Option (AvlBaseNode P V)}
      {t : AvlTree (P × V)} {fuel : Nat},
      AvlHeap.Represents cmp key c h es other t → t.realHeight ≤ fuel →
      t.toList.length ≤ fuel →
        (∀ k, lowerBound cmp key fuel k h =
            some ((t.toList.find? fun e => (cmp (key e.2) k).isGE).map Prod.fst) ∧
          upperBound cmp key fuel k h =
            some ((t.toList.find? fun e => cmp (key e.2) k == .gt).map Prod.fst)) ∧
        ∀ lo hi, (cmp lo hi).isLE →
          ∃ first last, lowerBound cmp key fuel lo h = some first ∧
            upperBound cmp key fuel hi h = some last ∧
            walk fuel h first last =
              some (t.toList.filter (within cmp key lo hi))) ∧
    ∀ {v : Vset hash} {ops : List VsetOp} {l r : Weight},
      (∀ op ∈ ops, op.Weighted) → run ops new = some v →
      l.isNaN = false → r.isNaN = false → l.rank ≤ r.rank →
        v.getSizeByWeight l r = some (v.inside l r).length := by
  refine ⟨fun hr hfuel hrounds => ⟨fun k => ?_, fun lo hi hle => hr.walk_range hle hfuel hrounds⟩,
    fun hops hrun hl hr hle =>
      ((new_ordered.run hops hrun).split hl hr hle).getSizeByWeight⟩
  rw [← List.head?_filter, ← List.head?_filter]
  exact hr.bounds hfuel k

/-- Two entries with one key, and two members with one weight. -/
theorem range_between_equal_keys :
    walk 2 equalKeys (some 1) none = some [(1, 3, 10), (2, 3, 20)] ∧
    ∃ v : Vset (fun _ => 0),
      run [.insert ⟨one, [97]⟩, .insert ⟨one, [98]⟩] new = some v ∧
        v.getSizeByWeight one two = some 2 := by
  obtain ⟨htree, hset⟩ := @range_between_bounds Nat Nat (Nat × Nat) _ compare _ Prod.fst fun _ => 0
  constructor
  · have hentries : [(1, 3, 10), (2, 3, 20)].length ≤ 2 := by decide
    obtain ⟨hbounds, hwalk⟩ := htree equalKeys_represents (by decide) hentries
    obtain ⟨first, last, hfirst, hlast, hwalk⟩ := hwalk 3 3 (by decide)
    obtain rfl := Option.some.inj ((hbounds 3).1.symm.trans hfirst)
    obtain rfl := Option.some.inj ((hbounds 3).2.symm.trans hlast)
    exact hwalk
  · have hrun : run [.insert ⟨one, [97]⟩, .insert ⟨one, [98]⟩]
        (new : Vset fun _ => 0) = some _ := rfl
    have hone : one.isNaN = false := by decide
    exact ⟨_, hrun, hset (by simp [VsetOp.Weighted, hone]) hrun hone (by decide) (by decide)⟩

/-- A weight that is not a number goes behind all others and sends what follows it to the
right: the weights are 2, NaN, 1 and 4, and only one of two between 1 and 2 is counted. -/
theorem sizeByWeight_of_nan :
    ∃ v : Vset (fun _ => 0),
      run [.insert ⟨two, [97]⟩, .insert ⟨⟨0x7ff8000000000000⟩, [98]⟩,
        .insert ⟨⟨0x4010000000000000⟩, [99]⟩, .insert ⟨one, [100]⟩] new = some v ∧
      v.inside one two = [⟨two, [97]⟩, ⟨one, [100]⟩] ∧
      v.getSizeByWeight one two = some 1 :=
  ⟨_, rfl, rfl, rfl⟩

end Multimaps

end Mmkv
