import Mmkv.AvlPointers

/-!
# Removal from an AVL tree in memory

`_Erase` takes a node out of the tree in three ways, and then walks up from the place
where a node is missing.  The removed node keeps its value and its height; what it is
linked to does not matter any more.
-/

namespace Mmkv

open BoundedLoops List AvlTree

variable {V : Type}

theorem AvlTree.plug_cons_ne_nil (c : Crumb V) (path : List (Crumb V)) (t : AvlTree V) :
    plug (c :: path) t ≠ nil := by
  induction path generalizing c t with
  | nil => cases c <;> exact fun h => by cases h
  | cons c' path ih => exact ih c' (c.fill t)

theorem AvlTree.length_le_minimum (t : AvlTree V) (path : List (Crumb V)) :
    path.length ≤ (minimum t path).2.length := by
  fun_induction minimum t path with
  | case1 => exact Nat.le_refl _
  | case2 => exact Nat.le_refl _
  | case3 _ _ _ _ _ _ ih => exact Nat.le_of_succ_le ih

namespace AvlHeap

variable {P V : Type} {h h' : AvlHeap P V} {other other' : P → Option (AvlBaseNode P V)}
  {path : List (Crumb (P × V))} {t left right : AvlTree (P × V)} {e : P × V} {s : Nat}

theorem View.congr (hv : View other h path t)
    (hother : ∀ a ∉ addrs (plug path t), other a = other' a) :
    View other' h path t :=
  ⟨hv.subtree, hv.ancestors, hv.root, hv.nodup, fun a ha => (hv.rest a ha).trans (hother a ha)⟩

theorem view_append (spine : List (Crumb (P × V))) :
    View other h (spine ++ path) t ↔ View other h path (plug spine t) := by
  rw [view_plug, plug_append, ← view_plug]

theorem exists_ptr (ht : t ≠ .nil) : ∃ p, ptr t = some p := by
  cases t with
  | nil => exact absurd rfl ht
  | node left e s right => exact ⟨_, rfl⟩

theorem Holds.minimum {parent : Option P} {p : P} {fuel : Nat} (hm : Holds h.node parent t)
    (hptr : ptr t = some p) (spine : List (Crumb (P × V)))
    (hfuel : (AvlTree.minimum t spine).2.length ≤ spine.length + fuel) :
    h.minimum fuel p = ptr (AvlTree.minimum t spine).1 := by
  fun_induction AvlTree.minimum t spine generalizing parent p fuel with
  | case1 => cases hptr
  | case2 value k right spine =>
    cases hptr
    exact whileDo_exit (by simp [hm.1, ptr]) fuel
  | case3 left value k right spine hne ih =>
    cases hptr
    obtain ⟨hnode, hl, -⟩ := hm
    obtain ⟨q, hq⟩ := exists_ptr hne
    have hlong := length_le_minimum left (.inLeft value k right :: spine)
    rw [length_cons] at hlong
    obtain ⟨fuel, rfl⟩ := Nat.exists_eq_add_one_of_ne_zero (by omega : fuel ≠ 0)
    have hfuel' : (AvlTree.minimum left (.inLeft value k right :: spine)).2.length ≤
        (Crumb.inLeft value k right :: spine).length + fuel := by
      rw [length_cons]
      omega
    rw [← ih hl hq hfuel']
    exact whileDo_next (by simp [hnode, hq]) (by simp [hnode, hq]) fuel

section Unlinking

variable [DecidableEq P]

theorem View.rest_update (hv : View other h path t) {a p : P}
    (ha : a = p ∨ a ∉ addrs (plug path t)) :
    h.node a = Function.update other p (h.node p) a := by
  by_cases hap : a = p
  · rw [hap, Function.update_self]
  · rw [Function.update_of_ne hap]
    exact hv.rest a (ha.resolve_left hap)

theorem View.replaceByChild {child : AvlTree (P × V)}
    (hv : View other h path (.node left e s right)) (hm : Holds h.node (some e.1) child)
    (hlist : child.toList = left.toList ++ right.toList) :
    ∃ h', h.replaceByChild e.1 (ptr child) (pathPtr path) = some h' ∧
      View (Function.update other e.1 (h.node e.1)) h' path child ∧ h'.count = h.count := by
  obtain ⟨hlnodup, hrnodup, hel, her, hlr⟩ := nodup_addrs_node hv.nodup_subtree
  have haddrs : ∀ a, a ∈ addrs child ↔ a ∈ addrs left ∨ a ∈ addrs right := by
    intro a
    simp only [addrs, hlist, map_append, mem_append]
  have hnodup : (addrs child).Nodup := by
    unfold addrs
    rw [hlist, map_append, nodup_append]
    refine ⟨hlnodup, hrnodup, ?_⟩
    rintro a ha _ ha' rfl
    exact hlr a ha ha'
  have hpath : ∀ a ∈ addrs child, a ∉ pathAddrs path :=
    fun a ha => hv.not_mem_path (by grind [mem_addrs_node])
  have hold : e.1 ∉ pathAddrs path := hv.not_mem_path (by simp)
  obtain ⟨h1, hrun1, hpath1, hroot1, hcount1, hsame⟩ :=
    writeSlot_spec hv.ancestors hv.root hv.nodup_path (ptr child)
  rw [← childPlace_eq hv.ancestors hold] at hrun1
  have hm1 : Holds h1.node (some e.1) child := hm.congr fun a ha => hsame a (hpath a ha)
  obtain ⟨h2, hrun2, hm2, hch2⟩ := setParentOf_spec hm1 hnodup (pathPtr path)
  have hsame2 : ∀ a ∉ addrs child, h2.node a = h1.node a :=
    fun a ha => hch2.node a fun hmem => ha (ptr_mem (Option.mem_toList.1 hmem))
  refine ⟨h2, ?_, ⟨hm2, hpath1.congr ?_, hch2.root.trans hroot1,
    nodup_plug hnodup hv.nodup_path hpath, ?_⟩, hch2.count.trans hcount1⟩
  · simp only [AvlHeap.replaceByChild, hrun1, hrun2, some_bind]
  · exact fun a ha => hsame2 a fun ha' => hpath a ha' ha
  · intro a ha
    rw [mem_addrs_plug, not_or] at ha
    rw [hsame2 a ha.1, hsame a ha.2]
    apply hv.rest_update
    grind [mem_addrs_plug, mem_addrs_node]

theorem View.replant {ps : List P} {h1 : AvlHeap P V}
    (hv : View other h path (.node left e s right))
    (hch : Changes ps h h1) (ht : Holds h1.node (pathPtr path) t) (hnodup : (addrs t).Nodup)
    (hps : ∀ a ∈ ps, a ∈ addrs t) (hpath : ∀ a ∈ addrs t, a ∉ pathAddrs path)
    (hleft : ∀ a, a ∈ addrs (.node left e s right) → a = e.1 ∨ a ∈ addrs t) :
    ∃ h2, h1.childPlace e.1 (ptr t) (pathPtr path) = some h2 ∧
      View (Function.update other e.1 (h.node e.1)) h2 path t ∧ h2.count = h.count := by
  have hrest : ∀ a ∉ addrs t, a ∉ pathAddrs path →
      h1.node a = Function.update other e.1 (h.node e.1) a := by
    intro a ha ha'
    rw [hch.node a fun hmem => ha (hps a hmem)]
    apply hv.rest_update
    rw [mem_addrs_plug]
    grind
  obtain ⟨h2, hrun, hview, hcount⟩ :=
    hv.place rfl (fun a ha => hch.node a (by grind)) hch.root ht hnodup hpath hrest
  exact ⟨h2, hrun, hview, hcount.trans hch.count⟩

variable {z : P × V} {k : Nat} {rest : AvlTree (P × V)}

theorem View.eraseNext (hv : View other h path (.node left e s (.node .nil z k rest)))
    (hne : left ≠ .nil) :
    ∃ h', AvlHeap.eraseNext ⟨pathPtr path, ptr left, some z.1, s, e.2⟩ e.1 z.1 h =
        some (some z.1, h') ∧
      View (Function.update other e.1 (h.node e.1)) h' path (.node left z s rest) ∧
      h'.count = h.count := by
  obtain ⟨he, hl, hz, -, hrest⟩ := hv.subtree
  obtain ⟨hlnodup, hrnodup, hel, her, hlr⟩ := nodup_addrs_node hv.nodup_subtree
  obtain ⟨-, hrestnodup, -, hzr, -⟩ := nodup_addrs_node hrnodup
  simp only [mem_addrs_node, not_or] at her hlr
  obtain ⟨q, hq⟩ := exists_ptr hne
  obtain ⟨h1, h2, hrun1, hrun2, hz2, hl2, hch2⟩ :=
    hl.hang hlnodup hz (by grind) fun n => { n with left := ptr left }
  obtain ⟨h3, hrun3, hz3, hch3⟩ := update_spec hz2 fun n => { n with parent := pathPtr path }
  obtain ⟨h4, hrun4, hz4, hch4⟩ := update_spec hz3 fun n => { n with height := s }
  have hlate := hch3.trans hch4
  have hch := hch2.trans hlate
  have hnew : Holds h4.node (pathPtr path) (.node left z s rest) :=
    ⟨hz4, hlate.holds hl2 (by grind), hch.holds hrest (by grind)⟩
  have hsub : (addrs (.node left z s rest)).Sublist
      (addrs (.node left e s (.node .nil z k rest))) := by
    apply List.Sublist.map
    exact (List.Sublist.refl _).append (sublist_cons_self _ _)
  obtain ⟨h5, hrun5, hview, hcount⟩ := hv.replant hch hnew (hv.nodup_subtree.sublist hsub)
    (by grind [mem_addrs_node]) (fun a ha => hv.not_mem_path (hsub.subset ha))
    (by grind [mem_addrs_node, addrs_nil])
  refine ⟨h5, ?_, hview, hcount⟩
  rw [ptr_node] at hrun5
  rw [hq] at hrun1 hrun2
  rw [AvlHeap.setParentOf] at hrun2
  simp only [AvlHeap.eraseNext, hq, some_bind]
  simp only [setLeft, hrun1, some_bind, hrun2]
  simp only [setParent, AvlHeap.setHeight, hrun3, some_bind, hrun4, hrun5]
  rfl

variable {n : AvlBaseNode P V}

theorem View.takePlace (hv : View other h path (.node left e s right)) (hz : h.node z.1 = some n)
    (hvalue : n.value = z.2) (hfree : z.1 ∉ addrs (plug path (.node left e s right)))
    (hlne : left ≠ .nil) (hrne : right ≠ .nil) :
    ∃ h', h.takePlace e.1 z.1 (pathPtr path) = some h' ∧
      View (Function.update other e.1 (h.node e.1)) h' path (.node left z s right) ∧
      h'.count = h.count := by
  obtain ⟨he, hl, hr⟩ := hv.subtree
  obtain ⟨hlnodup, hrnodup, hel, her, hlr⟩ := nodup_addrs_node hv.nodup_subtree
  rw [mem_addrs_plug, mem_addrs_node] at hfree
  simp only [not_or] at hfree
  obtain ⟨⟨hzl, hze, hzr⟩, hzpath⟩ := hfree
  obtain ⟨p, hp⟩ := exists_ptr hlne
  obtain ⟨q, hq⟩ := exists_ptr hrne
  obtain ⟨h1, h2, hrun1, hrun2, hz2, hr2, hch2⟩ :=
    hr.hang hrnodup hz hzr fun n => { n with right := ptr right }
  obtain ⟨h3, h4, hrun3, hrun4, hz4, hl4, hch4⟩ :=
    (hch2.holds hl (by grind)).hang hlnodup hz2 hzl fun n => { n with left := ptr left }
  obtain ⟨h5, hrun5, hz5, hch5⟩ := update_spec hz4 fun n => { n with height := s }
  obtain ⟨h6, hrun6, hz6, hch6⟩ := update_spec hz5 fun n => { n with parent := pathPtr path }
  have hlate := hch5.trans hch6
  have hch := hch2.trans (hch4.trans hlate)
  have hnew : Holds h6.node (pathPtr path) (.node left z s right) := by
    refine ⟨?_, hlate.holds hl4 (by grind), (hch4.trans hlate).holds hr2 (by grind)⟩
    rw [hz6, ← hvalue]
  have hnodup : (addrs (.node left z s right)).Nodup := by
    simp only [addrs, toList, map_append, map_cons, nodup_append, nodup_cons]
    refine ⟨hlnodup, ⟨hzr, hrnodup⟩, ?_⟩
    rintro a ha b hb rfl
    rcases mem_cons.1 hb with rfl | hb
    · exact hzl ha
    · exact hlr a ha hb
  have hpath : ∀ a ∈ addrs (.node left z s right), a ∉ pathAddrs path := by
    have hnot := fun a => @View.not_mem_path _ _ _ _ _ _ a hv
    grind [mem_addrs_node]
  obtain ⟨h7, hrun7, hview, hcount⟩ := hv.replant hch hnew hnodup (by grind [mem_addrs_node])
    hpath (by grind [mem_addrs_node])
  refine ⟨h7, ?_, hview, hcount⟩
  rw [hp] at hrun3 hrun4
  rw [hq] at hrun1 hrun2
  rw [AvlHeap.setParentOf] at hrun2 hrun4
  rw [hp, hq] at he
  simp only [AvlHeap.takePlace, he, some_bind]
  simp only [setRight, hrun1, some_bind, hrun2]
  simp only [setLeft, hrun3, some_bind, hrun4]
  simp only [setParent, AvlHeap.setHeight, hrun5, some_bind, hrun6]
  exact hrun7

/-- A path above a removed node, which is no part of the tree any more. -/
def Unlinked (other : P → Option (AvlBaseNode P V)) (h : AvlHeap P V) (e : P × V)
    (s bound : Nat) (r : Option (Option P × AvlHeap P V)) (result : AvlTree (P × V)) : Prop :=
  ∃ h' path t n, r = some (pathPtr path, h') ∧
    View (Function.update other e.1 (some n)) h' path t ∧ n.value = e.2 ∧ n.height = s ∧
    result = eraseOuter t path ∧ h'.count = h.count ∧ path.length ≤ bound

theorem View.eraseDeep {c : Crumb (P × V)} {spine : List (Crumb (P × V))}
    (hn : n.parent = pathPtr path) (hv : View other h path
      (.node left e s (plug (c :: spine) (.node .nil z k rest)))) (hlne : left ≠ .nil) :
    ∃ h' n', AvlHeap.eraseDeep n e.1 z.1 h = some (some c.entry.1, h') ∧
      View (Function.update other e.1 (some n')) h' (c :: spine ++ .inRight left z s :: path)
        rest ∧ n'.value = e.2 ∧ n'.height = s ∧ h'.count = h.count := by
  have hdeep : View other h (c :: spine ++ .inRight left e s :: path) (.node .nil z k rest) := by
    rw [view_append]
    exact (view_fill _).2 hv
  obtain ⟨hz, -, hrest⟩ := hdeep.subtree
  obtain ⟨-, -, -, hzrest, -⟩ := nodup_addrs_node hdeep.nodup_subtree
  have hzpath : z.1 ∉ pathAddrs (c :: spine ++ .inRight left e s :: path) :=
    hdeep.not_mem_path (by simp)
  obtain ⟨h1, hrun1, hview1, hcount1⟩ := hdeep.replaceByChild hrest rfl
  have hfree : z.1 ∉ addrs (plug (c :: spine ++ .inRight left e s :: path) rest) := by
    rw [mem_addrs_plug, not_or]
    exact ⟨hzrest, hzpath⟩
  have hz1 : h1.node z.1 = h.node z.1 := by
    rw [hview1.rest _ hfree, Function.update_self]
  have hview1' : View (Function.update other z.1 (h.node z.1)) h1 path
      (.node left e s (plug (c :: spine) rest)) :=
    (view_fill (.inRight left e s)).1 ((view_append _).1 hview1)
  rw [plug_append] at hfree
  obtain ⟨h2, hrun2, hview2, hcount2⟩ :=
    hview1'.takePlace (hz1.trans hz) rfl hfree hlne
      (plug_cons_ne_nil c spine rest)
  rw [hview1'.subtree.1] at hview2
  refine ⟨h2, ⟨pathPtr path, ptr left, ptr (plug (c :: spine) rest), s, e.2⟩, ?_, ?_,
    rfl, rfl, hcount2.trans hcount1⟩
  · simp only [AvlHeap.eraseDeep, hz, some_bind, hrun1, hn, hrun2]
    rfl
  · rw [view_append]
    refine (view_fill (.inRight left z s)).2 (hview2.congr fun a ha => ?_)
    have haz : a ≠ z.1 := fun heq => ha (mem_addrs_plug.2 (.inl (by simp [heq])))
    grind

variable {fuel : Nat}

section

variable (hv : View other h path (.node left e s right))

include hv

theorem View.unlinkInner (hlne : left ≠ .nil)
    (hrne : right ≠ .nil) (hfuel : (AvlTree.minimum right []).2.length ≤ fuel) :
    Unlinked other h e s (path.length + (AvlTree.minimum right []).2.length + 1)
      (AvlHeap.unlink fuel e.1 h) (AvlTree.eraseInner left s right path) := by
  obtain ⟨he, hl, hr⟩ := hv.subtree
  obtain ⟨-, -, -, her, -⟩ := nodup_addrs_node hv.nodup_subtree
  obtain ⟨p, hp⟩ := exists_ptr hlne
  obtain ⟨q, hq⟩ := exists_ptr hrne
  have hloop := hr.minimum hq [] (by simpa using hfuel)
  have hplug := plug_minimum right []
  obtain ⟨z, k, rest, hmin⟩ := minimum_leftmost hrne []
  unfold AvlTree.eraseInner
  generalize AvlTree.minimum right [] = found at hloop hplug hmin
  obtain ⟨found, spine⟩ := found
  subst hmin
  rw [ptr_node] at hloop
  cases spine with
  | nil =>
    replace hplug : .node .nil z k rest = right := hplug
    subst hplug
    obtain rfl : z.1 = q := Option.some.inj hq
    obtain ⟨h', hrun, hview, hcount⟩ := hv.eraseNext hlne
    rw [he] at hview
    refine ⟨h', .inRight left z s :: path, rest, _, ?_, (view_fill _).2 hview, rfl, rfl, rfl,
      hcount, Nat.le_refl _⟩
    rw [hp] at hrun
    obtain ⟨hz, -, -⟩ := hr
    simp only [AvlHeap.unlink, he, hp, ptr_node, some_bind, hloop, hz, if_true]
    exact hrun
  | cons c spine =>
    replace hplug : AvlTree.plug (c :: spine) (.node .nil z k rest) = right := hplug
    have hdeep : View other h (c :: spine ++ .inRight left e s :: path) (.node .nil z k rest) := by
      rw [view_append, hplug]
      exact (view_fill _).2 hv
    have hparent : (some c.entry.1 : Option P) ≠ some e.1 := by
      intro heq
      apply her
      rw [← hplug, mem_addrs_plug, mem_pathAddrs_cons]
      exact .inr (.inl (Option.some.inj heq).symm)
    obtain ⟨hz, -, -⟩ := hdeep.subtree
    subst hplug
    obtain ⟨h', n, hrun, hview, hvalue, hheight, hcount⟩ :=
      hv.eraseDeep (n := ⟨pathPtr path, some p, some q, s, e.2⟩) rfl hlne
    refine ⟨h', _, rest, n, ?_, hview, hvalue, hheight, rfl, hcount, ?_⟩
    case refine_2 => grind
    simp only [AvlHeap.unlink, he, hp, hq, some_bind, hloop, hz]
    exact (if_neg hparent).trans hrun

/-- `_Erase` leaves a path with one node less, and the fix-up begins above its end. -/
theorem View.unlink (hfuel : (AvlTree.minimum right []).2.length ≤ fuel) :
    Unlinked other h e s (path.length + (AvlTree.minimum right []).2.length + 1)
      (AvlHeap.unlink fuel e.1 h) (AvlTree.eraseAt (.node left e s right) path) := by
  obtain ⟨he, hl, hr⟩ := hv.subtree
  cases left with
  | nil =>
    obtain ⟨h', hrun, hview, hcount⟩ := hv.replaceByChild hr rfl
    rw [he] at hview
    refine ⟨h', path, right, _, ?_, hview, rfl, rfl, rfl, hcount, by omega⟩
    simp only [AvlHeap.unlink, he, some_bind]
    exact congrArg (Option.bind · fun h => some (pathPtr path, h)) hrun
  | node ll y k lr =>
    cases right with
    | nil =>
      obtain ⟨h', hrun, hview, hcount⟩ := hv.replaceByChild hl (by simp [AvlTree.toList])
      rw [he] at hview
      refine ⟨h', path, _, _, ?_, hview, rfl, rfl, rfl, hcount, by omega⟩
      simp only [AvlHeap.unlink, he, some_bind]
      exact congrArg (Option.bind · fun h => some (pathPtr path, h)) hrun
    | node rl z k' rr =>
      exact hv.unlinkInner (fun h => by cases h) (fun h => by cases h) hfuel

/-- `_Erase` on the memory does what removal does to the tree. -/
theorem View.erase (hfuel : path.length + (AvlTree.minimum right []).2.length + 1 ≤ fuel) :
    ∃ h' n, AvlHeap.erase fuel e.1 h = some h' ∧
      View (Function.update other e.1 (some n)) h' []
        (AvlTree.eraseAt (.node left e s right) path) ∧
      n.value = e.2 ∧ n.height = s ∧ h'.count = h.count := by
  have hmin : (AvlTree.minimum right []).2.length ≤ fuel := by omega
  obtain ⟨h1, path', t', n, hrun1, hv1, hvalue, hheight, hresult, hcount1, hlen⟩ := hv.unlink hmin
  obtain ⟨h2, hrun2, hv2, hcount2⟩ := eraseFixupRound_simulates.fixup hv1 (hlen.trans hfuel)
  refine ⟨h2, n, ?_, ?_, hvalue, hheight, hcount2.trans hcount1⟩
  · simp only [AvlHeap.erase, hrun1, some_bind]
    exact hrun2
  · rw [hresult, eraseOuter_eq]
    exact hv2

end

end Unlinking

end AvlHeap

end Mmkv
