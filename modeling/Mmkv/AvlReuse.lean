import Mmkv.AvlOperations

/-!
# Handing over the nodes of an AVL tree

`ReuseAllNodes` goes down to a leaf, cuts it off, hands it to a callback and goes on at the
parent.  The callback may free the node or link it into another tree: it keeps an invariant
of the nodes that it has been handed, and leaves those that are still in the tree.
-/

namespace Mmkv

open BoundedLoops List Function AvlTree

namespace AvlTree

variable {V : Type}

/-- The entries, children before their parent. -/
def postorder : AvlTree V → List V
  | nil => []
  | node left value _ right => left.postorder ++ right.postorder ++ [value]

theorem postorder_perm (t : AvlTree V) : t.postorder.Perm t.toList := by
  induction t with
  | nil => rfl
  | node left value s right ihl ihr =>
    rw [postorder, toList, append_assoc]
    exact ihl.append ((perm_append_singleton _ _).trans (ihr.cons value))

end AvlTree

namespace AvlHeap

variable {P V S : Type} [DecidableEq P]

/-! ## The model -/

/-- The child of `q` that is `p` becomes null. -/
def unlinkChild (p q : P) (h : AvlHeap P V) : Option (AvlHeap P V) := do
  let m ← h.node q
  if m.left = some p then h.setLeft q none else h.setRight q none

/-- The node of the loop, the memory and the data of the callback, with the nodes that were
handed over. -/
structure Reuse (P V S : Type) where
  node : Option P
  heap : AvlHeap P V
  own : S
  handed : List P

section Model

variable (cb : P → AvlHeap P V → S → Option (AvlHeap P V × S))

def handOver (p : P) (next : Option P) (h : AvlHeap P V) (s : Reuse P V S) :
    Option (Reuse P V S) := do
  let (h, own) ← cb p h s.own
  return ⟨next, h, own, s.handed ++ [p]⟩

/-- A round of the loop of `ReuseAllNodes`. -/
def reuseRound (s : Reuse P V S) : Option (Round (Reuse P V S)) := do
  let p ← s.node
  let n ← s.heap.node p
  match n.left, n.right with
  | some l, _ => return .next { s with node := some l }
  | none, some r => return .next { s with node := some r }
  | none, none => do
    let h ← s.heap.update p fun n =>
      { n with parent := none, left := none, right := none, height := 0 }
    match n.parent with
    | none => (handOver cb p none h s).map .stop
    | some q => do
      let h ← h.unlinkChild p q
      (handOver cb p (some q) h s).map .next

def reuseLoop (fuel : Nat) (s : Reuse P V S) : Option (Reuse P V S) :=
  whileDo (fun s => s.node.isSome) (reuseRound cb) fuel s

/-- `ReuseAllNodes`, with the nodes in the order in which they are handed over. -/
def reuseAllNodes (fuel : Nat) (h : AvlHeap P V) (own : S) :
    Option (AvlHeap P V × S × List P) := do
  let s ← reuseLoop cb fuel ⟨h.root, h, own, []⟩
  return ({ s.heap with root := none, count := 0 }, s.own, s.handed)

/-- The callback takes the nodes one by one, each without links, and keeps something of those
that it has taken.  It leaves the others, and what it keeps does not depend on them. -/
structure Takes (nodes : List P) (Keeps : List P → AvlHeap P V → S → Prop) : Prop where
  step : ∀ {handed : List P} {h : AvlHeap P V} {own : S} {p : P} {value : V},
    Keeps handed h own → p ∈ nodes → p ∉ handed →
      h.node p = some ⟨none, none, none, 0, value⟩ →
      ∃ h' own', cb p h own = some (h', own') ∧ Keeps (handed ++ [p]) h' own' ∧
        h'.root = h.root ∧ ∀ a ∈ nodes, a ∉ handed → a ≠ p → h'.node a = h.node a
  frame : ∀ {handed : List P} {h h' : AvlHeap P V} {own : S}, Keeps handed h own →
    (∀ a, a ∉ nodes ∨ a ∈ handed → h'.node a = h.node a) → Keeps handed h' own

end Model

/-! ## The loop -/

variable {cb : P → AvlHeap P V → S → Option (AvlHeap P V × S)} {nodes handed : List P}
  {Keeps : List P → AvlHeap P V → S → Prop} {h h' : AvlHeap P V} {own : S}
  {other : P → Option (AvlBaseNode P V)} {path : List (Crumb (P × V))} {c : Crumb (P × V)}
  {t left right : AvlTree (P × V)} {e : P × V} {s : Nat}

omit [DecidableEq P] in
theorem View.transfer (hv : View other h path t) (hroot : h'.root = h.root)
    (heq : ∀ a ∈ addrs (plug path t), h'.node a = h.node a) :
    View h'.node h' path t where
  subtree := hv.subtree.congr fun a ha => heq a (mem_addrs_plug.2 (.inl ha))
  ancestors := hv.ancestors.congr fun a ha => heq a (mem_addrs_plug.2 (.inr ha))
  root := hroot.trans hv.root
  nodup := hv.nodup
  rest := fun _ _ => rfl

/-- What is left of the tree has not been handed over. -/
structure Left (nodes : List P) (Keeps : List P → AvlHeap P V → S → Prop) (handed : List P)
    (h : AvlHeap P V) (own : S) (path : List (Crumb (P × V))) (t : AvlTree (P × V)) : Prop where
  view : View h.node h path t
  keeps : Keeps handed h own
  nodes : ∀ a ∈ addrs (plug path t), a ∈ nodes ∧ a ∉ handed

omit [DecidableEq P] in
theorem left_fill (c : Crumb (P × V)) : Left nodes Keeps handed h own (c :: path) t ↔
      Left nodes Keeps handed h own path (c.fill t) :=
  ⟨fun hl => ⟨(view_fill c).1 hl.view, hl.keeps, hl.nodes⟩,
    fun hl => ⟨(view_fill c).2 hl.view, hl.keeps, hl.nodes⟩⟩

def detach (e : P × V) (h : AvlHeap P V) : AvlHeap P V :=
  { h with node := Function.update h.node e.1 (some ⟨none, none, none, 0, e.2⟩) }

theorem detach_of_ne {a : P} (ha : a ≠ e.1) : (h.detach e).node a = h.node a := update_of_ne ha _ _

theorem View.update_leaf (hv : View other h path (.node .nil e s .nil)) :
    h.update e.1 (fun n => { n with parent := none, left := none, right := none, height := 0 }) =
      some (h.detach e) := by
  rw [AvlHeap.update, hv.subtree.1]
  rfl

omit [DecidableEq P] in
/-- A leaf that has been cut off is handed over, and the rest of the tree is left. -/
theorem Takes.handOver (hcb : Takes cb nodes Keeps)
    (hl : Left nodes Keeps handed h own path (.node .nil e s .nil))
    (hv : View other h' path .nil) (hleaf : h'.node e.1 = some ⟨none, none, none, 0, e.2⟩)
    (heq : ∀ a, a ∉ nodes ∨ a ∈ handed → h'.node a = h.node a) (next : Option P) :
    ∃ h'' own', AvlHeap.handOver cb e.1 next h' ⟨some e.1, h, own, handed⟩ =
        some ⟨next, h'', own', handed ++ [e.1]⟩ ∧
      Left nodes Keeps (handed ++ [e.1]) h'' own' path .nil := by
  obtain ⟨hmem, hnot⟩ := hl.nodes e.1 (mem_addrs_plug.2 (.inl (by simp)))
  obtain ⟨h'', own', hrun, hkeeps, hroot, hsame⟩ :=
    hcb.step (hcb.frame hl.keeps heq) hmem hnot hleaf
  have hrest : ∀ a ∈ addrs (plug path .nil), a ∈ nodes ∧ a ∉ handed ∧ a ≠ e.1 := by
    intro a ha
    have hpath : a ∈ pathAddrs path := (mem_addrs_plug.1 ha).resolve_left not_mem_nil
    obtain ⟨hnodes, hhanded⟩ := hl.nodes a (mem_addrs_plug.2 (.inr hpath))
    exact ⟨hnodes, hhanded, fun hae => hl.view.not_mem_path (by simp) (hae ▸ hpath)⟩
  refine ⟨h'', own', by simp only [AvlHeap.handOver, hrun]; rfl, ?_, hkeeps, fun a ha => ?_⟩
  · exact hv.transfer hroot fun a ha => hsame a (hrest a ha).1 (hrest a ha).2.1 (hrest a ha).2.2
  · obtain ⟨hnodes, hhanded, hne⟩ := hrest a ha
    exact ⟨hnodes, by simp [hhanded, hne]⟩

theorem Takes.round_leaf (hcb : Takes cb nodes Keeps)
    (hl : Left nodes Keeps handed h own (c :: path) (.node .nil e s .nil)) :
    ∃ h' own', reuseRound cb ⟨some e.1, h, own, handed⟩ =
        some (.next ⟨some c.entry.1, h', own', handed ++ [e.1]⟩) ∧
      Left nodes Keeps (handed ++ [e.1]) h' own' (c :: path) .nil := by
  have hold : e.1 ∉ pathAddrs (c :: path) := hl.view.not_mem_path (by simp)
  have hpath : ∀ a ∈ pathAddrs (c :: path), (h.detach e).node a = h.node a :=
    fun a ha => detach_of_ne fun hae => hold (hae ▸ ha)
  have hnil : Holds (h.detach e).node (pathPtr (c :: path)) .nil := trivial
  obtain ⟨h2, hcut, hview, -⟩ := hl.view.place rfl hpath rfl hnil nodup_nil
    (fun a ha => by cases ha) fun a _ _ => rfl
  have hfree : ∀ a ∉ pathAddrs (c :: path), h2.node a = (h.detach e).node a := fun a ha =>
    hview.rest a (by rw [mem_addrs_plug, not_or]; exact ⟨not_mem_nil, ha⟩)
  have hframe : ∀ a, a ∉ nodes ∨ a ∈ handed → h2.node a = h.node a := by
    intro a ha
    have hout : a ∉ addrs (plug (c :: path) (.node .nil e s .nil)) := fun hin =>
      ha.elim (· (hl.nodes a hin).1) (hl.nodes a hin).2
    rw [mem_addrs_plug, not_or] at hout
    rw [hfree a hout.2, detach_of_ne (by simpa using hout.1)]
  obtain ⟨h', own', hrun, hleft⟩ := hcb.handOver hl hview
    ((hfree e.1 hold).trans (update_self _ _ _)) hframe (some c.entry.1)
  refine ⟨h', own', ?_, hleft⟩
  replace hcut : unlinkChild e.1 c.entry.1 (h.detach e) = some h2 := hcut
  simp only [reuseRound, hl.view.subtree.1, ptr, some_bind,
    hl.view.update_leaf, pathPtr, hcut, hrun]
  rfl

theorem Takes.round_root (hcb : Takes cb nodes Keeps)
    (hl : Left nodes Keeps handed h own [] (.node .nil e s .nil)) :
    ∃ h' own', reuseRound cb ⟨some e.1, h, own, handed⟩ =
        some (.stop ⟨none, h', own', handed ++ [e.1]⟩) ∧
      Keeps (handed ++ [e.1]) h' own' := by
  have hleaf := hl.nodes e.1 (by simp [plug])
  have hframe : ∀ a, a ∉ nodes ∨ a ∈ handed → (h.detach e).node a = h.node a := by
    intro a ha
    refine detach_of_ne ?_
    rintro rfl
    exact ha.elim (· hleaf.1) hleaf.2
  obtain ⟨h', own', hrun, hkeeps, -⟩ := hcb.step (hcb.frame hl.keeps hframe) hleaf.1 hleaf.2
    (update_self _ _ _)
  refine ⟨h', own', ?_, hkeeps⟩
  simp only [reuseRound, hl.view.subtree.1, ptr, some_bind,
    hl.view.update_leaf, pathPtr, AvlHeap.handOver, hrun]
  rfl

def HandsOver (cb : P → AvlHeap P V → S → Option (AvlHeap P V × S)) (nodes : List P)
    (Keeps : List P → AvlHeap P V → S → Prop) (t : AvlTree (P × V)) : Prop :=
  ∀ handed h own (c : Crumb (P × V)) path, t ≠ .nil →
    Left nodes Keeps handed h own (c :: path) t →
    ∃ k h' own', (∀ fuel, reuseLoop cb (fuel + k) ⟨ptr t, h, own, handed⟩ =
        reuseLoop cb fuel ⟨some c.entry.1, h', own', handed ++ t.postorder.map Prod.fst⟩) ∧
      Left nodes Keeps (handed ++ t.postorder.map Prod.fst) h' own' (c :: path) .nil

/-- The children of a node are handed over before the loop comes back to it. -/
theorem HandsOver.child (ht : HandsOver cb nodes Keeps t)
    (hl : Left nodes Keeps handed h own path (c.fill t))
    (hdown : ∀ p, ptr t = some p → reuseRound cb ⟨some c.entry.1, h, own, handed⟩ =
      some (.next ⟨some p, h, own, handed⟩)) :
    ∃ k h' own', (∀ fuel, reuseLoop cb (fuel + k) ⟨some c.entry.1, h, own, handed⟩ =
        reuseLoop cb fuel ⟨some c.entry.1, h', own', handed ++ t.postorder.map Prod.fst⟩) ∧
      Left nodes Keeps (handed ++ t.postorder.map Prod.fst) h' own' path (c.fill .nil) := by
  by_cases hne : t = .nil
  · subst hne
    refine ⟨0, h, own, fun fuel => ?_, ?_⟩
    · rw [postorder, map_nil, append_nil]
      rfl
    · rw [postorder, map_nil, append_nil]
      exact hl
  · obtain ⟨k, h', own', hrun, hl'⟩ := ht handed h own c path hne ((left_fill c).2 hl)
    obtain ⟨p, hp⟩ := exists_ptr hne
    refine ⟨k + 1, h', own', fun fuel => ?_, (left_fill c).1 hl'⟩
    refine Eq.trans (whileDo_next rfl (hdown p hp) (fuel + k)) ?_
    rw [← hp]
    exact hrun fuel

theorem HandsOver.children (hleft : HandsOver cb nodes Keeps left)
    (hright : HandsOver cb nodes Keeps right)
    (hl : Left nodes Keeps handed h own path (.node left e s right)) :
    ∃ k h' own', (∀ fuel, reuseLoop cb (fuel + k) ⟨some e.1, h, own, handed⟩ =
        reuseLoop cb fuel ⟨some e.1, h', own',
          handed ++ (left.postorder ++ right.postorder).map Prod.fst⟩) ∧
      Left nodes Keeps (handed ++ (left.postorder ++ right.postorder).map Prod.fst) h' own' path
        (.node .nil e s .nil) := by
  obtain ⟨k1, h1, own1, hrun1, hl1⟩ := HandsOver.child (c := .inLeft e s right) hleft hl
    fun p hp => by
      simp only [reuseRound, Crumb.entry, hl.view.subtree.1, hp, some_bind]
      rfl
  obtain ⟨k2, h2, own2, hrun2, hl2⟩ := HandsOver.child (c := .inRight .nil e s) hright hl1
    fun p hp => by
      have hnil : ptr (.nil : AvlTree (P × V)) = none := rfl
      simp only [reuseRound, Crumb.entry, hl1.view.subtree.1, hnil, hp, some_bind]
      rfl
  rw [append_assoc, ← map_append] at hl2
  refine ⟨k2 + k1, h2, own2, fun fuel => ?_, hl2⟩
  rw [← Nat.add_assoc]
  refine (hrun1 (fuel + k2)).trans ((hrun2 fuel).trans ?_)
  rw [append_assoc, ← map_append]
  rfl

theorem Takes.handsOver (hcb : Takes cb nodes Keeps) (t : AvlTree (P × V)) :
    HandsOver cb nodes Keeps t := by
  induction t with
  | nil => exact fun _ _ _ _ _ hne => absurd rfl hne
  | node left e s right ihl ihr =>
    intro handed h own c path _ hl
    obtain ⟨k, h1, own1, hrun, hl1⟩ := HandsOver.children ihl ihr hl
    obtain ⟨h2, own2, hround, hl2⟩ := hcb.round_leaf hl1
    rw [postorder, map_append, ← append_assoc]
    refine ⟨1 + k, h2, own2, fun fuel => ?_, hl2⟩
    rw [← Nat.add_assoc]
    exact (hrun (fuel + 1)).trans (whileDo_next rfl hround fuel)

theorem View.reuseAllNodes (hv : View other h [] t) (hcb : Takes cb (addrs t) Keeps)
    (own : S) (hkeeps : Keeps [] h own) :
    ∃ rounds h' own', AvlHeap.reuseAllNodes cb rounds h own =
        some (h', own', t.postorder.map Prod.fst) ∧
      Keeps (t.postorder.map Prod.fst) h' own' ∧ h'.root = none ∧ h'.count = 0 := by
  have hl : Left (addrs t) Keeps [] h own [] t :=
    ⟨hv.transfer rfl fun _ _ => rfl, hkeeps, fun a ha => ⟨ha, not_mem_nil⟩⟩
  cases t with
  | nil =>
    refine ⟨0, { h with root := none, count := 0 }, own, ?_, ?_, rfl, rfl⟩
    · rw [AvlHeap.reuseAllNodes, hv.root]
      rfl
    · exact hcb.frame hkeeps fun a _ => rfl
  | node left e s right =>
    obtain ⟨k, h1, own1, hrun, hl1⟩ :=
      HandsOver.children (hcb.handsOver left) (hcb.handsOver right) hl
    obtain ⟨h2, own2, hround, hkeeps2⟩ := hcb.round_root hl1
    have hloop := (hrun 1).trans (whileDo_stop rfl hround 0)
    rw [postorder, map_append]
    refine ⟨1 + k, { h2 with root := none, count := 0 }, own2, ?_, ?_, rfl, rfl⟩
    · rw [AvlHeap.reuseAllNodes, hv.root]
      simp only [topPtr, ptr, hloop, some_bind]
      rfl
    · exact hcb.frame hkeeps2 fun a _ => rfl

/-- `DropNode` as the callback, which frees what it is handed. -/
def dropCb (p : P) (h : AvlHeap P V) (_ : Unit) : Option (AvlHeap P V × Unit) :=
  some (h.dropNode p, ())

theorem takes_dropCb (nodes : List P) :
    Takes (dropCb (V := V)) nodes fun handed h _ => ∀ a ∈ handed, h.node a = none where
  step := by
    intro handed h own p value hkeeps _ _ _
    refine ⟨h.dropNode p, (), rfl, fun a ha => ?_, rfl, fun a _ _ hne => ?_⟩
    · by_cases hap : a = p
      · rw [hap]
        exact update_self _ _ _
      · rw [mem_append, mem_singleton, or_iff_left hap] at ha
        exact (update_of_ne hap _ _).trans (hkeeps a ha)
    · exact update_of_ne hne _ _
  frame := fun hkeeps heq a ha => (heq a (.inr ha)).trans (hkeeps a ha)

/-- `ReuseAllNodes` comes back with an empty tree after it has handed over each node once,
children before their parent, and the loop does not change what the callback keeps. -/
theorem reuseAllNodes_hands_over (cb : P → AvlHeap P V → S → Option (AvlHeap P V × S))
    (Keeps : List P → AvlHeap P V → S → Prop) (other : P → Option (AvlBaseNode P V))
    (h : AvlHeap P V) (t : AvlTree (P × V)) (hv : View other h [] t)
    (hcb : Takes cb (addrs t) Keeps) (own : S) (hkeeps : Keeps [] h own) :
    (t.postorder.map Prod.fst).Nodup ∧ (t.postorder.map Prod.fst).Perm (addrs t) ∧
    ∃ rounds h' own', (∀ fuel ≥ rounds, AvlHeap.reuseAllNodes cb fuel h own =
        some (h', own', t.postorder.map Prod.fst)) ∧
      Keeps (t.postorder.map Prod.fst) h' own' ∧ h'.root = none ∧ h'.count = 0 := by
  have hperm := t.postorder_perm.map Prod.fst
  obtain ⟨rounds, h', own', hrun, hdone⟩ := hv.reuseAllNodes hcb own hkeeps
  refine ⟨hperm.nodup_iff.2 hv.nodup, hperm, rounds, h', own', fun fuel hfuel => ?_, hdone⟩
  exact Extends.bind (extends_whileDo hfuel _) (fun _ => Extends.refl _) _ hrun

/-- A root and its left child are freed. -/
theorem reuseAllNodes_frees_two :
    ∃ rounds h' own', (∀ fuel ≥ rounds, AvlHeap.reuseAllNodes dropCb fuel
          (⟨fun p => if p = 0 then some ⟨some 1, none, none, 1, 5⟩
            else if p = 1 then some ⟨none, some 0, none, 2, 7⟩ else none, some 1, 2⟩ :
            AvlHeap Nat Nat) () =
        some (h', own', [0, 1])) ∧
      (∀ a ∈ [0, 1], h'.node a = none) ∧ h'.root = none ∧ h'.count = 0 :=
  (reuseAllNodes_hands_over _ _ (fun _ => none) _ (.node (.node .nil (0, 5) 1 .nil) (1, 7) 2 .nil)
    ⟨⟨rfl, ⟨rfl, trivial, trivial⟩, trivial⟩, trivial, rfl, by decide, by
      intro a ha
      have hne : a ≠ 0 ∧ a ≠ 1 := by simpa [plug] using ha
      simp [hne]⟩
    (takes_dropCb _) () (fun a ha => by cases ha)).2.2

end AvlHeap

end Mmkv
