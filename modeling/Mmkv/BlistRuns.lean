import Mmkv.Blist

/-!
# Runs of a doubly linked list

A caller creates nodes, puts them into the list, takes them out again and erases them.
Beside the list stand the sequence that it is expected to hold and the nodes outside of it
that the caller holds, and after every run the pointers and the count are those of the
sequence.
-/

namespace Mmkv

namespace Blist

open BNodes List

variable {P T : Type} [DecidableEq P] {s : Blist P × BNodes P T} {fuel : Nat}

inductive Call (P T : Type) where
  | createNode (a : P) (value : T)
  | pushFront (p : P)
  | pushBack (p : P)
  | insertAfter (node p : P)
  | popFront
  | popBack
  | extract (p : P)
  | erase (p : P)
  | clear
  deriving Repr, DecidableEq

/-- The bound is for the loop of `Clear`. -/
def call (fuel : Nat) (s : Blist P × BNodes P T) : Call P T → Option (Blist P × BNodes P T)
  | .createNode a value => some (s.1, s.2.createNode a value)
  | .pushFront p => s.1.pushFront s.2 p
  | .pushBack p => s.1.pushBack s.2 p
  | .insertAfter node p => s.1.insertAfter s.2 (some node) p
  | .popFront => s.1.popFront s.2
  | .popBack => s.1.popBack s.2
  | .extract p => s.1.extract s.2 (some p)
  | .erase p => s.1.erase s.2 (some p)
  | .clear => s.1.clear s.2 fuel

/-! ## The expected sequence -/

/-- What an allowed call makes of the sequence and of the nodes in the caller's hands. -/
inductive Expects : Call P T → List (P × T) × List (P × T) → List (P × T) × List (P × T) → Prop
  | createNode (xs held a value) (ha : a ∉ addrs (xs ++ held)) :
    Expects (.createNode a value) (xs, held) (xs, (a, value) :: held)
  | pushFront (xs h₁ h₂ x) : Expects (.pushFront x.1) (xs, h₁ ++ x :: h₂) (x :: xs, h₁ ++ h₂)
  | pushBack (xs h₁ h₂ x) : Expects (.pushBack x.1) (xs, h₁ ++ x :: h₂) (xs ++ [x], h₁ ++ h₂)
  | insertAfter (xs₁ xs₂ h₁ h₂ node x) :
    Expects (.insertAfter node.1 x.1) (xs₁ ++ node :: xs₂, h₁ ++ x :: h₂)
      (xs₁ ++ node :: x :: xs₂, h₁ ++ h₂)
  | popFront (xs held x) : Expects .popFront (x :: xs, held) (xs, held)
  | popBack (xs held x) : Expects .popBack (xs ++ [x], held) (xs, held)
  | extract (xs₁ xs₂ held x) :
    Expects (.extract x.1) (xs₁ ++ x :: xs₂, held) (xs₁ ++ xs₂, x :: held)
  | extractHeld (xs h₁ h₂ x) : Expects (.extract x.1) (xs, h₁ ++ x :: h₂) (xs, h₁ ++ x :: h₂)
  | erase (xs₁ xs₂ held x) : Expects (.erase x.1) (xs₁ ++ x :: xs₂, held) (xs₁ ++ xs₂, held)
  | clear (xs held) : Expects .clear (xs, held) ([], held)

inductive ExpectedRun : List (Call P T) → List (P × T) × List (P × T) → Prop
  | start : ExpectedRun [] ([], [])
  | step {calls c e e'} (hrun : ExpectedRun calls e) (hcall : Expects c e e') :
    ExpectedRun (calls ++ [c]) e'

/-- The nodes that one gets to by so many links. -/
def follow (m : BNodes P T) (link : BNode P T → Option P) : Nat → Option P → Option (List (P × T))
  | 0, _ => some []
  | n + 1, p => do
    let p ← p
    let node ← m.node p
    return (p, node.value) :: (← follow m link n (link node))

structure Represents (l : Blist P) (m : BNodes P T) (xs : List (P × T)) : Prop where
  forward : follow m BNode.next xs.length l.header = some xs
  backward : follow m BNode.prev xs.length ((l.header.bind m.node).bind BNode.prev) =
    some xs.reverse
  tail : (l.header.bind m.node).bind BNode.prev = xs.getLast?.map Prod.fst
  ends : ∀ x, xs.getLast? = some x → (m.node x.1).bind BNode.next = none
  empty : l.header = none ↔ xs = []
  size : l.count = xs.length

section Follow

omit [DecidableEq P]

variable {m : BNodes P T} {p q : Option P} {xs : List (P × T)}

theorem follow_next (h : m.Segment p xs q) :
    follow m BNode.next xs.length (headPtr xs q) = some xs := by
  induction xs generalizing p with
  | nil => rfl
  | cons x xs ih =>
    rw [show headPtr (x :: xs) q = some x.1 from rfl]
    simp [follow, h.1, ih h.2]

theorem follow_prev (h : m.Segment p xs.reverse q) :
    follow m BNode.prev xs.length (lastPtr p xs.reverse) = some xs := by
  induction xs generalizing q with
  | nil => rfl
  | cons x xs ih =>
    rw [reverse_cons, segment_append] at h
    rw [reverse_cons, lastPtr_concat]
    simp [follow, h.2.1, ih h.1]

theorem Holds.represents {l : Blist P} (h : l.Holds m xs) : l.Represents m xs := by
  have hlast : lastPtr none xs = xs.getLast?.map Prod.fst := by
    rcases eq_nil_or_concat' xs with rfl | ⟨init, x, rfl⟩
    · rfl
    · rw [lastPtr_concat]
      simp
  have htail : (l.header.bind m.node).bind BNode.prev = lastPtr none xs := by
    rw [h.header]
    cases xs with
    | nil => rfl
    | cons x xs => simp [headPtr, h.segment.1]
  refine ⟨?_, ?_, htail.trans hlast, ?_, ?_, h.count⟩
  · rw [h.header]
    exact follow_next h.segment
  · have hsegment := h.segment
    rw [← xs.reverse_reverse] at hsegment
    have hfollow := follow_prev hsegment
    rw [htail]
    cases xs with
    | nil => rfl
    | cons x xs =>
      rw [reverse_reverse, length_reverse] at hfollow
      exact hfollow
  · intro x hx
    obtain ⟨n, hn, hnext, -⟩ := h.last (hlast.trans (congrArg _ hx))
    simp [hn, hnext]
  · rw [h.header]
    cases xs <;> simp [headPtr]

end Follow

/-! ## Runs -/

structure Keeps (s : Blist P × BNodes P T) (xs held : List (P × T)) : Prop where
  holds : s.1.Holds s.2 xs
  nodup : (addrs held).Nodup
  apart : ∀ a ∈ addrs held, a ∉ addrs xs
  unlinked : ∀ x ∈ held, s.2.node x.1 = some ⟨none, none, x.2⟩

omit [DecidableEq P] in
theorem Gives.keeps {r : Option (Blist P × BNodes P T)}
    {touched : List P} {xs held ys held' : List (P × T)} (hr : Gives r s.2 touched ys)
    (h : Keeps s xs held) (hheld : held'.Sublist held) (hys : ∀ a ∈ addrs ys, a ∈ touched)
    (hapart : ∀ a ∈ addrs held', a ∉ touched) :
    ∃ s', r = some s' ∧ Keeps s' ys held' := by
  obtain ⟨l', m', hrun, hholds, hframe⟩ := hr
  refine ⟨(l', m'), hrun, hholds, h.nodup.sublist (hheld.map _),
    fun a ha hmem => hapart a ha (hys a hmem), ?_⟩
  intro x hx
  rw [hframe x.1 (hapart x.1 (mem_map_of_mem hx))]
  exact h.unlinked x (hheld.subset hx)

/-- One allowed call returns and keeps up the expected sequence. -/
theorem Expects.keeps {c : Call P T} {e e' : List (P × T) × List (P × T)} (hc : Expects c e e')
    (h : Keeps s e.1 e.2) (hfuel : e.1.length ≤ fuel) :
    ∃ s', call fuel s c = some s' ∧ Keeps s' e'.1 e'.2 := by
  have hholds := h.holds
  have hnodup := h.nodup
  have hapart := h.apart
  cases hc with
  | createNode xs held a value ha =>
    have hout : ∀ x ∈ held, x.1 ≠ a := fun x hx => by
      have hmem : x.1 ∈ addrs held := mem_map_of_mem hx
      grind
    refine ⟨_, rfl, ⟨hholds.nodup, hholds.header, hholds.count,
      hholds.segment.update_other (by grind) _⟩, by grind, by grind, ?_⟩
    intro x hx
    rcases mem_cons.1 hx with rfl | hx
    · exact node_write_self _ _
    · exact (node_write_of_ne (hout x hx) _).trans (h.unlinked x hx)
  | pushFront xs h1 h2 x =>
    have hx := h.unlinked x (by simp)
    exact (hholds.pushFront hx (by grind)).keeps h (by simp) (by grind) (by grind)
  | pushBack xs h1 h2 x =>
    have hx := h.unlinked x (by simp)
    exact (hholds.pushBack hx (by grind)).keeps h (by simp) (by grind) (by grind)
  | insertAfter xs1 xs2 h1 h2 node x =>
    have hx := h.unlinked x (by simp)
    exact (hholds.insertAfter hx (by grind)).keeps h (by simp) (by grind) (by grind)
  | popFront xs held x => exact hholds.popFront.keeps h (.refl _) (by grind) (by grind)
  | popBack xs held x =>
    have hpop := hholds.popBack
    rw [dropLast_concat] at hpop
    exact hpop.keeps h (.refl _) (by grind) (by grind)
  | extract xs1 xs2 held x =>
    obtain ⟨l', m', hrun, hholds', hx, hframe⟩ := hholds.extract
    have hxs := hholds.nodup
    refine ⟨(l', m'), hrun, hholds', by grind, by grind, ?_⟩
    intro y hy
    rcases mem_cons.1 hy with rfl | hy
    · exact hx
    · rw [hframe y.1 (hapart _ (mem_map_of_mem hy))]
      exact h.unlinked y hy
  | extractHeld xs h1 h2 x =>
    refine ⟨s, ?_, h⟩
    simp [call, Blist.extract, h.unlinked x (by simp)]
  | erase xs1 xs2 held x => exact hholds.erase.keeps h (.refl _) (by grind) (by grind)
  | clear xs held => exact (hholds.clear hfuel).keeps h (.refl _) (by grind) (by grind)

variable {calls : List (Call P T)}

theorem ExpectedRun.keeps {e : List (P × T) × List (P × T)}
    (hrun : ExpectedRun calls e) (m0 : BNodes P T) (hfuel : calls.length ≤ fuel) :
    e.1.length + e.2.length ≤ calls.length ∧
      ∃ s, calls.foldlM (call fuel) (new, m0) = some s ∧ Keeps s e.1 e.2 := by
  induction hrun with
  | start => exact ⟨Nat.le_refl 0, _, rfl, holds_new m0, nodup_nil, by grind, by simp⟩
  | @step calls c e e' hrun hcall ih =>
    rw [length_append] at hfuel ⊢
    obtain ⟨hlength, s, hs, hkeeps⟩ := ih (by omega)
    obtain ⟨s', hs', hkeeps'⟩ := hcall.keeps hkeeps (show _ ≤ fuel by omega)
    refine ⟨?_, s', by simp [hs, hs'], hkeeps'⟩
    cases hcall <;> simp at hlength ⊢ <;> omega

/-- After every run of allowed calls on a new list, whatever else is in memory, all calls
have returned and the list represents the expected sequence. -/
theorem represents_of_run {calls : List (Call P T)} {xs held : List (P × T)}
    (hrun : ExpectedRun calls (xs, held)) (m₀ : BNodes P T) {fuel : Nat}
    (hfuel : calls.length ≤ fuel) :
    ∃ l m, calls.foldlM (call fuel) (new, m₀) = some (l, m) ∧ l.Represents m xs := by
  obtain ⟨-, ⟨l, m⟩, hcalls, hkeeps⟩ := hrun.keeps m₀ hfuel
  exact ⟨l, m, hcalls, hkeeps.holds.represents⟩

/-- Two nodes are pushed, the first is extracted and pushed again behind the other. -/
theorem represents_of_run_moved :
    ∃ l m, [Call.createNode 1 'a', .pushBack 1, .createNode 2 'b', .pushBack 2, .extract 1,
        .pushBack 1].foldlM (call 6) (new, (⟨fun _ => none⟩ : BNodes Nat Char)) = some (l, m) ∧
      l.Represents m [(2, 'b'), (1, 'a')] := by
  have h₁ := ExpectedRun.start.step (.createNode [] [] 1 'a' (by decide))
  have h₂ := h₁.step (.pushBack [] [] [] _)
  have h₃ := h₂.step (.createNode _ _ 2 'b' (by decide))
  have h₄ := h₃.step (.pushBack _ [] [] _)
  have h₅ := h₄.step (.extract [] _ _ _)
  exact represents_of_run (h₅.step (.pushBack _ [] [] _)) _ (Nat.le_refl 6)

end Blist

end Mmkv
