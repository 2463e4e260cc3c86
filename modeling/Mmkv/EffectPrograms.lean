import Mathlib.Logic.Basic

/-!
# Programs over an interface

A program is written against an interface of calls and is run by a handler that
answers each call and changes a state of its own.  The same program can so be
run on a data structure and on its abstract counterpart.

A contract says what a call may be used for and how it may be answered.  Two
rules turn a contract that a program meets into facts about its runs: one
handler that keeps the contract, and two handlers that answer alike.
-/

namespace EffectPrograms

structure Interface where
  Op : Type 1
  Ans : Op → Type

/-- `abort` stands for a program that does not come back: it dereferences a null
pointer, fails an assertion or loops. -/
inductive Program (I : Interface) (α : Type) : Type 1 where
  | pure (a : α)
  | abort
  | call (op : I.Op) (next : I.Ans op → Program I α)

abbrev Handler (I : Interface) (S : Type) : Type 1 :=
  (op : I.Op) → S → I.Ans op × S

variable {I : Interface} {S S' G α β : Type} {a : α} {s' : S'}

namespace Program

def request (op : I.Op) : Program I (I.Ans op) :=
  .call op .pure

def bind (p : Program I α) (f : α → Program I β) : Program I β :=
  match p with
  | .pure a => f a
  | .abort => .abort
  | .call op next => .call op fun a => (next a).bind f

instance : Monad (Program I) where
  pure := .pure
  bind := .bind

def ofOption : Option α → Program I α
  | none => .abort
  | some a => .pure a

def run (h : Handler I S) : Program I α → S → Option (α × S)
  | .pure a, s => some (a, s)
  | .abort, _ => none
  | .call op next, s => (next (h op s).1).run h (h op s).2

section Run

variable (h : Handler I S) (s : S)

@[simp] theorem run_pure (a : α) :
    (Pure.pure a : Program I α).run h s = some (a, s) := rfl

@[simp] theorem run_abort :
    (abort : Program I α).run h s = none := rfl

@[simp] theorem run_request (op : I.Op) :
    (request op).run h s = some (h op s) := rfl

@[simp] theorem run_bind (p : Program I α) (f : α → Program I β) :
    (p >>= f).run h s = (p.run h s).bind fun r => (f r.1).run h r.2 := by
  change (p.bind f).run h s = _
  induction p generalizing s with
  | pure a => rfl
  | abort => rfl
  | call op next ih => exact ih _ _

variable {h : Handler I S} {s : S} {p : Program I α}

theorem run_bind_of_some {s' : S} (hp : p.run h s = some (a, s')) (f : α → Program I β) :
    (p >>= f).run h s = (f a).run h s' := by
  rw [run_bind, hp]
  rfl

theorem run_bind_of_none (hp : p.run h s = none) (f : α → Program I β) :
    (p >>= f).run h s = none := by
  rw [run_bind, hp]
  rfl

@[simp] theorem run_ite (c : Prop) [Decidable c] (p q : Program I α) :
    (if c then p else q).run h s = if c then p.run h s else q.run h s := by
  split <;> rfl

end Run

end Program

/-! ## Results of a run -/

/-- If the program comes back, its result and the last state satisfy `Q`. -/
def Ensures (h : Handler I S) (p : Program I α) (s : S) (Q : α → S → Prop) : Prop :=
  ∀ a s', p.run h s = some (a, s') → Q a s'

namespace Ensures

variable {h : Handler I S} {p : Program I α} {s : S} {Q Q' : α → S → Prop} {f : α → Program I β}
  {R : β → S → Prop}

theorem pure (hQ : Q a s) : Ensures h (Pure.pure a : Program I α) s Q := by
  intro b s' hrun
  cases hrun
  exact hQ

theorem abort : Ensures h (Program.abort : Program I α) s Q := by
  intro a s' hrun
  cases hrun

theorem mono (hp : Ensures h p s Q) (hQ : ∀ a s', Q a s' → Q' a s') : Ensures h p s Q' :=
  fun a s' hrun => hQ a s' (hp a s' hrun)

theorem bind (hp : Ensures h p s Q) (hf : ∀ a s', Q a s' → Ensures h (f a) s' R) :
    Ensures h (p >>= f) s R := by
  intro b t hrun
  rw [Program.run_bind] at hrun
  rcases Option.bind_eq_some_iff.mp hrun with ⟨⟨a, s'⟩, hfirst, hsecond⟩
  exact hf a s' (hp a s' hfirst) b t hsecond

theorem step {s' : S} (hp : p.run h s = some (a, s')) (hf : Ensures h (f a) s' R) :
    Ensures h (p >>= f) s R := by
  intro b t hrun
  rw [Program.run_bind_of_some hp] at hrun
  exact hf b t hrun

theorem ite {c : Prop} [Decidable c] {q : Program I α}
    (hp : c → Ensures h p s Q) (hq : ¬ c → Ensures h q s Q) :
    Ensures h (if c then p else q) s Q := by
  grind

end Ensures

/-! ## Contracts -/

/-- `pre` is what a caller has to establish and `post` what it may rely on, both
over a ghost state. -/
structure Contract (I : Interface) (G : Type) where
  pre : I.Op → G → Prop
  post : (op : I.Op) → G → I.Ans op → G → Prop

def Meets (c : Contract I G) : Program I α → G → (α → G → Prop) → Prop
  | .pure a, g, Q => Q a g
  | .abort, _, _ => True
  | .call op next, g, Q =>
    c.pre op g ∧ ∀ a g', c.post op g a g' → Meets c (next a) g' Q

namespace Meets

variable {c : Contract I G} {p : Program I α} {f : α → Program I β}
  {Q Q' : α → G → Prop} {g : G}

theorem mono (hp : Meets c p g Q) (hQ : ∀ a g', Q a g' → Q' a g') : Meets c p g Q' := by
  induction p generalizing g with
  | pure a => exact hQ a g hp
  | abort => trivial
  | call op next ih => exact ⟨hp.1, fun a g' hpost => ih a (hp.2 a g' hpost)⟩

theorem of_contract {d : Contract I G} (hpre : ∀ op g, c.pre op g → d.pre op g)
    (hpost : ∀ op g a g', d.post op g a g' → c.post op g a g') (hp : Meets c p g Q) :
    Meets d p g Q := by
  induction p generalizing g with
  | pure a => exact hp
  | abort => trivial
  | call op next ih =>
    exact ⟨hpre op g hp.1, fun a g' h => ih a (hp.2 a g' (hpost op g a g' h))⟩

@[simp] theorem bind_iff {R : β → G → Prop} :
    Meets c (p >>= f) g R ↔ Meets c p g (fun a g' => Meets c (f a) g' R) := by
  change Meets c (p.bind f) g R ↔ _
  induction p generalizing g with
  | pure a => rfl
  | abort => rfl
  | call op next ih =>
    simp only [Program.bind, Meets]
    grind

/-- A handler that answers as the contract promises, for states tied to the
ghost state by `rel`. -/
theorem run_spec (h : Handler I S) (rel : S → G → Prop)
    (hstep : ∀ op s g, rel s g → c.pre op g → ∃ g', c.post op g (h op s).1 g' ∧ rel (h op s).2 g')
    {s s' : S} (hp : Meets c p g Q) (hrel : rel s g)
    (hrun : p.run h s = some (a, s')) :
    ∃ g', rel s' g' ∧ Q a g' := by
  induction p generalizing s g with
  | pure b =>
    cases hrun
    exact ⟨g, hrel, hp⟩
  | abort => cases hrun
  | call op next ih =>
    rcases hstep op s g hrel hp.1 with ⟨g', hpost, hrel'⟩
    exact ih _ (hp.2 _ g' hpost) hrel' hrun

end Meets

/-- Both runs abort, or both return the same result and end in related states. -/
inductive SameOutcome (R : α → S → S' → Prop) :
    Option (α × S) → Option (α × S') → Prop where
  | aborted : SameOutcome R none none
  | returned {a : α} {s : S} {s' : S'} (hR : R a s s') :
      SameOutcome R (some (a, s)) (some (a, s'))

theorem SameOutcome.mono {R R' : α → S → S' → Prop} {r : Option (α × S)} {r' : Option (α × S')}
    (hsame : SameOutcome R r r') (hR : ∀ a s s', R a s s' → R' a s s') :
    SameOutcome R' r r' := by
  cases hsame with
  | aborted => exact .aborted
  | returned h => exact .returned (hR _ _ _ h)

section SameOutcome

variable {R : α → S → S' → Prop}

@[simp] theorem sameOutcome_none_left {r : Option (α × S')} : SameOutcome R none r ↔ r = none := by
  constructor
  · intro h
    cases h
    rfl
  · rintro rfl
    exact .aborted

variable {r : Option (α × S)}

@[simp] theorem sameOutcome_none_right : SameOutcome R r none ↔ r = none := by
  constructor
  · intro h
    cases h
    rfl
  · rintro rfl
    exact .aborted

@[simp] theorem sameOutcome_some_iff {r : α × S} {r' : α × S'} :
    SameOutcome R (some r) (some r') ↔ r.1 = r'.1 ∧ R r.1 r.2 r'.2 := by
  constructor
  · intro h
    cases h with
    | returned hR => exact ⟨rfl, hR⟩
  · rcases r with ⟨a, s⟩
    rcases r' with ⟨a', s'⟩
    rintro ⟨rfl, hR⟩
    exact .returned hR

variable {r' : Option (α × S')}

theorem SameOutcome.exists_of_left {s : S} (hsame : SameOutcome R (some (a, s)) r') :
    ∃ s', r' = some (a, s') ∧ R a s s' := by
  cases hsame with
  | returned hR => exact ⟨_, rfl, hR⟩

theorem SameOutcome.exists_of_right (hsame : SameOutcome R r (some (a, s'))) :
    ∃ s, r = some (a, s) ∧ R a s s' := by
  cases hsame with
  | returned hR => exact ⟨_, rfl, hR⟩

theorem SameOutcome.result_eq (hsame : SameOutcome R r r') : r.map Prod.fst = r'.map Prod.fst := by
  cases hsame <;> rfl

theorem SameOutcome.iff_of_image {T T' : Type} {f : S → T} {f' : S' → T'} {R : α → T → T' → Prop}
    {q : Option (α × T)} {q' : Option (α × T')} (hr : SameOutcome (fun _ s t => t = f s) r q)
    (hr' : SameOutcome (fun _ s t => t = f' s) r' q') :
    SameOutcome (fun a s s' => R a (f s) (f' s')) r r' ↔ SameOutcome R q q' := by
  cases hr with
  | aborted =>
    cases hr' with
    | aborted => simp
    | returned h => simp
  | returned h =>
    subst h
    cases hr' with
    | aborted => simp
    | returned h' =>
      subst h'
      simp

end SameOutcome

theorem Meets.same_outcome {c : Contract I G} {p : Program I α} {Q : α → G → Prop} {g : G}
    (h : Handler I S) (h' : Handler I S') (rel : G → S → S' → Prop)
    (hstep : ∀ op g s s', rel g s s' → c.pre op g → (h op s).1 = (h' op s').1 ∧
        ∃ g', c.post op g (h op s).1 g' ∧ rel g' (h op s).2 (h' op s').2)
    {s : S} (hp : Meets c p g Q) (hrel : rel g s s') :
    SameOutcome (fun a t t' => ∃ g', rel g' t t' ∧ Q a g') (p.run h s) (p.run h' s') := by
  induction p generalizing s s' g with
  | pure a => exact .returned ⟨g, hrel, hp⟩
  | abort => exact .aborted
  | call op next ih =>
    rcases hstep op g s s' hrel hp.1 with ⟨hans, g', hpost, hrel'⟩
    have hnext := ih _ (hp.2 _ g' hpost) hrel'
    simp only [Program.run]
    rwa [← hans]

end EffectPrograms
