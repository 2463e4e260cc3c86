import Mathlib.Data.Option.Basic

/-!
# Loops with a bound on their rounds

A loop is run with a number that bounds how often its body is entered.  A loop that
needs more rounds has no result, and one that comes back within its bound comes back
with the same result within any larger one.
-/

namespace BoundedLoops

variable {σ α β : Type} {fuel fuel' : Nat} {x x' : Option α}

theorem some_bind (a : α) (f : α → Option β) : (some a >>= f) = f a := rfl

/-- How a round of a loop ends: with the next one, or by leaving the loop. -/
inductive Round (σ : Type) where
  | next (s : σ)
  | stop (s : σ)

def whileDo (cond : σ → Bool) (body : σ → Option (Round σ)) : Nat → σ → Option σ
  | 0, s => if cond s then none else some s
  | fuel + 1, s =>
    if cond s then
      match body s with
      | none => none
      | some (.next s') => whileDo cond body fuel s'
      | some (.stop s') => some s'
    else some s

section Loops

variable {cond : σ → Bool} {body : σ → Option (Round σ)} {s s' r : σ}

theorem whileDo_exit (h : cond s = false) (fuel : Nat) : whileDo cond body fuel s = some s := by
  cases fuel <;> simp [whileDo, h]

theorem whileDo_next (h : cond s = true) (hbody : body s = some (.next s')) (fuel : Nat) :
    whileDo cond body (fuel + 1) s = whileDo cond body fuel s' := by
  simp [whileDo, h, hbody]

theorem whileDo_stop (h : cond s = true) (hbody : body s = some (.stop s')) (fuel : Nat) :
    whileDo cond body (fuel + 1) s = some s' := by
  simp [whileDo, h, hbody]

def Round.map (f : σ → α) : Round σ → Round α
  | .next s => .next (f s)
  | .stop s => .stop (f s)

theorem whileDo_map {cond' : α → Bool} {body' : α → Option (Round α)} (f : σ → α)
    (hcond : ∀ s, cond' (f s) = cond s) (hbody : ∀ s, body' (f s) = (body s).map (Round.map f))
    (fuel : Nat) (s : σ) : whileDo cond' body' fuel (f s) = (whileDo cond body fuel s).map f := by
  induction fuel generalizing s with
  | zero =>
    rw [whileDo, whileDo, hcond]
    split <;> rfl
  | succ fuel ih =>
    rw [whileDo, whileDo, hcond, hbody]
    split
    next =>
      cases body s with
      | none => rfl
      | some round =>
        cases round with
        | next s' => exact ih s'
        | stop s' => rfl
    next => rfl

/-- More fuel does not change the result of a loop that ended. -/
theorem whileDo_mono (hle : fuel ≤ fuel')
    (h : whileDo cond body fuel s = some r) : whileDo cond body fuel' s = some r := by
  induction fuel generalizing fuel' s with
  | zero =>
    cases hcond : cond s with
    | true => simp [whileDo, hcond] at h
    | false =>
      rw [whileDo_exit hcond] at h ⊢
      exact h
  | succ fuel ih =>
    obtain ⟨fuel', rfl⟩ := Nat.exists_eq_add_one_of_ne_zero (by omega : fuel' ≠ 0)
    unfold whileDo at h ⊢
    split at h
    next hcond =>
      cases hbody : body s with
      | none => simp [hbody] at h
      | some round => grind
    next hcond =>
      rw [if_neg hcond]
      exact h

end Loops

def Extends (x x' : Option α) : Prop :=
  ∀ r, x = some r → x' = some r

theorem Extends.refl (x : Option α) : Extends x x := fun _ h => h

theorem Extends.bind {f f' : α → Option β} (hx : Extends x x')
    (hf : ∀ a, Extends (f a) (f' a)) : Extends (x >>= f) (x' >>= f') := by
  intro r h
  obtain ⟨a, ha, hr⟩ := Option.bind_eq_some_iff.1 h
  exact Option.bind_eq_some_iff.2 ⟨a, hx a ha, hf a r hr⟩

theorem Extends.map (hx : Extends x x') (f : α → β) :
    Extends (x.map f) (x'.map f) := by
  intro r h
  obtain ⟨a, ha, hr⟩ := Option.map_eq_some_iff.1 h
  exact Option.map_eq_some_iff.2 ⟨a, hx a ha, hr⟩

theorem Extends.unique {x : Nat → Option α}
    (hx : ∀ {fuel fuel'}, fuel ≤ fuel' → Extends (x fuel) (x fuel')) {r r' : α}
    (h : x fuel = some r) (h' : x fuel' = some r') : r = r' := by
  have hmax := hx (Nat.le_max_left fuel fuel') r h
  rw [hx (Nat.le_max_right fuel fuel') r' h'] at hmax
  exact (Option.some.inj hmax).symm

theorem extends_whileDo {cond : σ → Bool} {body : σ → Option (Round σ)}
    (hle : fuel ≤ fuel') (s : σ) :
    Extends (whileDo cond body fuel s) (whileDo cond body fuel' s) :=
  fun _ h => whileDo_mono hle h

end BoundedLoops
