import Mathlib.Data.List.Basic

/-!
# Copy assignment of singly linked lists

A list is the sequence of the values in its nodes, and a pointer into it is the sequence
from its node on, with `[]` for the null pointer.  A function that dereferences the null
pointer has no result.  `operator=` walks over both lists: it keeps the nodes of the left one
up to the current node, the nodes behind it and a pointer into the right one.
-/

namespace Mmkv

namespace Slist

variable {T : Type}

/-- The lists while the left one is written to: its nodes up to `header`, those behind it,
and where `header2` points. -/
structure Walk (T : Type) where
  upTo : List T
  behind : List T
  header2 : List T
  deriving Repr, DecidableEq

/-- The loop over `header2` with `InsertAfterNode(header, header2->value)`. -/
def insertRest (upTo : List T) : List T → List T
  | [] => upTo
  | y :: header2 => insertRest (upTo ++ [y]) header2

/-- `while (header->next != nullptr) EraseAfterNode(header);` -/
def eraseRest (upTo : List T) : List T → List T
  | [] => upTo
  | _ :: behind => eraseRest upTo behind

def copy : List T → List T
  | [] => []
  | y :: ys => insertRest [y] ys

/-- The loop that assigns the values pairwise, from `header` and `header2` on. -/
def assignValues (upTo : List T) : List T → List T → Option (Walk T)
  | [], _ => none
  | _ :: _, [] => none
  | [_], y :: header2 => some ⟨upTo ++ [y], [], header2⟩
  | _ :: behind, [y] => some ⟨upTo ++ [y], behind, []⟩
  | _ :: behind, y :: header2 => assignValues (upTo ++ [y]) behind header2

/-- `operator=`, for the same list object or for two of them, with both lists after it. -/
def assign (same : Bool) (this other : List T) : Option (List T × List T) :=
  if same then some (this, this)
  else do
    let this := if this.isEmpty then copy other else this
    let walk ← assignValues [] this other
    if walk.behind.isEmpty then some (insertRest walk.upTo walk.header2, other)
    else some (eraseRest walk.upTo walk.behind, other)

theorem insertRest_eq (upTo ys : List T) : insertRest upTo ys = upTo ++ ys := by
  induction ys generalizing upTo with
  | nil => simp [insertRest]
  | cons y ys ih => simp [insertRest, ih]

theorem eraseRest_eq (upTo behind : List T) : eraseRest upTo behind = upTo := by
  induction behind with
  | nil => rfl
  | cons x behind ih => exact ih

theorem copy_eq (other : List T) : copy other = other := by
  cases other with
  | nil => rfl
  | cons y ys => simp [copy, insertRest_eq]

/-- The loop ends with one of the lists: what was assigned and what is still to be appended
are the right list. -/
theorem assignValues_spec {this other : List T} (hthis : this ≠ []) (hother : other ≠ [])
    (upTo : List T) :
    ∃ walk, assignValues upTo this other = some walk ∧
      walk.upTo ++ walk.header2 = upTo ++ other ∧ (walk.behind = [] ∨ walk.header2 = []) := by
  induction this generalizing upTo other with
  | nil => exact absurd rfl hthis
  | cons x behind ih =>
    obtain ⟨y, header2, rfl⟩ := List.exists_cons_of_ne_nil hother
    cases behind with
    | nil => exact ⟨⟨upTo ++ [y], [], header2⟩, rfl, by simp, .inl rfl⟩
    | cons x2 behind =>
      cases header2 with
      | nil => exact ⟨⟨upTo ++ [y], x2 :: behind, []⟩, rfl, by simp, .inr rfl⟩
      | cons y2 header2 =>
        obtain ⟨walk, hrun, hvalues, hend⟩ := ih (List.cons_ne_nil x2 behind)
          (List.cons_ne_nil y2 header2) (upTo ++ [y])
        exact ⟨walk, hrun, by simpa using hvalues, hend⟩

theorem assignValues_nil (this : List T) : assignValues [] this [] = none := by
  cases this with
  | nil => rfl
  | cons x this => cases this <;> rfl

/-- The left list gets the elements of the right one, which stays as it is, except that a
null pointer is dereferenced for an empty list on the right that is another one than the
list on the left. -/
theorem assign_iff (same : Bool) (this other : List T) (hsame : same = true → this = other) :
    assign same this other = some (other, other) ↔ same = true ∨ other ≠ [] := by
  cases same with
  | true => simp [assign, hsame rfl]
  | false =>
    cases other with
    | nil => simp [assign, assignValues_nil]
    | cons y ys =>
      have hthis : (if this.isEmpty then copy (y :: ys) else this) ≠ [] := by
        cases this <;> simp [copy_eq]
      obtain ⟨walk, hrun, hvalues, hend⟩ := assignValues_spec hthis (List.cons_ne_nil y ys) []
      simp only [assign, hrun, insertRest_eq, eraseRest_eq]
      rcases hend with hend | hend
      · simpa [hend] using hvalues
      · rw [hend, List.append_nil] at hvalues
        cases hbehind : walk.behind <;> simp_all

/-- A longer text. -/
theorem assign_iff_longer : assign false ['a'] ['b', 'c'] = some (['b', 'c'], ['b', 'c']) := by
  exact (assign_iff false ['a'] ['b', 'c'] (by decide)).2 (by decide)

/-- An empty text is not assigned, whatever was held. -/
theorem assign_empty : assign false ['a'] [] = none ∧ assign false ([] : List Char) [] = none := by
  decide

end Slist

end Mmkv
