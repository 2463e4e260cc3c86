import Mathlib.Data.Nat.Basic
import Mathlib.Algebra.Group.Nat.Defs

/-!
# Doubling a table one cell at a time

A table that is full gets a successor of twice the size.  The cells are moved
over one by one, with every call that is made meanwhile, so the move ends
before the successor can be full: a call moves one cell and adds at most one
entry.
-/

namespace IncrementalDoubling

open Nat

/-- The size of the table, the next cell to move while it is being moved, and
the number of entries in it and its successor. -/
structure Growth where
  size : Nat
  cursor : Option Nat
  load : Nat
  deriving Repr, DecidableEq

namespace Growth

def start (g : Growth) : Growth :=
  if g.cursor = none ∧ g.size ≤ g.load then { g with cursor := some 0 } else g

/-- A cell is moved.  After the last one the successor takes the table's
place. -/
def advance (g : Growth) : Growth :=
  match g.cursor with
  | none => g
  | some i =>
    if i + 1 ≠ g.size then { g with cursor := some (i + 1) }
    else { g with size := g.size * 2, cursor := none }

/-- A call that may start a move adds at most one entry, any other none. -/
inductive Step (g : Growth) : Growth → Prop where
  | look {load : Nat} (hload : load ≤ g.load) : Step g { g.advance with load := load }
  | insert {load : Nat} (hload : load ≤ g.load + 1) :
      Step g { g.start.advance with load := load }

inductive Steps : Nat → Growth → Growth → Prop where
  | zero (g : Growth) : Steps 0 g g
  | succ {n : Nat} {g g' g'' : Growth} (step : Step g g') (steps : Steps n g' g'') :
      Steps (n + 1) g g''

def capacity (g : Growth) : Nat :=
  if g.cursor = none then g.size else g.size * 2

/-- The entries that came in since the move began are at most the cells that
have been moved. -/
structure Valid (g : Growth) : Prop where
  size_pos : 0 < g.size
  idle : g.cursor = none → g.load ≤ g.size
  moving : ∀ i, g.cursor = some i → i < g.size ∧ g.load ≤ g.size + i

theorem Valid.load_le_capacity {g : Growth} (hg : g.Valid) : g.load ≤ g.capacity := by
  unfold capacity
  split
  next h => exact hg.idle h
  next h =>
    obtain ⟨i, hi⟩ := Option.ne_none_iff_exists'.1 h
    obtain ⟨hlt, hload⟩ := hg.moving i hi
    omega

variable {g g' : Growth} {i n : Nat}

@[simp] theorem start_of_moving (hcursor : g.cursor = some i) : g.start = g :=
  if_neg fun h => by rw [hcursor] at h; cases h.1

theorem advance_of_lt (hcursor : g.cursor = some i) (hlt : i + 1 < g.size) :
    g.advance = { g with cursor := some (i + 1) } := by
  unfold advance
  grind

theorem advance_of_last (hcursor : g.cursor = some i) (hlast : i + 1 = g.size) :
    g.advance = { g with size := g.size * 2, cursor := none } := by
  unfold advance
  grind

theorem Step.of_moving (hstep : Step g g') (hcursor : g.cursor = some i) :
    g'.size = g.advance.size ∧ g'.cursor = g.advance.cursor := by
  cases hstep with
  | look hload => exact ⟨rfl, rfl⟩
  | insert hload =>
    rw [start_of_moving hcursor]
    exact ⟨rfl, rfl⟩

theorem load_start (g : Growth) : g.start.load = g.load := by
  unfold start
  split <;> rfl

theorem size_start (g : Growth) : g.start.size = g.size := by
  unfold start
  split <;> rfl

theorem Valid.start (hg : g.Valid) : g.start.Valid := by
  unfold Growth.start
  split
  next h =>
    refine ⟨hg.size_pos, fun hnone => (by cases hnone), fun i hi => ?_⟩
    cases hi
    exact ⟨hg.size_pos, hg.idle h.1⟩
  next => exact hg

theorem Valid.advance (hg : g.Valid) {load : Nat} (hload : load ≤ g.load + 1)
    (hidle : g.cursor = none → load ≤ g.size) : Valid { g.advance with load := load } := by
  cases hcursor : g.cursor with
  | none =>
    have hadvance : g.advance = g := by
      unfold Growth.advance
      rw [hcursor]
    rw [hadvance]
    exact ⟨hg.size_pos, hidle, fun i hi => by cases hcursor.symm.trans hi⟩
  | some i =>
    obtain ⟨hlt, hle⟩ := hg.moving i hcursor
    by_cases hlast : i + 1 = g.size
    · rw [advance_of_last hcursor hlast]
      refine ⟨Nat.mul_pos hg.size_pos Nat.two_pos, fun _ => ?_, fun j hj => by cases hj⟩
      grind
    · rw [advance_of_lt hcursor (by omega)]
      refine ⟨hg.size_pos, fun h => (by cases h), fun j hj => ?_⟩
      grind

theorem Valid.step (hg : g.Valid) (hstep : Step g g') : g'.Valid := by
  cases hstep with
  | look hload =>
    exact hg.advance (le_succ_of_le hload) fun h => le_trans hload (hg.idle h)
  | insert hload =>
    refine hg.start.advance (by rw [load_start]; exact hload) fun hnone => ?_
    -- no move has begun, so the table was not full
    have hroom : ¬(g.cursor = none ∧ g.size ≤ g.load) := by
      intro hfull
      rw [Growth.start, if_pos hfull] at hnone
      cases hnone
    rw [Growth.start, if_neg hroom] at hnone ⊢
    grind

/-! ## How long a move takes -/

theorem Step.next_of_lt (hstep : Step g g') (hcursor : g.cursor = some i)
    (hlt : i + 1 < g.size) : g'.cursor = some (i + 1) ∧ g'.size = g.size := by
  obtain ⟨hsize, hcursor'⟩ := hstep.of_moving hcursor
  rw [advance_of_lt hcursor hlt] at hsize hcursor'
  exact ⟨hcursor', hsize⟩

theorem Step.next_of_last (hstep : Step g g') (hcursor : g.cursor = some i)
    (hlast : i + 1 = g.size) : g'.cursor = none ∧ g'.size = g.size * 2 := by
  obtain ⟨hsize, hcursor'⟩ := hstep.of_moving hcursor
  rw [advance_of_last hcursor hlast] at hsize hcursor'
  exact ⟨hcursor', hsize⟩

theorem Step.cursor_of_start (hstep : Step g g') (hidle : g.cursor = none)
    (hmoving : g'.cursor ≠ none) : g'.cursor = some 1 ∧ g'.size = g.size := by
  have hadvance : g.advance = g := by
    unfold advance
    rw [hidle]
  cases hstep with
  | look hload => grind
  | insert hload =>
    unfold start at hmoving ⊢
    split at hmoving
    next hfull =>
      by_cases hlast : 0 + 1 = g.size
      · have hend := advance_of_last (g := { g with cursor := some 0 }) rfl hlast
        grind
      · have hnext : ({ g with cursor := some 0 } : Growth).advance =
            { g with cursor := some 1 } := if_pos hlast
        grind
    next => grind

theorem Steps.moving_iff (hsteps : Steps n g g') (hcursor : g.cursor = some i)
    (hn : i + n ≤ g.size) (hpos : i < g.size) :
    (g'.cursor ≠ none ↔ i + n < g.size) ∧
      (i + n = g.size → g'.size = g.size * 2) := by
  induction hsteps generalizing i with
  | zero g => grind
  | @succ n g g1 g2 step steps ih =>
    by_cases hlast : i + 1 = g.size
    · obtain rfl : n = 0 := by omega
      cases steps
      obtain ⟨hnone, hsize⟩ := step.next_of_last hcursor hlast
      grind
    · obtain ⟨hnext, hsize⟩ := step.next_of_lt hcursor (by omega)
      grind

/-- A bound on the calls that still move a cell if no entry comes in. -/
def pending (g : Growth) : Nat :=
  (g.load + 1 - g.size) * (g.load + 3) +
    match g.cursor with
    | none => if g.load < g.size then 0 else g.size + 1
    | some i => g.size - i

end Growth

end IncrementalDoubling
