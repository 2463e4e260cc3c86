import Mathlib.Data.Option.Basic
import Mathlib.Data.List.Basic
import Mathlib.Algebra.Group.Nat.Defs

/-!
# Readers of byte strings

A reader takes a value off the front of its input or fails.  The two notions used
for codecs are `Reads`, which says what a reader does on an encoding whatever
follows it, and `Local`, which says that the outcome depends on the consumed bytes
only.  Readers over different inputs are compared by a simulation.
-/

abbrev Bytes : Type :=
  List UInt8

namespace Reader

open List

variable {σ τ α β : Type}

/-! ## Combinators -/

def takeBytes (n : Nat) : StateT Bytes Option Bytes := fun bs =>
  if n ≤ bs.length then some (bs.take n, bs.drop n) else none

def each (p : α → StateT σ Option β) : List α → StateT σ Option (List β)
  | [] => pure []
  | x :: xs => do
    let y ← p x
    let ys ← each p xs
    return y :: ys

variable {p : StateT σ Option α} {f : α → StateT σ Option β} {s : σ}

theorem bind_eq_some {r : β × σ} :
    (p >>= f) s = some r ↔ ∃ a s', p s = some (a, s') ∧ f a s' = some r := by
  change (p s >>= fun x => f x.1 x.2) = some r ↔ _
  cases p s with
  | none => simp
  | some x =>
    obtain ⟨a, s'⟩ := x
    simp

variable {a : α} {s' : σ}

theorem bind_of_some (h : p s = some (a, s')) : (p >>= f) s = f a s' := by
  change (p s >>= fun x => f x.1 x.2) = _
  rw [h]
  rfl

theorem bind_of_none (h : p s = none) : (p >>= f) s = none := by
  change (p s >>= fun x => f x.1 x.2) = _
  rw [h]
  rfl

theorem each_length {p : α → StateT σ Option β} (xs : List α) {ys : List β}
    (h : each p xs s = some (ys, s')) : ys.length = xs.length := by
  induction xs generalizing ys s with
  | nil =>
    cases h
    rfl
  | cons x xs ih =>
    obtain ⟨y, s1, -, h⟩ := bind_eq_some.1 h
    obtain ⟨ys', s2, hys, h⟩ := bind_eq_some.1 h
    cases h
    simp [ih hys]

/-! ## What a reader does on an encoding -/

/-- The reader takes exactly `bs` off its input, whatever follows, and returns
`a`. -/
def Reads (p : StateT Bytes Option α) (bs : Bytes) (a : α) : Prop :=
  ∀ rest, p (bs ++ rest) = some (a, rest)

theorem Reads.pure (a : α) : Reads (Pure.pure a) [] a := fun _ => rfl

variable {bs : Bytes} {γ : Type}

theorem Reads.bind {p : StateT Bytes Option α} {f : α → StateT Bytes Option β} {bs' : Bytes} {b : β}
    (hp : Reads p bs a) (hf : Reads (f a) bs' b) : Reads (p >>= f) (bs ++ bs') b := by
  intro rest
  rw [append_assoc, bind_of_some (hp _), hf]

theorem Reads.map {p : StateT Bytes Option α} (hp : Reads p bs a) (f : α → β) :
    Reads (do let x ← p; return f x) bs (f a) := by
  intro rest
  rw [bind_of_some (hp rest)]
  rfl

theorem Reads.takeBytes (bs : Bytes) : Reads (takeBytes bs.length) bs bs := by
  intro rest
  simp [Reader.takeBytes]

theorem Reads.each {p : α → StateT Bytes Option β} {encode : γ → Bytes}
    {value : α → γ → β} (starts : List α) (l : List γ) (hlength : starts.length = l.length)
    (h : ∀ start, ∀ x ∈ l, Reads (p start) (encode x) (value start x)) :
    Reads (each p starts) (l.flatMap encode) (zipWith value starts l) := by
  induction l generalizing starts with
  | nil =>
    rw [length_nil, length_eq_zero_iff] at hlength
    rw [hlength]
    exact Reads.pure []
  | cons x l ih =>
    cases starts with
    | nil => simp at hlength
    | cons start starts =>
      have hrest := ih starts (by simpa using hlength) fun start' y hy =>
        h start' y (mem_cons_of_mem _ hy)
      exact (h start x mem_cons_self).bind (hrest.map _)

theorem Reads.unique {p : StateT Bytes Option α} {b : α} (h : Reads p bs a) (h' : Reads p bs b) :
    a = b := by
  have heq := (h []).symm.trans (h' [])
  exact congrArg Prod.fst (Option.some.inj heq)

/-! ## Readers that look at what they consume only -/

def Local (p : StateT Bytes Option α) : Prop :=
  ∀ bs a rest, p bs = some (a, rest) → ∃ used, bs = used ++ rest ∧ Reads p used a

theorem Local.pure (a : α) : Local (Pure.pure a) := by
  intro bs b rest h
  cases h
  exact ⟨[], rfl, Reads.pure a⟩

theorem Local.bind {p : StateT Bytes Option α} {f : α → StateT Bytes Option β}
    (hp : Local p) (hf : ∀ a, Local (f a)) : Local (p >>= f) := by
  intro bs b rest h
  obtain ⟨a, mid, hpa, hfb⟩ := bind_eq_some.1 h
  obtain ⟨used, rfl, hused⟩ := hp bs a mid hpa
  obtain ⟨used', rfl, hused'⟩ := hf a mid b rest hfb
  exact ⟨used ++ used', by simp, hused.bind hused'⟩

theorem Local.takeBytes (n : Nat) : Local (takeBytes n) := by
  intro bs a rest h
  unfold Reader.takeBytes at h
  split at h
  next hle =>
    cases h
    refine ⟨bs.take n, (take_append_drop n bs).symm, ?_⟩
    have hread := Reads.takeBytes (bs.take n)
    rwa [length_take_of_le hle] at hread
  next => cases h

theorem Local.each {p : α → StateT Bytes Option β} (h : ∀ x, Local (p x)) (l : List α) :
    Local (each p l) := by
  induction l with
  | nil => exact Local.pure []
  | cons x l ih => exact (h x).bind fun y => ih.bind fun ys => Local.pure _

/-! ## Readers over different inputs -/

section Simulation

variable (R : σ → τ → Prop)

/-- Both readers have failed, or both have returned the same value and left related
inputs. -/
def Agree (x : Option (α × σ)) (y : Option (α × τ)) : Prop :=
  Option.Rel (fun x y => x.1 = y.1 ∧ R x.2 y.2) x y

def Simulates (p : StateT σ Option α) (q : StateT τ Option α) : Prop :=
  ∀ s t, R s t → Agree R (p s) (q t)

end Simulation

variable {R : σ → τ → Prop} {g : α → StateT τ Option β} {q : StateT τ Option α} {y : Option (α × τ)}
  {x : Option (α × σ)}

theorem Agree.exists_eq_some (h : Agree R x y)
    (hx : x = some (a, s)) : ∃ t, y = some (a, t) ∧ R s t := by
  subst hx
  cases h with
  | @some _ y hxy => grind

theorem Agree.eq_none (h : Agree R x y) (hx : x = none) : y = none := by
  subst hx
  cases h
  rfl

theorem Agree.bind {t : τ} (h : Agree R (p s) (q t))
    (h' : ∀ a s' t', p s = some (a, s') → R s' t' → Agree R (f a s') (g a t')) :
    Agree R ((p >>= f) s) ((q >>= g) t) := by
  cases hp : p s with
  | none =>
    rw [bind_of_none hp, bind_of_none (h.eq_none hp)]
    exact .none
  | some x =>
    obtain ⟨a, s'⟩ := x
    obtain ⟨t', hq, hR⟩ := h.exists_eq_some hp
    rw [bind_of_some hp, bind_of_some hq]
    exact h' a s' t' hp hR

theorem Simulates.pure (a : α) : Simulates R (Pure.pure a : StateT σ Option α) (Pure.pure a) :=
  fun _ _ h => .some ⟨rfl, h⟩

/-- Readers that correspond step by step correspond as a whole. -/
theorem Simulates.bind (h : Simulates R p q)
    (h' : ∀ a, Simulates R (f a) (g a)) : Simulates R (p >>= f) (q >>= g) :=
  fun s t hst => (h s t hst).bind fun a s' t' _ hR => h' a s' t' hR

theorem Simulates.each {p : γ → StateT σ Option β} {q : γ → StateT τ Option β}
    (h : ∀ x, Simulates R (p x) (q x)) (l : List γ) :
    Simulates R (Reader.each p l) (Reader.each q l) := by
  induction l with
  | nil => exact Simulates.pure []
  | cons x l ih => exact (h x).bind fun y => ih.bind fun ys => Simulates.pure _

end Reader

/-! ## Words in network byte order -/

def bigEndian : Nat → Nat → Bytes
  | 0, _ => []
  | n + 1, x => bigEndian n (x / 256) ++ [UInt8.ofNat x]

def ofBigEndian (bs : Bytes) : Nat :=
  bs.foldl (fun acc b => 256 * acc + b.toNat) 0

@[simp] theorem length_bigEndian (n x : Nat) : (bigEndian n x).length = n := by
  induction n generalizing x with
  | zero => rfl
  | succ n ih => simp [bigEndian, ih]

theorem ofBigEndian_bigEndian {n x : Nat} (h : x < 256 ^ n) : ofBigEndian (bigEndian n x) = x := by
  induction n generalizing x with
  | zero =>
    have hzero : x = 0 := by simpa using h
    rw [hzero]
    rfl
  | succ n ih =>
    have hdiv : x / 256 < 256 ^ n := by grind
    have hlast : (UInt8.ofNat x).toNat = x % 256 := UInt8.toNat_ofNat'
    have hinit : ofBigEndian (bigEndian n (x / 256)) = x / 256 := ih hdiv
    simp only [ofBigEndian] at hinit ⊢
    rw [bigEndian, List.foldl_append, hinit, List.foldl_cons, List.foldl_nil, hlast]
    omega

namespace Reader

/-- `n` bytes in network order. -/
def word (n : Nat) : StateT Bytes Option Nat := do
  let bs ← takeBytes n
  return ofBigEndian bs

/-- A word that was written is read back. -/
theorem Reads.word {n x : Nat} (h : x < 256 ^ n) : Reads (word n) (bigEndian n x) x := by
  have hread := (Reads.takeBytes (bigEndian n x)).map ofBigEndian
  rw [length_bigEndian, ofBigEndian_bigEndian h] at hread
  exact hread

theorem Local.word (n : Nat) : Local (word n) := (Local.takeBytes n).bind fun _ => Local.pure _

end Reader

/-! ## Outputs that are written at their end -/

structure Sink (B : Type) where
  append : B → Bytes → B
  bytes : B → Bytes
  bytes_append : ∀ b bs, bytes (append b bs) = bytes b ++ bs

namespace Sink

variable {B : Type} (out : Sink B)

def appendAll (b : B) (pieces : List Bytes) : B :=
  pieces.foldl out.append b

theorem bytes_appendAll (b : B) (pieces : List Bytes) :
    out.bytes (out.appendAll b pieces) = out.bytes b ++ pieces.flatten := by
  induction pieces generalizing b with
  | nil => simp [appendAll]
  | cons bs pieces ih =>
    have hrest := ih (out.append b bs)
    rw [out.bytes_append] at hrest
    simpa [appendAll] using hrest

def buffer : Sink Bytes where
  append b bs := b ++ bs
  bytes b := b
  bytes_append _ _ := rfl

/-- A list of blocks of which the last one is filled up to its capacity. -/
def chunkList (capacity : Nat) : Sink (List Bytes) where
  append b bs :=
    match b.getLast? with
    | none => [bs]
    | some last =>
      if last.length + bs.length ≤ capacity then b.dropLast ++ [last ++ bs] else b ++ [bs]
  bytes b := b.flatten
  bytes_append b bs := by
    cases hlast : b.getLast? with
    | none =>
      rw [List.getLast?_eq_none_iff] at hlast
      simp [hlast]
    | some last =>
      obtain ⟨init, rfl⟩ := List.getLast?_eq_some_iff.1 hlast
      simp only
      split <;> simp

end Sink
