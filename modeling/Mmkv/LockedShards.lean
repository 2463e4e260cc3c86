import Mmkv.ReadRequests
import Mmkv.Shards
import Mathlib.Data.Set.Insert

/-!
# Locked shards

While the keys of a shard are sent to another node, the shard is locked.  The commands
check the shard of one key at their start; the value of a locked key is changed all the
same by what is not checked: the new name of a key, keys that are dropped because their
deadline has passed, the victim of the replacement, and the empty key that a moved key
leaves behind.
-/

namespace Mmkv

open EffectPrograms Function Db AbsDb List

variable {hash : Str → Nat} {C : Type}

/-! ## Values that stay -/

/-- Every key outside of `D` has the same value in both states. -/
def AbsDb.SameOff (D : Set Str) (a b : AbsDb hash C) : Prop :=
  ∀ k, k ∉ D → Option.Rel MmkvData.Same (a.dict.get k) (b.dict.get k)

namespace AbsDb.SameOff

variable {D : Set Str} {a b c : AbsDb hash C} {k : Str}

theorem of_eq (h : ∀ k, k ∉ D → b.dict.get k = a.dict.get k) : a.SameOff D b := by
  intro k hk
  rw [h k hk]
  exact MmkvData.Same.option_refl _

theorem refl (a : AbsDb hash C) : a.SameOff D a := of_eq fun _ _ => rfl

theorem trans (h : a.SameOff D b) (h' : b.SameOff D c) : a.SameOff D c := by
  intro k hk
  have hab := h k hk
  have hbc := h' k hk
  generalize a.dict.get k = x at hab ⊢
  generalize b.dict.get k = y at hab hbc
  generalize c.dict.get k = z at hbc ⊢
  cases hab with
  | none => grind
  | some hxy =>
    cases hbc with
    | some hyz => exact .some (hxy.trans hyz)

/-- A key of `D` gets a value, gets another one or goes. -/
theorem update (hk : k ∈ D) {o : Option (MmkvData hash)}
    (hdict : b.dict.get = update a.dict.get k o) : a.SameOff D b := by
  refine of_eq fun k' hk' => ?_
  have hne : k' ≠ k := fun heq => hk' (heq ▸ hk)
  rw [hdict, update_of_ne hne]

theorem update_same {data data' : MmkvData hash} (hget : a.dict.get k = some data)
    (hsame : data.Same data') (hdict : b.dict.get = Function.update a.dict.get k (some data')) :
    a.SameOff D b := by
  intro k' _
  rw [hdict]
  by_cases hk : k' = k
  · subst hk
    rw [hget, update_self]
    exact .some hsame
  · rw [update_of_ne hk]
    exact MmkvData.Same.option_refl _

end AbsDb.SameOff

/-- No other value than one in `D` is changed. -/
def Change.Within (D : Set Str) : Change hash → Prop
  | .touched _ | .dated .. | .undated _ => True
  | .written k old data => k ∈ D ∨ old.Same data
  | .inserted k _ | .removed k _ | .expired k => k ∈ D
  | _ => False

variable {w : World C} {a : AbsDb hash C} {b : AbsDb hash C} {D : Set Str} {α : Type}

theorem AbsDb.Path.sameOff (h : a.Path w (fun _ c => c.Within D) b) : a.SameOff D b := by
  refine h.keeps (I := fun b => a.SameOff D b) ?_ (.refl a)
  rintro b b' c hwithin ⟨hallowed, hvalues, -, -⟩ hsame
  refine hsame.trans ?_
  cases c with
  | touched _ | dated _ _ | undated _ => exact .of_eq fun k _ => congrFun hvalues k
  | written k old data =>
    obtain hk | hdata := hwithin
    · exact .update hk hvalues
    · exact .update_same hallowed hdata hvalues
  | inserted _ _ | removed _ _ | expired _ => exact .update hwithin hvalues
  | _ => exact hwithin.elim

/-! ## What each shape leaves alone -/

namespace Db

variable {w : World C} {a : AbsDb hash C} {k : Str}

/-- The program changes the values of the keys in `D` only. -/
abbrev Spares {α : Type} (D : Set Str) (p : Db hash C α) (a : AbsDb hash C) : Prop :=
  Ensures handler p a fun _ b => a.SameOff D b

theorem Changes.spares {p : Db hash C α}
    (h : Changes w (fun _ c => c.Within D) p a) : Spares D p a :=
  h.mono fun _ _ hpath => hpath.sameOff

theorem Dropped.values (h : Dropped a b k) :
    b.dict.get = update a.dict.get k none := by
  rw [h.dict]
  rfl

theorem ensures_checkExpireRoutine {p : Db hash C Reply} {Q : Reply → AbsDb hash C → Prop}
    (hlapsed : ∀ b data, a.lapsed w k = true → a.dict.get k = some data → Dropped a b k →
      Q (.fail .nonexists) b)
    (hcurrent : a.lapsed w k = false → Ensures handler p a Q) :
    Ensures handler (checkExpireRoutine w k p) a Q := by
  intro reply b hrun
  cases hcase : a.lapsed w k with
  | false =>
    rw [run_checkExpireRoutine_current hcase] at hrun
    exact hcurrent hcase reply b hrun
  | true =>
    cases hget : a.dict.get k with
    | none =>
      rw [run_checkExpireRoutine_dangling hcase hget] at hrun
      cases hrun
    | some data =>
      obtain ⟨b', hrun', hdropped⟩ := run_checkExpireRoutine_lapsed hcase hget p
      grind

end Db

/-! ## The lock -/

def World.shardOf (w : World C) (k : Str) : Nat :=
  w.makeShardId k % w.config.shardNum

def Side.Locked (w : World C) (σ : Side C) (k : Str) : Prop :=
  w.shardOf k ∈ σ.lockedShards

def Side.Owned (w : World C) (σ : Side C) (k : Str) : Prop :=
  σ.hasShard (w.shardOf k) = true

def Side.Open (w : World C) (σ : Side C) (k : Str) : Prop :=
  σ.Owned w k ∧ ¬σ.Locked w k

instance (w : World C) (σ : Side C) (k : Str) : Decidable (σ.Locked w k) :=
  inferInstanceAs (Decidable (_ ∈ _))

instance (w : World C) (σ : Side C) (k : Str) : Decidable (σ.Owned w k) :=
  inferInstanceAs (Decidable (_ = true))

instance (w : World C) (σ : Side C) (k : Str) : Decidable (σ.Open w k) :=
  inferInstanceAs (Decidable (_ ∧ _))

/-- The keys of the locked shards have the values they had, and no key has come into a
shard that is not one of the node. -/
structure AbsDb.KeepsLocked (w : World C) (a b : AbsDb hash C) : Prop where
  locked : a.SameOff {k | ¬a.side.Locked w k} b
  created : ∀ k, a.dict.get k = none → (b.dict.get k).isSome → a.side.Owned w k

namespace AbsDb.KeepsLocked

variable {w : World C} {a b : AbsDb hash C} {k : Str}

theorem of_open (h : a.SameOff D b) (hD : ∀ k ∈ D, a.side.Open w k) :
    a.KeepsLocked w b where
  locked := by
    intro k hk
    exact h k fun hmem => (hD k hmem).2 (not_not.mp hk)
  created := by
    intro k hnone hsome
    by_cases hmem : k ∈ D
    · exact (hD k hmem).1
    · have hrel := h k hmem
      rw [hnone] at hrel
      generalize b.dict.get k = x at hrel hsome
      cases hrel
      cases hsome

theorem of_stored (h : a.SameOff {k | ¬a.side.Locked w k} b)
    (hstored : ∀ k, (b.dict.get k).isSome → (a.dict.get k).isSome) : a.KeepsLocked w b where
  locked := h
  created := by grind

theorem of_same (h : a.SameOff ∅ b) : a.KeepsLocked w b := of_open h fun _ hk => hk.elim

theorem of_removed (hdict : b.dict.get = update a.dict.get k none)
    (hk : ¬a.side.Locked w k) : a.KeepsLocked w b := by
  refine of_stored (.update hk hdict) fun k' hsome => ?_
  rw [hdict] at hsome
  exact AbsDict.isSome_of_update_none hsome

theorem not_of_removed (hsome : (a.dict.get k).isSome) (hnone : b.dict.get k = none)
    (hk : a.side.Locked w k) : ¬a.KeepsLocked w b := by
  intro hkeeps
  have hrel := hkeeps.locked k (not_not.mpr hk)
  rw [hnone] at hrel
  generalize a.dict.get k = x at hrel hsome
  cases hrel
  cases hsome

theorem dropped_iff {data : MmkvData hash} (hget : a.dict.get k = some data)
    (h : Db.Dropped a b k) : a.KeepsLocked w b ↔ ¬a.side.Locked w k := by
  constructor
  · intro hkeeps hlocked
    refine not_of_removed (by simp [hget]) ?_ hlocked hkeeps
    simp [h.values]
  · exact of_removed h.values

theorem open_of_created (h : a.KeepsLocked w b) (hnone : a.dict.get k = none)
    (hsome : (b.dict.get k).isSome) : a.side.Open w k := by
  refine ⟨h.created k hnone hsome, fun hlocked => ?_⟩
  have hrel := h.locked k (not_not.mpr hlocked)
  rw [hnone] at hrel
  generalize b.dict.get k = x at hrel hsome
  cases hrel
  cases hsome

end AbsDb.KeepsLocked

/-! ## Which steps keep the locked keys -/

/-- A key that lapses before the operation is dropped with no check. -/
def AbsDb.SparesOperands (w : World C) (a : AbsDb hash C) (k₁ k₂ : Str) : Prop :=
  (a.lapsed w k₁ = true → ¬a.side.Locked w k₁) ∧
    (a.lapsed w k₁ = false → a.lapsed w k₂ = true → ¬a.side.Locked w k₂)

/-- The empty key, which takes the place of a key that the log has moved from. -/
def AbsDb.SparesMovedKey {τ : Type} (w : World C) (a : AbsDb hash C) (kind : DataKind hash τ)
    (body : τ → Output × τ) : Prop :=
  match a.dict.get [] with
  | none => a.side.Open w []
  | some data => a.side.Locked w [] →
      ∀ x, kind.get data = some x → data.Same (kind.put (body x).2)

/-- The command leaves the locked keys alone and creates keys in shards of the node
only. -/
def Action.SparesLocked (w : World C) (a : AbsDb hash C) : Action hash → Prop
  | .onValue access _ k _ =>
    access.guarded = false → a.lapsed w k = true → ¬a.side.Locked w k
  | .addTo expire kind k _ body =>
    a.side.Open w k → expire = true → a.lapsed w k = true →
      w.config.logMethod = .request → k ≠ [] → a.SparesMovedKey w kind body
  | .setOp _ k₁ k₂ _ => a.SparesOperands w k₁ k₂
  | .setOpTo _ k₁ k₂ dest => a.side.Open w dest → a.SparesOperands w k₁ k₂
  | .rename oldName newName =>
    a.side.Open w oldName → a.lapsed w oldName = false → a.dict.get newName = none →
      (a.dict.get oldName).isSome →
        a.side.Open w newName ∧ ∀ v, w.Evicts a.side oldName v → ¬a.side.Locked w v
  | _ => True

namespace Db

variable {w : World C} {a : AbsDb hash C} {k : Str}

/-- If the program comes back, the locked keys are kept exactly if `Q` holds. -/
abbrev KeepsLockedIff {α : Type} (w : World C) (Q : Prop) (p : Db hash C α)
    (a : AbsDb hash C) : Prop :=
  Ensures handler p a fun _ b => a.KeepsLocked w b ↔ Q

variable {D : Set Str}

theorem Spares.keepsLocked {Q : Prop} {p : Db hash C α} (hp : Spares D p a)
    (hD : ∀ k ∈ D, a.side.Open w k) (hQ : Q) : KeepsLockedIff w Q p a :=
  hp.mono fun _ _ h => iff_of_true (.of_open h hD) hQ

/-! ### The checks -/

section Checks

variable (hsharder : w.config.isSharder = true) (hignore : a.side.isIgnoreLockedShard = false)

include hsharder hignore

theorem unlocked_iff_open : a.unlocked w k = true ↔ a.side.Open w k := by
  simp [unlocked, hsharder, hignore, Side.Open, Side.Owned, Side.Locked, World.shardOf]

variable {p : Db hash C Reply} {Q : Prop}

theorem keepsLocked_guarded (hp : a.side.Open w k → KeepsLockedIff w Q p a) :
    KeepsLockedIff w (a.side.Open w k → Q) (checkShardIsLockedKey w k p) a := by
  obtain ⟨code, -, hcheck⟩ := run_checkShardIsLockedKey (w := w) (a := a) (k := k) p
  have hiff := unlocked_iff_open (k := k) hsharder hignore
  intro reply b hrun
  rw [hcheck] at hrun
  by_cases hk : a.side.Open w k
  · rw [if_pos (hiff.2 hk)] at hrun
    exact (hp hk reply b hrun).trans ⟨fun hQ _ => hQ, fun hQ => hQ hk⟩
  · rw [if_neg (mt hiff.1 hk)] at hrun
    cases hrun
    exact iff_of_true (.of_same (.refl a)) fun h => absurd h hk

theorem keepsLocked_of_changes (hQ : Q) (hp : Changes w (fun _ c => c.Within {k}) p a) :
    KeepsLockedIff w Q (checkShardIsLockedKey w k p) a := by
  have hkeeps := keepsLocked_guarded (k := k) (Q := True) hsharder hignore fun hk =>
    hp.spares.keepsLocked (fun k' hk' => (Set.mem_singleton_iff.mp hk') ▸ hk) trivial
  exact hkeeps.mono fun _ _ h => h.trans (by simp [hQ])

theorem keepsLocked_deleteAll :
    KeepsLockedIff w True (checkHasShardLockedKey w (deleteAll w)) a := by
  unfold checkHasShardLockedKey
  rw [if_pos hsharder]
  refine (ensures_ask _).bind ?_
  rintro locked b ⟨hlocked, rfl⟩
  refine .ite (fun _ => .pure (iff_of_true (.of_same (.refl b)) trivial)) fun hnone => ?_
  have hempty : b.side.lockedShards = [] := by grind
  refine .step (run_dict .size) ?_
  refine .step (run_dict .clear) ?_
  refine .step (run_expDict .clear) ?_
  refine .step (run_change _) (.pure (iff_of_true ⟨?_, ?_⟩ trivial))
  · intro k hk
    exact absurd (not_not.mp hk) (by simp [Side.Locked, hempty])
  · intro k _ hsome
    simp [AbsDict.step, AbsDict.empty] at hsome

end Checks

/-! ### Reads and set operations -/

variable {τ : Type}

theorem keepsLocked_onValue (access : Access) (kind : DataKind hash τ)
    {body : τ → Option (Reply × τ)}
    (hreads : ∀ x reply x', body x = some (reply, x') → (kind.put x).Same (kind.put x')) :
    KeepsLockedIff w (a.lapsed w k = true → ¬a.side.Locked w k)
      (onValue w access kind k body) a := by
  apply ensures_checkExpireRoutine
  · intro b data hlapsed hget hdropped
    rw [AbsDb.KeepsLocked.dropped_iff hget hdropped]
    exact ⟨fun h _ => h, fun h => h hlapsed⟩
  · intro hcurrent
    refine Spares.keepsLocked (D := ∅) (Changes.spares (changes_onFound access kind trivial ?_))
      (fun _ hk => hk.elim) fun hlapsed => ?_
    · exact fun _ x reply x' hbody => .inr (hreads x reply x' hbody)
    simp [hcurrent] at hlapsed

theorem keepsLocked_setOpRoutine {k1 k2 : Str} {p : Str → Str → SetHeap hash → Db hash C Reply}
    (hD : ∀ k ∈ D, a.side.Open w k)
    (hp : ∀ s1 s2, a.dict.get k1 = some (.set s1) → a.dict.get k2 = some (.set s2) →
      Changes w (fun _ c => c.Within D) (p k1 k2 (operands k1 k2 s1 s2)) a) :
    KeepsLockedIff w (a.SparesOperands w k1 k2) (setOpRoutine w k1 k2 p) a := by
  apply ensures_checkExpireRoutine
  · intro b data hlapsed hget hdropped
    rw [AbsDb.KeepsLocked.dropped_iff hget hdropped]
    simp [AbsDb.SparesOperands, hlapsed]
  intro hcurrent1
  apply ensures_checkExpireRoutine
  · intro b data hlapsed hget hdropped
    rw [AbsDb.KeepsLocked.dropped_iff hget hdropped]
    simp [AbsDb.SparesOperands, hcurrent1, hlapsed]
  intro hcurrent2
  have hchanges : Changes w (fun _ c => c.Within D)
      (findTyped .set k1 fun kv1 s1 => findTyped .set k2 fun kv2 s2 =>
        p kv1.key kv2.key (operands kv1.key kv2.key s1 s2)) a := by
    apply changes_findTyped
    intro s1 hget1
    apply changes_findTyped
    exact fun s2 hget2 => hp s1 s2 hget1 hget2
  exact hchanges.spares.keepsLocked hD (by simp [AbsDb.SparesOperands, hcurrent1, hcurrent2])

theorem keepsLocked_setOp (op : SetOp) (k1 k2 : Str) (out : List Str → Output) :
    KeepsLockedIff w (a.SparesOperands w k1 k2) (setOp w op k1 k2 out) a := by
  refine keepsLocked_setOpRoutine (D := ∅) (fun _ hk => hk.elim) ?_
  intro s1 s2 hget1 hget2
  exact changes_collect op out hget1 hget2 fun _ _ _ _ hsame => .inr hsame

theorem keepsLocked_setOpTo (op : SetOp) (k1 k2 : Str) {dest : Str} (hopen : a.side.Open w dest) :
    KeepsLockedIff w (a.SparesOperands w k1 k2) (setOpTo w op k1 k2 dest) a := by
  refine keepsLocked_setOpRoutine (D := {dest})
    (fun k hk => (Set.mem_singleton_iff.mp hk) ▸ hopen) ?_
  intro s1 s2 hget1 hget2
  exact changes_store op (fun _ _ _ _ h => h) hget1 hget2 rfl

/-! ### Additions under a moved key -/

def addAt {τ : Type} (w : World C) (kind : DataKind hash τ) (init : τ)
    (body : τ → Output × τ) (k : Str) : Db hash C Reply := do
  let (success, kv) ← insertKvWithDuplicate w k (kind.put init)
  onlyIf success (registerKey w kv.key)
  match kind.get kv.value with
  | none => return .fail .existsDiffType
  | some x =>
    let (out, x) := body x
    dict (.write kv.key (kind.put x))
    return .ok out

variable (kind : DataKind hash τ)

theorem ensures_addAt (init : τ) (body : τ → Output × τ) :
    Ensures handler (addAt w kind init body k) a fun _ b =>
      match a.dict.get k with
      | none => b.dict.get = update a.dict.get k (some (kind.put (body init).2))
      | some data => match kind.get data with
          | none => b.dict.get = a.dict.get
          | some x => b.dict.get = update a.dict.get k (some (kind.put (body x).2)) := by
  cases hget : a.dict.get k with
  | none =>
    refine .step (run_insert_fresh hget _) ?_
    refine .step run_registerKey ?_
    have hadded : (a.dict.insert k (kind.put init)).get k = some (kind.put init) := by
      simp [AbsDict.insert, AbsDict.set]
    simp only [DataKind.get_put]
    refine .step (run_write hadded _) (.pure ?_)
    simp [put, add, AbsDict.insert, AbsDict.set]
  | some data =>
    refine .step (run_insert_duplicate hget _) ?_
    refine .step (rfl : (onlyIf false _ : Db hash C Unit).run _ a = some ((), a)) ?_
    dsimp only
    cases hkind : kind.get data with
    | none => exact .pure rfl
    | some x => exact .step (run_write hget _) (.pure rfl)

theorem spares_addAt (init : τ) (body : τ → Output × τ) :
    Spares {k} (addAt w kind init body k) a := by
  refine (ensures_addAt kind init body).mono fun _ b h => .of_eq fun k' hk' => ?_
  have hne : k' ≠ k := hk'
  split at h
  · rw [h, update_of_ne hne]
  · split at h
    · rw [h]
    · rw [h, update_of_ne hne]

theorem keepsLocked_addAt_empty (init : τ) (body : τ → Output × τ)
    (hdropped : Dropped a b k) (hk : k ≠ []) (hopen : a.side.Open w k) :
    Ensures handler (addAt w kind init body []) b fun _ c =>
      a.KeepsLocked w c ↔ a.SparesMovedKey w kind body := by
  have hdict := hdropped.values
  have hempty : b.dict.get [] = a.dict.get [] := by
    rw [hdict, update_of_ne (Ne.symm hk)]
  refine (ensures_addAt kind init body).mono fun _ c hc => ?_
  have hremoved : a.SameOff {k | ¬a.side.Locked w k} b := .update hopen.2 hdict
  unfold AbsDb.SparesMovedKey
  rw [hempty] at hc
  cases hget' : a.dict.get [] with
  | none =>
    rw [hget'] at hc
    constructor
    · intro hkeeps
      exact hkeeps.open_of_created hget' (by simp [hc])
    · intro hopen'
      refine .of_open (D := {k, []}) (.trans (b := b) (.update (by simp) hdict)
        (.update (by simp) hc)) ?_
      grind
  | some old =>
    rw [hget'] at hc
    dsimp only at hc ⊢
    cases hkind : kind.get old with
    | none =>
      rw [hkind] at hc
      refine iff_of_true (.of_removed (hc.trans hdict) hopen.2) fun _ x hx => ?_
      cases hx
    | some x =>
      rw [hkind] at hc
      constructor
      · intro hkeeps hlocked x' hx'
        obtain rfl : x = x' := Option.some.inj hx'
        have hrel := hkeeps.locked [] (not_not.mpr hlocked)
        rw [hget', hc, update_self] at hrel
        cases hrel with
        | some hsame => exact hsame
      · intro hsame
        refine .of_stored (hremoved.trans ?_) fun k' hk' => ?_
        · by_cases hlocked : a.side.Locked w []
          · exact .update_same (hempty.trans hget') (hsame hlocked x rfl) hc
          · exact .update hlocked hc
        · by_cases hnil : k' = []
          · simp [hnil, hget']
          · rw [hc, update_of_ne hnil, hdict] at hk'
            exact AbsDict.isSome_of_update_none hk'

theorem keepsLocked_addTo (expire : Bool) (kind : DataKind hash τ) (init : τ)
    (body : τ → Output × τ) (hopen : a.side.Open w k) :
    KeepsLockedIff w (expire = true → a.lapsed w k = true → w.config.logMethod = .request →
      k ≠ [] → a.SparesMovedKey w kind body) (addTo w expire kind k init body) a := by
  have hown : ∀ k' ∈ ({k} : Set Str), a.side.Open w k' := by
    rintro _ rfl
    exact hopen
  have hplain : ∀ {Q : Prop}, Q → KeepsLockedIff w Q (addAt w kind init body k) a :=
    fun hQ => (spares_addAt kind init body).keepsLocked hown hQ
  intro reply c hrun
  have haddTo : addTo w expire kind k init body =
      keyAfterExpire w expire k >>= addAt w kind init body := rfl
  rw [haddTo] at hrun
  cases expire with
  | false => exact hplain (fun h => by cases h) reply c hrun
  | true =>
    cases hlapsed : a.lapsed w k with
    | false =>
      have hkey : (keyAfterExpire w true k).run handler a = some (k, a) := by
        simp [keyAfterExpire, run_checkExpire_current hlapsed]
      rw [Program.run_bind_of_some hkey] at hrun
      exact hplain (fun _ h => by cases h) reply c hrun
    | true =>
      cases hget : a.dict.get k with
      | none =>
        have hkey : (keyAfterExpire w true k).run handler a = none := by
          simp [keyAfterExpire, run_checkExpire_dangling hlapsed hget]
        rw [Program.run_bind_of_none hkey] at hrun
        cases hrun
      | some data =>
        obtain ⟨b, hcheck, hdropped⟩ := run_checkExpire_lapsed hlapsed hget
        have hkey : (keyAfterExpire w true k).run handler a =
            some (if w.config.logMethod = .request then [] else k, b) := by
          simp [keyAfterExpire, hcheck]
        rw [Program.run_bind_of_some hkey] at hrun
        by_cases hmoved : w.config.logMethod = .request ∧ k ≠ []
        · rw [if_pos hmoved.1] at hrun
          refine (keepsLocked_addAt_empty kind init body hdropped hmoved.2 hopen
            reply c hrun).trans ?_
          simp [hmoved]
        · -- the key is the one that has been checked
          have hsame : (if w.config.logMethod = .request then [] else k) = k := by grind
          rw [hsame] at hrun
          have hc : a.SameOff {k} c :=
            .trans (b := b) (.update rfl hdropped.values) (spares_addAt kind init body reply c hrun)
          exact iff_of_true (.of_open hc hown) fun _ _ hlog hk => absurd ⟨hlog, hk⟩ hmoved

/-! ### Renaming -/

variable {oldName : Str}

theorem renamed_keepsLocked_iff {newName : Str} {c : AbsDb hash C} (hopen : a.side.Open w oldName)
    (hnew : a.dict.get newName = none) (hb : (b = a ∧ w.SkipsReplacement a.side oldName) ∨
      ∃ v, w.Evicts a.side oldName v ∧ (Change.evicted v).Leads w a b)
    (hc : (Change.renamed oldName newName data).Leads w b c) :
    a.KeepsLocked w c ↔
      a.side.Open w newName ∧ ∀ v, w.Evicts a.side oldName v → ¬a.side.Locked w v := by
  have hvalues : c.dict.get =
      update (update b.dict.get oldName none) newName (some data) := hc.values
  constructor
  · intro hkeeps
    refine ⟨hkeeps.open_of_created hnew (by simp [hvalues]), fun v hv hlocked => ?_⟩
    obtain ⟨-, hskips⟩ | ⟨v', hv', hevict⟩ := hb
    · exact hskips.not_evicts hv
    · obtain rfl : v = v' := Option.some.inj (hv.1.symm.trans hv'.1)
      have hsome : (a.dict.get v).isSome := hevict.allowed.1
      have hne : v ≠ newName := by grind
      refine AbsDb.KeepsLocked.not_of_removed hsome ?_ hlocked hkeeps
      rw [hvalues, update_of_ne hne, update_apply, hevict.values]
      simp [Change.values]
  · rintro ⟨hopen', hvictim⟩
    have hremoved : a.SameOff {k | ¬a.side.Locked w k} b ∧
        ∀ k, (b.dict.get k).isSome → (a.dict.get k).isSome := by
      obtain ⟨rfl, -⟩ | ⟨v, hv, hevict⟩ := hb
      · exact ⟨.refl b, fun _ h => h⟩
      · have hevicted : b.dict.get = update a.dict.get v none := hevict.values
        refine ⟨.update (hvictim v hv) hevicted, fun k hk => ?_⟩
        rw [hevicted] at hk
        exact AbsDict.isSome_of_update_none hk
    have hlast : b.SameOff {k | ¬a.side.Locked w k} c := by
      refine .of_eq fun k hk => ?_
      have hne : ∀ k', a.side.Open w k' → k ≠ k' := by
        rintro k' hopen rfl
        exact hk hopen.2
      rw [hvalues, update_of_ne (hne _ hopen'), update_of_ne (hne _ hopen)]
    refine ⟨hremoved.1.trans hlast, fun k hnone hsome => ?_⟩
    by_cases hk : k = newName
    · rw [hk]
      exact hopen'.1
    · rw [hvalues, update_of_ne hk] at hsome
      grind

theorem keepsLocked_rename (newName : Str) (hopen : a.side.Open w oldName) :
    KeepsLockedIff w (a.lapsed w oldName = false → a.dict.get newName = none →
      (a.dict.get oldName).isSome → a.side.Open w newName ∧
        ∀ v, w.Evicts a.side oldName v → ¬a.side.Locked w v) (rename w oldName newName) a := by
  cases hlapsed : a.lapsed w oldName with
  | true =>
    apply ensures_checkExpireRoutine
    · intro b data _ hget hdropped
      refine iff_of_true ((AbsDb.KeepsLocked.dropped_iff hget hdropped).mpr hopen.2) ?_
      exact fun h => by cases h
    · exact fun hcurrent => absurd hlapsed (by simp [hcurrent])
  | false =>
    by_cases hrefused : (a.dict.get newName).isSome ∨ a.dict.get oldName = none
    · obtain ⟨reply, hrun⟩ := run_rename_refused hlapsed hrefused
      intro _ b hrun'
      cases hrun.symm.trans hrun'
      refine iff_of_true (.of_same (.refl a)) fun _ hnew hold => ?_
      grind
    · simp only [not_or, Option.not_isSome_iff_eq_none] at hrefused
      obtain ⟨data, hget⟩ := Option.ne_none_iff_exists'.mp hrefused.2
      refine (ensures_rename hlapsed hrefused.1 hget).mono ?_
      rintro _ c ⟨-, b, hb, -, hleads⟩
      refine (renamed_keepsLocked_iff hopen hrefused.1 hb hleads).trans ?_
      simp [hrefused.1, hget]

/-! ### The timer -/

theorem keepsLocked_checkExpireCycle {deadlines : List (KeyValue UInt64)}
    (hdeadlines : KeyedStore.Represents KeyValue.key deadlines a.expDict.store) :
    KeepsLockedIff w (∀ kv ∈ deadlines, kv.value ≤ w.now → ¬a.side.Locked w kv.key)
      (checkExpireCycle w deadlines) a := by
  refine (ensures_checkExpireCycle hdeadlines).mono ?_
  rintro _ b ⟨hstored, hpurged⟩
  constructor
  · intro hkeeps kv hkv hpassed hlocked
    have hmem := mem_expiredKeys.mpr ⟨kv, hkv, hpassed, rfl⟩
    refine AbsDb.KeepsLocked.not_of_removed (hstored _ hmem) ?_ hlocked hkeeps
    rw [hpurged.dict, if_pos hmem]
  · intro hspared
    have hcurrent : ∀ k, a.side.Locked w k → k ∉ expiredKeys w deadlines := by
      intro k hlocked hmem
      obtain ⟨kv, hkv, hpassed, rfl⟩ := mem_expiredKeys.mp hmem
      exact hspared kv hkv hpassed hlocked
    refine .of_stored (.of_eq fun k hk => ?_) fun k hk => ?_
    · rw [hpurged.dict, if_neg (hcurrent k (not_not.mp hk))]
    · rw [hpurged.dict] at hk
      grind

end Db

/-! ## All steps -/

/-- The commands that are not checked only read the value of their key. -/
def Action.ReadsUnguarded : Action hash → Prop
  | .onValue access kind _ body => access.guarded = false →
      ∀ x reply x', body x = some (reply, x') → (kind.put x).Same (kind.put x')
  | _ => True

theorem Command.readsUnguarded_action (c : Command) (now : UInt64) :
    (c.action now : Action hash).ReadsUnguarded := by
  by_cases hread : c.IsRead
  · have hreads : (c.action now : Action hash).Reads := reads_action hread now
    generalize (c.action now : Action hash) = x at hreads
    cases x with
    | onValue access kind k body => exact fun _ => hreads
    | _ => exact hreads.elim
  · cases c
    all_goals first
      | exact absurd rfl hread
      | exact trivial
      | exact fun h => (by cases h)

theorem Action.keepsLocked_iff (hsharder : w.config.isSharder = true)
    (hignore : a.side.isIgnoreLockedShard = false) {x : Action hash} (hreads : x.ReadsUnguarded) :
    Db.KeepsLockedIff w (x.SparesLocked w a) (x.run w) a := by
  cases x with
  | onValue access kind k body =>
    cases hguarded : access.guarded with
    | true =>
      simp only [run, hguarded, ↓reduceIte]
      refine keepsLocked_of_changes hsharder hignore (fun h => by simp [hguarded] at h) ?_
      refine changes_checkExpireRoutine (fun _ => rfl) fun _ => ?_
      exact changes_onFound access kind trivial fun _ _ _ _ _ => .inl rfl
    | false =>
      simp only [run, hguarded, Bool.false_eq_true, ↓reduceIte]
      refine (keepsLocked_onValue access kind (hreads hguarded)).mono ?_
      intro _ b h
      rw [h]
      simp [SparesLocked, hguarded]
  | insertNew replace k data =>
    exact keepsLocked_of_changes hsharder hignore trivial (changes_insertNew replace rfl)
  | addTo expire kind k init body =>
    exact keepsLocked_guarded hsharder hignore
      fun hopen => keepsLocked_addTo expire kind init body hopen
  | setStr k v =>
    refine keepsLocked_of_changes hsharder hignore trivial ?_
    exact changes_setStr v (fun _ => rfl) rfl fun _ => ⟨trivial, fun _ => .inl rfl⟩
  | eraseValue kind ifErased ifAbsent k =>
    refine keepsLocked_of_changes hsharder hignore trivial ?_
    exact changes_eraseValue kind ifErased ifAbsent (fun _ _ => rfl) trivial
  | setOp op k1 k2 out => exact keepsLocked_setOp op k1 k2 out
  | setOpTo op k1 k2 dest =>
    exact keepsLocked_guarded hsharder hignore fun hopen => keepsLocked_setOpTo op k1 k2 hopen
  | delete k => exact keepsLocked_of_changes hsharder hignore trivial (changes_delete rfl)
  | deleteAll => exact keepsLocked_deleteAll hsharder hignore
  | rename oldName newName =>
    exact keepsLocked_guarded hsharder hignore fun hopen => keepsLocked_rename newName hopen
  | expireAtMs k expire =>
    exact keepsLocked_of_changes hsharder hignore trivial (changes_expireAtMs trivial)
  | persist k => exact keepsLocked_of_changes hsharder hignore trivial (changes_persist trivial)
  | getExpiration k out =>
    have hchanges : Db.Changes w (fun _ c => c.Within ∅) (Db.getExpiration k out) a :=
      changes_getExpiration out
    exact hchanges.spares.keepsLocked (fun _ hk => hk.elim) trivial

/-- `ListAppend` appends to the empty key when the log has moved from its own one: that key may
be created, and if it is locked, it is no list or nothing is appended. -/
def AbsDb.SparesEmptyKey (w : World C) (a : AbsDb hash C) (elems : List Str) : Prop :=
  match a.dict.get [] with
  | none => a.side.Open w []
  | some data => a.side.Locked w [] → (∃ l, data = .strList l) → elems = []

theorem AbsDb.sparesMovedKey_append (elems : List Str) :
    a.SparesMovedKey w .strList (fun l => (.none, l ++ elems)) ↔ a.SparesEmptyKey w elems := by
  unfold SparesMovedKey SparesEmptyKey
  cases a.dict.get [] with
  | none => rfl
  | some data =>
    have hlist : ∀ l l', (MmkvData.strList l : MmkvData hash).Same (.strList l') → l' = l := by
      rintro l l' ⟨⟩
      rfl
    refine imp_congr_right fun _ => ⟨?_, ?_⟩
    · rintro hsame ⟨l, rfl⟩
      exact append_right_eq_self.1 (hlist _ _ (hsame l rfl))
    · intro hnil l hl
      obtain rfl : data = .strList l := by
        cases data <;> cases hl
        rfl
      simp only [hnil ⟨l, rfl⟩, append_nil]
      exact .refl _

def Event.SparesLocked (w : World C) (s : DbState hash C) : Event → Prop
  | .command (.listAppend k elems) =>
    s.side.Open w k → s.abs.lapsed w k = true → w.config.logMethod = .request → k ≠ [] →
      s.abs.SparesEmptyKey w elems
  | .command c => (c.action w.now : Action hash).SparesLocked w s.abs
  | .checkExpireCycle => ∀ kv ∈ s.expDict.entries, kv.value ≤ w.now → ¬s.side.Locked w kv.key

namespace DbState

variable {w : World C} {U : Set Str} {s s' : DbState hash C} {e : Event}

/-- A step of a sharder keeps the values of the keys in locked shards and creates keys in
shards of the node only, if and only if it is one of those that spare them.  The keys are
told apart by `strcmp`, and locks are not ignored. -/
theorem perform_keepsLocked_iff
    (hU : Separated U)
    (hsharder : w.config.isSharder = true)
    (hs : s.KeysIn U)
    (hignore : s.side.isIgnoreLockedShard = false)
    (hkeys : ∀ c, e = .command c → ∀ k ∈ c.keys w, k ∈ U)
    (hstep : s.perform w e = some s') :
    s.abs.KeepsLocked w s'.abs ↔ e.SparesLocked w s := by
  cases e with
  | command c =>
    obtain ⟨reply, hrun, -⟩ := exec_of_perform hU (hkeys c rfl) hs hstep
    refine (Action.keepsLocked_iff hsharder hignore (c.readsUnguarded_action w.now) _ _
      hrun).trans ?_
    cases c
    case listAppend k elems =>
      simp only [Event.SparesLocked, ← sparesMovedKey_append]
      exact ⟨fun h hopen => h hopen rfl, fun h hopen _ => h hopen⟩
    all_goals rfl
  | checkExpireCycle =>
    obtain ⟨u, hrun, -⟩ := checkExpireCycle_of_perform hU hs hstep
    exact keepsLocked_checkExpireCycle s.expDict.represents_abs _ _ hrun

/-- A sharder whose shard of a key is its length, with the shards 1 and 2, the keys `a` and
`bc`, a deadline 5 for `a`, and the shard 1 locked. -/
def lengthShards : DbState (fun _ => 0) Unit :=
  (manageAll [(.sharding length 0, .addShard 1), (.sharding length 0, .addShard 2),
    (.sharding length 0, .db (.command (.insertStr [97] [120]))),
    (.sharding length 0, .db (.command (.insertStr [98, 99] [121]))),
    (.sharding length 0, .db (.command (.expireAtMs [97] 5))),
    (.sharding length 0, .lockShard 1)] (new ())).getD (new ())

theorem lengthShards_keysIn : lengthShards.KeysIn {k | 0 ∉ k} where
  dict := by
    have hdict : lengthShards.dict.entries =
        [⟨[97], .string [120]⟩, ⟨[98, 99], .string [121]⟩] := rfl
    simp [Dict.KeysIn, hdict]
  expDict := by
    have hexp : lengthShards.expDict.entries = [⟨[97], 5⟩] := rfl
    simp [Dict.KeysIn, hexp]
  side := by
    have hkeys : lengthShards.side.keys = [(2, [98, 99]), (1, [97])] := rfl
    simp [Side.KeysIn, hkeys]

/-- Another value is given to `bc`. -/
theorem perform_keepsLocked_setStr :
    ∃ s' : DbState (fun _ => 0) Unit,
      lengthShards.perform (.sharding length 0) (.command (.setStr [98, 99] [122])) =
        some s' ∧
      lengthShards.abs.KeepsLocked (.sharding length 0) s'.abs := by
  refine ⟨_, rfl, ?_⟩
  refine (perform_keepsLocked_iff (e := .command (.setStr [98, 99] [122])) separated_nulFree rfl
    lengthShards_keysIn rfl ?_ rfl).mpr trivial
  rintro _ ⟨⟩ k hk
  obtain rfl : k = [98, 99] := mem_singleton.mp hk
  decide

/-- The new name of `bc` is in the locked shard, and the key `a` is dropped from there when it
is read at its deadline, or by the timer. -/
theorem locked_shard_changed :
    lengthShards.side.lockedShards = [1] ∧ lengthShards.side.isIgnoreLockedShard = false ∧
      lengthShards.dict.entries.map KeyValue.key = [[97], [98, 99]] ∧
      ((lengthShards.perform (.sharding length 0)
        (.command (.rename [98, 99] [98]))).map fun s =>
          s.dict.entries.map KeyValue.key) = some [[97], [98]] ∧
      ((lengthShards.perform (.sharding length 5) (.command (.getStr [97]))).map fun s =>
        s.dict.entries.map KeyValue.key) = some [[98, 99]] ∧
      ((lengthShards.perform (.sharding length 5) .checkExpireCycle).map fun s =>
        s.dict.entries.map KeyValue.key) = some [[98, 99]] :=
  ⟨rfl, rfl, rfl, rfl, rfl, rfl⟩

end DbState

end Mmkv
