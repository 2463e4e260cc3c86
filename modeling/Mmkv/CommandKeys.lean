import Mmkv.DatabaseStates

/-!
# The keys that a command uses

Every command keeps to the keys it names.  There are two exceptions.  The command
that appends to a list goes on with the key that the lazy expiration left it
with, which is the empty one once the request log has taken it.  The replacement
removes the key that the cache selects.
-/

namespace Mmkv

open EffectPrograms List Db

variable {hash : Str → Nat} {C : Type}

/-- The request log takes the key of an expired entry away from the caller. -/
def World.movesExpired (w : World C) : Bool :=
  w.config.lazyExpiration && decide (w.config.logMethod = .request)

structure World.Plain (w : World C) : Prop where
  policy : w.policy = none
  isSharder : w.config.isSharder = false

def Action.keys (w : World C) : Action hash → List Str
  | .onValue _ _ k _ => [k]
  | .insertNew _ k _ => [k]
  | .addTo expire _ k _ _ => if expire && w.movesExpired then [k, []] else [k]
  | .setStr k _ => [k]
  | .eraseValue _ _ _ k => [k]
  | .setOp _ k₁ k₂ _ => [k₁, k₂]
  | .setOpTo _ k₁ k₂ dest => [k₁, k₂, dest]
  | .delete k => [k]
  | .deleteAll => []
  | .rename oldName newName => [oldName, newName]
  | .expireAtMs k _ => [k]
  | .persist k => [k]
  | .getExpiration k _ => [k]

def Action.IsWhole : Action hash → Prop
  | .deleteAll => True
  | _ => False

/-- The rule allows what the commands do beside the dictionaries in this
world. -/
structure SideRule.Allows (rule : SideRule C) (U : Set Str) (w : World C) : Prop where
  link : ∀ k ∈ U, rule.pre Unit fun σ => ((), σ.linkKey w k)
  rename : ∀ old, ∀ new ∈ U, rule.pre Unit fun σ => ((), σ.renameKey old new)
  change :
    ∀ f : Side C → Side C, (∀ σ, (f σ).keys ⊆ σ.keys) → rule.pre Unit fun σ => ((), f σ)
  ask :
    w.config.isSharder = true ∨ w.policy.isSome →
      ∀ (α : Type) (f : Side C → α), rule.pre α fun σ => (f σ, σ)
  keyAt :
    w.policy.isSome → ∀ a ans,
      rule.post (Option Str) (fun σ => (σ.keyAt a, σ)) ans → ∀ k ∈ ans, k ∈ U

theorem SideRule.keys_allows (U : Set Str) (w : World C) : (keys U).Allows U w where
  link := by
    intro k hk σ hσ p hp
    rcases mem_cons.mp hp with rfl | hp
    · exact hk
    · exact hσ p hp
  rename := by
    intro old new hnew σ hσ p hp
    rcases mem_map.mp hp with ⟨q, hq, rfl⟩
    by_cases hold : q.2 = old
    · simpa [hold] using hnew
    · simpa [hold] using hσ q hq
  change := fun f hf σ hσ p hp => hσ p (hf σ hp)
  ask := fun _ _ _ _ hσ => hσ
  keyAt := by
    rintro - a ans ⟨σ, hσ, rfl⟩ k hk
    simp only [Side.keyAt, Option.mem_def, Option.map_eq_some_iff] at hk
    rcases hk with ⟨p, hp, rfl⟩
    exact hσ p (mem_of_find?_eq_some hp)

variable {w : World C}

theorem SideRule.blind_allows (U : Set Str) (hplain : w.Plain) :
    (blind : SideRule C).Allows U w where
  link := fun _ _ => inferInstanceAs (Subsingleton Unit)
  rename := fun _ _ _ => inferInstanceAs (Subsingleton Unit)
  change := fun _ _ => inferInstanceAs (Subsingleton Unit)
  ask := by simp [hplain.policy, hplain.isSharder]
  keyAt := by simp [hplain.policy]

/-! ## The steps of the commands -/

def DictOp.Stores {V : Type} (P : V → Prop) : DictOp V → Prop
  | .insertKvWithDuplicate _ v => P v
  | .write _ v => P v
  | .push _ v => P v
  | _ => True

def DictOp.Yields {V : Type} (P : V → Prop) : (op : DictOp V) → op.Ans → Prop
  | .find _, a => ∀ kv ∈ a, P kv.value
  | .insertKvWithDuplicate _ _, a => P a.2.value
  | .extract _, a => ∀ kv ∈ a, P kv.value
  | _, _ => True

/-- Beside what `keyContract` asks for, only values with the property are stored, and so only
such are found. -/
def callContract (U : Set Str) (whole : Prop) (rule : SideRule C) (P : MmkvData hash → Prop) :
    Contract (dbInterface hash C) Unit where
  pre
    | .dict op, g => (keyContract U whole rule).pre (.dict op) g ∧ op.Stores P
    | op, g => (keyContract U whole rule).pre op g
  post
    | .dict op, g, a, g' => (keyContract U whole rule).post (.dict op) g a g' ∧ op.Yields P a
    | op, g, a, g' => (keyContract U whole rule).post op g a g'

/-- The program keeps to the keys of `U`, and its result satisfies `R`. -/
def Db.Keeps {α : Type} (U : Set Str) (whole : Prop) (rule : SideRule C)
    (p : Db hash C α) (R : α → Prop) : Prop :=
  Meets (keyContract U whole rule) p () fun a _ => R a

/-- It also stores values with the property only. -/
def Db.Obeys {α : Type} (U : Set Str) (whole : Prop) (rule : SideRule C)
    (P : MmkvData hash → Prop) (p : Db hash C α) (R : α → Prop) : Prop :=
  Meets (callContract U whole rule P) p () fun a _ => R a

namespace Db

variable {U : Set Str} {whole : Prop} {rule : SideRule C} {P : MmkvData hash → Prop} {w : World C}
  {α β : Type} {R R' : α → Prop} {p : Db hash C α} {data : MmkvData hash}

theorem Obeys.keeps (hp : Obeys U whole rule (fun _ => True) p R) : Keeps U whole rule p R := by
  refine Meets.of_contract ?_ ?_ hp
  · intro op g hpre
    cases op with
    | dict op => exact hpre.1
    | expDict op => exact hpre
    | side α f => exact hpre
  · intro op g a g' hpost
    cases op with
    | dict op => exact ⟨hpost, by cases op <;> simp [DictOp.Yields]⟩
    | expDict op => exact hpost
    | side α f => exact hpost

theorem Obeys.pure {a : α} (ha : R a) : Obeys U whole rule P (Pure.pure a : Db hash C α) R := ha

theorem Obeys.mono (hp : Obeys U whole rule P p R) (hR : ∀ a, R a → R' a) :
    Obeys U whole rule P p R' :=
  Meets.mono hp fun a _ => hR a

theorem Obeys.bind {f : α → Db hash C β} {S : β → Prop} (hp : Obeys U whole rule P p R)
    (hf : ∀ a, R a → Obeys U whole rule P (f a) S) : Obeys U whole rule P (p >>= f) S :=
  Meets.bind_iff.mpr (Meets.mono hp fun a _ => hf a)

theorem Obeys.ite {c : Prop} [Decidable c] {q : Db hash C α} (hp : c → Obeys U whole rule P p R)
    (hq : ¬ c → Obeys U whole rule P q R) : Obeys U whole rule P (if c then p else q) R := by
  grind

theorem obeys_ofOption (o : Option α) :
    Obeys U whole rule P (Program.ofOption o : Db hash C α) fun a => o = some a := by
  cases o with
  | none => trivial
  | some a => rfl

theorem obeys_dict (op : DictOp (MmkvData hash)) (hop : op.On U)
    (hwhole : op.IsWhole → whole) (hstores : op.Stores P) :
    Obeys U whole rule P (dict op : Db hash C op.Ans) fun a => op.AnsIn U a ∧ op.Yields P a :=
  ⟨⟨⟨hop, hwhole⟩, hstores⟩, fun _ _ h => h⟩

theorem obeys_expDict (op : DictOp UInt64) (hop : op.On U) (hwhole : op.IsWhole → whole) :
    Obeys U whole rule P (expDict op : Db hash C op.Ans) fun a => op.AnsIn U a :=
  ⟨⟨hop, hwhole⟩, fun _ _ h => h⟩

theorem Obeys.onlyIf {c : Bool} {p : Db hash C Unit} (hp : Obeys U whole rule P p fun _ => True) :
    Obeys U whole rule P (onlyIf c p) fun _ => True := by
  cases c with
  | false => exact .pure trivial
  | true => exact hp

theorem obeys_discard (hp : Obeys U whole rule P p R) :
    Obeys U whole rule P (discard p) fun _ => True :=
  hp.bind fun _ _ => .pure trivial

section Rule

variable (hrule : rule.Allows U w) {k : Str}

include hrule

theorem obeys_change {f : Side C → Side C} (hf : ∀ σ, (f σ).keys ⊆ σ.keys) :
    Obeys U whole rule P (change f : Db hash C Unit) fun _ => True :=
  ⟨hrule.change f hf, fun _ _ _ => trivial⟩

theorem obeys_insertKvWithDuplicate (hk : k ∈ U) (hdata : P data) :
    Obeys U whole rule P (insertKvWithDuplicate w k data)
      fun r => r.2.key ∈ U ∧ P r.2.value := by
  apply (obeys_dict (.insertKvWithDuplicate k data) hk False.elim hdata).bind
  intro r hr
  apply Obeys.bind (R := fun _ => True)
  · apply Obeys.onlyIf
    exact ⟨hrule.link k hk, fun _ _ _ => trivial⟩
  · intro _ _
    exact .pure hr

theorem obeys_dropNode : Obeys U whole rule P (dropNode k : Db hash C Unit) fun _ => True := by
  apply (obeys_dict .dropNode trivial False.elim trivial).bind
  intro _ _
  exact obeys_change hrule fun σ => eraseP_subset

theorem obeys_eraseNode (hk : k ∈ U) :
    Obeys U whole rule P (eraseNode k : Db hash C Unit) fun _ => True := by
  apply (obeys_dict (.eraseNode k) hk False.elim trivial).bind
  intro _ _
  exact obeys_change hrule fun σ => eraseP_subset

theorem obeys_appendDel : Obeys U whole rule P (appendDel w k : Db hash C Unit) fun _ => True := by
  apply Obeys.ite
  · intro _
    exact obeys_change hrule fun σ => List.Subset.refl _
  · intro _
    exact .pure trivial

theorem obeys_onAddress {f : Side C → Addr → Side C} (hf : ∀ σ a, (f σ a).keys = σ.keys) :
    Obeys U whole rule P (change fun σ => σ.onAddress k (f σ) : Db hash C Unit)
      fun _ => True := by
  apply obeys_change hrule
  intro σ
  unfold Side.onAddress
  cases σ.addressOf k with
  | none => exact List.Subset.refl _
  | some a => grind

theorem obeys_cacheUpdate :
    Obeys U whole rule P (cacheUpdate w k : Db hash C Unit) fun _ => True := by
  unfold cacheUpdate
  split
  · exact .pure trivial
  · exact obeys_onAddress hrule fun σ a => rfl

theorem obeys_cacheRemove :
    Obeys U whole rule P (cacheRemove w k : Db hash C Unit) fun _ => True := by
  unfold cacheRemove
  split
  · exact .pure trivial
  · exact obeys_onAddress hrule fun σ a => rfl

theorem obeys_modifyShard {f : Addr → List Addr → List Addr} {id : Nat} : Obeys U whole rule P
      (change fun σ => σ.onAddress k fun a => σ.modifyShard id (f a) : Db hash C Unit)
      fun _ => True := by
  apply obeys_onAddress hrule
  intro σ a
  unfold Side.modifyShard
  split <;> rfl

theorem obeys_addKeyToShard :
    Obeys U whole rule P (addKeyToShard w k : Db hash C Unit) fun _ => True := by
  apply Obeys.ite
  · intro _
    exact obeys_modifyShard hrule
  · intro _
    exact .pure trivial

theorem obeys_removeKeyFromShard :
    Obeys U whole rule P (removeKeyFromShard w k : Db hash C Unit) fun _ => True := by
  apply Obeys.ite
  · intro _
    exact obeys_modifyShard hrule
  · intro _
    exact .pure trivial

theorem obeys_registerKey :
    Obeys U whole rule P (registerKey w k : Db hash C Unit) fun _ => True := by
  apply (obeys_cacheUpdate hrule).bind
  intro _ _
  exact obeys_addKeyToShard hrule

theorem obeys_ask (hw : w.config.isSharder = true ∨ w.policy.isSome) (f : Side C → α) :
    Obeys U whole rule P (ask f : Db hash C α)
      fun a => rule.post α (fun σ => (f σ, σ)) a :=
  ⟨hrule.ask hw α f, fun _ _ h => h⟩

variable {p : Db hash C Reply}

theorem obeys_checkShardIsLockedKey (hp : Obeys U whole rule P p fun _ => True) :
    Obeys U whole rule P (checkShardIsLockedKey w k p) fun _ => True := by
  apply Obeys.ite
  · intro hsharder
    apply (obeys_ask hrule (.inl hsharder) _).bind
    intro owned _
    apply (obeys_ask hrule (.inl hsharder) _).bind
    intro locked _
    apply Obeys.ite
    · intro _
      exact .pure trivial
    · intro _
      apply Obeys.ite
      · intro _
        exact .pure trivial
      · intro _
        exact hp
  · intro _
    exact hp

theorem obeys_tryReplacekey (key : Option Str) :
    Obeys U whole rule P (tryReplacekey w key : Db hash C Unit) fun _ => True := by
  unfold tryReplacekey
  split
  · exact .pure trivial
  · rename_i p hpolicy
    have hsome : w.policy.isSome := by simp [hpolicy]
    apply Obeys.ite
    · intro _
      exact .pure trivial
    · intro _
      split
      · trivial
      · apply (obeys_ask hrule (.inr hsome) _).bind
        intro locked _
        apply Obeys.ite
        · intro _
          exact .pure trivial
        · intro _
          apply (obeys_ask hrule (.inr hsome) _).bind
          intro victim _
          split
          · exact .pure trivial
          · apply (obeys_ask hrule (.inr hsome) _).bind
            intro own _
            apply Obeys.ite
            · intro _
              exact .pure trivial
            · intro _
              apply (obeys_ask hrule (.inr hsome) _).bind
              intro found hfound
              split
              · trivial
              · rename_i key
                have hkey := hrule.keyAt hsome _ _ hfound key rfl
                apply (obeys_dict (.extract key) hkey False.elim trivial).bind
                intro node _
                split
                · trivial
                · apply Obeys.bind
                  · exact obeys_change hrule fun σ => List.Subset.refl _
                  · intro _ _
                    apply (obeys_appendDel hrule).bind
                    intro _ _
                    exact obeys_dropNode hrule

theorem obeys_checkExpire (hk : k ∈ U) :
    Obeys U whole rule P (checkExpire w k : Db hash C (Bool × Str))
      fun r => r.2 = k ∨ w.movesExpired = true ∧ r.2 = [] := by
  apply Obeys.ite
  · intro hlazy
    apply (obeys_expDict (.find k) hk False.elim).bind
    intro found _
    split
    · exact .pure (.inl rfl)
    · apply Obeys.ite
      · intro _
        apply (obeys_expDict (.eraseNode k) hk False.elim).bind
        intro _ _
        apply (obeys_dict (.extract k) hk False.elim trivial).bind
        intro node _
        split
        · trivial
        · apply (obeys_dropNode hrule).bind
          intro _ _
          apply (obeys_appendDel hrule).bind
          intro _ _
          apply Obeys.pure
          by_cases hlog : w.config.logMethod = .request
          · simp [World.movesExpired, hlazy, hlog]
          · simp [hlog]
      · intro _
        exact .pure (.inl rfl)
  · intro _
    exact .pure (.inl rfl)

theorem obeys_checkExpireRoutine (hk : k ∈ U) (hp : Obeys U whole rule P p fun _ => True) :
    Obeys U whole rule P (checkExpireRoutine w k p) fun _ => True := by
  apply (obeys_checkExpire hrule hk).bind
  intro r _
  apply Obeys.ite
  · intro _
    exact .pure trivial
  · intro _
    exact hp

end Rule

variable {k : Str}

theorem obeys_findTyped {τ : Type} {kind : DataKind hash τ} (hk : k ∈ U)
    {p : KeyValue (MmkvData hash) → τ → Db hash C Reply}
    (hp : ∀ kv x, kv.key ∈ U → P (kind.put x) → Obeys U whole rule P (p kv x) fun _ => True) :
    Obeys U whole rule P (findTyped kind k p) fun _ => True := by
  apply (obeys_dict (.find k) hk False.elim trivial).bind
  intro found hfound
  split
  · exact .pure trivial
  · rename_i kv
    split
    · exact .pure trivial
    · rename_i x hx
      have hvalue : P kv.value := hfound.2 kv rfl
      rw [kind.get_eq_some.1 hx] at hvalue
      exact hp kv x (hfound.1 kv rfl) hvalue

/-! ## The shapes -/

theorem obeys_expErase (hk : k ∈ U) (c : Bool) :
    Obeys U whole rule P (onlyIf c (discard <| expDict (.erase k)) : Db hash C Unit)
      fun _ => True :=
  (obeys_discard (obeys_expDict (.erase k) hk False.elim)).onlyIf

section Shapes

variable (hrule : rule.Allows U w) {k : Str} {τ : Type} {kind : DataKind hash τ}

include hrule

theorem obeys_onValue (hk : k ∈ U) (access : Access) {body : τ → Option (Reply × τ)}
    (hbody : ∀ x reply x', P (kind.put x) → body x = some (reply, x') → P (kind.put x')) :
    Obeys U whole rule P (onValue w access kind k body) fun _ => True := by
  apply obeys_checkExpireRoutine hrule hk
  apply obeys_findTyped hk
  intro kv x hkey hx
  apply (obeys_cacheUpdate hrule).onlyIf.bind
  intro _ _
  apply (obeys_ofOption _).bind
  intro r hr
  apply (obeys_dict (.write kv.key (kind.put r.2)) hkey False.elim (hbody x r.1 r.2 hx hr)).bind
  intro _ _
  apply (obeys_tryReplacekey hrule none).onlyIf.bind
  intro _ _
  exact .pure trivial

theorem obeys_insertNew (hk : k ∈ U) (replace : Bool) (hdata : P data) :
    Obeys U whole rule P (insertNew w replace k data) fun _ => True := by
  apply (obeys_tryReplacekey hrule none).onlyIf.bind
  intro _ _
  apply (obeys_insertKvWithDuplicate hrule hk hdata).bind
  intro r _
  apply Obeys.ite
  · intro _
    apply (obeys_registerKey hrule).bind
    intro _ _
    exact .pure trivial
  · intro _
    exact .pure trivial

theorem obeys_addTo {expire : Bool} (hk : k ∈ U) (hmoved : expire && w.movesExpired → [] ∈ U)
    {init : τ} {body : τ → Output × τ} (hinit : P (kind.put init))
    (hbody : ∀ x, P (kind.put x) → P (kind.put (body x).2)) :
    Obeys U whole rule P (addTo w expire kind k init body) fun _ => True := by
  apply Obeys.bind (R := fun k' => k' ∈ U)
  · apply Obeys.ite
    · intro hexpire
      apply (obeys_checkExpire hrule hk).bind
      rintro r (hr | ⟨hmoves, hr⟩)
      · apply Obeys.pure
        rwa [hr]
      · apply Obeys.pure
        grind
    · intro _
      exact .pure hk
  · intro k' hk'
    apply (obeys_insertKvWithDuplicate hrule hk' hinit).bind
    rintro r ⟨hr, hvalue⟩
    apply (obeys_registerKey hrule).onlyIf.bind
    intro _ _
    split
    · exact .pure trivial
    · rename_i x hx
      rw [kind.get_eq_some.1 hx] at hvalue
      apply (obeys_dict (.write r.2.key (kind.put (body x).2)) hr False.elim (hbody x hvalue)).bind
      intro _ _
      exact .pure trivial

theorem obeys_setStr (hk : k ∈ U) {v : Str} (hv : P (.string v)) :
    Obeys U whole rule P (setStr w k v : Db hash C Reply) fun _ => True := by
  apply obeys_checkExpireRoutine hrule hk
  apply (obeys_insertKvWithDuplicate hrule hk hv).bind
  intro r hr
  apply Obeys.ite
  · intro _
    apply (obeys_registerKey hrule).bind
    intro _ _
    apply (obeys_tryReplacekey hrule none).bind
    intro _ _
    exact .pure trivial
  · intro _
    split
    · exact .pure trivial
    · apply (obeys_dict (.write r.2.key (.string v)) hr.1 False.elim hv).bind
      intro _ _
      apply (obeys_cacheUpdate hrule).bind
      intro _ _
      apply (obeys_tryReplacekey hrule none).bind
      intro _ _
      exact .pure trivial

theorem obeys_eraseValue (hk : k ∈ U) (ifErased ifAbsent : Bool) :
    Obeys U whole rule P (eraseValue w kind ifErased ifAbsent k) fun _ => True := by
  apply (obeys_dict (.find k) hk False.elim trivial).bind
  intro found hfound
  split
  · apply (obeys_expErase hk ifAbsent).bind
    intro _ _
    exact .pure trivial
  · rename_i kv
    split
    · exact .pure trivial
    · apply (obeys_cacheRemove hrule).bind
      intro _ _
      apply (obeys_removeKeyFromShard hrule).bind
      intro _ _
      apply (obeys_eraseNode hrule (hfound.1 kv rfl)).bind
      intro _ _
      apply (obeys_expErase hk ifErased).bind
      intro _ _
      exact .pure trivial

variable {k₁ k₂ : Str}

theorem obeys_setOpRoutine (hk1 : k₁ ∈ U) (hk2 : k₂ ∈ U)
    {p : Str → Str → SetHeap hash → Db hash C Reply}
    (hp : ∀ a b heap, a ∈ U → b ∈ U → Obeys U whole rule P (p a b heap) fun _ => True) :
    Obeys U whole rule P (setOpRoutine w k₁ k₂ p) fun _ => True := by
  apply obeys_checkExpireRoutine hrule hk1
  apply obeys_checkExpireRoutine hrule hk2
  apply obeys_findTyped hk1
  intro kv1 s1 hkey1 _
  apply obeys_findTyped hk2
  grind

theorem obeys_setOp (hk1 : k₁ ∈ U) (hk2 : k₂ ∈ U) (op : SetOp) (out : List Str → Output)
    (hset : ∀ s, P (.set s)) :
    Obeys U whole rule P (setOp w op k₁ k₂ out : Db hash C Reply) fun _ => True := by
  apply obeys_setOpRoutine hrule hk1 hk2
  intro a b heap ha hb
  apply (obeys_ofOption _).bind
  intro heap' _
  apply (obeys_dict (.write a (.set (heap'.sets a))) ha False.elim (hset _)).bind
  intro _ _
  apply (obeys_dict (.write b (.set (heap'.sets b))) hb False.elim (hset _)).bind
  intro _ _
  exact .pure trivial

theorem obeys_setOpTo {dest : Str} (hk1 : k₁ ∈ U) (hk2 : k₂ ∈ U) (hdest : dest ∈ U) (op : SetOp)
    (hset : ∀ s, P (.set s)) :
    Obeys U whole rule P (setOpTo w op k₁ k₂ dest : Db hash C Reply) fun _ => True := by
  apply obeys_setOpRoutine hrule hk1 hk2
  intro a b heap ha hb
  apply (obeys_insertKvWithDuplicate hrule hdest (hset _)).bind
  intro r hr
  apply (obeys_registerKey hrule).onlyIf.bind
  intro _ _
  split
  · exact .pure trivial
  · apply (obeys_ofOption _).bind
    intro heap' _
    apply (obeys_dict (.write a (.set (heap'.sets a))) ha False.elim (hset _)).bind
    intro _ _
    apply (obeys_dict (.write b (.set (heap'.sets b))) hb False.elim (hset _)).bind
    intro _ _
    apply (obeys_dict (.write r.2.key (.set (heap'.sets r.2.key))) hr.1 False.elim (hset _)).bind
    intro _ _
    exact .pure trivial

theorem obeys_delete (hk : k ∈ U) :
    Obeys U whole rule P (delete w k : Db hash C Reply) fun _ => True := by
  apply (obeys_dict (.extract k) hk False.elim trivial).bind
  intro found _
  split
  · exact .pure trivial
  · apply (obeys_removeKeyFromShard hrule).bind
    intro _ _
    apply (obeys_cacheRemove hrule).bind
    intro _ _
    apply (obeys_dropNode hrule).bind
    intro _ _
    apply (obeys_discard (obeys_expDict (.erase k) hk False.elim)).bind
    intro _ _
    exact .pure trivial

theorem obeys_deleteAll (hwhole : whole) :
    Obeys U whole rule P (deleteAll w : Db hash C Reply) fun _ => True := by
  apply (obeys_dict .size trivial (fun _ => hwhole) trivial).bind
  intro count _
  apply (obeys_dict .clear trivial (fun _ => hwhole) trivial).bind
  intro _ _
  apply (obeys_expDict .clear trivial fun _ => hwhole).bind
  intro _ _
  apply Obeys.bind
  · exact obeys_change hrule fun σ => nil_subset _
  · intro _ _
    exact .pure trivial

theorem obeys_checkHasShardLockedKey {p : Db hash C Reply}
    (hp : Obeys U whole rule P p fun _ => True) :
    Obeys U whole rule P (checkHasShardLockedKey w p) fun _ => True := by
  apply Obeys.ite
  · intro hsharder
    apply (obeys_ask hrule (.inl hsharder) _).bind
    intro locked _
    apply Obeys.ite
    · intro _
      exact .pure trivial
    · intro _
      exact hp
  · intro _
    exact hp

theorem obeys_rename {oldName newName : Str} (hold : oldName ∈ U) (hnew : newName ∈ U) :
    Obeys U whole rule P (rename w oldName newName : Db hash C Reply) fun _ => True := by
  apply obeys_checkExpireRoutine hrule hold
  apply (obeys_dict (.find newName) hnew False.elim trivial).bind
  intro found _
  split
  · exact .pure trivial
  · apply (obeys_dict (.extract oldName) hold False.elim trivial).bind
    intro node hnode
    split
    · exact .pure trivial
    · rename_i kv
      apply (obeys_tryReplacekey hrule (some kv.key)).bind
      intro _ _
      apply Obeys.bind (R := fun _ => True)
      · exact ⟨hrule.rename kv.key newName hnew, fun _ _ _ => trivial⟩
      · intro _ _
        apply (obeys_discard
          (obeys_dict (.push newName kv.value) hnew False.elim (hnode.2 kv rfl))).bind
        intro _ _
        apply (obeys_cacheUpdate hrule).bind
        intro _ _
        exact .pure trivial

omit hrule in
theorem obeys_expireAtMs (hk : k ∈ U) (expire : UInt64) :
    Obeys U whole rule P (expireAtMs w k expire : Db hash C Reply) fun _ => True := by
  apply Obeys.ite
  · intro _
    exact .pure trivial
  · intro _
    apply (obeys_dict (.find k) hk False.elim trivial).bind
    intro found _
    split
    · exact .pure trivial
    · apply Obeys.bind (R := fun _ => True)
      · apply Obeys.onlyIf
        apply (obeys_expDict (.insertKvWithDuplicate k expire) hk False.elim).bind
        intro r hr
        apply Obeys.onlyIf
        apply (obeys_expDict (.write r.2.key expire) hr False.elim).mono
        intro _ _
        trivial
      · intro _ _
        exact .pure trivial

omit hrule in
theorem obeys_persist (hk : k ∈ U) :
    Obeys U whole rule P (persist k : Db hash C Reply) fun _ => True := by
  apply (obeys_dict (.find k) hk False.elim trivial).bind
  intro found _
  split
  · exact .pure trivial
  · apply (obeys_discard (obeys_expDict (.erase k) hk False.elim)).bind
    intro _ _
    exact .pure trivial

omit hrule in
theorem obeys_getExpiration (hk : k ∈ U) (out : UInt64 → Output) :
    Obeys U whole rule P (getExpiration k out : Db hash C Reply) fun _ => True := by
  apply (obeys_expDict (.find k) hk False.elim).bind
  intro found _
  split <;> exact .pure trivial

end Shapes

end Db

/-! ## The cycle -/

namespace Db

variable {U : Set Str} {whole : Prop} {rule : SideRule C} {P : MmkvData hash → Prop} {w : World C}
  {deadlines : List (KeyValue UInt64)}

theorem obeys_dropExpired (hrule : rule.Allows U w) (hkeys : ∀ kv ∈ deadlines, kv.key ∈ U) :
    Obeys U whole rule P (dropExpired w deadlines : Db hash C (List Str))
      fun keys => ∀ k ∈ keys, k ∈ U := by
  induction deadlines with
  | nil => exact .pure (by simp)
  | cons kv rest ih =>
    have hk := hkeys kv mem_cons_self
    have hrest := ih fun kv' hkv' => hkeys kv' (mem_cons_of_mem _ hkv')
    apply Obeys.ite
    · intro _
      apply (obeys_dict (.extract kv.key) hk False.elim trivial).bind
      intro node _
      split
      · trivial
      · apply (obeys_dropNode hrule).bind
        intro _ _
        apply hrest.bind
        intro keys hkeys
        apply Obeys.pure
        grind
    · exact fun _ => hrest

theorem obeys_eraseDeadlines {keys : List Str} (hkeys : ∀ k ∈ keys, k ∈ U) :
    Obeys U whole rule P (eraseDeadlines keys : Db hash C Unit) fun _ => True := by
  induction keys with
  | nil => exact .pure trivial
  | cons k keys ih =>
    have hk := hkeys k mem_cons_self
    apply (obeys_discard (obeys_expDict (.erase k) hk False.elim)).bind
    grind

theorem obeys_checkExpireCycle (hrule : rule.Allows U w) (hkeys : ∀ kv ∈ deadlines, kv.key ∈ U) :
    Obeys U whole rule P (checkExpireCycle w deadlines : Db hash C Unit) fun _ => True := by
  apply (obeys_dropExpired hrule hkeys).bind
  intro keys hkeys
  apply (obeys_eraseDeadlines hkeys).bind
  intro _ _
  apply Obeys.ite
  · intro _
    exact obeys_change hrule fun σ => List.Subset.refl _
  · exact fun _ => .pure trivial

end Db

/-! ## All commands -/

/-- The values that the body of a command makes from values with the property have it. -/
def Action.KeepsValues (P : MmkvData hash → Prop) : Action hash → Prop
  | .onValue _ kind _ body =>
    ∀ x reply x', P (kind.put x) → body x = some (reply, x') → P (kind.put x')
  | .insertNew _ _ data => P data
  | .addTo _ kind _ init body =>
    P (kind.put init) ∧ ∀ x, P (kind.put x) → P (kind.put (body x).2)
  | .setStr _ v => P (.string v)
  | .setOp _ _ _ _ => ∀ s, P (.set s)
  | .setOpTo _ _ _ _ => ∀ s, P (.set s)
  | _ => True

variable {U : Set Str} {whole : Prop} {rule : SideRule C}

theorem Action.run_obeys {P : MmkvData hash → Prop} (hrule : rule.Allows U w) {a : Action hash}
    (hkeys : ∀ k ∈ a.keys w, k ∈ U) (hwhole : a.IsWhole → whole) (hvalues : a.KeepsValues P) :
    Db.Obeys U whole rule P (a.run w) fun _ => True := by
  apply run_of_unguarded (motive := fun p => Db.Obeys U whole rule P p fun _ => True)
    (fun _ _ hp => obeys_checkShardIsLockedKey hrule hp)
    fun _ hp => obeys_checkHasShardLockedKey hrule hp
  cases a with
  | onValue access kind k body =>
    exact obeys_onValue hrule (hkeys k (by simp [keys])) access hvalues
  | insertNew replace k data =>
    exact obeys_insertNew hrule (hkeys k (by simp [keys])) replace hvalues
  | addTo expire kind k init body =>
    have hk : k ∈ U := hkeys k (by simp only [keys]; split <;> simp)
    refine obeys_addTo hrule hk ?_ hvalues.1 hvalues.2
    intro hmoved
    exact hkeys [] (by simp [keys, hmoved])
  | setStr k v => exact obeys_setStr hrule (hkeys k (by simp [keys])) hvalues
  | eraseValue kind ifErased ifAbsent k =>
    exact obeys_eraseValue hrule (hkeys k (by simp [keys])) ifErased ifAbsent
  | setOp op k₁ k₂ out =>
    exact obeys_setOp hrule (hkeys k₁ (by simp [keys])) (hkeys k₂ (by simp [keys])) op out hvalues
  | setOpTo op k₁ k₂ dest =>
    exact obeys_setOpTo hrule (hkeys k₁ (by simp [keys])) (hkeys k₂ (by simp [keys]))
      (hkeys dest (by simp [keys])) op hvalues
  | delete k => exact obeys_delete hrule (hkeys k (by simp [keys]))
  | deleteAll => exact obeys_deleteAll hrule (hwhole trivial)
  | rename oldName newName =>
    exact obeys_rename hrule (hkeys oldName (by simp [keys])) (hkeys newName (by simp [keys]))
  | expireAtMs k expire => exact obeys_expireAtMs (hkeys k (by simp [keys])) expire
  | persist k => exact obeys_persist (hkeys k (by simp [keys]))
  | getExpiration k out => exact obeys_getExpiration (hkeys k (by simp [keys])) out

theorem Action.keepsValues_true (a : Action hash) : a.KeepsValues fun _ => True := by
  cases a <;> simp [KeepsValues]

theorem Action.run_keeps (hrule : rule.Allows U w) (a : Action hash) (hkeys : ∀ k ∈ a.keys w, k ∈ U)
    (hwhole : a.IsWhole → whole) : Db.Keeps U whole rule (a.run w) fun _ => True :=
  (run_obeys hrule hkeys hwhole a.keepsValues_true).keeps

def Command.keys (w : World C) (c : Command) : List Str :=
  (c.action w.now : Action (fun _ => 0)).keys w

theorem Command.keys_action (w : World C) (c : Command) :
    (c.action w.now : Action hash).keys w = c.keys w := by
  cases c <;> rfl

variable {c : Command}

theorem Command.not_isWhole (hc : c ≠ .deleteAll) (now : UInt64) :
    ¬ (c.action now : Action hash).IsWhole := by
  cases c
  case deleteAll => exact absurd rfl hc
  all_goals exact id

variable {s : DbState hash C}

theorem DbState.exec_abs (hU : Separated U) (hkeys : ∀ k ∈ c.keys w, k ∈ U) (hs : s.KeysIn U) :
    SameOutcome (fun _ s' a' => s'.KeysIn U ∧ a' = s'.abs) (s.exec w c) (s.abs.exec w c) := by
  have hkeeps : Db.Keeps U True (.keys U) ((c.action w.now : Action hash).run w) fun _ => True := by
    apply Action.run_keeps (SideRule.keys_allows U w)
    · rwa [Command.keys_action]
    · exact fun _ => trivial
  exact run_abs hU hkeeps hs

variable {reply : Reply}

/-- Between keys that `strcmp` tells apart a command does what it does between values by key. -/
theorem DbState.exec_of_abs (hU : Separated U) (hkeys : ∀ k ∈ c.keys w, k ∈ U) (hs : s.KeysIn U)
    {b : AbsDb hash C} (hrun : s.abs.exec w c = some (reply, b)) :
    ∃ s', s.exec w c = some (reply, s') ∧ s'.KeysIn U ∧ b = s'.abs := by
  have hsame := exec_abs hU hkeys hs
  rw [hrun] at hsame
  exact hsame.exists_of_right

theorem DbState.abs_exec (hU : Separated U) (hkeys : ∀ k ∈ c.keys w, k ∈ U) {s' : DbState hash C}
    (hs : s.KeysIn U) (hexec : s.exec w c = some (reply, s')) :
    s.abs.exec w c = some (reply, s'.abs) ∧ s'.KeysIn U := by
  have hsame := exec_abs hU hkeys hs
  rw [hexec] at hsame
  obtain ⟨b, hrun, hin, rfl⟩ := hsame.exists_of_left
  exact ⟨hrun, hin⟩

theorem DbState.checkExpireCycle_abs (hU : Separated U) (hs : s.KeysIn U) :
    SameOutcome (fun _ s' a' => s'.KeysIn U ∧ a' = s'.abs) (s.checkExpireCycle w)
      ((Db.checkExpireCycle w s.expDict.entries).run AbsDb.handler s.abs) :=
  run_abs hU (obeys_checkExpireCycle (SideRule.keys_allows U w) hs.expDict).keeps hs

end Mmkv
