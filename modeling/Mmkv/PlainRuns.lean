import Mmkv.CommandKeys

/-!
# Runs without replacement and shards

Without a replacement policy and a shard index a command depends on the values
and deadlines of its keys only.  This module says what the shapes do to the
partial functions, first for a key whose deadline has passed, then for one whose
deadline has not.
-/

namespace Mmkv

open EffectPrograms Option AbsDb AbsDict

variable {hash : Str → Nat} {C : Type} {V : Type}

/-! ## Expired keys -/

/-- The key has a deadline and `t` is not before it. -/
def AbsDb.expired (t : UInt64) (a : AbsDb hash C) (k : Str) : Bool :=
  match a.expDict.get k with
  | none => false
  | some e => decide (e ≤ t)

/-- The value is there to be expired lazily: deadlines are checked on access and
this one has passed. -/
def AbsDb.lapsed (w : World C) (a : AbsDb hash C) (k : Str) : Bool :=
  w.config.lazyExpiration && a.expired w.now k

theorem AbsDb.expired_of_none {t : UInt64} {a : AbsDb hash C} {k : Str}
    (hnone : a.expDict.get k = none) : a.expired t k = false := by
  simp [expired, hnone]

def AbsDb.add (w : World C) (a : AbsDb hash C) (k : Str) (data : MmkvData hash) : AbsDb hash C :=
  { a with dict := a.dict.insert k data, side := a.side.linkKey w k }

def AbsDb.put (a : AbsDb hash C) (k : Str) (data : MmkvData hash) : AbsDb hash C :=
  { a with dict := a.dict.set k data }

/-- `AppendDel`. -/
def Side.logDel (w : World C) (k : Str) (σ : Side C) : Side C :=
  { σ with log := if w.config.logMethod = .request then σ.log ++ [k] else σ.log }

/-- The state after a lazy expiration. -/
def AbsDb.drop (w : World C) (a : AbsDb hash C) (k : Str) : AbsDb hash C :=
  ⟨a.dict.extract k, a.expDict.remove k, (a.side.unlinkKey k).logDel w k⟩

def AbsDict.erase {V : Type} (a : AbsDict V) (k : Str) : AbsDict V :=
  (a.step (.erase k)).2

theorem isSome_update_some {f : Str → Option V} {k k' : Str} {v : V}
    (h : (f k').isSome) : (Function.update f k (some v) k').isSome := by
  grind

@[simp] theorem AbsDict.get_erase (a : AbsDict V) (k : Str) :
    (a.erase k).get = (a.remove k).get := by
  unfold erase
  simp only [step]
  cases hget : a.get k with
  | none =>
    funext k'
    by_cases hk : k' = k
    · subst hk
      simp [remove, hget]
    · simp [remove, hk]
  | some v => rfl

namespace Db

/-! ## Single calls -/

section Calls

variable {w : World C} {a : AbsDb hash C} {k : Str}

@[simp] theorem run_change (f : Side C → Side C) :
    (change f : Db hash C Unit).run handler a =
      some ((), { a with side := f a.side }) := rfl

variable {α : Type}

@[simp] theorem run_ask (f : Side C → α) :
    (ask f : Db hash C α).run handler a = some (f a.side, a) := rfl

@[simp] theorem run_ofOption (o : Option α) :
    (Program.ofOption o : Db hash C α).run handler a = o.map fun x => (x, a) := by
  cases o <;> rfl

@[simp] theorem run_find :
    (find k).run handler a = some ((a.dict.get k).map (KeyValue.mk k), a) := rfl

theorem run_dict (op : DictOp (MmkvData hash)) : Program.run handler (dict op) a =
      some ((a.dict.step op).1, { a with dict := (a.dict.step op).2 }) := rfl

theorem run_insert_fresh (hget : a.dict.get k = none) (data : MmkvData hash) :
    (insertKvWithDuplicate w k data).run handler a =
      some ((true, ⟨k, data⟩), a.add w k data) := by
  unfold insertKvWithDuplicate
  rw [Program.run_bind, run_dict]
  simp only [step, hget]
  rfl

variable {old : MmkvData hash}

theorem run_insert_duplicate (hget : a.dict.get k = some old) (data : MmkvData hash) :
    (insertKvWithDuplicate w k data).run handler a = some ((false, ⟨k, old⟩), a) := by
  unfold insertKvWithDuplicate
  rw [Program.run_bind, run_dict]
  simp only [step, hget]
  rfl

theorem run_write (hget : a.dict.get k = some old) (data : MmkvData hash) :
    Program.run handler (dict (.write k data)) a = some ((), a.put k data) := by
  rw [run_dict]
  simp only [step, hget]
  rfl

theorem run_extract_some {data : MmkvData hash} (hget : a.dict.get k = some data) :
    (extract k).run handler a =
      some (some ⟨k, data⟩, { a with dict := a.dict.extract k }) := by
  unfold extract
  rw [run_dict]
  simp only [step, hget]

theorem run_extract_none (hget : a.dict.get k = none) :
    (extract k).run handler a = some (none, a) := by
  unfold extract
  rw [run_dict]
  simp only [step, hget]

theorem run_push_fresh (hget : a.dict.get k = none) (data : MmkvData hash) :
    Program.run handler (discard (dict (.push k data))) a =
      some ((), { a with dict := a.dict.insert k data }) := by
  change (dict (.push k data) >>= fun _ => Pure.pure ()).run handler a = _
  rw [Program.run_bind_of_some (run_dict _)]
  simp only [step, hget]
  rfl

@[simp] theorem run_dropNode :
    (dropNode k).run handler a =
      some ((), { a with side := a.side.unlinkKey k }) := rfl

theorem run_appendDel : (appendDel w k).run handler a =
      some ((), { a with side := a.side.logDel w k }) := by
  unfold appendDel Side.logDel
  split <;> rfl

@[simp] theorem run_eraseNode :
    (eraseNode k).run handler a =
      some ((), { a with dict := a.dict.remove k, side := a.side.unlinkKey k }) := rfl

@[simp] theorem run_expFind :
    Program.run handler (expDict (.find k)) a =
      some ((a.expDict.get k).map (KeyValue.mk k), a) := rfl

theorem run_expDict (op : DictOp UInt64) : Program.run handler (expDict op) a =
      some ((a.expDict.step op).1, { a with expDict := (a.expDict.step op).2 }) := rfl

theorem run_expInsert_fresh (hexp : a.expDict.get k = none) (e : UInt64) :
    Program.run handler (expDict (.insertKvWithDuplicate k e)) a =
      some ((true, ⟨k, e⟩), { a with expDict := a.expDict.insert k e }) := by
  rw [run_expDict]
  simp only [step, hexp]

theorem run_expInsert_duplicate {old : UInt64} (hexp : a.expDict.get k = some old) (e : UInt64) :
    Program.run handler (expDict (.insertKvWithDuplicate k e)) a =
      some ((false, ⟨k, old⟩), a) := by
  rw [run_expDict]
  simp only [step, hexp]

theorem run_expWrite {old : UInt64} (hexp : a.expDict.get k = some old) (e : UInt64) :
    Program.run handler (expDict (.write k e)) a =
      some ((), { a with expDict := a.expDict.set k e }) := by
  rw [run_expDict]
  simp only [step, hexp]

@[simp] theorem run_expEraseNode :
    Program.run handler (expDict (.eraseNode k)) a =
      some ((), { a with expDict := a.expDict.remove k }) := rfl

@[simp] theorem run_expErase :
    Program.run handler (discard (expDict (.erase k))) a =
      some ((), { a with expDict := a.expDict.erase k }) := rfl

end Calls

section Plain

variable {w : World C} (hplain : w.Plain)

include hplain

variable (k : Str)

theorem cacheUpdate_plain : (cacheUpdate w k : Db hash C Unit) = pure () := by
  simp [cacheUpdate, hplain.policy]

theorem cacheRemove_plain : (cacheRemove w k : Db hash C Unit) = pure () := by
  simp [cacheRemove, hplain.policy]

theorem addKeyToShard_plain : (addKeyToShard w k : Db hash C Unit) = pure () := by
  simp [addKeyToShard, hplain.isSharder]

theorem removeKeyFromShard_plain : (removeKeyFromShard w k : Db hash C Unit) = pure () := by
  simp [removeKeyFromShard, hplain.isSharder]

theorem registerKey_plain : (registerKey w k : Db hash C Unit) = pure () := by
  simp only [registerKey, cacheUpdate_plain hplain, addKeyToShard_plain hplain]
  rfl

theorem tryReplacekey_plain (key : Option Str) :
    (tryReplacekey w key : Db hash C Unit) = pure () := by
  simp [tryReplacekey, hplain.policy]

theorem checkShardIsLockedKey_plain (p : Db hash C Reply) : checkShardIsLockedKey w k p = p := by
  simp [checkShardIsLockedKey, hplain.isSharder]

theorem checkHasShardLockedKey_plain (p : Db hash C Reply) : checkHasShardLockedKey w p = p := by
  simp [checkHasShardLockedKey, hplain.isSharder]

end Plain

theorem onlyIf_pure (c : Bool) : (onlyIf c (pure ()) : Db hash C Unit) = pure () := by
  cases c <;> rfl

/-! ## The deadline check -/

variable {w : World C} {a : AbsDb hash C} {k : Str}

theorem run_checkExpire_current (hcurrent : a.lapsed w k = false) :
    (checkExpire w k).run handler a = some ((false, k), a) := by
  unfold checkExpire
  cases hlazy : w.config.lazyExpiration with
  | false => rfl
  | true =>
    simp only [lapsed, hlazy, Bool.true_and, expired] at hcurrent
    simp only [↓reduceIte]
    rw [Program.run_bind_of_some run_expFind]
    cases hexp : a.expDict.get k with
    | none => rfl
    | some e =>
      have hlate : ¬ e ≤ w.now := by simpa [hexp] using hcurrent
      simp [hlate]

theorem exists_deadline (hlapsed : a.lapsed w k = true) :
    w.config.lazyExpiration = true ∧ ∃ e, a.expDict.get k = some e ∧ e ≤ w.now := by
  simp only [lapsed, Bool.and_eq_true, expired] at hlapsed
  grind

theorem run_checkExpire_dangling (hlapsed : a.lapsed w k = true) (hget : a.dict.get k = none) :
    (checkExpire w k).run handler a = none := by
  rcases exists_deadline hlapsed with ⟨hlazy, e, hexp, hpassed⟩
  unfold checkExpire
  simp only [hlazy, ↓reduceIte]
  rw [Program.run_bind_of_some run_expFind, hexp]
  simp only [map_some, hpassed, ↓reduceIte]
  exact Program.run_bind_of_some (run_extract_none (a := ⟨_, a.expDict.remove k, _⟩) hget) _

/-- The state after a lazy expiration: value and deadline are gone. -/
structure Dropped (a b : AbsDb hash C) (k : Str) : Prop where
  dict : b.dict = a.dict.extract k
  expDict : b.expDict = a.expDict.remove k

variable {data : MmkvData hash}

theorem run_checkExpire_drop (hlapsed : a.lapsed w k = true) (hget : a.dict.get k = some data) :
    (checkExpire w k).run handler a =
      some ((true, if w.config.logMethod = .request then [] else k), a.drop w k) := by
  rcases exists_deadline hlapsed with ⟨hlazy, e, hexp, hpassed⟩
  unfold checkExpire
  simp only [hlazy, ↓reduceIte]
  rw [Program.run_bind_of_some run_expFind, hexp]
  simp only [map_some, hpassed, ↓reduceIte]
  rw [Program.run_bind_of_some run_expEraseNode,
    Program.run_bind_of_some (run_extract_some (a := ⟨_, a.expDict.remove k, _⟩) hget)]
  rw [Program.run_bind_of_some run_dropNode, Program.run_bind_of_some run_appendDel]
  rfl

theorem run_checkExpire_lapsed (hlapsed : a.lapsed w k = true) (hget : a.dict.get k = some data) :
    ∃ b, (checkExpire w k).run handler a =
        some ((true, if w.config.logMethod = .request then [] else k), b) ∧
      Dropped a b k :=
  ⟨_, run_checkExpire_drop hlapsed hget, rfl, rfl⟩

theorem run_checkExpireRoutine_current (hcurrent : a.lapsed w k = false) (p : Db hash C Reply) :
    (checkExpireRoutine w k p).run handler a = p.run handler a := by
  simp [checkExpireRoutine, run_checkExpire_current hcurrent]

theorem run_checkExpireRoutine_dangling
    (hlapsed : a.lapsed w k = true) (hget : a.dict.get k = none) (p : Db hash C Reply) :
    (checkExpireRoutine w k p).run handler a = none := by
  simp [checkExpireRoutine, run_checkExpire_dangling hlapsed hget]

theorem run_checkExpireRoutine_lapsed (hlapsed : a.lapsed w k = true)
    (hget : a.dict.get k = some data) (p : Db hash C Reply) :
    ∃ b, (checkExpireRoutine w k p).run handler a = some (.fail .nonexists, b) ∧
      Dropped a b k := by
  rcases run_checkExpire_lapsed hlapsed hget with ⟨b, hrun, hdropped⟩
  refine ⟨b, ?_, hdropped⟩
  simp [checkExpireRoutine, hrun]

/-! ## The shapes, for keys that have not expired -/

section Shapes

variable (hplain : w.Plain) {τ : Type} (kind : DataKind hash τ)

theorem run_findTyped (p : KeyValue (MmkvData hash) → τ → Db hash C Reply) :
    (findTyped kind k p).run handler a =
      match a.dict.get k with
      | none => some (.fail .nonexists, a)
      | some data =>
        match kind.get data with
        | none => some (.fail .existsDiffType, a)
        | some x => (p ⟨k, data⟩ x).run handler a := by
  unfold findTyped
  rw [Program.run_bind_of_some run_find]
  cases a.dict.get k with
  | none => rfl
  | some data =>
    simp only [map_some]
    cases kind.get data <;> rfl

variable {k' : Str} (init : τ) (body : τ → Output × τ)

theorem run_addTo_of_some {x : Bool}
    {b : AbsDb hash C} (hcheck : (checkExpire w k).run handler a = some ((x, k'), b)) :
    (addTo w true kind k init body).run handler a =
      (addTo w false kind k' init body).run handler b := by
  have hkey : (keyAfterExpire w true k).run handler a = some (k', b) := by
    simp [keyAfterExpire, hcheck]
  exact Program.run_bind_of_some hkey _

theorem run_addTo_of_none (hcheck : (checkExpire w k).run handler a = none) :
    (addTo w true kind k init body).run handler a = none := by
  have hkey : (keyAfterExpire w true k).run handler a = none := by
    simp [keyAfterExpire, hcheck]
  exact Program.run_bind_of_none hkey _

theorem run_addTo_current (expire : Bool) (kind : DataKind hash τ) (init : τ)
    (body : τ → Output × τ) (hcurrent : a.lapsed w k = false) :
    (addTo w expire kind k init body).run handler a =
      (addTo w false kind k init body).run handler a := by
  cases expire with
  | false => rfl
  | true => exact run_addTo_of_some kind init body (run_checkExpire_current hcurrent)

theorem run_onValue_still (access : Access) (kind : DataKind hash τ) (body : τ → Option (Reply × τ))
    (htouch : (onlyIf access.touch (cacheUpdate w k) : Db hash C Unit) = pure ())
    (hreplace : (onlyIf access.replace (tryReplacekey w none) : Db hash C Unit) = pure ())
    (hcurrent : a.lapsed w k = false) :
    (onValue w access kind k body).run handler a =
      match a.dict.get k with
      | none => some (.fail .nonexists, a)
      | some data =>
        match kind.get data with
        | none => some (.fail .existsDiffType, a)
        | some x => (body x).map fun r => (r.1, a.put k (kind.put r.2)) := by
  unfold onValue
  rw [run_checkExpireRoutine_current hcurrent, run_findTyped]
  cases hget : a.dict.get k with
  | none => rfl
  | some data =>
    dsimp only
    cases hkind : kind.get data with
    | none => rfl
    | some x =>
      rw [htouch]
      simp only [hreplace]
      cases hbody : body x with
      | none => rfl
      | some r =>
        simp only [Program.run_bind, Program.run_pure, bind_some, run_ofOption,
          map_some, run_write hget]

include hplain

theorem run_onValue (access : Access) (kind : DataKind hash τ) (body : τ → Option (Reply × τ))
    (hcurrent : a.lapsed w k = false) :
    (onValue w access kind k body).run handler a =
      match a.dict.get k with
      | none => some (.fail .nonexists, a)
      | some data =>
        match kind.get data with
        | none => some (.fail .existsDiffType, a)
        | some x => (body x).map fun r => (r.1, a.put k (kind.put r.2)) := by
  apply run_onValue_still access kind body _ _ hcurrent
  · rw [cacheUpdate_plain hplain, onlyIf_pure]
  · rw [tryReplacekey_plain hplain, onlyIf_pure]

theorem run_insertNew (replace : Bool) (data : MmkvData hash) :
    (insertNew w replace k data).run handler a =
      match a.dict.get k with
      | none => some (.ok .none, a.add w k data)
      | some _ => some (.fail .exists, a) := by
  unfold insertNew
  simp only [tryReplacekey_plain hplain, onlyIf_pure, registerKey_plain hplain]
  cases hget : a.dict.get k with
  | none => simp [run_insert_fresh hget]
  | some old => simp [run_insert_duplicate hget]

theorem run_addTo : (addTo w false kind k init body).run handler a = match a.dict.get k with
      | none =>
        some (.ok (body init).1, (a.add w k (kind.put init)).put k (kind.put (body init).2))
      | some data =>
        match kind.get data with
        | none => some (.fail .existsDiffType, a)
        | some x => some (.ok (body x).1, a.put k (kind.put (body x).2)) := by
  unfold addTo keyAfterExpire
  simp only [registerKey_plain hplain, onlyIf_pure]
  cases hget : a.dict.get k with
  | none =>
    have hadded : (a.add w k (kind.put init)).dict.get k = some (kind.put init) := by
      simp [add, AbsDict.insert, AbsDict.set]
    simp [run_insert_fresh hget, kind.get_put, run_write hadded]
  | some data =>
    cases hkind : kind.get data with
    | none => simp [run_insert_duplicate hget, hkind]
    | some x => simp [run_insert_duplicate hget, hkind, run_write hget]

theorem run_addTo_frame :
    ∃ r b, (addTo w false kind k init body).run handler a = some (r, b) ∧
      b.expDict = a.expDict ∧ ∀ k', k' ≠ k → b.dict.get k' = a.dict.get k' := by
  rw [run_addTo hplain]
  cases a.dict.get k with
  | none =>
    refine ⟨_, _, rfl, rfl, ?_⟩
    intro k' hk
    simp [add, put, AbsDict.insert, AbsDict.set, hk]
  | some data =>
    dsimp only
    cases kind.get data with
    | none => exact ⟨_, _, rfl, rfl, fun _ _ => rfl⟩
    | some x =>
      refine ⟨_, _, rfl, rfl, ?_⟩
      intro k' hk
      simp [put, AbsDict.set, hk]

theorem run_setStr (v : Str) (hcurrent : a.lapsed w k = false) :
    (setStr w k v).run handler a =
      match a.dict.get k with
      | none => some (.ok .none, a.add w k (.string v))
      | some data =>
        match DataKind.string.get data with
        | none => some (.fail .existsDiffType, a)
        | some _ => some (.ok .none, a.put k (.string v)) := by
  unfold setStr
  rw [run_checkExpireRoutine_current hcurrent]
  simp only [tryReplacekey_plain hplain, registerKey_plain hplain, cacheUpdate_plain hplain]
  cases hget : a.dict.get k with
  | none => simp [run_insert_fresh hget]
  | some data =>
    cases hkind : DataKind.string.get data with
    | none => simp [run_insert_duplicate hget, hkind]
    | some x => simp [run_insert_duplicate hget, hkind, run_write hget]

theorem run_eraseValue (ifErased ifAbsent : Bool) :
    (eraseValue w kind ifErased ifAbsent k).run handler a =
      match a.dict.get k with
      | none =>
        some (.fail .nonexists,
          { a with expDict := if ifAbsent then a.expDict.erase k else a.expDict })
      | some data =>
        match kind.get data with
        | none => some (.fail .existsDiffType, a)
        | some _ =>
          some (.ok .none, ⟨a.dict.remove k, if ifErased then a.expDict.erase k else a.expDict,
              a.side.unlinkKey k⟩) := by
  unfold eraseValue
  simp only [cacheRemove_plain hplain, removeKeyFromShard_plain hplain]
  rw [Program.run_bind_of_some run_find]
  cases hget : a.dict.get k with
  | none => cases ifAbsent <;> rfl
  | some data =>
    simp only [map_some]
    cases hkind : kind.get data with
    | none => rfl
    | some x => cases ifErased <;> rfl

theorem run_delete : (delete w k).run handler a = match a.dict.get k with
      | none => some (.fail .nonexists, a)
      | some _ =>
        some (.ok .none, ⟨a.dict.extract k, a.expDict.erase k, a.side.unlinkKey k⟩) := by
  unfold delete
  simp only [cacheRemove_plain hplain, removeKeyFromShard_plain hplain]
  cases hget : a.dict.get k with
  | none => rw [Program.run_bind_of_some (run_extract_none hget)]; rfl
  | some data => rw [Program.run_bind_of_some (run_extract_some hget)]; rfl

theorem run_rename (newName : Str) (hcurrent : a.lapsed w k = false) :
    (rename w k newName).run handler a =
      match a.dict.get newName, a.dict.get k with
      | some _, _ => some (.fail .exists, a)
      | none, none => some (.fail .nonexists, a)
      | none, some data =>
        some (.ok .none, { a with
            dict := (a.dict.extract k).insert newName data
            side := a.side.renameKey k newName }) := by
  unfold rename
  rw [run_checkExpireRoutine_current hcurrent, Program.run_bind_of_some run_find]
  simp only [tryReplacekey_plain hplain, cacheUpdate_plain hplain]
  cases hnew : a.dict.get newName with
  | some old => rfl
  | none =>
    simp only [map_none]
    cases hget : a.dict.get k with
    | none => rw [Program.run_bind_of_some (run_extract_none hget)]; rfl
    | some data =>
      have hfree : (a.dict.extract k).get newName = none := by
        simp [AbsDict.extract, AbsDict.remove, Function.update_apply, hnew]
      have hpush := run_push_fresh
        (a := ⟨a.dict.extract k, a.expDict, a.side.renameKey k newName⟩) hfree data
      rw [Program.run_bind_of_some (run_extract_some hget)]
      simp only [Program.run_bind, Program.run_pure, run_change, bind_some]
      rw [hpush]
      rfl

def operands (k₁ k₂ : Str) (s₁ s₂ : StrSet hash) : SetHeap hash :=
  ⟨Function.update (Function.update (fun _ => HashDict.new) k₁ s₁) k₂ s₂, []⟩

def assign (h : SetHeap hash) (dest : Str) (s : StrSet hash) : SetHeap hash :=
  { h with sets := Function.update h.sets dest s }

def storeSets (a : AbsDb hash C) (ks : List Str) (h : SetHeap hash) : AbsDb hash C :=
  ks.foldl (fun a k => a.put k (.set (h.sets k))) a

variable {k₁ k₂ : Str}

omit hplain in
theorem run_storeSets {k3 : Str} (o : Option (SetHeap hash)) (h1 : (a.dict.get k₁).isSome)
    (h2 : (a.dict.get k₂).isSome) (h3 : (a.dict.get k3).isSome) :
    Program.run handler (do
      let h ← Program.ofOption o
      dict (.write k₁ (.set (h.sets k₁)))
      dict (.write k₂ (.set (h.sets k₂)))
      dict (.write k3 (.set (h.sets k3)))
      return .ok .none) a =
        o.map fun h => (Reply.ok .none, storeSets a [k₁, k₂, k3] h) := by
  have hwrite : ∀ {a : AbsDb hash C} {k : Str} (data : MmkvData hash),
      (a.dict.get k).isSome →
        Program.run handler (dict (.write k data)) a = some ((), a.put k data) := by
    intro a k data hget
    rcases isSome_iff_exists.mp hget with ⟨old, hold⟩
    exact run_write hold data
  cases o with
  | none => rfl
  | some h =>
    rw [Program.run_bind_of_some (run_ofOption (some h)), Program.run_bind_of_some (hwrite _ h1),
      Program.run_bind_of_some (hwrite _ (isSome_update_some h2)),
      Program.run_bind_of_some (hwrite _ (isSome_update_some (isSome_update_some h3)))]
    rfl

theorem run_setOpTo (dest : Str) (op : SetOp) {s1 s2 : StrSet hash}
    (hcurrent1 : a.lapsed w k₁ = false) (hcurrent2 : a.lapsed w k₂ = false)
    (hget1 : a.dict.get k₁ = some (.set s1)) (hget2 : a.dict.get k₂ = some (.set s2)) :
    (setOpTo w op k₁ k₂ dest).run handler a =
      match a.dict.get dest with
      | none =>
        (op.eval (SetHeap.store dest) k₁ k₂ w.fuel
          (assign (operands k₁ k₂ s1 s2) dest HashDict.new)).map fun h =>
            (.ok .none, storeSets (a.add w dest (.set HashDict.new)) [k₁, k₂, dest] h)
      | some data =>
        match DataKind.set.get data with
        | none => some (.fail .destExists, a)
        | some s =>
          (op.eval (SetHeap.store dest) k₁ k₂ w.fuel
            (assign (operands k₁ k₂ s1 s2) dest s)).map fun h =>
              (.ok .none, storeSets a [k₁, k₂, dest] h) := by
  have hset : ∀ s : StrSet hash, DataKind.set.get (.set s) = some s := fun _ => rfl
  have hstored1 : (a.dict.get k₁).isSome := by simp [hget1]
  have hstored2 : (a.dict.get k₂).isSome := by simp [hget2]
  unfold setOpTo setOpRoutine
  rw [run_checkExpireRoutine_current hcurrent1, run_checkExpireRoutine_current hcurrent2,
    run_findTyped, hget1]
  simp only [hset]
  rw [run_findTyped, hget2]
  simp only [hset, registerKey_plain hplain, onlyIf_pure]
  cases hget : a.dict.get dest with
  | none =>
    rw [Program.run_bind_of_some (run_insert_fresh hget _)]
    exact run_storeSets _ (isSome_update_some hstored1) (isSome_update_some hstored2)
      (by simp [add, AbsDict.insert, AbsDict.set])
  | some data =>
    rw [Program.run_bind_of_some (run_insert_duplicate hget _)]
    dsimp only
    cases hkind : DataKind.set.get data with
    | none => rfl
    | some s => exact run_storeSets _ hstored1 hstored2 (by simp [hget])

end Shapes

end Db

/-! ## Commands -/

/-- Without sharding the shard checks of a command do nothing. -/
theorem Action.run_plain {w : World C} (hplain : w.Plain) (x : Action hash) :
    x.run w = x.unguarded w := by
  apply run_of_unguarded (motive := fun p => p = x.unguarded w)
  · exact fun k p hp => (Db.checkShardIsLockedKey_plain hplain k p).trans hp
  · exact fun p hp => (Db.checkHasShardLockedKey_plain hplain p).trans hp
  · rfl

end Mmkv
