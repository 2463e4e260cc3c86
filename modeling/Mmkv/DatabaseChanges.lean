import Mmkv.DataViews
import Mmkv.PlainRuns

/-!
# What the commands change

Whatever a command does to the database is a sequence of a few changes: a key is touched,
written, inserted, removed, expired, evicted or renamed, everything is cleared, or a deadline
is set or erased.  Each command is followed through its changes here, under any policy and
with or without shards.  What holds along all commands is then shown for each change.
-/

namespace Mmkv

open EffectPrograms List Option Function Db Program AbsDb

variable {hash : Str → Nat} {C : Type} {σ : Side C}

/-! ## Cache and shards -/

namespace Side

variable (w : World C)

/-- `CacheUpdate`. -/
def touch (k : Str) (σ : Side C) : Side C :=
  w.policy.elim σ fun p => σ.onAddress k fun a =>
    { σ with cache := p.updateEntry a σ.cache }

/-- `CacheRemove`. -/
def uncache (k : Str) (σ : Side C) : Side C :=
  w.policy.elim σ fun p => σ.onAddress k fun a =>
    { σ with cache := p.delEntry a σ.cache }

/-- `AddKeyToShard`. -/
def file (k : Str) (σ : Side C) : Side C :=
  if w.config.isSharder then
    σ.onAddress k fun a => σ.modifyShard (w.makeShardId k) (addAddr a)
  else σ

/-- `RemoveKeyFromShard`. -/
def unfile (k : Str) (σ : Side C) : Side C :=
  if w.config.isSharder then
    σ.onAddress k fun a => σ.modifyShard (w.makeShardId k) fun l => l.erase a
  else σ

theorem modifyShard_keys (id : Nat) (f : List Addr → List Addr) :
    (σ.modifyShard id f).keys = σ.keys := by
  unfold modifyShard
  split <;> rfl

theorem uncache_unfile (k : Str) (σ : Side C) :
    (σ.unfile w k).uncache w k = (σ.uncache w k).unfile w k := by
  unfold uncache unfile
  cases w.policy with
  | none => rfl
  | some p =>
    cases hsharder : w.config.isSharder with
    | false => rfl
    | true =>
      simp only [elim_some, ↓reduceIte, onAddress]
      cases haddr : σ.addressOf k with
      | none => simp [haddr]
      | some a =>
        have hkeys : (σ.modifyShard (w.makeShardId k) fun l => l.erase a).addressOf k =
            some a := by
          rw [addressOf, modifyShard_keys]
          exact haddr
        have hcache : ∀ c : C, ({ σ with cache := c } : Side C).addressOf k = some a :=
          fun _ => haddr
        simp only [elim_some, hkeys, hcache]
        unfold modifyShard hasShard
        split <;> rfl

end Side

variable {V : Type} {f : Str → Option V} {k k' : Str}

theorem AbsDict.isSome_of_update_none (h : (update f k none k').isSome) :
    (f k').isSome := by
  grind

def World.victim (w : World C) (σ : Side C) : Option Str :=
  match w.policy with
  | none => none
  | some p =>
    if w.config.maxMemoryUsage > w.memoryUsage then none
    else (p.victim σ.cache).bind σ.keyAt

/-- The shard of the key is there and not locked, if there are shards. -/
def AbsDb.unlocked (w : World C) (a : AbsDb hash C) (k : Str) : Bool :=
  let id := w.makeShardId k % w.config.shardNum
  !w.config.isSharder ||
    a.side.hasShard id && !(decide (id ∈ a.side.lockedShards) && !a.side.isIgnoreLockedShard)

/-- `TryReplacekey` returns before it looks for the key of the victim. -/
def World.SkipsReplacement (w : World C) (σ : Side C) (k : Str) : Prop :=
  ∀ p, w.policy = some p → w.config.maxMemoryUsage > w.memoryUsage ∨
    w.makeShardId k ∈ σ.lockedShards ∨ p.victim σ.cache = none ∨
    p.victim σ.cache = σ.addressOf k

/-- The key that the replacement removes on behalf of the key `k`. -/
def World.Evicts (w : World C) (σ : Side C) (k v : Str) : Prop :=
  w.victim σ = some v ∧ w.makeShardId k ∉ σ.lockedShards ∧
    ∀ p, w.policy = some p → σ.addressOf k ≠ p.victim σ.cache

variable {w : World C} {heap : SetHeap hash} {a : AbsDb hash C} {x : Action hash}

theorem World.SkipsReplacement.not_evicts {v : Str} (h : w.SkipsReplacement σ k) :
    ¬w.Evicts σ k v := by
  rintro ⟨hvictim, hunlocked, hother⟩
  cases hpolicy : w.policy with
  | none => simp [victim, hpolicy] at hvictim
  | some p =>
    obtain hfree | hlocked | hnone | hown := h p hpolicy
    · simp [victim, hpolicy, hfree] at hvictim
    · exact hunlocked hlocked
    · simp [victim, hpolicy, hnone] at hvictim
    · exact hother p hpolicy hown.symm

/-! ## Changes -/

inductive Change (hash : Str → Nat) where
  | touched (k : Str)
  | written (k : Str) (old new : MmkvData hash)
  | inserted (k : Str) (data : MmkvData hash)
  | removed (k : Str) (deadline : Bool)
  | expired (k : Str)
  | evicted (k : Str)
  | renamed (oldName newName : Str) (data : MmkvData hash)
  | cleared
  | dated (k : Str) (expire : UInt64)
  | undated (k : Str)

namespace Change

def values : Change hash → (Str → Option (MmkvData hash)) → Str → Option (MmkvData hash)
  | .written k _ data, f | .inserted k data, f => update f k (some data)
  | .removed k _, f | .expired k, f | .evicted k, f => update f k none
  | .renamed oldName newName data, f =>
    update (update f oldName none) newName (some data)
  | .cleared, _ => fun _ => none
  | _, f => f

def deadlines : Change hash → (Str → Option UInt64) → Str → Option UInt64
  | .removed k true, f | .expired k, f | .undated k, f => update f k none
  | .dated k expire, f => update f k (some expire)
  | .cleared, _ => fun _ => none
  | _, f => f

def side (w : World C) : Change hash → Side C → Side C
  | .touched k, σ => σ.touch w k
  | .inserted k _, σ => ((σ.linkKey w k).touch w k).file w k
  | .removed k _, σ => ((σ.unfile w k).uncache w k).unlinkKey k
  | .expired k, σ => (σ.unlinkKey k).logDel w k
  | .evicted k, σ =>
    let cache := w.policy.elim σ.cache fun p => p.delVictim σ.cache
    ({ σ with cache := cache }.logDel w k).unlinkKey k
  | .renamed oldName newName _, σ => (σ.renameKey oldName newName).touch w newName
  | .cleared, σ =>
    { σ with
      keys := []
      cache := w.policy.elim σ.cache fun p => p.clear σ.cache
      shards := [] }
  | _, σ => σ

/-- Only a stored key can change or go, only one whose deadline has passed expires, only the
victim of the policy is evicted, and a new name is not in use. -/
def Allowed (w : World C) (a : AbsDb hash C) : Change hash → Prop
  | .touched k | .removed k _ | .dated k _ => (a.dict.get k).isSome
  | .written k data _ => a.dict.get k = some data
  | .inserted k _ => a.dict.get k = none
  | .expired k => (a.dict.get k).isSome ∧ a.lapsed w k = true
  | .evicted k => (a.dict.get k).isSome ∧ w.victim a.side = some k
  | .renamed oldName newName data =>
    a.dict.get oldName = some data ∧ a.dict.get newName = none
  | .cleared | .undated _ => True

structure Leads (w : World C) (c : Change hash) (a b : AbsDb hash C) : Prop where
  allowed : c.Allowed w a
  values : b.dict.get = c.values a.dict.get
  deadlines : b.expDict.get = c.deadlines a.expDict.get
  side : b.side = c.side w a.side

end Change

/-- One change after another, all with the property, which may depend on the state that is
changed. -/
inductive AbsDb.Path (w : World C) (P : AbsDb hash C → Change hash → Prop)
    (a : AbsDb hash C) : AbsDb hash C → Prop where
  | refl : Path w P a a
  | step {b b' : AbsDb hash C} {c : Change hash} (path : Path w P a b) (holds : P b c)
      (leads : c.Leads w b b') : Path w P a b'

namespace AbsDb.Path

variable {w : World C} {P : AbsDb hash C → Change hash → Prop} {a b : AbsDb hash C} {k : Str}

theorem keeps {I : AbsDb hash C → Prop}
    (hstep : ∀ b b' c, P b c → c.Leads w b b' → I b → I b') (h : a.Path w P b) (ha : I a) :
    I b := by
  induction h with
  | refl => exact ha
  | step _ holds leads ih => exact hstep _ _ _ holds leads ih

theorem put (h : a.Path w P b) {old data : MmkvData hash} (hget : b.dict.get k = some old)
    (hP : P b (.written k old data)) : a.Path w P (b.put k data) :=
  .step h hP ⟨hget, rfl, rfl, rfl⟩

theorem storeSets (ks : List Str) (h : a.Path w P b)
    (hself : ∀ b, ∀ k ∈ ks, P b (.written k (.set (heap.sets k)) (.set (heap.sets k))))
    (hks : ∀ k ∈ ks, ∃ old, b.dict.get k = some old ∧
      ∀ b, P b (.written k old (.set (heap.sets k)))) :
    a.Path w P (Db.storeSets b ks heap) := by
  induction ks generalizing b with
  | nil => exact h
  | cons k ks ih =>
    simp only [forall_mem_cons] at hself hks
    obtain ⟨⟨old, hget, hP⟩, hrest⟩ := hks
    refine ih (h.put hget (hP b)) (fun b => (hself b).2) fun k' hk' => ?_
    by_cases hkk : k' = k
    · subst hkk
      exact ⟨_, by simp [AbsDb.put, AbsDict.set], fun b => (hself b).1⟩
    · simpa [AbsDb.put, AbsDict.set, hkk] using hrest k' hk'

end AbsDb.Path

/-! ## Calls -/

namespace Db

/-- The program goes along a path of changes with the property. -/
abbrev Changes {α : Type} (w : World C) (P : AbsDb hash C → Change hash → Prop)
    (p : Db hash C α) (a : AbsDb hash C) : Prop :=
  Ensures handler p a fun _ b => a.Path w P b

variable {w : World C} {P : AbsDb hash C → Change hash → Prop} {a : AbsDb hash C} {k : Str}

theorem run_cacheUpdate : (cacheUpdate w k).run handler a =
      some ((), { a with side := a.side.touch w k }) := by
  unfold cacheUpdate Side.touch
  cases w.policy <;> rfl

theorem run_cacheRemove : (cacheRemove w k).run handler a =
      some ((), { a with side := a.side.uncache w k }) := by
  unfold cacheRemove Side.uncache
  cases w.policy <;> rfl

theorem run_addKeyToShard : (addKeyToShard w k).run handler a =
      some ((), { a with side := a.side.file w k }) := by
  unfold addKeyToShard Side.file
  split <;> rfl

theorem run_removeKeyFromShard : (removeKeyFromShard w k).run handler a =
      some ((), { a with side := a.side.unfile w k }) := by
  unfold removeKeyFromShard Side.unfile
  split <;> rfl

theorem run_registerKey : (registerKey w k).run handler a =
      some ((), { a with side := (a.side.touch w k).file w k }) := by
  unfold registerKey
  rw [run_bind_of_some run_cacheUpdate, run_addKeyToShard]

theorem ensures_ask {α : Type} (f : Side C → α) :
    Ensures handler (ask f : Db hash C α) a fun r b => r = f a.side ∧ b = a := by
  intro r b hrun
  cases hrun
  exact ⟨rfl, rfl⟩

theorem ensures_tryReplacekey_none (c : Bool) :
    Ensures handler (onlyIf c (tryReplacekey w none)) a fun _ b => a = b := by
  refine .ite (fun _ => ?_) (fun _ => .pure rfl)
  unfold tryReplacekey
  split
  · exact .pure rfl
  · exact .ite (fun _ => .pure rfl) (fun _ => .abort)

theorem run_tryReplacekey_skips (h : w.SkipsReplacement a.side k) :
    (tryReplacekey w (some k)).run handler a = some ((), a) := by
  unfold tryReplacekey
  cases hpolicy : w.policy with
  | none => rfl
  | some p =>
    by_cases hfree : w.config.maxMemoryUsage > w.memoryUsage
    · simp [hfree]
    by_cases hlocked : w.makeShardId k ∈ a.side.lockedShards
    · simp [hfree, hlocked]
    obtain hnone | hown : p.victim a.side.cache = none ∨
        p.victim a.side.cache = a.side.addressOf k := by
      simpa [hfree, hlocked] using h p hpolicy
    · simp [hfree, hlocked, hnone]
    · cases haddr : a.side.addressOf k with
      | none => simp [hfree, hlocked, hown, haddr]
      | some addr => simp [hfree, hlocked, hown, haddr]

theorem ensures_tryReplacekey (k : Str) :
    Ensures handler (tryReplacekey w (some k)) a fun _ b =>
      (b = a ∧ w.SkipsReplacement a.side k) ∨
      ∃ v, w.Evicts a.side k v ∧ (a.dict.get v).isSome ∧
        b = ⟨a.dict.extract v, a.expDict, Change.side w (.evicted v : Change hash) a.side⟩ := by
  by_cases hskips : w.SkipsReplacement a.side k
  · intro _ b hrun
    cases (run_tryReplacekey_skips hskips).symm.trans hrun
    exact .inl ⟨rfl, hskips⟩
  obtain ⟨p, hpolicy, hnot⟩ : ∃ p, w.policy = some p ∧
      ¬(w.config.maxMemoryUsage > w.memoryUsage ∨ w.makeShardId k ∈ a.side.lockedShards ∨
        p.victim a.side.cache = none ∨ p.victim a.side.cache = a.side.addressOf k) := by
    simpa only [World.SkipsReplacement, not_forall, exists_prop] using hskips
  simp only [not_or] at hnot
  obtain ⟨hfull, hunlocked, hsome, hother⟩ := hnot
  obtain ⟨addr, haddr⟩ := ne_none_iff_exists'.mp hsome
  rw [haddr] at hother
  unfold tryReplacekey
  simp only [hpolicy, hfull, ↓reduceIte]
  refine .step (run_ask _) ?_
  simp only [hunlocked, decide_false, Bool.false_eq_true, ↓reduceIte]
  refine .step (run_ask _) ?_
  simp only [haddr]
  refine .step (run_ask _) ?_
  simp only [Ne.symm hother, decide_false, Bool.false_eq_true, ↓reduceIte]
  refine .step (run_ask _) ?_
  cases hfound : a.side.keyAt addr with
  | none => exact .abort
  | some v =>
    have hevicts : w.Evicts a.side k v := by
      refine ⟨?_, hunlocked, fun p' hp' => ?_⟩
      · simp [World.victim, hpolicy, hfull, haddr, hfound]
      · grind
    cases hget : a.dict.get v with
    | none => exact .step (run_extract_none hget) .abort
    | some data =>
      refine .step (run_extract_some hget) ?_
      refine .step (run_change _) ?_
      refine .step run_appendDel ?_
      intro _ b hrun
      cases run_dropNode.symm.trans hrun
      refine .inr ⟨v, hevicts, by simp [hget], ?_⟩
      simp only [Change.side, hpolicy, elim_some]

/-! ## The checks -/

theorem changes_checkExpire (hP : a.lapsed w k = true → P a (.expired k)) :
    Ensures handler (checkExpire w k) a fun r b =>
      a.Path w P b ∧ (r.1 = false → b = a ∧ a.lapsed w k = false) ∧
        (r.2 = k ∨ w.movesExpired = true ∧ r.2 = []) := by
  intro r b hrun
  cases hlapsed : a.lapsed w k with
  | false =>
    cases (run_checkExpire_current hlapsed).symm.trans hrun
    exact ⟨.refl, fun _ => ⟨rfl, rfl⟩, .inl rfl⟩
  | true =>
    cases hget : a.dict.get k with
    | none =>
      rw [run_checkExpire_dangling hlapsed hget] at hrun
      cases hrun
    | some data =>
      cases (run_checkExpire_drop hlapsed hget).symm.trans hrun
      refine ⟨.step .refl (hP hlapsed) ⟨⟨by simp [hget], hlapsed⟩, rfl, rfl, rfl⟩,
        fun h => (by cases h), ?_⟩
      by_cases hlog : w.config.logMethod = .request
      · exact .inr ⟨by simp [World.movesExpired, (exists_deadline hlapsed).1, hlog], if_pos hlog⟩
      · exact .inl (if_neg hlog)

variable {p : Db hash C Reply}

theorem changes_checkExpireRoutine (hP : a.lapsed w k = true → P a (.expired k))
    (hp : a.lapsed w k = false → Changes w P p a) : Changes w P (checkExpireRoutine w k p) a := by
  refine (changes_checkExpire hP).bind ?_
  rintro ⟨expired, k'⟩ b ⟨hpath, hcurrent, -⟩
  apply Ensures.ite
  · exact fun _ => .pure hpath
  · grind

theorem changes_keyAfterExpire (expire : Bool) (hP : a.lapsed w k = true → P a (.expired k)) :
    Ensures handler (keyAfterExpire w expire k) a fun k' b =>
      a.Path w P b ∧ (k' = k ∨ expire = true ∧ w.movesExpired = true ∧ k' = []) := by
  apply Ensures.ite
  · intro hexpire
    refine (changes_checkExpire hP).bind ?_
    rintro r b ⟨hpath, -, hkey⟩
    exact .pure ⟨hpath, hkey.imp_right fun h => ⟨hexpire, h⟩⟩
  · exact fun _ => .pure ⟨.refl, .inl rfl⟩

theorem run_checkShardIsLockedKey (p : Db hash C Reply) :
    ∃ code, code ≠ .ok ∧ (checkShardIsLockedKey w k p).run handler a =
      if a.unlocked w k then p.run handler a else some (.fail code, a) := by
  unfold checkShardIsLockedKey unlocked
  cases hsharder : w.config.isSharder with
  | false => exact ⟨.shardLocked, by simp, by simp⟩
  | true =>
    cases howned : a.side.hasShard (w.makeShardId k % w.config.shardNum) with
    | false => exact ⟨.shardNonexists, by simp, by simp [howned]⟩
    | true =>
      refine ⟨.shardLocked, by simp, ?_⟩
      by_cases hmem : w.makeShardId k % w.config.shardNum ∈ a.side.lockedShards
      · cases hignore : a.side.isIgnoreLockedShard <;> simp [howned, hmem, hignore]
      · simp [howned, hmem]

theorem changes_checkShardIsLockedKey (hp : Changes w P p a) :
    Changes w P (checkShardIsLockedKey w k p) a := by
  obtain ⟨code, -, hcheck⟩ := run_checkShardIsLockedKey (w := w) (a := a) (k := k) p
  intro reply b hrun
  rw [hcheck] at hrun
  split at hrun
  · exact hp _ _ hrun
  · cases hrun
    exact .refl

theorem changes_checkHasShardLockedKey (hp : Changes w P p a) :
    Changes w P (checkHasShardLockedKey w p) a := by
  apply Ensures.ite
  · intro _
    refine (ensures_ask _).bind ?_
    rintro locked b ⟨-, rfl⟩
    exact .ite (fun _ => .pure .refl) (fun _ => hp)
  · exact fun _ => hp

variable {τ : Type}

theorem changes_findTyped (kind : DataKind hash τ)
    {p : KeyValue (MmkvData hash) → τ → Db hash C Reply}
    (hp : ∀ x, a.dict.get k = some (kind.put x) → Changes w P (p ⟨k, kind.put x⟩ x) a) :
    Changes w P (findTyped kind k p) a := by
  refine .step run_find ?_
  cases hget : a.dict.get k with
  | none => exact .pure .refl
  | some data =>
    simp only [map_some]
    split
    · exact .pure .refl
    · next x hkind =>
        obtain rfl := kind.get_eq_some.1 hkind
        exact hp x hget

/-! ## One value -/

/-- The part of `onValue` behind the check of the deadline. -/
theorem changes_onFound (access : Access) (kind : DataKind hash τ) {body : τ → Option (Reply × τ)}
    (htouched : P a (.touched k)) (hwritten : ∀ b x reply x', body x = some (reply, x') →
      P b (.written k (kind.put x) (kind.put x'))) :
    Changes w P (findTyped kind k fun kv x => do
      onlyIf access.touch (cacheUpdate w kv.key)
      let (reply, x) ← Program.ofOption (body x)
      dict (.write kv.key (kind.put x))
      onlyIf access.replace (tryReplacekey w none)
      return reply) a := by
  apply changes_findTyped kind
  intro x hget
  refine .bind (Q := fun _ b => a.Path w P b ∧ b.dict = a.dict) ?_ ?_
  · refine .ite (fun _ => ?_) (fun _ => .pure ⟨.refl, rfl⟩)
    intro _ b hrun
    cases run_cacheUpdate.symm.trans hrun
    exact ⟨.step .refl htouched ⟨by simp [Change.Allowed, hget], rfl, rfl, rfl⟩, rfl⟩
  · rintro _ b ⟨hpath, hdict⟩
    have hget' : b.dict.get k = some (kind.put x) := by rw [hdict, hget]
    cases hx : body x with
    | none => exact .abort
    | some r =>
      refine .step (run_ofOption (some r)) ?_
      refine .step (run_write hget' _) ?_
      refine (ensures_tryReplacekey_none access.replace).bind ?_
      rintro _ _ rfl
      exact .pure (hpath.put hget' (hwritten b x r.1 r.2 hx))

variable {data : MmkvData hash}

theorem changes_insertNew (replace : Bool) (hinserted : P a (.inserted k data)) :
    Changes w P (insertNew w replace k data) a := by
  refine (ensures_tryReplacekey_none replace).bind ?_
  rintro _ _ rfl
  cases hget : a.dict.get k with
  | none =>
    refine .step (run_insert_fresh hget data) ?_
    refine .step run_registerKey (.pure ?_)
    exact .step .refl hinserted ⟨hget, rfl, rfl, rfl⟩
  | some old => exact .step (run_insert_duplicate hget data) (.pure .refl)

theorem changes_addTo (expire : Bool) (kind : DataKind hash τ) (init : τ) (body : τ → Output × τ)
    (hexpired : a.lapsed w k = true → P a (.expired k))
    (hadded : ∀ b, ∀ k' ∈ (Action.addTo expire kind k init body).keys w,
      P b (.inserted k' (kind.put init)) ∧ ∀ old data, P b (.written k' old data)) :
    Changes w P (addTo w expire kind k init body) a := by
  refine (changes_keyAfterExpire expire hexpired).bind ?_
  rintro k' b ⟨hpath, hkey⟩
  have hmem : k' ∈ (Action.addTo expire kind k init body).keys w := by
    obtain rfl | ⟨hexpire, hmoves, rfl⟩ := hkey
    · simp only [Action.keys]
      split <;> simp
    · simp [Action.keys, hexpire, hmoves]
  cases hget : b.dict.get k' with
  | none =>
    refine .step (run_insert_fresh hget _) ?_
    refine .step run_registerKey ?_
    have hstored : (b.dict.insert k' (kind.put init)).get k' = some (kind.put init) := by
      simp [AbsDict.insert, AbsDict.set]
    simp only [DataKind.get_put]
    refine .step (run_write hstored _) (.pure ?_)
    have hpath' : a.Path w P ⟨b.dict.insert k' (kind.put init), b.expDict, _⟩ :=
      .step hpath (hadded b k' hmem).1 ⟨hget, rfl, rfl, rfl⟩
    exact hpath'.put hstored ((hadded _ k' hmem).2 _ _)
  | some old =>
    refine .step (run_insert_duplicate hget _) ?_
    refine .step (rfl : (onlyIf false _ : Db hash C Unit).run _ b = some ((), b)) ?_
    split
    · exact .pure hpath
    · exact .step (run_write hget _) (.pure (hpath.put hget ((hadded b k' hmem).2 _ _)))

theorem changes_setStr (v : Str) (hexpired : a.lapsed w k = true → P a (.expired k))
    (hinserted : P a (.inserted k (.string v)))
    (hset : ∀ b, P b (.touched k) ∧ ∀ old, P b (.written k old (.string v))) :
    Changes w P (setStr w k v) a := by
  apply changes_checkExpireRoutine hexpired
  intro _
  cases hget : a.dict.get k with
  | none =>
    refine .step (run_insert_fresh hget _) ?_
    refine .step run_registerKey ?_
    refine (ensures_tryReplacekey_none true).bind ?_
    rintro _ _ rfl
    exact .pure (.step .refl hinserted ⟨hget, rfl, rfl, rfl⟩)
  | some old =>
    refine .step (run_insert_duplicate hget _) ?_
    simp only [Bool.false_eq_true, ↓reduceIte]
    split
    · exact .pure .refl
    · refine .step (run_write hget _) ?_
      refine .step run_cacheUpdate ?_
      refine (ensures_tryReplacekey_none true).bind ?_
      rintro _ _ rfl
      refine .pure (.step (.put .refl hget ((hset a).2 old)) (hset _).1 ⟨?_, rfl, rfl, rfl⟩)
      simp [Change.Allowed, put, AbsDict.set]

theorem changes_eraseValue (kind : DataKind hash τ) (ifErased ifAbsent : Bool)
    (hremoved : ∀ x, a.dict.get k = some (kind.put x) → P a (.removed k ifErased))
    (hundated : P a (.undated k)) : Changes w P (eraseValue w kind ifErased ifAbsent k) a := by
  refine .step run_find ?_
  cases hget : a.dict.get k with
  | none =>
    refine .bind (Q := fun _ b => a.Path w P b) ?_ fun _ _ h => .pure h
    refine .ite (fun _ => ?_) (fun _ => .pure .refl)
    intro _ b hrun
    cases run_expErase.symm.trans hrun
    exact .step .refl hundated ⟨trivial, rfl, AbsDict.get_erase _ _, rfl⟩
  | some data =>
    simp only [map_some]
    split
    · exact .pure .refl
    · next x hkind =>
        obtain rfl := kind.get_eq_some.1 hkind
        refine .step run_cacheRemove ?_
        refine .step run_removeKeyFromShard ?_
        refine .step run_eraseNode ?_
        rw [← Side.uncache_unfile]
        have hstored : (a.dict.get k).isSome := by simp [hget]
        cases ifErased with
        | true =>
          refine .step run_expErase (.pure ?_)
          exact .step .refl (hremoved x hget) ⟨hstored, rfl, AbsDict.get_erase _ _, rfl⟩
        | false => exact .pure (.step .refl (hremoved x hget) ⟨hstored, rfl, rfl, rfl⟩)

theorem run_delete_stored (hget : a.dict.get k = some data) : (delete w k).run handler a =
      some (.ok .none, ⟨a.dict.extract k, a.expDict.erase k,
        Change.side w (.removed k true : Change hash) a.side⟩) := by
  unfold delete
  rw [run_bind_of_some (run_extract_some hget)]
  rw [run_bind_of_some run_removeKeyFromShard, run_bind_of_some run_cacheRemove,
    run_bind_of_some run_dropNode, run_bind_of_some run_expErase]
  rfl

theorem run_delete_absent (hget : a.dict.get k = none) :
    (delete w k).run handler a = some (.fail .nonexists, a) := by
  unfold delete
  rw [run_bind_of_some (run_extract_none hget)]
  rfl

theorem changes_delete (hremoved : P a (.removed k true)) : Changes w P (delete w k) a := by
  cases hget : a.dict.get k with
  | none => exact .step (run_extract_none hget) (.pure .refl)
  | some data =>
    intro _ b hrun
    cases (run_delete_stored hget).symm.trans hrun
    exact .step .refl hremoved ⟨by simp [Change.Allowed, hget], rfl, AbsDict.get_erase _ _, rfl⟩

/-! ## Set operations -/

variable {k1 k2 : Str}

theorem operands_sets {s1 s2 : StrSet hash} (h1 : a.dict.get k1 = some (.set s1))
    (h2 : a.dict.get k2 = some (.set s2)) (hk : k = k1 ∨ k = k2) :
    a.dict.get k = some (.set ((operands k1 k2 s1 s2).sets k)) := by
  by_cases hk2 : k = k2
  · subst hk2
    simpa [operands] using h2
  · obtain rfl := hk.resolve_right hk2
    simpa [operands, hk2] using h1

theorem changes_setOpRoutine {p : Str → Str → SetHeap hash → Db hash C Reply}
    (hexpired : ∀ k ∈ [k1, k2], P a (.expired k))
    (hp : ∀ s1 s2, a.dict.get k1 = some (.set s1) → a.dict.get k2 = some (.set s2) →
      Changes w P (p k1 k2 (operands k1 k2 s1 s2)) a) : Changes w P (setOpRoutine w k1 k2 p) a := by
  apply changes_checkExpireRoutine fun _ => hexpired k1 (by simp)
  intro _
  apply changes_checkExpireRoutine fun _ => hexpired k2 (by simp)
  intro _
  apply changes_findTyped .set
  intro s1 hget1
  apply changes_findTyped .set
  exact fun s2 hget2 => hp s1 s2 hget1 hget2

section Operands

variable {k1 k2 dest : Str} (op : SetOp) {s1 s2 : StrSet hash}

theorem changes_collect (out : List Str → Output) (hget1 : a.dict.get k1 = some (.set s1))
    (hget2 : a.dict.get k2 = some (.set s2))
    (hwritten : ∀ b k (old data : MmkvData hash), old.Same data → P b (.written k old data)) :
    Changes w P (do
      let heap ← Program.ofOption (op.eval SetHeap.collect k1 k2 w.fuel (operands k1 k2 s1 s2))
      dict (.write k1 (.set (heap.sets k1)))
      dict (.write k2 (.set (heap.sets k2)))
      return .ok (out heap.members) : Db hash C Reply) a := by
  cases heval : op.eval SetHeap.collect k1 k2 w.fuel (operands k1 k2 s1 s2) with
  | none => exact .abort
  | some heap =>
    have hsame := SetOp.eval_sameSets op heval
    refine .step (run_ofOption (some heap)) ?_
    refine .step (run_write hget1 _) ?_
    have hstored : ((a.put k1 (.set (heap.sets k1))).dict.get k2).isSome :=
      isSome_update_some (by simp [hget2])
    obtain ⟨data, hget⟩ := isSome_iff_exists.mp hstored
    refine .step (run_write hget _) (.pure ?_)
    refine AbsDb.Path.storeSets [k1, k2] .refl (fun b k _ => hwritten b k _ _ (.refl _)) ?_
    intro k hk
    exact ⟨_, operands_sets hget1 hget2 (by simpa using hk),
      fun b => hwritten b k _ _ (.set (hsame k))⟩

variable (hwritten : ∀ b k (old data : MmkvData hash), k = dest ∨ old.Same data →
  P b (.written k old data))

include hwritten

theorem changes_storeSets {b : AbsDb hash C} (hpath : a.Path w P b)
    (hsets : ∀ k, k = k1 ∨ k = k2 → k ≠ dest → b.dict.get k = some (.set (heap.sets k)))
    (h1 : (b.dict.get k1).isSome) (h2 : (b.dict.get k2).isSome)
    (hdest : (b.dict.get dest).isSome) :
    Ensures handler (do
      let heap ← Program.ofOption (op.eval (SetHeap.store dest) k1 k2 w.fuel heap)
      dict (.write k1 (.set (heap.sets k1)))
      dict (.write k2 (.set (heap.sets k2)))
      dict (.write dest (.set (heap.sets dest)))
      return .ok .none : Db hash C Reply) b fun _ c => a.Path w P c := by
  intro reply c hrun
  rw [run_storeSets _ h1 h2 hdest] at hrun
  obtain ⟨heap', heval, hc⟩ := map_eq_some_iff.mp hrun
  cases hc
  have hsame := SetOp.eval_sameSetsOff op heval
  refine hpath.storeSets _ (fun b k _ => hwritten b k _ _ (.inr (.refl _))) fun k hk => ?_
  by_cases hne : k = dest
  · obtain ⟨old, hget⟩ := isSome_iff_exists.mp hdest
    grind
  · have hk' : k = k1 ∨ k = k2 := by simpa [hne] using hk
    exact ⟨_, hsets k hk' hne, fun b => hwritten b k _ _ (.inr (.set (hsame k hne)))⟩

theorem changes_store (hget1 : a.dict.get k1 = some (.set s1))
    (hget2 : a.dict.get k2 = some (.set s2))
    (hinserted : P a (.inserted dest (.set HashDict.new))) :
    Changes w P (do
      let (success, kv) ← insertKvWithDuplicate w dest (.set HashDict.new)
      onlyIf success (registerKey w kv.key)
      match DataKind.set.get kv.value with
      | none => return .fail .destExists
      | some s =>
        let heap := { operands k1 k2 s1 s2 with
          sets := update (operands k1 k2 s1 s2).sets kv.key s }
        let heap ← Program.ofOption (op.eval (SetHeap.store kv.key) k1 k2 w.fuel heap)
        dict (.write k1 (.set (heap.sets k1)))
        dict (.write k2 (.set (heap.sets k2)))
        dict (.write kv.key (.set (heap.sets kv.key)))
        return .ok .none : Db hash C Reply) a := by
  have hstored1 : (a.dict.get k1).isSome := by simp [hget1]
  have hstored2 : (a.dict.get k2).isSome := by simp [hget2]
  cases hget : a.dict.get dest with
  | none =>
    refine .step (run_insert_fresh hget _) ?_
    refine .step run_registerKey ?_
    refine changes_storeSets op hwritten (.step .refl hinserted ⟨hget, rfl, rfl, rfl⟩) ?_
      (isSome_update_some hstored1) (isSome_update_some hstored2)
      (by simp [add, AbsDict.insert, AbsDict.set])
    intro k hk hne
    dsimp only at hne ⊢
    rw [update_of_ne hne, ← operands_sets hget1 hget2 hk]
    simp [add, AbsDict.insert, AbsDict.set, hne]
  | some old =>
    refine .step (run_insert_duplicate hget _) ?_
    refine .step (rfl : (onlyIf false _ : Db hash C Unit).run _ a = some ((), a)) ?_
    split
    · exact .pure .refl
    · refine changes_storeSets op hwritten .refl ?_ hstored1 hstored2 (by simp [hget])
      intro k hk hne
      dsimp only
      rw [update_of_ne hne]
      exact operands_sets hget1 hget2 hk

omit hwritten in
theorem changes_setOp (out : List Str → Output) (hexpired : ∀ k ∈ [k1, k2], P a (.expired k))
    (hsame : ∀ b k (old data : MmkvData hash), old.Same data → P b (.written k old data)) :
    Changes w P (setOp w op k1 k2 out) a := by
  apply changes_setOpRoutine hexpired
  exact fun s1 s2 hget1 hget2 => changes_collect op out hget1 hget2 hsame

theorem changes_setOpTo (hexpired : ∀ k ∈ [k1, k2], P a (.expired k))
    (hinserted : P a (.inserted dest (.set HashDict.new))) :
    Changes w P (setOpTo w op k1 k2 dest) a := by
  apply changes_setOpRoutine hexpired
  exact fun s1 s2 hget1 hget2 => changes_store op hwritten hget1 hget2 hinserted

end Operands

/-! ## Everything, renaming and deadlines -/

theorem changes_deleteAll (hcleared : P a .cleared) : Changes w P (deleteAll w) a := by
  refine .step (run_dict .size) ?_
  refine .step (run_dict .clear) ?_
  refine .step (run_expDict .clear) ?_
  exact .step (run_change _) (.pure (.step .refl hcleared ⟨trivial, rfl, rfl, rfl⟩))

section Rename

variable {oldName newName : Str} {data : MmkvData hash}

section

variable (hcurrent : a.lapsed w oldName = false)

include hcurrent

theorem run_rename_current
    (hnew : a.dict.get newName = none) (hget : a.dict.get oldName = some data) :
    (rename w oldName newName).run handler a =
      ((tryReplacekey w (some oldName)).run handler
        { a with dict := a.dict.extract oldName }).map fun r =>
          (.ok .none, ⟨r.2.dict.insert newName data, r.2.expDict,
            (r.2.side.renameKey oldName newName).touch w newName⟩) := by
  unfold rename
  rw [run_checkExpireRoutine_current hcurrent, run_bind_of_some run_find, hnew]
  simp only [map_none]
  rw [run_bind_of_some (run_extract_some hget)]
  have hgone : (a.dict.extract oldName).get newName = none := by
    simp [AbsDict.extract, AbsDict.remove, update_apply, hnew]
  have hkept := ensures_tryReplacekey (w := w)
    (a := { a with dict := a.dict.extract oldName }) oldName
  cases hreplace : (tryReplacekey w (some oldName)).run handler
      { a with dict := a.dict.extract oldName } with
  | none => rw [run_bind_of_none hreplace]; rfl
  | some r =>
    have hfree : r.2.dict.get newName = none := by
      obtain ⟨hb, -⟩ | ⟨v, -, -, hb⟩ := hkept r.1 r.2 hreplace
      · rw [hb]
        exact hgone
      · rw [hb]
        simp [AbsDict.extract, AbsDict.remove, update_apply, hnew]
    rw [run_bind_of_some hreplace, run_bind_of_some (run_change _), run_bind_of_some (run_push_fresh
        (a := ⟨r.2.dict, r.2.expDict, r.2.side.renameKey oldName newName⟩) hfree data),
      run_bind_of_some run_cacheUpdate]
    rfl

/-- `Rename` extracts the node before it evicts a key.  That is one with the other order. -/
theorem ensures_rename (hnew : a.dict.get newName = none) (hget : a.dict.get oldName = some data) :
    Ensures handler (rename w oldName newName) a fun reply c =>
      reply = .ok .none ∧ ∃ b, ((b = a ∧ w.SkipsReplacement a.side oldName) ∨
        ∃ v, w.Evicts a.side oldName v ∧ (Change.evicted v).Leads w a b) ∧
          b.expDict = a.expDict ∧ (Change.renamed oldName newName data).Leads w b c := by
  intro reply c hrun
  rw [run_rename_current hcurrent hnew hget] at hrun
  obtain ⟨⟨u, b⟩, hreplace, hc⟩ := map_eq_some_iff.mp hrun
  cases hc
  refine ⟨rfl, ?_⟩
  obtain ⟨rfl, hskips⟩ | ⟨v, hv, hstored, rfl⟩ := ensures_tryReplacekey oldName _ _ hreplace
  · exact ⟨a, .inl ⟨rfl, hskips⟩, rfl, ⟨hget, hnew⟩, rfl, rfl, rfl⟩
  · have hne : v ≠ oldName := by
      rintro rfl
      simp [AbsDict.extract, AbsDict.remove] at hstored
    have hv' : (a.dict.get v).isSome := by
      simpa [AbsDict.extract, AbsDict.remove, hne] using hstored
    have hfree : v ≠ newName := by
      rintro rfl
      simp [hnew] at hv'
    refine ⟨⟨a.dict.extract v, a.expDict, Change.side w (.evicted v : Change hash) a.side⟩,
      .inr ⟨v, hv, ⟨hv', hv.1⟩, rfl, rfl, rfl⟩, rfl, ⟨?_, ?_⟩, ?_, rfl, rfl⟩
    · simpa [AbsDict.extract, AbsDict.remove, hne.symm] using hget
    · simpa [AbsDict.extract, AbsDict.remove, hfree.symm] using hnew
    · simp only [AbsDict.insert, AbsDict.set, AbsDict.extract, AbsDict.remove, Change.values]
      rw [update_comm hne.symm]

theorem run_rename_refused (h : (a.dict.get newName).isSome ∨ a.dict.get oldName = none) :
    ∃ reply, (rename w oldName newName).run handler a = some (reply, a) := by
  unfold rename
  rw [run_checkExpireRoutine_current hcurrent, run_bind_of_some run_find]
  cases hnew : a.dict.get newName with
  | some data => exact ⟨_, rfl⟩
  | none =>
    have hold : a.dict.get oldName = none := by simpa [hnew] using h
    simp only [map_none]
    rw [run_bind_of_some (run_extract_none hold)]
    exact ⟨_, rfl⟩

end

theorem changes_rename (hexpired : a.lapsed w oldName = true → P a (.expired oldName))
    (hrenamed : a.lapsed w oldName = false → a.dict.get newName = none →
      ∀ data, a.dict.get oldName = some data → (∀ v, P a (.evicted v)) ∧
        ∀ b, b.expDict = a.expDict → P b (.renamed oldName newName data)) :
    Changes w P (rename w oldName newName) a := by
  cases hlapsed : a.lapsed w oldName with
  | true =>
    apply changes_checkExpireRoutine hexpired
    exact fun hcurrent => absurd hlapsed (by simp [hcurrent])
  | false =>
    by_cases hrefused : (a.dict.get newName).isSome ∨ a.dict.get oldName = none
    · obtain ⟨reply, hrun⟩ := run_rename_refused hlapsed hrefused
      intro _ b hrun'
      cases hrun.symm.trans hrun'
      exact .refl
    · simp only [not_or, not_isSome_iff_eq_none] at hrefused
      obtain ⟨data, hget⟩ := ne_none_iff_exists'.mp hrefused.2
      obtain ⟨hevicted, hrenamed⟩ := hrenamed hlapsed hrefused.1 data hget
      refine (ensures_rename hlapsed hrefused.1 hget).mono ?_
      rintro _ c ⟨-, b, hb, hexp, hleads⟩
      refine .step ?_ (hrenamed b hexp) hleads
      obtain ⟨rfl, -⟩ | ⟨v, -, hevict⟩ := hb
      · exact .refl
      · exact .step .refl (hevicted v) hevict

end Rename

/-- A deadline that has passed is not set. -/
theorem ensures_expireAtMs (expire : UInt64) :
    Ensures handler (expireAtMs w k expire) a fun reply b =>
      b = a ∧ (w.now < expire → reply ≠ .ok .none) ∨
        w.now < expire ∧ (Change.dated k expire).Leads w a b := by
  refine .ite (fun _ => .pure (.inl ⟨rfl, fun _ => by simp [Reply.ok, Reply.fail]⟩))
    fun _ => ?_
  refine .step run_find ?_
  cases hget : a.dict.get k with
  | none => exact .pure (.inl ⟨rfl, fun _ => by simp [Reply.ok, Reply.fail]⟩)
  | some data =>
    have hstored : (a.dict.get k).isSome := by simp [hget]
    refine .bind (Q := fun _ b => b = a ∧ ¬w.now < expire ∨
      w.now < expire ∧ (Change.dated k expire).Leads w a b) ?_ fun _ _ h => .pure ?_
    · refine .ite (fun hlate => ?_) fun hpassed => .pure (.inl ⟨rfl, by simpa using hpassed⟩)
      have hlate : w.now < expire := by simpa using hlate
      cases hexp : a.expDict.get k with
      | none =>
        refine .step (run_expInsert_fresh hexp expire) (.pure ?_)
        exact .inr ⟨hlate, hstored, rfl, rfl, rfl⟩
      | some e =>
        refine .step (run_expInsert_duplicate hexp expire) ?_
        intro _ b hrun
        cases (run_expWrite hexp expire).symm.trans hrun
        exact .inr ⟨hlate, hstored, rfl, rfl, rfl⟩
    · grind

theorem changes_expireAtMs {expire : UInt64} (hdated : P a (.dated k expire)) :
    Changes w P (expireAtMs w k expire) a := by
  refine (ensures_expireAtMs expire).mono ?_
  rintro _ b (⟨rfl, -⟩ | ⟨-, hleads⟩)
  · exact .refl
  · exact .step .refl hdated hleads

theorem changes_persist (hundated : P a (.undated k)) : Changes w P (persist k) a := by
  refine .step run_find ?_
  cases a.dict.get k with
  | none => exact .pure .refl
  | some data =>
    refine .step run_expErase (.pure ?_)
    exact .step .refl hundated ⟨trivial, rfl, AbsDict.get_erase _ _, rfl⟩

theorem changes_getExpiration (out : UInt64 → Output) : Changes w P (getExpiration k out) a := by
  refine .step run_expFind ?_
  cases a.expDict.get k with
  | none => exact .pure .refl
  | some e => exact .pure .refl

end Db

/-! ## All commands -/

/-- `Rename` goes on to give the key its new name. -/
def Action.Renames (w : World C) (a : AbsDb hash C) (oldName newName : Str) :
    Action hash → Prop
  | .rename k k' => k = oldName ∧ k' = newName ∧ a.lapsed w k = false ∧
      a.dict.get k' = none ∧ (a.dict.get k).isSome
  | _ => False

theorem Action.Renames.eq_rename {oldName newName : Str}
    (h : x.Renames w a oldName newName) : x = .rename oldName newName := by
  cases x with
  | rename k k' =>
    obtain ⟨rfl, rfl, -⟩ := h
    rfl
  | _ => exact h.elim

def Action.Removes (a : AbsDb hash C) (k : Str) (deadline : Bool) : Action hash → Prop
  | .eraseValue kind ifErased _ k' =>
    k' = k ∧ ifErased = deadline ∧ ∃ x, a.dict.get k = some (kind.put x)
  | .delete k' => k' = k ∧ deadline = true
  | _ => False

def Action.Writes (k : Str) (old data : MmkvData hash) : Action hash → Prop
  | .onValue _ kind k' body =>
    k' = k ∧ ∃ x reply x', body x = some (reply, x') ∧ old = kind.put x ∧ data = kind.put x'
  | .setOp .. => old.Same data
  | .setOpTo _ _ _ dest => k = dest ∨ old.Same data
  | .addTo .. | .setStr .. => True
  | _ => False

/-- The changes of the command that starts in `a`, in the state `b`. -/
def Action.Does (w : World C) (a : AbsDb hash C) (x : Action hash) (b : AbsDb hash C) :
    Change hash → Prop
  | .touched _ => True
  | .written k old data => x.Writes k old data
  | .inserted k _ | .undated k => k ∈ x.keys w
  | .removed k deadline => b = a ∧ x.Removes a k deadline
  | .expired k => b = a ∧ k ∈ x.keys w
  | .evicted _ => b = a ∧ ∃ oldName newName, x.Renames w a oldName newName
  | .renamed oldName newName _ => b.expDict = a.expDict ∧ x.Renames w a oldName newName
  | .cleared => x = .deleteAll
  | .dated k expire => x = .expireAtMs k expire

theorem Action.changes_run {P : AbsDb hash C → Change hash → Prop}
    (h : Db.Changes w P (x.unguarded w) a) : Db.Changes w P (x.run w) a :=
  run_of_unguarded (motive := fun p => Db.Changes w P p a)
    (fun _ _ hp => changes_checkShardIsLockedKey hp)
    (fun _ hp => changes_checkHasShardLockedKey hp) h

theorem Action.changes (w : World C) (a : AbsDb hash C) (x : Action hash) :
    Db.Changes w (x.Does w a) (x.run w) a := by
  apply changes_run
  cases x with
  | onValue access kind k body =>
    apply changes_checkExpireRoutine fun _ => ⟨rfl, mem_singleton_self k⟩
    intro _
    apply changes_onFound access kind trivial
    exact fun _ x reply x' hbody => ⟨rfl, x, reply, x', hbody, rfl, rfl⟩
  | insertNew replace k data => exact changes_insertNew replace (mem_singleton_self k)
  | addTo expire kind k init body =>
    refine changes_addTo expire kind init body (fun _ => ⟨rfl, ?_⟩) fun _ _ hk =>
      ⟨hk, fun _ _ => trivial⟩
    simp only [keys]
    split <;> simp
  | setStr k v =>
    have hk : k ∈ keys w (.setStr k v : Action hash) := mem_singleton_self k
    exact changes_setStr v (fun _ => ⟨rfl, hk⟩) hk fun _ => ⟨trivial, fun _ => trivial⟩
  | eraseValue kind ifErased ifAbsent k =>
    exact changes_eraseValue kind ifErased ifAbsent
      (fun x hget => ⟨rfl, rfl, rfl, x, hget⟩) (mem_singleton_self k)
  | setOp op k1 k2 out =>
    exact changes_setOp op out (fun _ hk => ⟨rfl, hk⟩) fun _ _ _ _ hsame => hsame
  | setOpTo op k1 k2 dest =>
    apply changes_setOpTo op fun _ _ _ _ h => h
    · intro k hk
      refine ⟨rfl, ?_⟩
      simp only [mem_cons, not_mem_nil, or_false] at hk
      obtain rfl | rfl := hk <;> simp [keys]
    · simp [Does, keys]
  | delete k => exact changes_delete ⟨rfl, rfl, rfl⟩
  | deleteAll => exact changes_deleteAll rfl
  | rename oldName newName =>
    refine changes_rename (fun _ => ⟨rfl, by simp [keys]⟩) fun hcurrent hnew data hget => ?_
    have hrenames : Renames w a oldName newName (.rename oldName newName : Action hash) :=
      ⟨rfl, rfl, hcurrent, hnew, by simp [hget]⟩
    exact ⟨fun _ => ⟨rfl, _, _, hrenames⟩, fun _ hexp => ⟨hexp, hrenames⟩⟩
  | expireAtMs k expire => exact changes_expireAtMs rfl
  | persist k => exact changes_persist (mem_singleton_self k)
  | getExpiration k out => exact changes_getExpiration out

end Mmkv
