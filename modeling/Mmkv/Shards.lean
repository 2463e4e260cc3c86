import Mmkv.KeyEvents

/-!
# The shards of a database

`sdict_` holds, for each shard, the addresses of its keys.  A key is checked under
`MakeShardId(key) % shard_num` and filed under `MakeShardId(key)`, a renamed key stays
where it was filed, and expired and evicted keys are not taken out.
-/

namespace Mmkv

open EffectPrograms List Db

variable {hash : Str → Nat} {C : Type} {a : Addr}

inductive ShardCode where
  | ok
  | noShard
  | notShardServer
  deriving Repr, DecidableEq

namespace Side

def findShard (σ : Side C) (id : Nat) : Option (List Addr) :=
  (σ.shards.find? fun shard => decide (shard.1 = id)).map Prod.snd

def shardSet (σ : Side C) (id : Nat) : List Addr :=
  (σ.findShard id).getD []

/-- `sdict_.Erase`. -/
def eraseShard (σ : Side C) (id : Nat) : Side C :=
  { σ with shards := σ.shards.filter fun shard => decide (shard.1 ≠ id) }

end Side

/-! ## Shard management -/

namespace Db

variable (w : World C)

def lockShard (id : Nat) : Db hash C Unit := do
  let locked ← ask fun σ => decide (id ∈ σ.lockedShards)
  if locked then .abort
  else change fun σ => { σ with lockedShards := id :: σ.lockedShards }

def unlockShard (id : Nat) : Db hash C Unit := do
  let locked ← ask fun σ => decide (id ∈ σ.lockedShards)
  if locked then change fun σ => { σ with lockedShards := σ.lockedShards.erase id }
  else .abort

def unlockAllShard : Db hash C Unit :=
  change fun σ => { σ with lockedShards := [] }

def addShard (id : Nat) : Db hash C Unit :=
  if w.config.isSharder then change fun σ => σ.modifyShard id fun set => set
  else return ()

def getShardKeys (id : Nat) : Db hash C (ShardCode × List Addr) :=
  if w.config.isSharder then do
    match ← ask fun σ => σ.findShard id with
    | none => return (.noShard, [])
    | some keys => return (.ok, keys)
  else return (.notShardServer, [])

/-- The loop of `RemoveShard` over the set of the shard.  The iterator does not survive
the removal of the entry it stands on. -/
def deleteShardKeys (id : Nat) : List Addr → Db hash C Unit
  | [] => return ()
  | a :: keys => do
    match ← ask fun σ => σ.keyAt a with
    | none => .abort
    | some k =>
      let _ ← (Command.delete k).run w
      let stays ← ask fun σ => decide (a ∈ σ.shardSet id)
      if stays then deleteShardKeys id keys else .abort

def removeShard (id : Nat) : Db hash C Unit :=
  if w.config.isSharder then do
    match ← ask fun σ => σ.findShard id with
    | none => .abort
    | some keys =>
      deleteShardKeys w id keys
      change fun σ => σ.eraseShard id
  else return ()

/-- `DistributeKeysToShard`, over what the iteration of `dict_` yields. -/
def distributeKeysToShard : List Str → Db hash C Unit
  | [] => if w.config.isSharder then return () else .abort
  | k :: keys => do
    change fun σ => σ.onAddress k fun a => σ.modifyShard (w.makeShardId k) (Side.addAddr a)
    distributeKeysToShard keys

end Db

open Side

/-! ## The index -/

/-- Each key is filed once, under its hash, and nothing else is filed. -/
structure Side.Indexed (makeShardId : Str → Nat) (σ : Side C) : Prop where
  nodup : ∀ id, (σ.shardSet id).Nodup
  mem_iff : ∀ id a, a ∈ σ.shardSet id ↔ ∃ k, (a, k) ∈ σ.keys ∧ makeShardId k = id

namespace Side

variable {σ τ : Side C} {w : World C} {k : Str} {l : List Addr}

theorem shardSet_congr (h : τ.shards = σ.shards) (id : Nat) : τ.shardSet id = σ.shardSet id := by
  rw [shardSet, shardSet, findShard, findShard, h]

theorem hasShard_iff_findShard (σ : Side C) (id : Nat) :
    σ.hasShard id = (σ.findShard id).isSome := by
  simp only [hasShard, findShard, Option.isSome_map]
  rw [Bool.eq_iff_iff]
  simp

theorem findShard_modifyShard (id id' : Nat) (f : List Addr → List Addr) :
    (σ.modifyShard id f).findShard id' =
      if id' = id then some (f (σ.shardSet id)) else σ.findShard id' := by
  unfold modifyShard
  split
  next hshard =>
    have hfst : (fun shard : Nat × List Addr => decide (shard.1 = id')) ∘
        (fun shard => if shard.1 = id then (id, f shard.2) else shard) =
          fun shard => decide (shard.1 = id') := by
      funext shard
      simp only [Function.comp_apply]
      split
      next h => simp [h]
      next => rfl
    simp only [findShard, List.find?_map, hfst]
    split
    next hid =>
      subst hid
      obtain ⟨set, hset⟩ := Option.isSome_iff_exists.1 (hasShard_iff_findShard σ id' ▸ hshard)
      obtain ⟨shard, hfind, rfl⟩ := Option.map_eq_some_iff.1 hset
      have hshard : shard.1 = id' := by simpa using List.find?_some hfind
      simp [shardSet, findShard, hfind, hshard]
    next hid =>
      cases hfind : σ.shards.find? fun shard => decide (shard.1 = id') with
      | none => rfl
      | some shard => grind
  next hshard =>
    rw [hasShard_iff_findShard] at hshard
    have hnone : σ.findShard id = none := by simpa using hshard
    rw [shardSet, hnone]
    by_cases hid : id' = id
    · simp [findShard, hid]
    · have hne : ¬ id = id' := fun h => hid h.symm
      simp [findShard, hid, hne]

theorem shardSet_modifyShard (id id' : Nat) (f : List Addr → List Addr) :
    (σ.modifyShard id f).shardSet id' =
      if id' = id then f (σ.shardSet id) else σ.shardSet id' := by
  rw [shardSet, findShard_modifyShard]
  split <;> rfl

theorem findShard_eraseShard_self (id : Nat) : (σ.eraseShard id).findShard id = none := by
  simp [findShard, eraseShard]

theorem findShard_eraseShard {id id' : Nat} (hid : id' ≠ id) :
    (σ.eraseShard id).findShard id' = σ.findShard id' := by
  simp only [findShard, eraseShard, List.find?_filter]
  grind

theorem mem_addAddr {a b : Addr} : b ∈ addAddr a l ↔ b = a ∨ b ∈ l := by
  unfold addAddr
  grind

theorem nodup_addAddr (a : Addr) (h : l.Nodup) : (addAddr a l).Nodup := by
  unfold addAddr
  grind

theorem shardSet_file (hsharder : w.config.isSharder = true)
    (ha : σ.addressOf k = some a) (id : Nat) :
    (σ.file w k).shardSet id =
      if id = w.makeShardId k then addAddr a (σ.shardSet id) else σ.shardSet id := by
  simp only [file, hsharder, ↓reduceIte, onAddress, ha, Option.elim_some]
  rw [shardSet_modifyShard]
  split
  next hid => rw [hid]
  next => rfl

theorem shardSet_unfile (hsharder : w.config.isSharder = true)
    (ha : σ.addressOf k = some a) (id : Nat) :
    (σ.unfile w k).shardSet id =
      if id = w.makeShardId k then (σ.shardSet id).erase a else σ.shardSet id := by
  simp only [unfile, hsharder, ↓reduceIte, onAddress, ha, Option.elim_some]
  rw [shardSet_modifyShard]
  grind

@[simp] theorem shards_touch (w : World C) (k : Str) (σ : Side C) :
    (σ.touch w k).shards = σ.shards := by
  unfold touch onAddress
  cases w.policy with
  | none => rfl
  | some p => cases σ.addressOf k <;> rfl

@[simp] theorem shards_uncache (w : World C) (k : Str) (σ : Side C) :
    (σ.uncache w k).shards = σ.shards := by
  unfold uncache onAddress
  cases w.policy with
  | none => rfl
  | some p => cases σ.addressOf k <;> rfl

end Side

/-! ## Events and the index -/

/-- The events that keep the index: keys whose hash is the number of a shard, renamed
within their shard, which go by a command only. -/
def KeyEvent.Filed (w : World C) : KeyEvent → Prop
  | .inserted k => w.makeShardId k < w.config.shardNum
  | .renamed oldName newName =>
    w.makeShardId newName = w.makeShardId oldName ∧ w.makeShardId newName < w.config.shardNum
  | .expired _ => False
  | .evicted _ => False
  | _ => True

namespace Side.Indexed

variable {σ τ : Side C} {makeShardId : Str → Nat} {w : World C} {k : Str}

theorem of_eq (h : σ.Indexed makeShardId) (hshards : τ.shards = σ.shards)
    (hkeys : τ.keys = σ.keys) : τ.Indexed makeShardId where
  nodup id := by
    rw [shardSet_congr hshards]
    exact h.nodup id
  mem_iff id a := by
    rw [shardSet_congr hshards, hkeys]
    exact h.mem_iff id a

theorem file (h : σ.Indexed w.makeShardId)
    (hsharder : w.config.isSharder = true)
    (ha : τ.addressOf k = some a) (hshards : τ.shards = σ.shards)
    (hkeys : τ.keys = (a, k) :: σ.keys) : (τ.file w k).Indexed w.makeShardId where
  nodup id := by
    rw [shardSet_file hsharder ha, shardSet_congr hshards]
    split
    · exact nodup_addAddr a (h.nodup id)
    · exact h.nodup id
  mem_iff id b := by
    rw [shardSet_file hsharder ha, shardSet_congr hshards, keys_file, hkeys]
    split
    next hid =>
      rw [mem_addAddr, h.mem_iff]
      grind
    next hid =>
      rw [h.mem_iff]
      grind

theorem unfile (h : σ.Indexed w.makeShardId)
    (hsharder : w.config.isSharder = true) (hσ : σ.Distinct)
    (ha : (a, k) ∈ σ.keys) (hshards : τ.shards = (σ.unfile w k).shards)
    (hkeys : τ.keys = (σ.unlinkKey k).keys) : τ.Indexed w.makeShardId where
  nodup id := by
    rw [shardSet_congr hshards, shardSet_unfile hsharder (hσ.addressOf_iff.2 ha)]
    split
    · exact (h.nodup id).erase a
    · exact h.nodup id
  mem_iff id b := by
    rw [shardSet_congr hshards, shardSet_unfile hsharder (hσ.addressOf_iff.2 ha), hkeys]
    simp only [mem_keys_unlinkKey hσ]
    -- The address and the key determine each other.
    have hiff : ∀ k', (b, k') ∈ σ.keys → (b = a ↔ k' = k) := by
      intro k' hk'
      constructor
      · rintro rfl
        exact Option.some.inj ((hσ.keyAt_iff.2 hk').symm.trans (hσ.keyAt_iff.2 ha))
      · rintro rfl
        exact Option.some.inj ((hσ.addressOf_iff.2 hk').symm.trans (hσ.addressOf_iff.2 ha))
    split
    next hid =>
      rw [(h.nodup id).mem_erase_iff, h.mem_iff]
      grind
    next hid =>
      rw [h.mem_iff]
      grind

theorem renameKey (h : σ.Indexed makeShardId) {oldName newName : Str}
    (hid : makeShardId newName = makeShardId oldName) :
    (σ.renameKey oldName newName).Indexed makeShardId where
  nodup := h.nodup
  mem_iff id a := by
    change a ∈ σ.shardSet id ↔ _
    rw [h.mem_iff]
    simp only [Side.renameKey, mem_map]
    constructor
    · grind
    · grind

theorem of_shardSet_eq (h : σ.Indexed makeShardId)
    (hsets : ∀ id, τ.shardSet id = σ.shardSet id) (hkeys : τ.keys = σ.keys) :
    τ.Indexed makeShardId where
  nodup id := by
    rw [hsets]
    exact h.nodup id
  mem_iff id a := by
    rw [hsets, hkeys]
    exact h.mem_iff id a

end Side.Indexed

structure Side.WellFiled (makeShardId : Str → Nat) (shardNum : Nat) (σ : Side C) : Prop where
  indexed : σ.Indexed makeShardId
  lt : ∀ k ∈ σ.names, makeShardId k < shardNum

namespace KeyEvent

variable {w : World C} {σ : Side C}

theorem apply_wellFiled (hsharder : w.config.isSharder = true) (hw : w.Allocates)
    {e : KeyEvent} (he : e.Filed w) (hallowed : e.Allowed w σ) (hσ : σ.Distinct)
    (h : σ.WellFiled w.makeShardId w.config.shardNum) :
    (e.apply w σ).WellFiled w.makeShardId w.config.shardNum := by
  cases e with
  | touched k =>
    refine ⟨h.indexed.of_eq (shards_touch w k σ) (keys_touch w k σ), ?_⟩
    rw [apply, names_congr (keys_touch w k σ)]
    exact h.lt
  | inserted k =>
    have hkeys : ((σ.linkKey w k).touch w k).keys = (w.allocate σ.addrs, k) :: σ.keys :=
      keys_touch w k _
    have haddr : ((σ.linkKey w k).touch w k).addressOf k = some (w.allocate σ.addrs) := by
      apply ((hσ.linkKey hw hallowed).of_keys_eq (keys_touch w k _)).addressOf_iff.2
      rw [hkeys]
      exact .head _
    refine ⟨h.indexed.file hsharder haddr (shards_touch w k _) hkeys, ?_⟩
    intro k' hk'
    rw [apply, names_congr (keys_file w k _), names_congr (keys_touch w k _)] at hk'
    obtain rfl | hk' := mem_cons.1 hk'
    · exact he
    · exact h.lt k' hk'
  | removed k =>
    obtain ⟨a, hmem, -⟩ := hσ.exists_addressOf hallowed
    have hkeys : (apply w (.removed k) σ).keys = (σ.unlinkKey k).keys := by
      simp [apply, unlinkKey]
    refine ⟨h.indexed.unfile hsharder hσ hmem (shards_uncache w k _) hkeys, ?_⟩
    intro k' hk'
    rw [names_congr hkeys, names_unlinkKey] at hk'
    exact h.lt k' (mem_of_mem_erase hk')
  | expired k => exact he.elim
  | evicted k => exact he.elim
  | renamed oldName newName =>
    have hkeys := keys_touch w newName (σ.renameKey oldName newName)
    refine ⟨(h.indexed.renameKey he.1).of_eq (shards_touch w newName _) hkeys, ?_⟩
    intro k hk
    rw [apply, names_congr hkeys, names_renameKey, mem_map] at hk
    obtain ⟨k', hk', rfl⟩ := hk
    split
    · exact he.2
    · exact h.lt k' hk'
  | cleared =>
    exact ⟨⟨fun _ => nodup_nil, fun id a => by simp [apply, shardSet, findShard]⟩,
      fun k hk => by simp [apply, names] at hk⟩

end KeyEvent

/-! ## Runs -/

inductive ShardEvent where
  | db (e : Event)
  | addShard (id : Nat)
  | removeShard (id : Nat)
  | distributeKeysToShard
  | lockShard (id : Nat)
  | unlockShard (id : Nat)
  deriving Repr, DecidableEq

namespace DbState

def manage (w : World C) : ShardEvent → DbState hash C → Option (DbState hash C)
  | .db e, s => s.perform w e
  | .addShard id, s => ((addShard w id).run handler s).map Prod.snd
  | .removeShard id, s => ((removeShard w id).run handler s).map Prod.snd
  | .distributeKeysToShard, s =>
    ((distributeKeysToShard w (s.dict.entries.map KeyValue.key)).run handler s).map Prod.snd
  | .lockShard id, s => ((lockShard id).run handler s).map Prod.snd
  | .unlockShard id, s => ((unlockShard id).run handler s).map Prod.snd

/-- The steps that keep the index: no key goes by expiration or eviction, keys are renamed
within their shard, and only empty shards are removed. -/
def ShardEvent.KeepsIndex (U : Set Str) (w : World C) (s : DbState hash C) :
    ShardEvent → Prop
  | .db (.command c) =>
    (∀ k ∈ c.keys w, k ∈ U ∧ s.abs.lapsed w k = false) ∧ w.victim s.side = none ∧
      ∀ oldName newName, c = .rename oldName newName →
        w.makeShardId newName = w.makeShardId oldName
  | .db .checkExpireCycle => ∀ kv ∈ s.expDict.entries, ¬ kv.value ≤ w.now
  | .removeShard id => s.side.shardSet id = []
  | _ => True

/-- The runs in which the steps all keep the index.  The numbers of shards do not
change. -/
inductive IndexReached (U : Set Str) (makeShardId : Str → Nat) (shardNum : Nat) (cache : C) :
    DbState hash C → Prop where
  | start : IndexReached U makeShardId shardNum cache (new cache)
  | step {w : World C} {e : ShardEvent} {s s' : DbState hash C}
      (hs : IndexReached U makeShardId shardNum cache s)
      (hsharder : w.config.isSharder = true) (hid : w.makeShardId = makeShardId)
      (hnum : w.config.shardNum = shardNum) (hw : w.Allocates)
      (he : ShardEvent.KeepsIndex U w s e) (hstep : s.manage w e = some s') :
      IndexReached U makeShardId shardNum cache s'

structure SameIndex (s s' : DbState hash C) : Prop where
  dict : s'.dict = s.dict
  expDict : s'.expDict = s.expDict
  keys : s'.side.keys = s.side.keys
  sets : ∀ id, s'.side.shardSet id = s.side.shardSet id

variable {w : World C} {s s' : DbState hash C} {U : Set Str} {id : Nat} {makeShardId : Str → Nat}
  {shardNum : Nat}

structure IndexInvariant (U : Set Str) (makeShardId : Str → Nat) (shardNum : Nat)
    (s : DbState hash C) : Prop where
  keysIn : s.KeysIn U
  linked : s.abs.Linked
  wellFiled : s.side.WellFiled makeShardId shardNum

theorem SameIndex.invariant (h : SameIndex s s')
    (hs : s.IndexInvariant U makeShardId shardNum) :
    s'.IndexInvariant U makeShardId shardNum where
  keysIn :=
    { dict := by
        rw [h.dict]
        exact hs.keysIn.dict
      expDict := by
        rw [h.expDict]
        exact hs.keysIn.expDict
      side := by
        rw [Side.KeysIn, h.keys]
        exact hs.keysIn.side }
  linked := hs.linked.of_eq h.keys fun k => by rw [abs, abs, h.dict]
  wellFiled :=
    { indexed := hs.wellFiled.indexed.of_shardSet_eq h.sets h.keys
      lt := by
        rw [names_congr h.keys]
        exact hs.wellFiled.lt }

theorem ensures_change {f : Side C → Side C} (hkeys : (f s.side).keys = s.side.keys)
    (hsets : ∀ id, (f s.side).shardSet id = s.side.shardSet id) :
    Ensures handler (change f : Db hash C Unit) s fun _ s' => SameIndex s s' := by
  intro _ s' hrun
  cases hrun
  exact ⟨rfl, rfl, hkeys, hsets⟩

theorem ensures_query {α β : Type} {f : Side C → α} {p : α → Db hash C β}
    {Q : β → DbState hash C → Prop} (h : Ensures handler (p (f s.side)) s Q) :
    Ensures handler (ask f >>= p) s Q :=
  .step (rfl : (ask f).run handler s = some (f s.side, s)) h

theorem ensures_lockShard : Ensures handler (lockShard id) s fun _ s' => SameIndex s s' := by
  apply ensures_query
  exact .ite (fun _ => .abort) fun _ => ensures_change rfl fun _ => rfl

theorem ensures_unlockShard : Ensures handler (unlockShard id) s fun _ s' => SameIndex s s' := by
  apply ensures_query
  exact .ite (fun _ => ensures_change rfl fun _ => rfl) fun _ => .abort

theorem ensures_addShard : Ensures handler (addShard w id) s fun _ s' => SameIndex s s' := by
  refine .ite (fun _ => ?_) fun _ => .pure ⟨rfl, rfl, rfl, fun _ => rfl⟩
  refine ensures_change (modifyShard_keys id _) fun id' => ?_
  rw [shardSet_modifyShard]
  grind

theorem shardSet_eraseShard (σ : Side C) (hempty : σ.shardSet id = []) (id' : Nat) :
    (σ.eraseShard id).shardSet id' = σ.shardSet id' := by
  by_cases hid : id' = id
  · rw [hid, hempty, shardSet, findShard_eraseShard_self]
    rfl
  · rw [shardSet, shardSet, findShard_eraseShard hid]

theorem ensures_removeShard (hempty : s.side.shardSet id = []) :
    Ensures handler (removeShard w id) s fun _ s' => SameIndex s s' := by
  refine .ite (fun _ => ?_) fun _ => .pure ⟨rfl, rfl, rfl, fun _ => rfl⟩
  apply ensures_query
  split
  next => exact .abort
  next keys hkeys =>
    have hnil : keys = [] := by
      rw [shardSet, hkeys] at hempty
      exact hempty
    subst hnil
    exact .step rfl (ensures_change rfl (shardSet_eraseShard _ hempty))

theorem ensures_distributeKeysToShard (hindexed : s.side.Indexed w.makeShardId)
    (hdistinct : s.side.Distinct) (keys : List Str) :
    Ensures handler (distributeKeysToShard w keys) s fun _ s' => SameIndex s s' := by
  induction keys generalizing s with
  | nil =>
    exact .ite (fun _ => .pure ⟨rfl, rfl, rfl, fun _ => rfl⟩) fun _ => .abort
  | cons k keys ih =>
    refine .bind (Q := fun _ t => SameIndex s t) ?_ ?_
    · apply ensures_change
      · exact onAddress_keys (fun _ => modifyShard_keys _ _) k
      · intro id
        unfold onAddress
        cases haddr : s.side.addressOf k with
        | none => rfl
        | some a =>
          have hmem : a ∈ s.side.shardSet (w.makeShardId k) :=
            (hindexed.mem_iff _ a).2 ⟨k, hdistinct.addressOf_iff.1 haddr, rfl⟩
          rw [Option.elim_some, shardSet_modifyShard]
          grind [addAddr]
    · intro _ t hst
      refine (ih (hindexed.of_shardSet_eq hst.sets hst.keys)
        (hdistinct.of_keys_eq hst.keys)).mono ?_
      intro _ u htu
      exact ⟨htu.dict.trans hst.dict, htu.expDict.trans hst.expDict, htu.keys.trans hst.keys,
        fun id => (htu.sets id).trans (hst.sets id)⟩

theorem IndexInvariant.manage (hU : Separated U)
    (hlt : ∀ k ∈ U, makeShardId k < shardNum) (hsharder : w.config.isSharder = true)
    (hid : w.makeShardId = makeShardId) (hnum : w.config.shardNum = shardNum)
    (hw : w.Allocates) (hs : s.IndexInvariant U makeShardId shardNum) {e : ShardEvent}
    (he : ShardEvent.KeepsIndex U w s e) (hstep : s.manage w e = some s') :
    s'.IndexInvariant U makeShardId shardNum := by
  subst hid hnum
  -- The steps of shard management leave keys and sets alone.
  have hsame {p : Db hash C Unit} (hp : Ensures handler p s fun _ t => SameIndex s t)
      (hrun : (p.run handler s).map Prod.snd = some s') :
      s'.IndexInvariant U w.makeShardId w.config.shardNum := by
    obtain ⟨⟨_, t⟩, hp', rfl⟩ := Option.map_eq_some_iff.1 hrun
    exact (hp _ _ hp').invariant hs
  cases e with
  | db e =>
    have hadmits : e.Admits (KeyEvent.Filed w) w s := by
      cases e with
      | command c =>
        obtain ⟨hkeys, hvictim, hrename⟩ := he
        refine ⟨?_, ?_⟩
        · exact {
            touched := fun _ => trivial
            inserted := fun k hk => hlt k (hkeys k hk).1
            removed := fun _ => trivial
            expired := fun k hk hlapsed => by simp [(hkeys k hk).2] at hlapsed
            evicted := fun k hk => by
              have hk : w.victim s.side = some k := hk
              grind
            cleared := trivial }
        · rintro oldName newName rfl
          refine ⟨hrename oldName newName rfl, hlt newName (hkeys newName ?_).1⟩
          exact .tail _ (.head _)
      | checkExpireCycle => exact fun kv hkv hpassed => he kv hkv hpassed
    have hkeys : ∀ c, e = .command c → ∀ k ∈ c.keys w, k ∈ U := by
      rintro c rfl k hk
      exact (he.1 k hk).1
    obtain ⟨hin, hlinked, hpath⟩ := perform_follows hU hw hs.keysIn hs.linked hkeys hadmits hstep
    refine ⟨hin, hlinked, ?_⟩
    exact (hpath.keeps (I := Side.WellFiled w.makeShardId w.config.shardNum) hw
      (fun e σ hfiled hallowed hσ hI =>
        KeyEvent.apply_wellFiled hsharder hw hfiled hallowed hσ hI)
      (fun σ log hI => ⟨hI.indexed.of_eq rfl rfl, hI.lt⟩) hs.linked.distinct hs.wellFiled).2
  | addShard id => exact hsame ensures_addShard hstep
  | removeShard id => exact hsame (ensures_removeShard he) hstep
  | distributeKeysToShard =>
    exact hsame (ensures_distributeKeysToShard hs.wellFiled.indexed hs.linked.distinct _) hstep
  | lockShard id => exact hsame ensures_lockShard hstep
  | unlockShard id => exact hsame ensures_unlockShard hstep

variable {makeShardId : Str → Nat} {shardNum : Nat} {addrs : List Addr} {cache : C}

theorem IndexReached.invariant (hU : Separated U) (hlt : ∀ k ∈ U, makeShardId k < shardNum)
    (hs : IndexReached U makeShardId shardNum cache s) :
    s.IndexInvariant U makeShardId shardNum := by
  induction hs with
  | start =>
    refine ⟨keysIn_new U cache, linked_new cache, ⟨fun _ => nodup_nil, ?_⟩, ?_⟩
    · intro id a
      simp [new, shardSet, findShard]
    · intro k hk
      simp [new, names] at hk
  | step _ hsharder hid hnum hw he hstep ih =>
    exact ih.manage hU hlt hsharder hid hnum hw he hstep

def ListsShard (makeShardId : Str → Nat) (shardNum : Nat) (s : DbState hash C) (id : Nat)
    (addrs : List Addr) : Prop :=
  ∃ keys : List Str, addrs.map s.side.keyAt = keys.map some ∧ keys.Nodup ∧
    ∀ k, k ∈ keys ↔ k ∈ s.dict.entries.map KeyValue.key ∧ makeShardId k % shardNum = id

theorem IndexInvariant.listsShard (hs : s.IndexInvariant U makeShardId shardNum)
    (hfind : s.side.findShard id = some addrs) :
    s.ListsShard makeShardId shardNum id addrs := by
  have hset : s.side.shardSet id = addrs := by rw [shardSet, hfind, Option.getD_some]
  have hdistinct : s.side.Distinct := hs.linked.distinct
  have hmem : ∀ a k, a ∈ addrs ∧ s.side.keyAt a = some k ↔
      (a, k) ∈ s.side.keys ∧ makeShardId k = id := by
    intro a k
    rw [← hset, hs.wellFiled.indexed.mem_iff, hdistinct.keyAt_iff]
    constructor
    · rintro ⟨⟨k', hk', hid⟩, hk⟩
      have hkk : k' = k :=
        Option.some.inj ((hdistinct.keyAt_iff.2 hk').symm.trans (hdistinct.keyAt_iff.2 hk))
      exact ⟨hk, hkk ▸ hid⟩
    · grind
  refine ⟨addrs.filterMap s.side.keyAt, ?_, ?_, ?_⟩
  · rw [map_filterMap_some_eq_filter_map_isSome, filter_eq_self.2]
    intro o ho
    obtain ⟨a, ha, rfl⟩ := mem_map.1 ho
    obtain ⟨k, hk, -⟩ := (hs.wellFiled.indexed.mem_iff id a).1 (hset ▸ ha)
    rw [hdistinct.keyAt_iff.2 hk]
    rfl
  · refine List.Nodup.filterMap ?_ (hset ▸ hs.wellFiled.indexed.nodup id)
    intro a a' k hk hk'
    have haddr := hdistinct.addressOf_iff.2 (hdistinct.keyAt_iff.1 hk)
    have haddr' := hdistinct.addressOf_iff.2 (hdistinct.keyAt_iff.1 hk')
    exact Option.some.inj (haddr.symm.trans haddr')
  · intro k
    have hnames : k ∈ s.side.names ↔ k ∈ s.dict.entries.map KeyValue.key := by
      rw [← s.dict.isSome_abs_iff]
      exact (hs.linked.mem_names k).trans (or_iff_left not_mem_nil)
    rw [mem_filterMap]
    constructor
    · rintro ⟨a, ha, hk⟩
      obtain ⟨hmem', hid⟩ := (hmem a k).1 ⟨ha, hk⟩
      have hk : k ∈ s.side.names := mem_map_of_mem hmem'
      refine ⟨hnames.1 hk, ?_⟩
      rw [Nat.mod_eq_of_lt (hs.wellFiled.lt k hk), hid]
    · rintro ⟨hk, hid⟩
      have hk := hnames.2 hk
      rw [Nat.mod_eq_of_lt (hs.wellFiled.lt k hk)] at hid
      obtain ⟨a, ha, -⟩ := hdistinct.exists_addressOf hk
      exact ⟨a, (hmem a k).2 ⟨ha, hid⟩⟩

theorem ensures_getShardKeys : Ensures handler (getShardKeys w id) s fun r s' =>
      s' = s ∧ (r.1 = .ok → s.side.findShard id = some r.2) := by
  refine .ite (fun _ => ?_) fun _ => .pure ⟨rfl, fun h => by cases h⟩
  apply ensures_query
  split
  next => exact .pure ⟨rfl, fun h => by cases h⟩
  next keys hkeys => exact .pure ⟨rfl, fun _ => hkeys⟩

/-- `GetShardKeys` yields the keys of the shard. -/
theorem IndexReached.getShardKeys (hU : Separated U)
    (hlt : ∀ k ∈ U, makeShardId k < shardNum) {cache : C}
    (hs : IndexReached U makeShardId shardNum cache s) {addrs : List Addr}
    (hrun : (getShardKeys w id).run handler s = some ((.ok, addrs), s')) :
    s.ListsShard makeShardId shardNum id addrs := by
  apply (hs.invariant hU hlt).listsShard
  exact (ensures_getShardKeys _ _ hrun).2 rfl

end DbState

def World.sharding (makeShardId : Str → Nat) (now : UInt64) : World Unit where
  config := ⟨.none, true, 0, 0, true, 4⟩
  policy := none
  makeShardId := makeShardId
  allocate := allocateAbove
  now := now
  memoryUsage := 0
  fuel := 100

namespace DbState

def manageAll : List (World C × ShardEvent) → DbState hash C → Option (DbState hash C)
  | [], s => some s
  | (w, e) :: steps, s => do
    let s ← s.manage w e
    manageAll steps s

def sharding : World Unit :=
  .sharding (fun _ => 1) 0

theorem reached_addShard (makeShardId : Str → Nat) : ∃ s : DbState (fun _ => 0) Unit,
      manageAll [(.sharding makeShardId 0, .addShard 1)] (new ()) = some s ∧
        IndexReached {k | 0 ∉ k} makeShardId 4 () s :=
  ⟨_, rfl, .step (w := .sharding makeShardId 0) (e := .addShard 1) .start rfl rfl rfl
    allocateAbove_not_mem trivial rfl⟩

theorem reached_insertStr : ∃ s : DbState (fun _ => 0) Unit,
      manageAll [(sharding, .addShard 1), (sharding, .db (.command (.insertStr [97] [98])))]
        (new ()) = some s ∧ IndexReached {k | 0 ∉ k} (fun _ => 1) 4 () s := by
  obtain ⟨s, hs, hreached⟩ := reached_addShard fun _ => 1
  cases hs
  refine ⟨_, rfl, hreached.step (w := sharding) (e := .db (.command (.insertStr [97] [98]))) rfl
    rfl rfl allocateAbove_not_mem ⟨forall_mem_singleton.2 ⟨by decide, rfl⟩, rfl, ?_⟩ rfl⟩
  intro oldName newName h
  cases h

/-- The shard of a key is its length modulo 4. -/
def byLength : World Unit :=
  .sharding (fun k => k.length % 4) 0

/-- The shards 1 and 2, and a key in the second one. -/
theorem reached_byLength : ∃ s : DbState (fun _ => 0) Unit,
      manageAll [(byLength, .addShard 1), (byLength, .addShard 2),
        (byLength, .db (.command (.insertStr [98, 99] [121])))] (new ()) = some s ∧
      IndexReached {k | 0 ∉ k} byLength.makeShardId 4 () s ∧ s.side.hasShard 1 = true ∧
      s.side.lockedShards = [] ∧
      ∀ k, k.length % 4 = 1 → s.abs.dict.get k = none ∧ s.abs.expDict.get k = none := by
  obtain ⟨s, hs, hreached⟩ := reached_addShard fun k => k.length % 4
  cases hs
  have hsecond := hreached.step (w := byLength) (e := .addShard 2) rfl rfl rfl
    allocateAbove_not_mem trivial rfl
  refine ⟨_, rfl, hsecond.step (w := byLength) (e := .db (.command (.insertStr [98, 99] [121])))
    rfl rfl rfl allocateAbove_not_mem ⟨forall_mem_singleton.2 ⟨by decide, rfl⟩, rfl, ?_⟩ rfl,
    rfl, rfl, fun k hk => ⟨?_, rfl⟩⟩
  · intro oldName newName h
    cases h
  · have hne : [98, 99] ≠ k := by
      rintro rfl
      cases hk
    exact Option.not_isSome_iff_eq_none.1 fun hsome =>
      hne (mem_singleton.1 ((Dict.isSome_abs_iff _ k).1 hsome)).symm

/-- The key `a` with the hash 1. -/
theorem key_filed :
    ∃ s : DbState (fun _ => 0) Unit,
      manageAll [(.sharding (fun _ => 1) 0, .addShard 1),
        (.sharding (fun _ => 1) 0, .db (.command (.insertStr [97] [98])))] (new ()) = some s ∧
      s.ListsShard (fun _ => 1) 4 1 [1] := by
  obtain ⟨s, hs, hreached⟩ := reached_insertStr
  cases hs
  exact ⟨_, rfl, IndexReached.getShardKeys (w := sharding) separated_nulFree
    (fun _ _ => by decide) hreached rfl⟩

/-- The key `a` with the hash 5, of the shard 1, is not in the set of the shard. -/
theorem key_filed_elsewhere :
    ∃ s : DbState (fun _ => 0) Unit,
      manageAll [(.sharding (fun _ => 5) 0, .addShard 1),
        (.sharding (fun _ => 5) 0, .db (.command (.insertStr [97] [98])))] (new ()) = some s ∧
      s.dict.entries.map KeyValue.key = [[97]] ∧
      (getShardKeys (.sharding (fun _ => 5) 0) 1).run handler s = some ((.ok, []), s) :=
  ⟨_, rfl, rfl, rfl⟩

end DbState

end Mmkv
