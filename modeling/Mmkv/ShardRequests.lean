import Mmkv.Migration

/-!
# Removing one shard

`RemoveShard` calls `Delete` for each entry of the set that it iterates.
-/

namespace Mmkv

open EffectPrograms List Option

variable {hash : Str → Nat} {C : Type} {U : Set Str} {w : World C} {id : Nat}

/-! ## Removing a shard -/

namespace DbState

variable {s s' : DbState hash C}

/-- The shard and its keys are gone, and the other keys are as they were. -/
structure ShardRemoved (w : World C) (tracked : C → List Addr) (id : Nat)
    (s s' : DbState hash C) : Prop where
  shard : s'.side.findShard id = none
  keys : ∀ k, w.makeShardId k % w.config.shardNum = id →
    s'.abs.dict.get k = none ∧ s'.abs.expDict.get k = none
  cache : ∀ a k, (a, k) ∈ s.side.keys → w.makeShardId k % w.config.shardNum = id →
    a ∉ tracked s'.side.cache
  others : ∀ k, w.makeShardId k % w.config.shardNum ≠ id →
    s'.abs.dict.get k = s.abs.dict.get k ∧ s'.abs.expDict.get k = s.abs.expDict.get k

theorem IndexInvariant.shardSet_eq_nil (hs : s.IndexInvariant U w.makeShardId w.config.shardNum)
    (hnone : ∀ k, w.makeShardId k % w.config.shardNum = id → s.abs.dict.get k = none) :
    s.side.shardSet id = [] := by
  apply eq_nil_iff_forall_not_mem.2
  intro a ha
  obtain ⟨k, hk, hid⟩ := (hs.wellFiled.indexed.mem_iff id a).1 ha
  have hname : k ∈ s.side.names := mem_map_of_mem hk
  have hmod := Nat.mod_eq_of_lt (hs.wellFiled.lt k hname)
  have hget := hnone k (hmod.trans hid)
  have hstored := (hs.linked.mem_names k).1 hname
  simp [hget] at hstored

/-- `RemoveShard` empties an owned shard exactly if there is nothing to remove. -/
theorem removeShard_empties_iff (hU : Separated U)
    (hs : s.IndexInvariant U w.makeShardId w.config.shardNum)
    (hsharder : w.config.isSharder = true) (howned : s.side.hasShard id = true)
    (tracked : C → List Addr) :
    (∃ s', (Db.removeShard w id).run handler s = some ((), s') ∧ s.ShardRemoved w tracked id s') ↔
    ∀ k, w.makeShardId k % w.config.shardNum = id →
      s.abs.dict.get k = none ∧ s.abs.expDict.get k = none := by
  have hempty : (∀ k, w.makeShardId k % w.config.shardNum = id → s.abs.dict.get k = none) →
      (Db.removeShard w id).run handler s = some ((), { s with side := s.side.eraseShard id }) := by
    intro hnone
    rw [Side.hasShard_iff_findShard] at howned
    obtain ⟨keys, hkeys⟩ := isSome_iff_exists.1 howned
    have hset := hs.shardSet_eq_nil hnone
    rw [Side.shardSet, hkeys, getD_some] at hset
    exact Db.run_removeShard_empty hsharder (hkeys.trans (congrArg some hset))
  constructor
  · rintro ⟨s', hrun, hremoved⟩ k hk
    have hsame := ensures_removeShard_kept hU hs.intact hsharder id _ _ hrun
    have hnone : ∀ k, w.makeShardId k % w.config.shardNum = id → s.abs.dict.get k = none := by
      intro k hk
      rw [← hsame.dict]
      exact (hremoved.keys k hk).1
    rw [hempty hnone] at hrun
    cases hrun
    exact hremoved.keys k hk
  · intro hnone
    refine ⟨_, hempty fun k hk => (hnone k hk).1, Side.findShard_eraseShard_self id, hnone, ?_,
      fun k _ => ⟨rfl, rfl⟩⟩
    intro a k hmem hk
    have hstored := (hs.linked.mem_names k).1 (mem_map_of_mem hmem)
    simp [(hnone k hk).1] at hstored

/-- An empty shard beside one with a key. -/
theorem removeShard_empties_iff_beside :
    ∃ s s' : DbState (fun _ => 0) Unit,
      manageAll [(byLength, .addShard 1), (byLength, .addShard 2),
        (byLength, .db (.command (.insertStr [98, 99] [121])))] (new ()) = some s ∧
      (Db.removeShard byLength 1).run handler s = some ((), s') ∧
      s.ShardRemoved byLength (fun _ => []) 1 s' := by
  obtain ⟨s, hs, hreached, howned, -, hnone⟩ := reached_byLength
  have hindex : s.IndexInvariant {k | 0 ∉ k} byLength.makeShardId byLength.config.shardNum :=
    hreached.invariant separated_nulFree fun k _ => Nat.mod_lt k.length (by decide)
  obtain ⟨s', hrun, hremoved⟩ := (removeShard_empties_iff separated_nulFree hindex rfl howned
    fun _ => []).2 fun k hk => hnone k ((Nat.mod_mod k.length 4).symm.trans hk)
  exact ⟨s, s', hs, hrun, hremoved⟩

/-- A shard with one key: the iterator is lost, or the lock keeps the key. -/
theorem removeShard_keeps_key :
    ∃ s t t' : DbState (fun _ => 0) Unit,
      manageAll [(sharding, .addShard 1), (sharding, .db (.command (.insertStr [107] [118])))]
        (new ()) = some s ∧
      (Db.removeShard sharding 1).run handler s = none ∧
      s.manage sharding (.lockShard 1) = some t ∧
      (Db.removeShard sharding 1).run handler t = some ((), t') ∧
      t'.side.findShard 1 = none ∧ t'.abs.dict.get [107] = some (.string [118]) :=
  ⟨_, _, _, rfl, rfl, rfl, rfl, rfl, rfl⟩

end DbState

end Mmkv
