import Mathlib.Data.Finset.Card
import Mmkv.DatabaseManager
import Mmkv.Shards

/-!
# What the deletions report

`MmkvDb::Delete` returns a status code, in which `S_OK` is zero.  `DEL` and `DELS` take it for a
truth value, so that the one answers `S_NONEXISTS` to a deletion and `S_OK` where nothing was
deleted, and the other counts the keys that it did not delete.  `DELS` moreover deletes in the
instance that the hash of the key selects, also where the keys are kept by their shard.
-/

namespace Mmkv

open EffectPrograms StatusCode DatabaseInstance

variable {hash : Str → Nat} {C : Type} {U : Set Str} {w : World C} {k : Str}

/-! ## One deletion -/

theorem Side.hasShard_modifyShard (σ : Side C) (id id' : Nat) (f : List Addr → List Addr) :
    (σ.modifyShard id f).hasShard id' = (decide (id' = id) || σ.hasShard id') := by
  rw [hasShard_iff_findShard, findShard_modifyShard, hasShard_iff_findShard]
  split
  next hid => simp [hid]
  next hid => simp [hid]

/-- `RemoveKeyFromShard` can create the shard `MakeShardId(key)`, but no one that the check of a
key asks for: that of `key` has found it then. -/
theorem Side.hasShard_unfile {σ : Side C}
    (howned : σ.hasShard (w.makeShardId k % w.config.shardNum) = true) (k' : Str) :
    (σ.unfile w k).hasShard (w.makeShardId k' % w.config.shardNum) =
      σ.hasShard (w.makeShardId k' % w.config.shardNum) := by
  unfold unfile onAddress
  split
  · cases σ.addressOf k with
    | none => rfl
    | some a =>
      rw [Option.elim_some, hasShard_modifyShard]
      by_cases hid : w.makeShardId k' % w.config.shardNum = w.makeShardId k
      · rw [← hid, Nat.mod_mod] at howned
        rw [howned, Bool.or_true]
      · simp [hid]
  · rfl

theorem Side.locks_removed (σ : Side C) :
    (Change.side w (.removed k true : Change hash) σ).lockedShards = σ.lockedShards ∧
      (Change.side w (.removed k true : Change hash) σ).isIgnoreLockedShard =
        σ.isIgnoreLockedShard := by
  have hunfile : (σ.unfile w k).lockedShards = σ.lockedShards ∧
      (σ.unfile w k).isIgnoreLockedShard = σ.isIgnoreLockedShard := by
    unfold unfile onAddress modifyShard
    cases σ.addressOf k <;> grind
  have huncache : ∀ τ : Side C, (τ.uncache w k).lockedShards = τ.lockedShards ∧
      (τ.uncache w k).isIgnoreLockedShard = τ.isIgnoreLockedShard := by
    intro τ
    unfold uncache onAddress
    cases w.policy <;> cases τ.addressOf k <;> exact ⟨rfl, rfl⟩
  exact ⟨(huncache _).1.trans hunfile.1, (huncache _).2.trans hunfile.2⟩

theorem AbsDb.unlocked_removed {a b : AbsDb hash C} (hunlocked : a.unlocked w k = true)
    (hside : b.side = Change.side w (.removed k true : Change hash) a.side) (k' : Str) :
    b.unlocked w k' = a.unlocked w k' := by
  unfold AbsDb.unlocked at hunlocked ⊢
  cases hsharder : w.config.isSharder with
  | false => rfl
  | true =>
    simp only [hsharder, Bool.not_true, Bool.false_or, Bool.and_eq_true] at hunlocked ⊢
    have hshards : b.side.hasShard (w.makeShardId k' % w.config.shardNum) =
        (a.side.unfile w k).hasShard (w.makeShardId k' % w.config.shardNum) := by
      rw [hside]
      exact congrArg (List.any · _) (Side.shards_uncache w k _)
    rw [hshards, Side.hasShard_unfile hunlocked.1, hside, (Side.locks_removed a.side).1,
      (Side.locks_removed a.side).2]

theorem DbState.exec_delete {s : DbState hash C} (hU : Separated U) (hk : k ∈ U)
    (hs : s.KeysIn U) :
    ∃ reply s', s.exec w (.delete k) = some (reply, s') ∧ s'.KeysIn U ∧
      (∀ k', s'.abs.unlocked w k' = s.abs.unlocked w k') ∧
      (reply.status = .ok ↔ (s.abs.dict.get k).isSome ∧ s.abs.unlocked w k = true) ∧
      s'.abs.dict.get =
        if reply.status = .ok then Function.update s.abs.dict.get k none
        else s.abs.dict.get := by
  have hkeys : ∀ k' ∈ (Command.delete k).keys w, k' ∈ U := by
    simpa [Command.keys, Command.action, MmkvDb.delete, Action.keys] using hk
  have hexec : ∀ {reply b}, s.abs.exec w (.delete k) = some (reply, b) →
      ∃ s', s.exec w (.delete k) = some (reply, s') ∧ s'.KeysIn U ∧ b = s'.abs :=
    exec_of_abs hU hkeys hs
  obtain ⟨code, hcode, hcheck⟩ := Db.run_checkShardIsLockedKey (w := w) (a := s.abs) (k := k)
    (Db.delete w k)
  cases hunlocked : s.abs.unlocked w k with
  | false =>
    rw [hunlocked] at hcheck
    obtain ⟨s', hrun, hin, habs⟩ := hexec hcheck
    refine ⟨.fail code, s', hrun, hin, fun _ => by rw [← habs], ?_, ?_⟩
    · simp [Reply.fail, hcode]
    · rw [← habs]
      simp [Reply.fail, hcode]
  | true =>
    rw [hunlocked, if_pos rfl] at hcheck
    cases hget : s.abs.dict.get k with
    | none =>
      obtain ⟨s', hrun, hin, habs⟩ := hexec (hcheck.trans (Db.run_delete_absent hget))
      refine ⟨_, s', hrun, hin, fun _ => by rw [← habs], by simp [Reply.fail], ?_⟩
      rw [← habs]
      simp [Reply.fail]
    | some data =>
      obtain ⟨s', hrun, hin, habs⟩ := hexec (hcheck.trans (Db.run_delete_stored hget))
      refine ⟨_, s', hrun, hin, AbsDb.unlocked_removed hunlocked ?_, by simp [Reply.ok], ?_⟩
      · rw [← habs]
      · rw [← habs]
        rfl

namespace DatabaseManager

variable {m : DatabaseManager} {s s' : m.Instances hash C} {keys : List Str}

/-- The key is where requests for it look. -/
def Stores (w : World C) (s : m.Instances hash C) (k : Str) : Bool :=
  ((s (m.instanceOf w k)).db.abs.dict.get k).isSome

/-- The key is in the instance that its hash selects, in a shard that is there and not locked. -/
def Deletes (w : World C) (s : m.Instances hash C) (k : Str) : Bool :=
  ((s (m.getDatabaseInstance k)).db.abs.dict.get k).isSome &&
    (s (m.getDatabaseInstance k)).db.abs.unlocked w k

/-! ## All deletions of a request -/

/-- One round of the loop takes the key from its instance if it is to be deleted. -/
theorem exec_delete_setDb (hU : Separated U) (hk : k ∈ U) (hs : ∀ i, (s i).db.KeysIn U) :
    ∃ reply db, (s (m.getDatabaseInstance k)).db.exec w (.delete k) = some (reply, db) ∧
      (reply.status = .ok ↔ Deletes w s k = true) ∧
      (∀ i, (setDb s (m.getDatabaseInstance k) db i).db.KeysIn U) ∧
      (∀ i k', (setDb s (m.getDatabaseInstance k) db i).db.abs.unlocked w k' =
        (s i).db.abs.unlocked w k') ∧
      ∀ i k', (setDb s (m.getDatabaseInstance k) db i).db.abs.dict.get k' =
        if k' = k ∧ Deletes w s k = true ∧ m.getDatabaseInstance k' = i then none
        else (s i).db.abs.dict.get k' := by
  obtain ⟨reply, db, hexec, hin, hunlocked, hok, hdict⟩ := DbState.exec_delete (w := w) hU hk
    (hs (m.getDatabaseInstance k))
  have hok' : reply.status = .ok ↔ Deletes w s k = true := by
    rw [hok, Deletes, Bool.and_eq_true]
  refine ⟨reply, db, hexec, hok', fun i => ?_, fun i k' => ?_, fun i k' => ?_⟩ <;>
    by_cases hi : i = m.getDatabaseInstance k
  · rw [hi, db_setDb_self]
    exact hin
  · rw [db_setDb_of_ne hi]
    exact hs i
  · rw [hi, db_setDb_self, hunlocked]
  · rw [db_setDb_of_ne hi]
  · rw [hi, db_setDb_self, hdict]
    grind
  · rw [db_setDb_of_ne hi]
    grind

/-- The count is that of the listed keys, repetitions included, less the keys that are
deleted. -/
theorem deleteKeys_spec (hU : Separated U) (hkeys : ∀ k ∈ keys, k ∈ U)
    (hs : ∀ i, (s i).db.KeysIn U) :
    ∃ count s', deleteKeys w keys s = .ok (count, s') ∧
      count + (keys.toFinset.filter fun k => Deletes w s k = true).card = keys.length ∧
      ∀ i k, (s' i).db.abs.dict.get k =
        if k ∈ keys ∧ Deletes w s k = true ∧ m.getDatabaseInstance k = i then none
        else (s i).db.abs.dict.get k := by
  induction keys generalizing s with
  | nil => exact ⟨0, s, rfl, rfl, by simp⟩
  | cons k keys ih =>
    rw [List.forall_mem_cons] at hkeys
    obtain ⟨reply, db, hexec, hok, hin, hunlocked, hget⟩ :=
      exec_delete_setDb (w := w) hU hkeys.1 hs
    obtain ⟨count, s', hrest, hcount, hdeleted⟩ := ih hkeys.2 hin
    have hdeletes : ∀ k', Deletes w (setDb s (m.getDatabaseInstance k) db) k' =
        (Deletes w s k' && decide (k' ≠ k)) := by
      intro k'
      rw [Deletes, hunlocked, hget]
      by_cases hk' : k' = k
      · subst hk'
        cases hdel : Deletes w s k' with
        | false => simpa [Deletes] using hdel
        | true => simp
      · simp [hk', Deletes]
    simp only [hdeletes, Bool.and_eq_true, decide_eq_true_eq] at hcount hdeleted
    have hcard : ((k :: keys).toFinset.filter fun k' => Deletes w s k' = true).card =
        (keys.toFinset.filter fun k' => Deletes w s k' = true ∧ k' ≠ k).card +
          if Deletes w s k = true then 1 else 0 := by
      have herase : (keys.toFinset.filter fun k' => Deletes w s k' = true ∧ k' ≠ k) =
          ((k :: keys).toFinset.filter fun k' => Deletes w s k' = true).erase k := by
        ext k'
        simp only [Finset.mem_filter, Finset.mem_erase, List.mem_toFinset, List.mem_cons]
        grind
      rw [herase]
      split
      next hdel => rw [Finset.card_erase_add_one (by simp [hdel])]
      next hdel => rw [Finset.erase_eq_of_notMem (by simp [hdel]), Nat.add_zero]
    refine ⟨count + (if reply.status ≠ .ok then 1 else 0), s', ?_, ?_, fun i k' => ?_⟩
    · simp only [deleteKeys, hexec, hrest]
      rfl
    · rw [hcard, List.length_cons]
      by_cases hdel : Deletes w s k = true
      · rw [if_neg (not_not.mpr (hok.mpr hdel)), if_pos hdel]
        omega
      · rw [if_pos (mt hok.mp hdel), if_neg hdel]
        omega
    · rw [hdeleted, hget]
      grind

/-- `DEL` answers `S_OK` if the key was there and is gone, and `S_NONEXISTS` if it was not. -/
def ReportsDelete (w : World C) (k : Str) (status : UInt8) (s s' : m.Instances hash C) : Prop :=
  if Stores w s k then status = ok.toByte ∧ Stores w s' k = false
  else status = nonexists.toByte

/-- All keys are gone, and the count is that of the keys that were there. -/
structure ReportsDeleted (w : World C) (keys : List Str) (count : Nat)
    (s s' : m.Instances hash C) : Prop where
  removed : ∀ k ∈ keys, Stores w s' k = false
  count : count =
    (keys.toFinset.filter fun k => Stores w s k = true ∧ Stores w s' k = false).card

/-- The keys that are there are kept by their hash and not locked, and the list is as long as the
keys that are there and those that are deleted are many. -/
structure CountsDeleted (w : World C) (keys : List Str) (s : m.Instances hash C) : Prop where
  deleted : ∀ k ∈ keys, Stores w s k = true →
    m.instanceOf w k = m.getDatabaseInstance k ∧ Deletes w s k = true
  length : keys.length = (keys.toFinset.filter fun k => Stores w s k = true).card +
    (keys.toFinset.filter fun k => Deletes w s k = true).card

theorem reportsDeleted_iff {count : Nat}
    (hcount : count + (keys.toFinset.filter fun k => Deletes w s k = true).card = keys.length)
    (hget : ∀ i k, (s' i).db.abs.dict.get k =
      if k ∈ keys ∧ Deletes w s k = true ∧ m.getDatabaseInstance k = i then none
      else (s i).db.abs.dict.get k) :
    ReportsDeleted w keys count s s' ↔ CountsDeleted w keys s := by
  have hstores : ∀ k ∈ keys, Stores w s' k = false ↔ (Stores w s k = true →
      m.instanceOf w k = m.getDatabaseInstance k ∧ Deletes w s k = true) := by
    intro k hk
    unfold Stores
    rw [hget]
    grind
  have hfilter : (∀ k ∈ keys, Stores w s' k = false) →
      (keys.toFinset.filter fun k => Stores w s k = true ∧ Stores w s' k = false) =
        keys.toFinset.filter fun k => Stores w s k = true := by
    intro hgone
    refine Finset.filter_congr fun k hk => and_iff_left (hgone k (List.mem_toFinset.mp hk))
  constructor
  · rintro ⟨hgone, hreport⟩
    rw [hfilter hgone] at hreport
    exact ⟨fun k hk => (hstores k hk).mp (hgone k hk), by omega⟩
  · rintro ⟨hdeleted, hlength⟩
    have hgone : ∀ k ∈ keys, Stores w s' k = false := fun k hk =>
      (hstores k hk).mpr (hdeleted k hk)
    exact ⟨hgone, by rw [hfilter hgone]; omega⟩

/-- `DEL` answers `S_NONEXISTS` exactly if it has deleted the key, and so never what it should;
`DELS` removes and counts as it should exactly on the lists that `CountsDeleted` describes. -/
theorem delete_reports_iff (hU : Separated U) (hidle : Idle s) (hs : ∀ i, (s i).db.KeysIn U)
    {del dels : Request} (hdel : del.code = some .del) (hkey : del.hasKey = true)
    (hk : del.key ∈ U) (hdels : dels.code = some .dels) (hkeys : ∀ k ∈ dels.values, k ∈ U)
    (hlength : dels.values.length < 2 ^ 64) (memoryStat : Str) (recvTime : UInt64)
    (response : Response) :
    (∃ r s', m.execute w memoryStat recvTime del (some response) s = .ok (some r, s') ∧
      r.status = (if Stores w s del.key = true ∧ Stores w s' del.key = false
        then nonexists else .ok).toByte ∧
      ¬ ReportsDelete w del.key r.status s s') ∧
    ∃ r s', m.execute w memoryStat recvTime dels (some response) s = .ok (some r, s') ∧
      (ReportsDeleted w dels.values r.count.toNat s s' ↔ CountsDeleted w dels.values s) := by
  constructor
  · obtain ⟨reply, db, hexec, -, -, hok, hget⟩ := DbState.exec_delete (w := w) hU hk
      (hs (m.instanceOf w del.key))
    have hon : executeOn w recvTime del (some response)
        (s (m.instanceOf w del.key)).db = .ok (some (response.answerDelete reply), db) := by
      simp only [executeOn, Request.selected, hdel, Option.bind_some,
        Request.case, RequestCase.write, hkey, perform,
        runCalls]
      rw [Program.run_bind_of_some hexec]
      rfl
    rw [execute_other hidle hdel rfl hkey, hon]
    have hstores : Stores w (setDb s (m.instanceOf w del.key) db) del.key =
        (Stores w s del.key && decide (reply.status ≠ .ok)) := by
      rw [Stores, db_setDb_self, hget, Stores]
      by_cases hstatus : reply.status = .ok <;> simp [hstatus]
    have hstatus : (response.answerDelete reply).status =
        (if Stores w s del.key = true ∧
            Stores w (setDb s (m.instanceOf w del.key) db) del.key = false
          then nonexists else .ok).toByte := by
      rw [hstores, Response.answerDelete]
      by_cases hdeleted : reply.status = .ok
      · have hstored : Stores w s del.key = true := (hok.mp hdeleted).1
        simp [hdeleted, hstored]
      · simp [hdeleted]
    refine ⟨_, _, rfl, hstatus, ?_⟩
    rw [ReportsDelete, hstatus]
    cases Stores w s del.key <;>
      cases Stores w (setDb s (m.instanceOf w del.key) db) del.key <;> decide
  · obtain ⟨count, s', hdelete, hcount, hget⟩ := deleteKeys_spec (w := w) hU hkeys hs
    rw [execute_dels hidle hdels, hdelete]
    refine ⟨_, _, rfl, ?_⟩
    have hfits : (UInt64.ofNat count).toNat = count :=
      UInt64.toNat_ofNat_of_lt' (show count < 2 ^ 64 by omega)
    change ReportsDeleted w dels.values (UInt64.ofNat count).toNat s s' ↔ _
    rw [hfits]
    exact reportsDeleted_iff hcount hget

/-- Of two keys one is there: the other one is counted. -/
theorem dels_counts_half :
    ∃ r s', execute ⟨.localMultiThread, 1, fun _ => 0, .shared⟩ (.standalone true 0) [] 0
        ⟨67, 8, [], [], [[97], [98]], [], [], 0, 0, 0⟩ (some (.new 0))
        (fun _ => ⟨expiringDb, .free⟩) = .ok (some r, s') ∧
      ReportsDeleted (.standalone true 0) [[97], [98]] r.count.toNat
        (fun _ => ⟨expiringDb, .free⟩) s' := by
  have hdel : (⟨63, 1, [97], [], [], [], [], 0, 0, 0⟩ : Request).code = some .del := rfl
  have hdels : (⟨67, 8, [], [], [[97], [98]], [], [], 0, 0, 0⟩ : Request).code = some .dels := rfl
  obtain ⟨-, r, s', hrun, hreports⟩ := delete_reports_iff
    (m := ⟨.localMultiThread, 1, fun _ => 0, .shared⟩) (w := .standalone true 0)
    (s := fun _ => ⟨expiringDb, .free⟩) separated_nulFree (fun _ => rfl)
    (fun _ => expiringDb_keysIn) hdel rfl (by decide) hdels (by decide) (by decide) [] 0 (.new 0)
  exact ⟨r, s', hrun, hreports.mpr ⟨by decide +kernel, by decide +kernel⟩⟩

/-- `DEL` of a key and of none, and `DELS` of a key and of none. -/
theorem del_inverted :
    let run := fun request => (execute (m := ⟨.localMultiThread, 1, fun _ => 0, .shared⟩)
      (.standalone true 0) [] 0 request (some (.new 0)) fun _ => ⟨expiringDb, .free⟩).map
        fun r => r.1.map fun response => (response.status, response.count)
    run ⟨63, 1, [97], [], [], [], [], 0, 0, 0⟩ = .ok (some (nonexists.toByte, 0)) ∧
    run ⟨63, 1, [98], [], [], [], [], 0, 0, 0⟩ = .ok (some (ok.toByte, 0)) ∧
    run ⟨67, 8, [], [], [[97]], [], [], 0, 0, 0⟩ = .ok (some (ok.toByte, 0)) ∧
    run ⟨67, 8, [], [], [[98]], [], [], 0, 0, 0⟩ = .ok (some (ok.toByte, 1)) :=
  ⟨rfl, rfl, rfl, rfl⟩

end DatabaseManager

end Mmkv
