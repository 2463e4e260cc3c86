import Mmkv.KeyEvents
import Mmkv.RecencyCaches

/-!
# The replacement of keys

`cache_` tracks addresses of stored keys.  Commands keep it up, expiration does not, and
`TryReplacekey` takes its victim out of the dictionary and the cache only.
-/

namespace Mmkv

open EffectPrograms List Side Replacement

variable {hash : Str → Nat} {C : Type} {a : Addr}

/-! ## Policies -/

/-- What the interface promises, for a policy that tracks these addresses. -/
structure CachePolicy.Tracks (p : CachePolicy C) (tracked : C → List Addr) : Prop where
  update : ∀ a b c, b ∈ tracked (p.updateEntry a c) ↔ b = a ∨ b ∈ tracked c
  del : ∀ a b c, b ∈ tracked (p.delEntry a c) ↔ b ∈ tracked c ∧ b ≠ a
  victim : ∀ a c, p.victim c = some a → a ∈ tracked c
  delVictim : ∀ a b c, p.victim c = some a →
    (b ∈ tracked (p.delVictim c) ↔ b ∈ tracked c ∧ b ≠ a)
  clear : ∀ c, tracked (p.clear c) = []

/-- The addresses in `LruCache` or `MruCache`, the one that was updated last in front.  The
database makes them with the capacity -1, which no number of addresses reaches. -/
structure RecencyList where
  cache : List Addr
  nodup : cache.Nodup
  deriving Repr, DecidableEq

namespace RecencyList

variable {P : Type}

def new : RecencyList :=
  ⟨[], nodup_nil⟩

def step (e : ListEnd) (call : CacheCall P Addr) (c : RecencyList) : RecencyList where
  cache := keysStep e (c.cache.length + 1) call c.cache
  nodup := (promises_keysStep c.nodup e (Nat.lt_succ_self _) call).2

def policy (e : ListEnd) : CachePolicy RecencyList where
  updateEntry := fun a => step e (.updateEntry a ())
  delEntry := fun a => step e (.delEntry a : CacheCall Unit Addr)
  victim := fun c => e.pick c.cache
  delVictim := step e (.delVictim : CacheCall Unit Addr)
  clear := step e (.clear : CacheCall Unit Addr)

theorem tracks (e : ListEnd) : (policy e).Tracks RecencyList.cache := by
  have hstep : ∀ (c : RecencyList) (call : CacheCall Unit Addr),
      call.Promises (e.pick c.cache) c.cache (c.step e call).cache :=
    fun c call => (promises_keysStep c.nodup e (Nat.lt_succ_self _) call).1
  refine ⟨fun a b c => hstep c (.updateEntry a ()) b, fun a b c => hstep c (.delEntry a) b, ?_, ?_,
    fun c => hstep c .clear⟩
  · intro a c ha
    cases e with
    | back => exact mem_of_getLast? ha
    | front => exact mem_of_head? ha
  · intro a b c ha
    have hvictim := hstep c .delVictim b
    rw [show e.pick c.cache = some a from ha] at hvictim
    exact hvictim.trans (and_congr_right fun _ => by grind)

/-- The caches themselves make the steps of the lists as long as they have room. -/
theorem tracks_step [DecidableEq P] {hash : Addr → Nat} {ev : Eviction P Addr} {e : ListEnd}
    {c : ListCache P Addr} {xs : List (P × Addr)} (hev : ev.TakesFrom hash e)
    (h : c.Tracks hash xs) (hroom : xs.length < c.maxSize) {call : CacheCall P Addr}
    (hadmits : ListCache.Admits call c)
    (hempty : call = .victim ∨ call = .delVictim → xs = [] →
      ev.victim c = some none ∧ ev.delVictim c = some c) :
    ∃ c' xs', c.step hash ev call = some (keysReply e call (xs.map Prod.snd), c') ∧
      c'.Tracks hash xs' ∧
      xs'.map Prod.snd = (step e call ⟨xs.map Prod.snd, h.keys_nodup⟩).cache := by
  obtain ⟨c', xs', hrun, -, htracks, hkeys⟩ :=
    h.step hev (Nat.one_le_of_lt hroom) (Nat.le_of_lt hroom) hadmits hempty
  refine ⟨c', xs', hrun, htracks, hkeys.trans ?_⟩
  cases call with
  | updateEntry k a =>
    simp [step, keysStep, Nat.not_le_of_lt hroom, Nat.not_succ_le_self xs.length]
  | _ => rfl

end RecencyList

/-! ## Tracked keys are stored -/

def Side.CacheExact (tracked : C → List Addr) (σ : Side C) : Prop :=
  ∀ a, a ∈ tracked σ.cache ↔ a ∈ σ.addrs

namespace Side

variable {w : World C} {p : CachePolicy C} {tracked : C → List Addr} {σ : Side C} {k : Str}

@[simp] theorem cache_file (w : World C) (k : Str) (σ : Side C) : (σ.file w k).cache = σ.cache := by
  unfold file onAddress modifyShard
  split
  · cases σ.addressOf k with
    | none => rfl
    | some a => grind
  · rfl

@[simp] theorem cache_unfile (w : World C) (k : Str) (σ : Side C) :
    (σ.unfile w k).cache = σ.cache := by
  unfold unfile onAddress modifyShard
  split
  · cases σ.addressOf k with
    | none => rfl
    | some a => grind
  · rfl

theorem cache_touch (hpolicy : w.policy = some p) (ha : σ.addressOf k = some a) :
    (σ.touch w k).cache = p.updateEntry a σ.cache := by
  simp [touch, hpolicy, onAddress, ha]

theorem cache_uncache (hpolicy : w.policy = some p) (ha : σ.addressOf k = some a) :
    (σ.uncache w k).cache = p.delEntry a σ.cache := by
  simp [uncache, hpolicy, onAddress, ha]

theorem mem_addrs_unlinkKey (h : σ.Distinct) {a b : Addr} (ha : (a, k) ∈ σ.keys) :
    b ∈ (σ.unlinkKey k).addrs ↔ b ∈ σ.addrs ∧ b ≠ a := by
  simp only [addrs, mem_map, mem_keys_unlinkKey h]
  constructor
  · rintro ⟨q, ⟨hq, hne⟩, rfl⟩
    refine ⟨⟨q, hq, rfl⟩, ?_⟩
    intro heq
    have hkey : σ.keyAt a = some q.2 := h.keyAt_iff.2 (by rw [← heq]; exact hq)
    rw [h.keyAt_iff.2 ha] at hkey
    exact hne (Option.some.inj hkey).symm
  · rintro ⟨⟨q, hq, rfl⟩, hne⟩
    refine ⟨q, ⟨hq, ?_⟩, rfl⟩
    rintro rfl
    have haddr : σ.addressOf q.2 = some q.1 := h.addressOf_iff.2 hq
    rw [h.addressOf_iff.2 ha] at haddr
    exact hne (Option.some.inj haddr).symm

end Side

/-- The events that keep the cache exact: a key must not go by expiration. -/
def KeyEvent.Cached : KeyEvent → Prop
  | .expired _ => False
  | .evicted _ => False
  | _ => True

namespace KeyEvent

variable {w : World C} {p : CachePolicy C} {tracked : C → List Addr} {σ : Side C}

theorem apply_cacheExact (hpolicy : w.policy = some p) (htracks : p.Tracks tracked)
    (hw : w.Allocates) {e : KeyEvent} (he : e.Cached) (hallowed : e.Allowed w σ)
    (hσ : σ.Distinct) (hexact : σ.CacheExact tracked) : (e.apply w σ).CacheExact tracked := by
  intro b
  cases e with
  | touched k =>
    obtain ⟨a, hmem, haddr⟩ := hσ.exists_addressOf hallowed
    have ha : a ∈ σ.addrs := mem_map_of_mem hmem
    rw [apply, cache_touch hpolicy haddr, htracks.update, hexact, addrs_congr (keys_touch w k σ)]
    exact or_iff_right_of_imp fun hb => hb ▸ ha
  | inserted k =>
    have haddr : (σ.linkKey w k).addressOf k = some (w.allocate σ.addrs) :=
      (hσ.linkKey hw hallowed).addressOf_iff.2 (.head _)
    rw [apply, cache_file, cache_touch hpolicy haddr, htracks.update]
    simp only [Side.addrs, keys_file, keys_touch, Side.linkKey, map_cons, mem_cons]
    exact or_congr_right (hexact b)
  | removed k =>
    obtain ⟨a, hmem, haddr⟩ := hσ.exists_addressOf hallowed
    have hkeys : ((σ.unfile w k).uncache w k).keys = σ.keys := by simp
    have haddr' : (σ.unfile w k).addressOf k = some a := by
      rw [Side.addressOf, keys_unfile]
      exact haddr
    have hunlinked : ((σ.unfile w k).uncache w k).Distinct := hσ.of_keys_eq hkeys
    rw [apply, mem_addrs_unlinkKey hunlinked (by rw [hkeys]; exact hmem), addrs_congr hkeys]
    change b ∈ tracked ((σ.unfile w k).uncache w k).cache ↔ _
    rw [cache_uncache hpolicy haddr', cache_unfile, htracks.del, hexact]
  | expired k => exact he.elim
  | evicted k => exact he.elim
  | renamed oldName newName =>
    have hdistinct : (σ.renameKey oldName newName).Distinct := hσ.renameKey hallowed.2
    have hnew : newName ∈ (σ.renameKey oldName newName).names := by
      rw [names_renameKey, mem_map]
      exact ⟨oldName, hallowed.1, if_pos rfl⟩
    obtain ⟨a, hmem, haddr⟩ := hdistinct.exists_addressOf hnew
    have ha : a ∈ σ.addrs := by
      rw [← addrs_renameKey σ oldName newName]
      exact mem_map_of_mem hmem
    rw [apply, cache_touch hpolicy haddr, htracks.update,
      addrs_congr (keys_touch w newName _), addrs_renameKey]
    change b = a ∨ b ∈ tracked σ.cache ↔ _
    rw [hexact]
    exact or_iff_right_of_imp fun hb => hb ▸ ha
  | cleared =>
    simp [apply, hpolicy, htracks.clear, Side.addrs]

end KeyEvent

/-! ## Runs with memory to spare -/

/-- The keys of a command have not expired when they are checked, and neither has any key
when the timer fires. -/
def Event.RemovesNoExpired (U : Set Str) (w : World C) (s : DbState hash C) : Event → Prop
  | .command c => ∀ k ∈ c.keys w, k ∈ U ∧ s.abs.lapsed w k = false
  | .checkExpireCycle => ∀ kv ∈ s.expDict.entries, ¬ kv.value ≤ w.now

namespace DbState

/-- The states of the runs with the policy in which nothing is evicted or expires. -/
inductive CacheReached (U : Set Str) (p : CachePolicy C) (cache : C) :
    DbState hash C → Prop where
  | start : CacheReached U p cache (new cache)
  | step {w : World C} {e : Event} {s s' : DbState hash C} (hs : CacheReached U p cache s)
      (hpolicy : w.policy = some p) (hw : w.Allocates)
      (hmemory : w.memoryUsage < w.config.maxMemoryUsage)
      (he : Event.RemovesNoExpired U w s e) (hstep : s.perform w e = some s') :
      CacheReached U p cache s'

variable {U : Set Str} {p : CachePolicy C} {cache : C} {tracked : C → List Addr}
  {s : DbState hash C}

theorem admits_cached {w : World C} (hmemory : w.memoryUsage < w.config.maxMemoryUsage)
    {e : Event} (he : Event.RemovesNoExpired U w s e) : e.Admits KeyEvent.Cached w s := by
  have hvictim : ∀ k, w.victim s.side ≠ some k := by
    intro k h
    simp only [World.victim] at h
    grind
  cases e with
  | command c =>
    refine ⟨?_, fun _ _ _ => trivial⟩
    exact {
      touched := fun _ => trivial
      inserted := fun _ _ => trivial
      removed := fun _ => trivial
      expired := fun k hk hlapsed => by simp [(he k hk).2] at hlapsed
      evicted := fun k hk => absurd hk (hvictim k)
      cleared := trivial }
  | checkExpireCycle => exact fun kv hkv hpassed => he kv hkv hpassed

theorem CacheReached.exact (hU : Separated U) (htracks : p.Tracks tracked)
    (hcache : tracked cache = []) (hs : CacheReached U p cache s) :
    s.KeysIn U ∧ s.abs.Linked ∧ s.side.CacheExact tracked := by
  induction hs with
  | start =>
    refine ⟨keysIn_new U cache, linked_new cache, ?_⟩
    intro a
    change a ∈ tracked cache ↔ a ∈ []
    rw [hcache]
  | @step w e s s' hs hpolicy hw hmemory he hstep ih =>
    obtain ⟨hin, hlinked, hexact⟩ := ih
    have hkeys : ∀ c, e = .command c → ∀ k ∈ c.keys w, k ∈ U := by
      rintro c rfl k hk
      exact (he k hk).1
    obtain ⟨hin', hlinked', hpath⟩ :=
      perform_follows hU hw hin hlinked hkeys (admits_cached hmemory he) hstep
    refine ⟨hin', hlinked', ?_⟩
    exact (hpath.keeps (I := Side.CacheExact tracked) hw (fun e σ hcached hallowed hσ hI =>
        KeyEvent.apply_cacheExact hpolicy htracks hw hcached hallowed hσ hI)
      (fun _ _ hI => hI) hlinked.distinct hexact).2

/-- The cache tracks the addresses of the stored keys and no others. -/
structure TracksStored (tracked : C → List Addr) (s : DbState hash C) : Prop where
  mem_iff : ∀ a, a ∈ tracked s.side.cache ↔
    ∃ kv ∈ s.dict.entries, s.side.addressOf kv.key = some a
  stored : ∀ kv ∈ s.dict.entries, (s.side.addressOf kv.key).isSome

theorem tracksStored_of_exact (hlinked : s.abs.Linked) (hexact : s.side.CacheExact tracked) :
    s.TracksStored tracked where
  mem_iff a := by
    have hdistinct : s.side.Distinct := hlinked.distinct
    rw [hexact, Side.addrs, mem_map]
    constructor
    · rintro ⟨⟨b, k⟩, hmem, rfl⟩
      have hk : k ∈ s.dict.entries.map KeyValue.key := by
        rw [← s.dict.isSome_abs_iff]
        exact ((hlinked.mem_names k).1 (mem_map_of_mem hmem)).resolve_right not_mem_nil
      obtain ⟨kv, hkv, rfl⟩ := mem_map.1 hk
      exact ⟨kv, hkv, hdistinct.addressOf_iff.2 hmem⟩
    · rintro ⟨kv, -, haddr⟩
      exact ⟨(a, kv.key), hdistinct.addressOf_iff.1 haddr, rfl⟩
  stored kv hkv := by
    have hk : kv.key ∈ s.side.names :=
      (hlinked.mem_names _).2 (.inl ((s.dict.isSome_abs_iff _).2 (mem_map_of_mem hkv)))
    obtain ⟨a, -, haddr⟩ := Side.Distinct.exists_addressOf hlinked.distinct hk
    exact Option.isSome_iff_exists.2 ⟨a, haddr⟩

/-- Whatever the policy, as long as no key goes by expiration its victim is stored. -/
theorem CacheReached.tracksStored (hU : Separated U) (htracks : p.Tracks tracked)
    (hcache : tracked cache = []) (hs : CacheReached U p cache s) :
    s.TracksStored tracked ∧
      ∀ a, p.victim s.side.cache = some a →
        ∃ kv ∈ s.dict.entries, s.side.addressOf kv.key = some a := by
  obtain ⟨-, hlinked, hexact⟩ := hs.exact hU htracks hcache
  have hstored := tracksStored_of_exact hlinked hexact
  refine ⟨hstored, ?_⟩
  intro a ha
  exact (hstored.mem_iff a).1 (htracks.victim a _ ha)

end DbState

/-- A server with lazy expiration that replaces the least recently used key when 100
bytes are in use. -/
def World.replacing (now : UInt64) (memoryUsage : Nat) : World RecencyList where
  config := ⟨.none, true, 0, 100, false, 0⟩
  policy := some (RecencyList.policy .back)
  makeShardId := fun _ => 0
  allocate := allocateAbove
  now := now
  memoryUsage := memoryUsage
  fuel := 100

namespace DbState

/-- The key `a`, inserted and renamed to `b`. -/
theorem renamed_tracksStored :
    ∃ s : DbState (fun _ => 0) RecencyList,
      execAll [(.replacing 0 0, .insertStr [97] [98]), (.replacing 0 0, .rename [97] [98])]
        (new RecencyList.new) = some ([.ok .none, .ok .none], s) ∧
      s.TracksStored RecencyList.cache := by
  refine ⟨_, rfl, ?_⟩
  have hstart : CacheReached {k | 0 ∉ k} (RecencyList.policy .back) RecencyList.new
      (new RecencyList.new : DbState (fun _ => 0) RecencyList) := .start
  have hempty : RecencyList.cache RecencyList.new = [] := rfl
  refine (CacheReached.tracksStored separated_nulFree (RecencyList.tracks .back) hempty ?_).1
  refine .step (w := .replacing 0 0) (e := .command (.rename [97] [98])) (.step
    (w := .replacing 0 0) (e := .command (.insertStr [97] [98])) hstart rfl
    allocateAbove_not_mem (by decide) ?_ rfl) rfl allocateAbove_not_mem (by decide) ?_ rfl
  · exact forall_mem_singleton.2 ⟨by decide, rfl⟩
  · refine forall_mem_cons.2 ⟨⟨by decide, rfl⟩, ?_⟩
    exact forall_mem_singleton.2 ⟨by decide, rfl⟩

/-- The key `a` expires on access; its address stays in the cache and is the victim. -/
theorem expired_key_tracked :
    ∃ (replies : List Reply) (s : DbState (fun _ => 0) RecencyList),
      execAll [(.replacing 0 0, .insertStr [97] [98]), (.replacing 0 0, .expireAtMs [97] 1),
        (.replacing 1 0, .getStr [97])] (new RecencyList.new) = some (replies, s) ∧
      s.dict.entries = [] ∧ s.side.keys = [] ∧
      (RecencyList.policy .back).victim s.side.cache = some 1 :=
  ⟨_, _, rfl, rfl, rfl, rfl⟩

end DbState

/-! ## One replacement -/

/-- The key `v` with the address `a` is gone from everywhere, and the other keys are as
they were. -/
structure AbsDb.Evicts (tracked : C → List Addr) (a : Addr) (v : Str)
    (s s' : AbsDb hash C) : Prop where
  dict : s'.dict.get v = none
  expDict : s'.expDict.get v = none
  cache : a ∉ tracked s'.side.cache
  shards : ∀ shard ∈ s'.side.shards, a ∉ shard.2
  dict_of_ne : ∀ k, k ≠ v → s'.dict.get k = s.dict.get k
  expDict_of_ne : ∀ k, k ≠ v → s'.expDict.get k = s.expDict.get k
  shards_of_ne : ∀ b, b ≠ a → ∀ id,
    (∃ l, (id, l) ∈ s'.side.shards ∧ b ∈ l) ↔ ∃ l, (id, l) ∈ s.side.shards ∧ b ∈ l

/-- The call comes back; it changes nothing, or it evicts the victim of the policy, which
is not the key of the caller. -/
def DbState.ReplacesCleanly (w : World C) (p : CachePolicy C) (tracked : C → List Addr)
    (key : Option Str) (s : DbState hash C) : Prop :=
  ∃ s', (Db.tryReplacekey w key).run DbState.handler s = some ((), s') ∧
    (s'.abs = s.abs ∨ ∃ a v, p.victim s.side.cache = some a ∧ s.side.keyAt a = some v ∧
      key ≠ some v ∧ AbsDb.Evicts tracked a v s.abs s'.abs)

/-- There is a key, and a victim of the policy, if one is looked for and is not this key,
is stored and has neither a deadline nor a place in a shard. -/
def AbsDb.Replaceable (w : World C) (p : CachePolicy C) (key : Option Str)
    (s : AbsDb hash C) : Prop :=
  ∃ k, key = some k ∧ (w.makeShardId k ∉ s.side.lockedShards →
    ∀ a, p.victim s.side.cache = some a → s.side.addressOf k ≠ some a →
      ∃ v data, s.side.keyAt a = some v ∧ s.dict.get v = some data ∧
        s.expDict.get v = none ∧ ∀ shard ∈ s.side.shards, a ∉ shard.2)

namespace Db

variable {w : World C} {p : CachePolicy C} {s : AbsDb hash C} {k : Str}

section Full

variable (hpolicy : w.policy = some p) (hfull : w.config.maxMemoryUsage ≤ w.memoryUsage)

include hpolicy hfull

theorem run_tryReplacekey_null : (tryReplacekey w none).run AbsDb.handler s = none := by
  simp [tryReplacekey, hpolicy, Nat.not_lt.2 hfull]

theorem run_tryReplacekey_locked (hlocked : w.makeShardId k ∈ s.side.lockedShards) :
    (tryReplacekey w (some k)).run AbsDb.handler s = some ((), s) := by
  simp [tryReplacekey, hpolicy, Nat.not_lt.2 hfull, hlocked]

variable (hlocked : w.makeShardId k ∉ s.side.lockedShards)

include hlocked

theorem run_tryReplacekey_noVictim (hvictim : p.victim s.side.cache = none) :
    (tryReplacekey w (some k)).run AbsDb.handler s = some ((), s) := by
  simp [tryReplacekey, hpolicy, Nat.not_lt.2 hfull, hlocked, hvictim]

theorem run_tryReplacekey_own (hvictim : p.victim s.side.cache = some a)
    (hown : s.side.addressOf k = some a) :
    (tryReplacekey w (some k)).run AbsDb.handler s = some ((), s) := by
  simp [tryReplacekey, hpolicy, Nat.not_lt.2 hfull, hlocked, hvictim, hown]

variable {a : Addr} (hvictim : p.victim s.side.cache = some a)
  (hown : s.side.addressOf k ≠ some a) {v : Str}

include hvictim hown

theorem run_tryReplacekey_dangling (hkey : s.side.keyAt a = none) :
    (tryReplacekey w (some k)).run AbsDb.handler s = none := by
  simp [tryReplacekey, hpolicy, Nat.not_lt.2 hfull, hlocked, hvictim, hown, hkey]

theorem run_tryReplacekey_absent (hkey : s.side.keyAt a = some v)
    (hget : s.dict.get v = none) :
    (tryReplacekey w (some k)).run AbsDb.handler s = none := by
  simp [tryReplacekey, hpolicy, Nat.not_lt.2 hfull, hlocked, hvictim, hown, hkey,
    run_extract_none hget]

theorem run_tryReplacekey_evicts (hkey : s.side.keyAt a = some v)
    {data : MmkvData hash} (hget : s.dict.get v = some data) :
    ∃ log, (tryReplacekey w (some k)).run AbsDb.handler s =
      some ((), ⟨s.dict.extract v, s.expDict, { s.side with
        keys := (s.side.unlinkKey v).keys
        cache := p.delVictim s.side.cache
        log := log }⟩) := by
  by_cases hlog : w.config.logMethod = .request
  · refine ⟨s.side.log ++ [v], ?_⟩
    simp [tryReplacekey, hpolicy, Nat.not_lt.2 hfull, hlocked, hvictim, hown, hkey,
      run_extract_some hget, appendDel, hlog, Side.unlinkKey]
  · refine ⟨s.side.log, ?_⟩
    simp [tryReplacekey, hpolicy, Nat.not_lt.2 hfull, hlocked, hvictim, hown, hkey,
      run_extract_some hget, appendDel, hlog, Side.unlinkKey]

end Full

end Db

namespace DbState

variable {U : Set Str} {w : World C} {p : CachePolicy C} {tracked : C → List Addr}
  {s : DbState hash C}

theorem ReplacesCleanly.of_run (hU : Separated U) (hs : s.KeysIn U) {key : Option Str}
    {b : AbsDb hash C} (hrun : (Db.tryReplacekey w key).run AbsDb.handler s.abs = some ((), b))
    (hb : b = s.abs ∨ ∃ a v, p.victim s.side.cache = some a ∧ s.side.keyAt a = some v ∧
      key ≠ some v ∧ AbsDb.Evicts tracked a v s.abs b) :
    s.ReplacesCleanly w p tracked key := by
  have hsame := run_abs hU (Db.obeys_tryReplacekey (SideRule.keys_allows U w) key).keeps hs
  rw [hrun] at hsame
  obtain ⟨s', hrun', -, rfl⟩ := hsame.exists_of_right
  exact ⟨s', hrun', hb⟩

/-- A replacement is clean exactly if there is a key to compare with and the victim, if
it comes to one, is stored and has neither a deadline nor a place in a shard. -/
theorem replacesCleanly_iff (hU : Separated U) (hpolicy : w.policy = some p)
    (htracks : p.Tracks tracked) (hfull : w.config.maxMemoryUsage ≤ w.memoryUsage)
    (hs : s.KeysIn U) (hdistinct : s.side.Distinct) (key : Option Str) :
    s.ReplacesCleanly w p tracked key ↔ s.abs.Replaceable w p key := by
  constructor
  · rintro ⟨s', hrun, hcase⟩
    have hsame := run_abs hU (Db.obeys_tryReplacekey (SideRule.keys_allows U w) key).keeps hs
    rw [hrun] at hsame
    obtain ⟨b, habs, -, rfl⟩ := hsame.exists_of_left
    cases key with
    | none =>
      rw [Db.run_tryReplacekey_null hpolicy hfull] at habs
      cases habs
    | some k =>
      refine ⟨k, rfl, ?_⟩
      intro hlocked a hvictim hown
      cases hkey : s.abs.side.keyAt a with
      | none =>
        rw [Db.run_tryReplacekey_dangling hpolicy hfull hlocked hvictim hown hkey] at habs
        cases habs
      | some v =>
        cases hget : s.abs.dict.get v with
        | none =>
          rw [Db.run_tryReplacekey_absent hpolicy hfull hlocked hvictim hown hkey hget]
            at habs
          cases habs
        | some data =>
          obtain ⟨log, hevicts⟩ := Db.run_tryReplacekey_evicts hpolicy hfull hlocked
            hvictim hown hkey hget
          have hs' := (Prod.mk.inj (Option.some.inj (habs.symm.trans hevicts))).2
          rw [hs'] at hcase
          obtain hsame | ⟨a', v', hvictim', hkey', -, hgone⟩ := hcase
          · have hnone := congrArg (fun b : AbsDb hash C => b.dict.get v) hsame
            simp [AbsDict.extract, AbsDict.remove, hget] at hnone
          · cases hvictim.symm.trans hvictim'
            cases hkey.symm.trans hkey'
            exact ⟨v, data, rfl, hget, hgone.expDict, hgone.shards⟩
  · rintro ⟨k, rfl, hclean⟩
    by_cases hlocked : w.makeShardId k ∈ s.abs.side.lockedShards
    · exact .of_run hU hs (Db.run_tryReplacekey_locked hpolicy hfull hlocked) (.inl rfl)
    cases hvictim : p.victim s.abs.side.cache with
    | none =>
      exact .of_run hU hs (Db.run_tryReplacekey_noVictim hpolicy hfull hlocked hvictim)
        (.inl rfl)
    | some a =>
      by_cases hown : s.abs.side.addressOf k = some a
      · exact .of_run hU hs (Db.run_tryReplacekey_own hpolicy hfull hlocked hvictim hown)
          (.inl rfl)
      · obtain ⟨v, data, hkey, hget, hexp, hshards⟩ := hclean hlocked a hvictim hown
        obtain ⟨log, hevicts⟩ := Db.run_tryReplacekey_evicts hpolicy hfull hlocked hvictim
          hown hkey hget
        have hne : k ≠ v := by
          rintro rfl
          exact hown (hdistinct.addressOf_iff.2 (hdistinct.keyAt_iff.1 hkey))
        refine .of_run hU hs hevicts (.inr ⟨a, v, hvictim, hkey, by simpa using hne, ?_⟩)
        exact {
          dict := by simp [AbsDict.extract, AbsDict.remove]
          expDict := hexp
          cache := fun hmem => ((htracks.delVictim a a _ hvictim).1 hmem).2 rfl
          shards := hshards
          dict_of_ne := fun k hk => by simp [AbsDict.extract, AbsDict.remove, hk]
          expDict_of_ne := fun _ _ => rfl
          shards_of_ne := fun _ _ _ => Iff.rfl }

/-- `a` makes room for `b`: the keys `a` and `b` are stored, and `b` is used. -/
theorem oldKey_replaced :
    ∃ s : DbState (fun _ => 0) RecencyList,
      execAll [(.replacing 0 0, .insertStr [97] [98]), (.replacing 0 0, .insertStr [98] [98])]
        (new RecencyList.new) = some ([.ok .none, .ok .none], s) ∧
      s.ReplacesCleanly (.replacing 0 100) (RecencyList.policy .back) RecencyList.cache
        (some [98]) := by
  refine ⟨_, rfl, ?_⟩
  refine (replacesCleanly_iff (U := {k | 0 ∉ k}) separated_nulFree rfl (RecencyList.tracks .back)
    (by decide) ?_ ?_ _).2 ?_
  · exact
      { dict := show ∀ kv ∈ Dict.entries _, 0 ∉ kv.key by decide
        expDict := show ∀ kv ∈ Dict.entries _, 0 ∉ kv.key by decide
        side := show ∀ q ∈ Side.keys _, 0 ∉ q.2 by decide }
  · exact ⟨by decide, by decide⟩
  · refine ⟨[98], rfl, ?_⟩
    intro _ a ha _
    have ha : some 1 = some a := ha
    cases ha
    exact ⟨[97], .string [98], rfl, rfl, rfl, forall_mem_nil _⟩

/-- `InsertStr` with the memory used up dereferences a null pointer; `Rename` evicts the
key `a` and leaves its deadline. -/
theorem insertStr_replaces_null :
    exec (.replacing 0 100) (.insertStr [97] [98])
      (new RecencyList.new : DbState (fun _ => 0) RecencyList) = none ∧
    ∃ (replies : List Reply) (s : DbState (fun _ => 0) RecencyList),
      execAll [(.replacing 0 0, .insertStr [97] [98]), (.replacing 0 0, .expireAtMs [97] 1),
        (.replacing 0 0, .insertStr [98] [98]), (.replacing 0 100, .rename [98] [99])]
        (new RecencyList.new) = some (replies, s) ∧
      s.dict.entries.map KeyValue.key = [[99]] ∧ s.expDict.entries = [⟨[97], 1⟩] :=
  ⟨rfl, _, _, rfl, rfl, rfl⟩

end DbState

end Mmkv
