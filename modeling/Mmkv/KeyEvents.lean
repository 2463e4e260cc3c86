import Mmkv.ExpirationInvariant

/-!
# What happens to the stored keys

The replacement cache and the shard index hold addresses of stored keys.  Whatever a
command does, it changes them by a few events: a key is touched, inserted, removed,
expired, evicted or renamed, or everything is cleared.  Here each command is followed
through its events.  What holds of the cache or of the index is then shown for each event.
-/

namespace Mmkv

open EffectPrograms List Side Function

variable {hash : Str → Nat} {C : Type} {w : World C} {oldName newName : Str} {e : KeyEvent}

def World.Allocates (w : World C) : Prop :=
  ∀ used, w.allocate used ∉ used

def allocateAbove (used : List Addr) : Addr :=
  used.foldr max 0 + 1

theorem allocateAbove_not_mem (used : List Addr) : allocateAbove used ∉ used := by
  have hle : ∀ a ∈ used, a ≤ used.foldr max 0 := by
    induction used with
    | nil => simp
    | cons b used ih => grind
  intro hmem
  exact Nat.not_succ_le_self _ (hle _ hmem)

/-! ## Keys and their addresses -/

namespace Side

def addrs (σ : Side C) : List Addr :=
  σ.keys.map Prod.fst

def names (σ : Side C) : List Str :=
  σ.keys.map Prod.snd

structure Distinct (σ : Side C) : Prop where
  addrs : σ.addrs.Nodup
  names : σ.names.Nodup

variable {σ : Side C} {k : Str} {a : Addr} {τ : Side C}

theorem addrs_congr (hkeys : τ.keys = σ.keys) : τ.addrs = σ.addrs :=
  congrArg (List.map Prod.fst) hkeys

theorem names_congr (hkeys : τ.keys = σ.keys) : τ.names = σ.names :=
  congrArg (List.map Prod.snd) hkeys

theorem Distinct.of_keys_eq (h : σ.Distinct) (hkeys : τ.keys = σ.keys) : τ.Distinct where
  addrs := by
    rw [addrs_congr hkeys]
    exact h.addrs
  names := by
    rw [names_congr hkeys]
    exact h.names

theorem Distinct.keyAt_iff (h : σ.Distinct) : σ.keyAt a = some k ↔ (a, k) ∈ σ.keys := by
  have hrep : KeyedStore.Represents Prod.fst σ.keys _ := KeyedStore.represents_ofList h.addrs
  rw [hrep.mem_iff]
  simp only [keyAt, KeyedStore.ofList, Option.map_eq_some_iff]
  grind

theorem Distinct.addressOf_iff (h : σ.Distinct) : σ.addressOf k = some a ↔ (a, k) ∈ σ.keys := by
  have hrep : KeyedStore.Represents Prod.snd σ.keys _ := KeyedStore.represents_ofList h.names
  rw [hrep.mem_iff]
  simp only [addressOf, KeyedStore.ofList, Option.map_eq_some_iff]
  grind

theorem Distinct.exists_addressOf (h : σ.Distinct) (hk : k ∈ σ.names) :
    ∃ a, (a, k) ∈ σ.keys ∧ σ.addressOf k = some a := by
  obtain ⟨⟨a, k'⟩, hmem, rfl⟩ := mem_map.1 hk
  exact ⟨a, hmem, h.addressOf_iff.2 hmem⟩

/-! ### Links -/

theorem names_unlinkKey (σ : Side C) (k : Str) : (σ.unlinkKey k).names = σ.names.erase k := by
  simp only [names, unlinkKey]
  induction σ.keys with
  | nil => rfl
  | cons p keys ih => grind

theorem mem_keys_unlinkKey (h : σ.Distinct) {p : Addr × Str} :
    p ∈ (σ.unlinkKey k).keys ↔ p ∈ σ.keys ∧ p.2 ≠ k := by
  have hnames : (σ.unlinkKey k).names.Nodup := by
    rw [names_unlinkKey]
    exact h.names.erase k
  constructor
  · intro hp
    refine ⟨mem_of_mem_eraseP hp, ?_⟩
    rintro rfl
    have hmem : p.2 ∈ σ.names.erase p.2 := by
      rw [← names_unlinkKey]
      exact mem_map_of_mem hp
    exact (h.names.mem_erase_iff.1 hmem).1 rfl
  · rintro ⟨hp, hne⟩
    exact (mem_eraseP_of_neg (by simpa using hne)).2 hp

theorem Distinct.unlinkKey (h : σ.Distinct) (k : Str) : (σ.unlinkKey k).Distinct where
  addrs := h.addrs.sublist (List.Sublist.map _ eraseP_sublist)
  names := by
    rw [names_unlinkKey]
    exact h.names.erase k

theorem addrs_renameKey (σ : Side C) (oldName newName : Str) :
    (σ.renameKey oldName newName).addrs = σ.addrs := by
  simp only [addrs, renameKey, map_map]
  apply map_congr_left
  grind

theorem names_renameKey (σ : Side C) (oldName newName : Str) : (σ.renameKey oldName newName).names =
      σ.names.map fun k => if k = oldName then newName else k := by
  simp only [names, renameKey, map_map]
  apply map_congr_left
  grind

theorem Distinct.renameKey (h : σ.Distinct)
    (hnew : newName ∉ σ.names) : (σ.renameKey oldName newName).Distinct where
  addrs := by
    rw [addrs_renameKey]
    exact h.addrs
  names := by
    rw [names_renameKey]
    refine List.Nodup.map_on ?_ h.names
    grind

theorem Distinct.linkKey (h : σ.Distinct) (hw : w.Allocates)
    (hk : k ∉ σ.names) : (σ.linkKey w k).Distinct where
  addrs := nodup_cons.2 ⟨hw _, h.addrs⟩
  names := nodup_cons.2 ⟨hk, h.names⟩

/-! ### Cache and shards -/

variable (w : World C)

theorem onAddress_keys {f : Addr → Side C} (hf : ∀ a, (f a).keys = σ.keys) (k : Str) :
    (σ.onAddress k f).keys = σ.keys := by
  unfold onAddress
  cases σ.addressOf k with
  | none => rfl
  | some a => exact hf a

@[simp] theorem keys_touch (k : Str) (σ : Side C) : (σ.touch w k).keys = σ.keys := by
  unfold touch
  cases w.policy with
  | none => rfl
  | some p =>
    apply onAddress_keys
    exact fun _ => rfl

@[simp] theorem keys_uncache (k : Str) (σ : Side C) : (σ.uncache w k).keys = σ.keys := by
  unfold uncache
  cases w.policy with
  | none => rfl
  | some p =>
    apply onAddress_keys
    exact fun _ => rfl

@[simp] theorem keys_file (k : Str) (σ : Side C) : (σ.file w k).keys = σ.keys := by
  unfold file
  split
  · exact onAddress_keys (fun _ => modifyShard_keys _ _) k
  · rfl

@[simp] theorem keys_unfile (k : Str) (σ : Side C) : (σ.unfile w k).keys = σ.keys := by
  unfold unfile
  split
  · exact onAddress_keys (fun _ => modifyShard_keys _ _) k
  · rfl

end Side

/-! ## Events -/

inductive KeyEvent where
  | touched (k : Str)
  | inserted (k : Str)
  | removed (k : Str)
  | expired (k : Str)
  | evicted (k : Str)
  | renamed (oldName newName : Str)
  | cleared
  deriving Repr, DecidableEq

namespace KeyEvent

def apply (w : World C) : KeyEvent → Side C → Side C
  | .touched k, σ => σ.touch w k
  | .inserted k, σ => ((σ.linkKey w k).touch w k).file w k
  | .removed k, σ => ((σ.unfile w k).uncache w k).unlinkKey k
  | .expired k, σ => σ.unlinkKey k
  | .evicted k, σ =>
    { σ with cache := w.policy.elim σ.cache fun p => p.delVictim σ.cache }.unlinkKey k
  | .renamed oldName newName, σ => (σ.renameKey oldName newName).touch w newName
  | .cleared, σ =>
    { σ with
      keys := []
      cache := w.policy.elim σ.cache fun p => p.clear σ.cache
      shards := [] }

/-- Only a stored key can go, only the victim of the policy is evicted, and a new name is
not in use. -/
def Allowed (w : World C) (σ : Side C) : KeyEvent → Prop
  | .touched k => k ∈ σ.names
  | .inserted k => k ∉ σ.names
  | .removed k => k ∈ σ.names
  | .expired k => k ∈ σ.names
  | .evicted k => w.victim σ = some k
  | .renamed oldName newName => oldName ∈ σ.names ∧ newName ∉ σ.names
  | .cleared => True

theorem apply_distinct (hw : w.Allocates) {σ : Side C} (h : σ.Distinct)
    (he : e.Allowed w σ) : (e.apply w σ).Distinct := by
  cases e with
  | touched k => exact h.of_keys_eq (keys_touch w k σ)
  | inserted k => exact (h.linkKey hw he).of_keys_eq (by simp [apply])
  | removed k =>
    refine Side.Distinct.unlinkKey (h.of_keys_eq ?_) k
    simp
  | expired k => exact h.unlinkKey k
  | evicted k =>
    refine Side.Distinct.unlinkKey (h.of_keys_eq ?_) k
    rfl
  | renamed oldName newName => exact (h.renameKey he.2).of_keys_eq (keys_touch w _ _)
  | cleared => exact ⟨nodup_nil, nodup_nil⟩

end KeyEvent

/-- One event after another, all with the property, and entries of the log. -/
inductive Side.Path (w : World C) (P : KeyEvent → Prop) (σ : Side C) : Side C → Prop where
  | refl : Path w P σ σ
  | step {τ : Side C} {e : KeyEvent} (path : Path w P σ τ) (holds : P e)
      (allowed : e.Allowed w τ) : Path w P σ (e.apply w τ)
  | logged {τ : Side C} (path : Path w P σ τ) (log : List Str) :
      Path w P σ { τ with log := log }

namespace Side.Path

variable {w : World C} {P : KeyEvent → Prop} {σ τ υ : Side C}

theorem trans (h : Path w P σ τ) (h' : Path w P τ υ) : Path w P σ υ := by
  induction h' with
  | refl => exact h
  | step _ holds allowed ih => exact .step ih holds allowed
  | logged _ log ih => exact .logged ih log

theorem single (holds : P e) (allowed : e.Allowed w σ) : Path w P σ (e.apply w σ) :=
  .step .refl holds allowed

theorem keeps {I : Side C → Prop} (hw : w.Allocates)
    (hstep : ∀ e σ, P e → e.Allowed w σ → σ.Distinct → I σ → I (e.apply w σ))
    (hlog : ∀ σ log, I σ → I { σ with log := log }) (h : Path w P σ τ)
    (hσ : σ.Distinct) (hI : I σ) : τ.Distinct ∧ I τ := by
  induction h with
  | refl => exact ⟨hσ, hI⟩
  | step _ holds allowed ih =>
    exact ⟨KeyEvent.apply_distinct hw ih.1 allowed, hstep _ _ holds allowed ih.1 ih.2⟩
  | logged _ log ih => exact ⟨ih.1.of_keys_eq rfl, hlog _ log ih.2⟩

end Side.Path

/-! ## Stored keys have addresses -/

/-- Exactly the keys of the dictionary and those of the nodes in `held`, which have been
extracted, have an address, and each has its own. -/
structure AbsDb.LinkedBut (held : List Str) (a : AbsDb hash C) : Prop where
  distinct : a.side.Distinct
  mem_names : ∀ k, k ∈ a.side.names ↔ (a.dict.get k).isSome ∨ k ∈ held

abbrev AbsDb.Linked (a : AbsDb hash C) : Prop :=
  a.LinkedBut []

namespace AbsDb.LinkedBut

variable {held : List Str} {a b : AbsDb hash C} {k : Str} {data : MmkvData hash}

theorem of_eq (h : a.LinkedBut held) (hkeys : b.side.keys = a.side.keys)
    (hdict : ∀ k, (b.dict.get k).isSome = (a.dict.get k).isSome) : b.LinkedBut held where
  distinct := h.distinct.of_keys_eq hkeys
  mem_names := by
    intro k
    rw [names_congr hkeys, hdict]
    exact h.mem_names k

theorem mem_of_isSome (h : a.LinkedBut held) (hget : (a.dict.get k).isSome) : k ∈ a.side.names :=
  (h.mem_names k).2 (.inl hget)

theorem not_mem_of_get (h : a.Linked) (hget : a.dict.get k = none) : k ∉ a.side.names := by
  rw [h.mem_names]
  simp [hget]

theorem drop (h : a.LinkedBut held) (hk : k ∉ held)
    (hkeys : b.side.keys = (a.side.unlinkKey k).keys)
    (hdict : b.dict.get = update a.dict.get k none) : b.LinkedBut held where
  distinct := (h.distinct.unlinkKey k).of_keys_eq hkeys
  mem_names := by
    intro k'
    rw [names_congr hkeys, names_unlinkKey, h.distinct.names.mem_erase_iff, h.mem_names, hdict]
    grind

theorem insert (h : a.Linked) (hw : w.Allocates) (hget : a.dict.get k = none)
    (hkeys : b.side.keys = (a.side.linkKey w k).keys)
    (hdict : b.dict.get = update a.dict.get k (some data)) : b.Linked where
  distinct := (h.distinct.linkKey hw (h.not_mem_of_get hget)).of_keys_eq hkeys
  mem_names := by
    intro k'
    have hnames : b.side.names = k :: a.side.names := names_congr hkeys
    rw [hnames, mem_cons, h.mem_names, hdict]
    grind

theorem rename (h : a.Linked) (hold : (a.dict.get k).isSome) {newName : Str}
    (hnew : a.dict.get newName = none)
    (hkeys : b.side.keys = (a.side.renameKey k newName).keys)
    (hdict : b.dict.get = update (update a.dict.get k none) newName (some data)) :
    b.Linked where
  distinct := (h.distinct.renameKey (h.not_mem_of_get hnew)).of_keys_eq hkeys
  mem_names := by
    intro k'
    rw [names_congr hkeys, names_renameKey, mem_map, hdict]
    by_cases hkk : k' = newName
    · subst hkk
      simp only [update_self, Option.isSome_some, true_or, iff_true]
      exact ⟨k, h.mem_of_isSome hold, if_pos rfl⟩
    · rw [update_of_ne hkk]
      simp only [not_mem_nil, or_false]
      constructor
      · rintro ⟨x, hx, hxk⟩
        split at hxk
        · exact absurd hxk.symm hkk
        · next hne =>
          subst hxk
          rw [update_of_ne hne]
          simpa using (h.mem_names x).1 hx
      · intro hsome
        refine ⟨k', (h.mem_names k').2 (.inl (AbsDict.isSome_of_update_none hsome)), if_neg ?_⟩
        rintro rfl
        simp at hsome

end AbsDb.LinkedBut

/-! ## Commands and their events -/

/-- The property is one that the events of a command on these keys have. -/
structure KeyEvent.Admits (P : KeyEvent → Prop) (w : World C) (a : AbsDb hash C)
    (keys : List Str) : Prop where
  touched : ∀ k, P (.touched k)
  inserted : ∀ k ∈ keys, P (.inserted k)
  removed : ∀ k, P (.removed k)
  expired : ∀ k ∈ keys, a.lapsed w k = true → P (.expired k)
  evicted : ∀ k, w.victim a.side = some k → P (.evicted k)
  cleared : P .cleared

/-- Values and deadlines have no address of their own. -/
def Change.event : Change hash → Option KeyEvent
  | .touched k => some (.touched k)
  | .inserted k _ => some (.inserted k)
  | .removed k _ => some (.removed k)
  | .expired k => some (.expired k)
  | .evicted k => some (.evicted k)
  | .renamed oldName newName _ => some (.renamed oldName newName)
  | .cleared => some .cleared
  | .written .. | .dated .. | .undated _ => none

variable {w : World C} {P : KeyEvent → Prop}

theorem Change.Leads.follows (hw : w.Allocates) {c : Change hash} {a b : AbsDb hash C}
    (h : c.Leads w a b) (ha : a.Linked) (hP : ∀ e, c.event = some e → P e) :
    Side.Path w P a.side b.side ∧ b.Linked := by
  obtain ⟨hallowed, hvalues, -, hside⟩ := h
  obtain ⟨dict, expDict, σ⟩ := b
  obtain rfl : σ = c.side w a.side := hside
  cases c with
  | touched k =>
    refine ⟨.single (hP _ rfl) (ha.mem_of_isSome hallowed), ha.of_eq ?_ fun _ => ?_⟩
    · exact keys_touch w k a.side
    · rw [hvalues]
      rfl
  | written k old data =>
    refine ⟨.refl, ha.of_eq rfl fun k' => ?_⟩
    have hold : a.dict.get k = some old := hallowed
    rw [hvalues]
    by_cases hk : k' = k
    · simp [Change.values, hk, hold]
    · simp [Change.values, hk]
  | inserted k data =>
    refine ⟨.single (hP _ rfl) (ha.not_mem_of_get hallowed), ha.insert hw hallowed ?_ hvalues⟩
    simp [Change.side]
  | removed k deadline =>
    refine ⟨.single (hP _ rfl) (ha.mem_of_isSome hallowed), ha.drop not_mem_nil ?_ hvalues⟩
    simp [Change.side, Side.unlinkKey]
  | expired k =>
    refine ⟨?_, ha.drop not_mem_nil rfl hvalues⟩
    exact .logged (.single (hP _ rfl) (ha.mem_of_isSome hallowed.1)) _
  | evicted k =>
    refine ⟨?_, ha.drop not_mem_nil rfl hvalues⟩
    exact .logged (.single (hP _ rfl) hallowed.2) _
  | renamed oldName newName data =>
    have hold : (a.dict.get oldName).isSome := by simp [hallowed.1]
    refine ⟨.single (hP _ rfl) ⟨ha.mem_of_isSome hold, ha.not_mem_of_get hallowed.2⟩, ?_⟩
    exact ha.rename hold hallowed.2 (keys_touch w _ _) hvalues
  | cleared =>
    refine ⟨.single (hP _ rfl) trivial, ⟨nodup_nil, nodup_nil⟩, fun k => ?_⟩
    rw [hvalues]
    simp [Side.names, Change.side, Change.values]
  | dated k expire | undated k =>
    refine ⟨.refl, ha.of_eq rfl fun _ => ?_⟩
    rw [hvalues]
    rfl

theorem Action.follows (hw : w.Allocates) {a : AbsDb hash C} (x : Action hash) (ha : a.Linked)
    (hP : KeyEvent.Admits P w a (x.keys w))
    (hrenamed : ∀ oldName newName, x = .rename oldName newName → P (.renamed oldName newName)) :
    Ensures AbsDb.handler (x.run w) a fun _ b =>
      Side.Path w P a.side b.side ∧ b.Linked := by
  refine (x.changes w a).mono fun _ b hpath => ?_
  refine hpath.keeps (I := fun b => Side.Path w P a.side b.side ∧ b.Linked) ?_ ⟨.refl, ha⟩
  rintro b b' c hdoes hleads ⟨hpath, hb⟩
  obtain ⟨hstep, hb'⟩ := hleads.follows hw hb (P := P) fun e he => by
    cases c with
    | touched k =>
      cases he
      exact hP.touched k
    | inserted k data =>
      cases he
      exact hP.inserted k hdoes
    | removed k deadline =>
      cases he
      exact hP.removed k
    | expired k =>
      cases he
      obtain ⟨rfl, hk⟩ := hdoes
      exact hP.expired k hk hleads.allowed.2
    | evicted k =>
      cases he
      obtain ⟨rfl, -⟩ := hdoes
      exact hP.evicted k hleads.allowed.2
    | renamed oldName newName data =>
      cases he
      exact hrenamed oldName newName hdoes.2.eq_rename
    | cleared =>
      cases he
      exact hP.cleared
    | written _ _ _ | dated _ _ | undated _ => cases he
  exact ⟨hpath.trans hstep, hb'⟩

/-! ## The timer -/

namespace Db

/-- The program goes along a path of events and leaves no key without its address. -/
abbrev Follows {α : Type} (w : World C) (P : KeyEvent → Prop) (p : Db hash C α)
    (a : AbsDb hash C) : Prop :=
  Ensures AbsDb.handler p a fun _ b => Side.Path w P a.side b.side ∧ b.Linked

variable {w : World C} {P : KeyEvent → Prop} {a : AbsDb hash C} {deadlines : List (KeyValue UInt64)}

theorem follows_dropExpired (ha : a.Linked)
    (hP : ∀ kv ∈ deadlines, kv.value ≤ w.now → P (.expired kv.key)) :
    Follows w P (dropExpired w deadlines) a := by
  induction deadlines generalizing a with
  | nil => exact .pure ⟨.refl, ha⟩
  | cons kv rest ih =>
    have hrest : ∀ kv ∈ rest, kv.value ≤ w.now → P (.expired kv.key) :=
      fun kv' hkv' => hP kv' (.tail _ hkv')
    apply Ensures.ite
    · intro hpassed
      cases hget : a.dict.get kv.key with
      | none => exact Ensures.step (run_extract_none hget) .abort
      | some data =>
        refine Ensures.step (run_extract_some hget) ?_
        refine (ih (ha.drop (k := kv.key) not_mem_nil rfl rfl) hrest).bind ?_
        rintro _ b ⟨hpath, hb⟩
        refine .pure ⟨Side.Path.trans ?_ hpath, hb⟩
        exact .single (hP kv (.head _) hpassed) (ha.mem_of_isSome (by simp [hget]))
    · exact fun _ => ih ha hrest

theorem ensures_eraseDeadlines (keys : List Str) :
    Ensures AbsDb.handler (eraseDeadlines keys) a fun _ b =>
      b.side = a.side ∧ b.dict = a.dict := by
  induction keys generalizing a with
  | nil => exact .pure ⟨rfl, rfl⟩
  | cons k keys ih => exact Ensures.step run_expErase ih

theorem follows_checkExpireCycle (ha : a.Linked)
    (hP : ∀ kv ∈ deadlines, kv.value ≤ w.now → P (.expired kv.key)) :
    Follows w P (checkExpireCycle w deadlines) a := by
  refine (follows_dropExpired ha hP).bind ?_
  rintro keys b ⟨hpath, hb⟩
  refine (ensures_eraseDeadlines keys).bind ?_
  rintro _ b' ⟨hside, hdict⟩
  have hb' : b'.Linked := hb.of_eq (by rw [hside]) fun _ => by rw [hdict]
  rw [← hside] at hpath
  apply Ensures.ite
  · intro _ _ c hrun
    cases hrun
    exact ⟨.logged hpath _, hb'.of_eq rfl fun _ => rfl⟩
  · exact fun _ => .pure ⟨hpath, hb'⟩

end Db

/-- The property is one that the events of this step of the database have. -/
def Event.Admits (P : KeyEvent → Prop) (w : World C) (s : DbState hash C) : Event → Prop
  | .command c =>
    KeyEvent.Admits P w s.abs (c.keys w) ∧
      ∀ oldName newName, c = .rename oldName newName → P (.renamed oldName newName)
  | .checkExpireCycle => ∀ kv ∈ s.expDict.entries, kv.value ≤ w.now → P (.expired kv.key)

theorem Command.eq_rename {c : Command} {now : UInt64}
    (h : (c.action now : Action hash) = .rename oldName newName) :
    c = .rename oldName newName := by
  cases c <;> cases h
  rfl

/-- What an event does beside the dictionaries is a path of admitted key events. -/
theorem DbState.perform_follows {U : Set Str} (hU : Separated U) (hw : w.Allocates) {e : Event}
    {s s' : DbState hash C} (hs : s.KeysIn U) (hlinked : s.abs.Linked)
    (hkeys : ∀ c, e = .command c → ∀ k ∈ c.keys w, k ∈ U) (he : e.Admits P w s)
    (hstep : s.perform w e = some s') :
    s'.KeysIn U ∧ s'.abs.Linked ∧ Side.Path w P s.side s'.side := by
  cases e with
  | command c =>
    obtain ⟨reply, hrun, hin⟩ := exec_of_perform hU (hkeys c rfl) hs hstep
    have hP : KeyEvent.Admits P w s.abs ((c.action w.now : Action hash).keys w) := by
      rw [Command.keys_action]
      exact he.1
    obtain ⟨hpath, hb⟩ := Action.follows hw _ hlinked hP
      (fun oldName newName h => he.2 oldName newName (Command.eq_rename h)) _ _ hrun
    exact ⟨hin, hb, hpath⟩
  | checkExpireCycle =>
    obtain ⟨u, hrun, hin⟩ := checkExpireCycle_of_perform hU hs hstep
    obtain ⟨hpath, hb⟩ := Db.follows_checkExpireCycle hlinked he _ _ hrun
    exact ⟨hin, hb, hpath⟩

theorem DbState.linked_new (cache : C) : (.new cache : DbState hash C).abs.Linked where
  distinct := ⟨nodup_nil, nodup_nil⟩
  mem_names := by
    intro k
    have hget : (DbState.new cache : DbState hash C).abs.dict.get k = none := by
      have hentries : (Dict.new : Dict hash (MmkvData hash)).entries = [] :=
        TreeHashTable.entries_new
      simp [DbState.abs, DbState.new, Dict.abs, hentries]
    have hnames : (.new cache : DbState hash C).abs.side.names = [] := rfl
    rw [hnames, hget]
    simp

end Mmkv
