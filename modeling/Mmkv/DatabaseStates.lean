import Mmkv.Commands

/-!
# Two ways to run a command

A command runs on the tables (`DbState`) and on partial functions from keys to
values and deadlines (`AbsDb`).  For keys that `strcmp` does not confuse the
second run is the first one seen through `DbState.abs`.  The argument is made
once, for every program that keeps to a given set of keys.
-/

namespace Mmkv

open EffectPrograms AbsDict KeyValue

variable {hash : Str → Nat} {C : Type}

structure DbState (hash : Str → Nat) (C : Type) where
  dict : Dict hash (MmkvData hash)
  expDict : Dict hash UInt64
  side : Side C

def DbState.handler : Handler (dbInterface hash C) (DbState hash C)
  | .dict op, s => ((s.dict.step op).1, { s with dict := (s.dict.step op).2 })
  | .expDict op, s => ((s.expDict.step op).1, { s with expDict := (s.expDict.step op).2 })
  | .side _ f, s => ((f s.side).1, { s with side := (f s.side).2 })

def DbState.exec (w : World C) (c : Command) (s : DbState hash C) :
    Option (Reply × DbState hash C) :=
  (c.run w).run DbState.handler s

def DbState.checkExpireCycle (w : World C) (s : DbState hash C) : Option (Unit × DbState hash C) :=
  (Db.checkExpireCycle w s.expDict.entries).run DbState.handler s

/-- Commands one after the other, each in the world that it finds. -/
def DbState.execAll :
    List (World C × Command) → DbState hash C → Option (List Reply × DbState hash C)
  | [], s => some ([], s)
  | (w, c) :: cs, s => do
    let (reply, s) ← s.exec w c
    let (replies, s) ← execAll cs s
    return (reply :: replies, s)

def DbState.new (cache : C) : DbState hash C :=
  ⟨Dict.new, Dict.new, ⟨[], cache, [], [], false, []⟩⟩

/-- The key `a` with the value `b` and the deadline 1. -/
def expiringDb : DbState (fun _ => 0) Unit :=
  ((DbState.execAll
    [(.standalone true 0, .insertStr [97] [98]), (.standalone true 0, .expireAtMs [97] 1)]
    (DbState.new ())).get rfl).2

@[ext] structure AbsDb (hash : Str → Nat) (C : Type) where
  dict : AbsDict (MmkvData hash)
  expDict : AbsDict UInt64
  side : Side C

def AbsDb.handler : Handler (dbInterface hash C) (AbsDb hash C)
  | .dict op, s => ((s.dict.step op).1, { s with dict := (s.dict.step op).2 })
  | .expDict op, s => ((s.expDict.step op).1, { s with expDict := (s.expDict.step op).2 })
  | .side _ f, s => ((f s.side).1, { s with side := (f s.side).2 })

def AbsDb.exec (w : World C) (c : Command) (s : AbsDb hash C) : Option (Reply × AbsDb hash C) :=
  (c.run w).run AbsDb.handler s

/-! ## What a state holds -/

namespace Dict

variable {V : Type}

def abs (d : Dict hash V) : AbsDict V where
  get k := (d.entries.find? fun kv => decide (kv.key = k)).map value
  used := d.tables.size

variable (d : Dict hash V)

theorem keys_nodup : (d.entries.map key).Nodup := by
  have hpairwise := Tables.WF.pairwise_apart TreeHashTable.kind_lawful d.wf
  apply List.pairwise_map.mpr
  apply hpairwise.imp
  intro x y happly hkey
  have hapart := happly (by simp [hkey])
  apply hapart
  rw [hkey]
  exact strcmp_self _

theorem store_abs : d.abs.store = KeyedStore.ofList key d.entries := by
  funext k
  simp only [AbsDict.store, abs, KeyedStore.ofList]
  cases hfind : d.entries.find? fun kv => decide (kv.key = k) with
  | none => rfl
  | some kv =>
    have hkey : kv.key = k := by simpa using List.find?_some hfind
    simp [← hkey]

theorem represents_abs : KeyedStore.Represents key d.entries d.abs.store := by
  rw [store_abs]
  exact KeyedStore.represents_ofList d.keys_nodup

theorem isSome_abs_iff (k : Str) : (d.abs.get k).isSome ↔ k ∈ d.entries.map key := by
  constructor
  · intro hsome
    rcases Option.isSome_iff_exists.mp hsome with ⟨v, hget⟩
    have hmem : (⟨k, v⟩ : KeyValue V) ∈ d.entries :=
      (d.represents_abs.mem_iff _).mpr (store_eq_some.mpr ⟨hget, rfl⟩)
    exact List.mem_map.mpr ⟨_, hmem, rfl⟩
  · intro hmem
    rcases List.mem_map.mp hmem with ⟨kv, hkv, rfl⟩
    have hget := store_eq_some.mp ((d.represents_abs.mem_iff kv).mp hkv)
    simp [hget.1]

/-- Every stored key is in `U`. -/
def KeysIn (U : Set Str) (d : Dict hash V) : Prop :=
  ∀ kv ∈ d.entries, kv.key ∈ U

variable {U : Set Str} {d : Dict hash V}

theorem holds_abs (hkeys : d.KeysIn U) : Holds U d d.abs where
  represents := d.represents_abs
  size := rfl
  keys := by
    intro k v hget
    have hmem : (⟨k, v⟩ : KeyValue V) ∈ d.entries :=
      (d.represents_abs.mem_iff _).mpr (store_eq_some.mpr ⟨hget, rfl⟩)
    exact hkeys _ hmem

variable {a : AbsDict V}

theorem abs_get_eq (hrep : KeyedStore.Represents key d.entries a.store) :
    d.abs.get = a.get := by
  funext k
  apply Option.ext
  intro v
  have hiff := (d.represents_abs.mem_iff ⟨k, v⟩).symm.trans (hrep.mem_iff ⟨k, v⟩)
  rw [store_eq_some, store_eq_some] at hiff
  simpa using hiff

theorem Holds.eq_abs (hd : Holds U d a) : a = d.abs := by
  rcases a with ⟨get, used⟩
  have hused : d.tables.size = used := hd.size
  have hget : d.abs.get = get := abs_get_eq hd.represents
  rw [← hget, ← hused]
  rfl

theorem Holds.keysIn (hd : Holds U d a) : d.KeysIn U := fun _ hkv => hd.mem_keys hkv

end Dict

def DbState.abs (s : DbState hash C) : AbsDb hash C :=
  ⟨s.dict.abs, s.expDict.abs, s.side⟩

/-! ## Programs that keep to a set of keys -/

def Side.KeysIn (U : Set Str) (σ : Side C) : Prop :=
  ∀ p ∈ σ.keys, p.2 ∈ U

structure DbState.KeysIn (U : Set Str) (s : DbState hash C) : Prop where
  dict : s.dict.KeysIn U
  expDict : s.expDict.KeysIn U
  side : s.side.KeysIn U

theorem DbState.keysIn_new (U : Set Str) (cache : C) :
    (DbState.new cache : DbState hash C).KeysIn U where
  dict := by
    have hentries : (Dict.new : Dict hash (MmkvData hash)).entries = [] := TreeHashTable.entries_new
    simp [DbState.new, Dict.KeysIn, hentries]
  expDict := by
    have hentries : (Dict.new : Dict hash UInt64).entries = [] := TreeHashTable.entries_new
    simp [DbState.new, Dict.KeysIn, hentries]
  side := by simp [DbState.new, Side.KeysIn]

theorem expiringDb_keysIn : expiringDb.KeysIn {k | 0 ∉ k} where
  dict := by
    have hdict : expiringDb.dict.entries = [⟨[97], .string [98]⟩] := rfl
    simp [Dict.KeysIn, hdict]
  expDict := by
    have hexp : expiringDb.expDict.entries = [⟨[97], 1⟩] := rfl
    simp [Dict.KeysIn, hexp]
  side := by
    have hkeys : expiringDb.side.keys = [(0, [97])] := rfl
    simp [Side.KeysIn, hkeys]

/-- The keys in an answer are in `U`. -/
def DictOp.AnsIn {V : Type} (U : Set Str) : (op : DictOp V) → op.Ans → Prop
  | .find _, a => ∀ kv ∈ a, kv.key ∈ U
  | .insertKvWithDuplicate _ _, a => a.2.key ∈ U
  | .extract _, a => ∀ kv ∈ a, kv.key ∈ U
  | _, _ => True

/-- What a program may do beside the dictionaries, and what it is told. -/
structure SideRule (C : Type) where
  pre : (α : Type) → (Side C → α × Side C) → Prop
  post : (α : Type) → (Side C → α × Side C) → α → Prop

/-- Stored keys of `U` only. -/
def SideRule.keys (U : Set Str) : SideRule C where
  pre _ f := ∀ σ, σ.KeysIn U → (f σ).2.KeysIn U
  post _ f a := ∃ σ, σ.KeysIn U ∧ a = (f σ).1

def SideRule.blind : SideRule C where
  pre α _ := Subsingleton α
  post _ _ _ := True

/-- Calls that do not depend on a key concern the whole dictionary. -/
def DictOp.IsWhole {V : Type} : DictOp V → Prop
  | .size => True
  | .clear => True
  | _ => False

/-- Calls name keys of `U` only; calls on a whole dictionary are made only if
`whole` allows it. -/
def keyContract (U : Set Str) (whole : Prop) (rule : SideRule C) :
    Contract (dbInterface hash C) Unit where
  pre
    | .dict op, _ => op.On U ∧ (op.IsWhole → whole)
    | .expDict op, _ => op.On U ∧ (op.IsWhole → whole)
    | .side α f, _ => rule.pre α f
  post
    | .dict op, _, a, _ => op.AnsIn U a
    | .expDict op, _, a, _ => op.AnsIn U a
    | .side α f, _, a, _ => rule.post α f a

variable {U : Set Str} {V : Type} {op : DictOp V}

theorem AbsDict.ansIn (a : AbsDict V) (hop : op.On U) : op.AnsIn U (a.step op).1 := by
  cases op with
  | find k =>
    intro kv hkv
    simp only [step, Option.mem_def, Option.map_eq_some_iff] at hkv
    rcases hkv with ⟨v, -, rfl⟩
    exact hop
  | insertKvWithDuplicate k v =>
    simp only [DictOp.AnsIn, step]
    split <;> exact hop
  | extract k =>
    intro kv hkv
    simp only [step] at hkv
    split at hkv
    · cases hkv
      exact hop
    · cases hkv
  | write k v => trivial
  | dropNode => trivial
  | push k v => trivial
  | eraseNode k => trivial
  | erase k => trivial
  | size => trivial
  | clear => trivial

/-! ## On the tables as on the functions -/

/-- The state and its counterpart, with all keys in `U`. -/
structure Matches (U : Set Str) (s : DbState hash C) (a : AbsDb hash C) : Prop where
  dict : Dict.Holds U s.dict a.dict
  expDict : Dict.Holds U s.expDict a.expDict
  side : s.side = a.side
  keys : s.side.KeysIn U

variable {s : DbState hash C}

theorem matches_abs (hkeys : s.KeysIn U) : Matches U s s.abs where
  dict := Dict.holds_abs hkeys.dict
  expDict := Dict.holds_abs hkeys.expDict
  side := rfl
  keys := hkeys.side

variable {a : AbsDb hash C}

theorem Matches.eq_abs (hmatch : Matches U s a) : a = s.abs := by
  ext1
  · exact hmatch.dict.eq_abs
  · exact hmatch.expDict.eq_abs
  · exact hmatch.side.symm

theorem Matches.keysIn (hmatch : Matches U s a) : s.KeysIn U :=
  ⟨hmatch.dict.keysIn, hmatch.expDict.keysIn, hmatch.keys⟩

theorem handler_matches (hU : Separated U) (op : DbOp hash C) (hmatch : Matches U s a)
    (hpre : (keyContract U True (.keys U)).pre op ()) :
    (DbState.handler op s).1 = (AbsDb.handler op a).1 ∧
      (keyContract U True (.keys U)).post op () (DbState.handler op s).1 () ∧
      Matches U (DbState.handler op s).2 (AbsDb.handler op a).2 := by
  cases op with
  | dict op =>
    have hstep := Dict.step_holds hU hmatch.dict hpre.1
    have hans : op.AnsIn U (s.dict.step op).1 := by
      rw [hstep.1]
      exact a.dict.ansIn hpre.1
    exact ⟨hstep.1, hans, hstep.2, hmatch.expDict, hmatch.side, hmatch.keys⟩
  | expDict op =>
    have hstep := Dict.step_holds hU hmatch.expDict hpre.1
    have hans : op.AnsIn U (s.expDict.step op).1 := by
      rw [hstep.1]
      exact a.expDict.ansIn hpre.1
    exact ⟨hstep.1, hans, hmatch.dict, hstep.2, hmatch.side, hmatch.keys⟩
  | side α f =>
    have hans : (f s.side).1 = (f a.side).1 := by rw [hmatch.side]
    have hside : (f s.side).2 = (f a.side).2 := by rw [hmatch.side]
    have hkeys := hpre s.side hmatch.keys
    exact ⟨hans, ⟨s.side, hmatch.keys, rfl⟩, hmatch.dict, hmatch.expDict, hside, hkeys⟩

variable {α : Type} {p : Db hash C α} {Q : α → Unit → Prop}

/-- A program that keeps to separated keys runs alike on the tables and on the
functions, and leaves no other keys behind. -/
theorem run_abs (hU : Separated U) (hp : Meets (keyContract U True (.keys U)) p () Q)
    (hs : s.KeysIn U) :
    SameOutcome (fun _ s' a' => s'.KeysIn U ∧ a' = s'.abs)
      (p.run DbState.handler s) (p.run AbsDb.handler s.abs) := by
  have hstep : ∀ (op : DbOp hash C) (g : Unit) (s : DbState hash C) (a : AbsDb hash C),
      Matches U s a → (keyContract U True (.keys U)).pre op g →
        (DbState.handler op s).1 = (AbsDb.handler op a).1 ∧
          ∃ g', (keyContract U True (.keys U)).post op g (DbState.handler op s).1 g' ∧
            Matches U (DbState.handler op s).2 (AbsDb.handler op a).2 := by
    intro op _ s a hmatch hpre
    have h := handler_matches hU op hmatch hpre
    exact ⟨h.1, (), h.2.1, h.2.2⟩
  have hsame := hp.same_outcome _ _ (fun _ => Matches U) hstep (matches_abs hs)
  apply hsame.mono
  rintro r s' a' ⟨-, hmatch, -⟩
  exact ⟨hmatch.keysIn, hmatch.eq_abs⟩

/-- Calls look for stored keys only. -/
def storedContract : Contract (dbInterface hash C) (AbsDb hash C) where
  pre
    | .dict op, a => op.OnStored a.dict
    | .expDict op, a => op.OnStored a.expDict
    | .side _ _, _ => True
  post op a ans a' := (ans, a') = AbsDb.handler op a

theorem handler_matches_stored (op : DbOp hash C) (hmatch : Matches Set.univ s a)
    (hpre : storedContract.pre op a) :
    (DbState.handler op s).1 = (AbsDb.handler op a).1 ∧
      Matches Set.univ (DbState.handler op s).2 (AbsDb.handler op a).2 := by
  cases op with
  | dict op =>
    have hstep := Dict.step_holds_stored hmatch.dict hpre
    exact ⟨hstep.1, hstep.2, hmatch.expDict, hmatch.side, fun _ _ => trivial⟩
  | expDict op =>
    have hstep := Dict.step_holds_stored hmatch.expDict hpre
    exact ⟨hstep.1, hmatch.dict, hstep.2, hmatch.side, fun _ _ => trivial⟩
  | side α f =>
    have hsame : f s.side = f a.side := congrArg f hmatch.side
    exact ⟨congrArg Prod.fst hsame, hmatch.dict, hmatch.expDict, congrArg Prod.snd hsame,
      fun _ _ => trivial⟩

/-- The program comes to its end and looks for stored keys only. -/
structure Reaches {α : Type} (p : Db hash C α) (a : AbsDb hash C) (r : α) (b : AbsDb hash C) :
    Prop where
  run : p.run AbsDb.handler a = some (r, b)
  stored : Meets storedContract p a fun r' b' => (r', b') = (r, b)

namespace Reaches

variable {α β : Type} {p : Db hash C α} {f : α → Db hash C β} {b c : AbsDb hash C} {r : α}
  {r' : β}

theorem pure : Reaches (Pure.pure r) a r a := ⟨rfl, rfl⟩

theorem request {op : DbOp hash C} {r : (dbInterface hash C).Ans op}
    (hrun : (Program.request op).run AbsDb.handler a = some (r, b))
    (hpre : storedContract.pre op a) : Reaches (Program.request op) a r b :=
  ⟨hrun, hpre, fun _ _ hpost => hpost.trans (Option.some.inj hrun)⟩

theorem bind (h : Reaches p a r b) (h' : Reaches (f r) b r' c) : Reaches (p >>= f) a r' c where
  run := (Program.run_bind_of_some h.run f).trans h'.run
  stored := by
    refine Meets.bind_iff.mpr (h.stored.mono fun r1 b1 heq => ?_)
    cases heq
    exact h'.stored

/-- Such a program runs alike on the tables whatever the keys are. -/
theorem exists_run (h : Reaches p s.abs r b) :
    ∃ s', p.run DbState.handler s = some (r, s') ∧ b = s'.abs := by
  have hstep : ∀ (op : DbOp hash C) (g : AbsDb hash C) (s : DbState hash C) (a : AbsDb hash C),
      g = a ∧ Matches Set.univ s a → storedContract.pre op g →
        (DbState.handler op s).1 = (AbsDb.handler op a).1 ∧
          ∃ g', storedContract.post op g (DbState.handler op s).1 g' ∧
            g' = (AbsDb.handler op a).2 ∧
              Matches Set.univ (DbState.handler op s).2 (AbsDb.handler op a).2 := by
    rintro op g s a ⟨rfl, hmatch⟩ hpre
    have hboth := handler_matches_stored op hmatch hpre
    exact ⟨hboth.1, _, by rw [hboth.1]; rfl, rfl, hboth.2⟩
  have hkeys : s.KeysIn Set.univ := ⟨fun _ _ => trivial, fun _ _ => trivial, fun _ _ => trivial⟩
  have hsame := h.stored.same_outcome _ _ (fun g s a => g = a ∧ Matches Set.univ s a) hstep
    ⟨rfl, matches_abs hkeys⟩
  rw [h.run] at hsame
  obtain ⟨s', hrun, g, ⟨-, hmatch⟩, -⟩ := hsame.exists_of_right
  exact ⟨s', hrun, hmatch.eq_abs⟩

end Reaches

/-! ## Dependence on the named keys only -/

/-- The same values and deadlines for the keys of `U`. -/
structure AbsDb.AgreeOn (U : Set Str) (a a' : AbsDb hash C) : Prop where
  dict : ∀ k ∈ U, a.dict.get k = a'.dict.get k
  expDict : ∀ k ∈ U, a.expDict.get k = a'.expDict.get k

variable {a' : AbsDb hash C}

theorem AbsDb.AgreeOn.symm (h : a.AgreeOn U a') : a'.AgreeOn U a :=
  ⟨fun k hk => (h.dict k hk).symm, fun k hk => (h.expDict k hk).symm⟩

theorem AbsDict.step_local (hop : op.On U) (hwhole : ¬ op.IsWhole) {a a' : AbsDict V}
    (hagree : ∀ k ∈ U, a.get k = a'.get k) :
    (a.step op).1 = (a'.step op).1 ∧
      (∀ k ∈ U, (a.step op).2.get k = (a'.step op).2.get k) ∧
      ∀ k ∉ U, (a.step op).2.get k = a.get k := by
  cases op with
  | size => exact absurd trivial hwhole
  | clear => exact absurd trivial hwhole
  | dropNode => exact ⟨rfl, hagree, fun _ _ => rfl⟩
  | find k => exact ⟨by simp [step, hagree k hop], hagree, fun _ _ => rfl⟩
  | eraseNode k =>
    refine ⟨rfl, ?_, ?_⟩
    · intro k' hk'
      simp only [step, get_remove, hagree k' hk']
    · intro k' hk'
      have hne : k' ≠ k := fun h => hk' (h ▸ hop)
      simp [step, get_remove, hne]
  | insertKvWithDuplicate k v | write k v | extract k | push k v | erase k =>
    have hk : k ∈ U := hop
    have hget := hagree k hk
    have hne : ∀ k' ∉ U, k' ≠ k := fun k' hk' h => hk' (h ▸ hk)
    cases hval : a.get k with
    | none =>
      simp only [step, hval, ← hget]
      refine ⟨trivial, ?_, ?_⟩ <;> intro k' hk' <;> simp_all [insert, set, Function.update_apply]
    | some v =>
      simp only [step, hval, ← hget]
      refine ⟨trivial, ?_, ?_⟩ <;> intro k' hk' <;>
        simp_all [set, extract, remove, Function.update_apply]

/-- Two runs from `a` and `a'` have come to `b` and `b'`: nothing has changed
outside `U`, and inside they agree. -/
structure AbsDb.LocalTo (U : Set Str) (a a' b b' : AbsDb hash C) : Prop where
  inside : b.AgreeOn U b'
  outside : b.AgreeOn Uᶜ a
  outside' : b'.AgreeOn Uᶜ a'

theorem handler_local (op : DbOp hash C) {b b' : AbsDb hash C} (hlocal : AbsDb.LocalTo U a a' b b')
    (hpre : (keyContract U False .blind).pre op ()) :
    (AbsDb.handler op b).1 = (AbsDb.handler op b').1 ∧
      (keyContract U False .blind).post op () (AbsDb.handler op b).1 () ∧
      AbsDb.LocalTo U a a' (AbsDb.handler op b).2 (AbsDb.handler op b').2 := by
  rcases hlocal with ⟨hin, hout, hout'⟩
  cases op with
  | dict op =>
    have h := step_local hpre.1 hpre.2 hin.dict
    have h' := step_local hpre.1 hpre.2 hin.symm.dict
    refine ⟨h.1, b.dict.ansIn hpre.1, ⟨h.2.1, hin.expDict⟩, ⟨?_, hout.expDict⟩, ⟨?_, hout'.expDict⟩⟩
    · intro k hk
      exact (h.2.2 k hk).trans (hout.dict k hk)
    · intro k hk
      exact (h'.2.2 k hk).trans (hout'.dict k hk)
  | expDict op =>
    have h := step_local hpre.1 hpre.2 hin.expDict
    have h' := step_local hpre.1 hpre.2 hin.symm.expDict
    refine ⟨h.1, b.expDict.ansIn hpre.1, ⟨hin.dict, h.2.1⟩, ⟨hout.dict, ?_⟩, ⟨hout'.dict, ?_⟩⟩
    · intro k hk
      exact (h.2.2 k hk).trans (hout.expDict k hk)
    · intro k hk
      exact (h'.2.2 k hk).trans (hout'.expDict k hk)
  | side α f =>
    have hsub : Subsingleton α := hpre
    exact ⟨hsub.elim _ _, trivial, ⟨hin.dict, hin.expDict⟩,
      ⟨hout.dict, hout.expDict⟩, ⟨hout'.dict, hout'.expDict⟩⟩

/-- A program that keeps to the keys of `U` and asks nothing else depends on
nothing else and changes nothing else. -/
theorem run_local (hp : Meets (keyContract U False .blind) p () Q) (hagree : a.AgreeOn U a') :
    SameOutcome (fun _ => AbsDb.LocalTo U a a')
      (p.run AbsDb.handler a) (p.run AbsDb.handler a') := by
  have hstep : ∀ (op : DbOp hash C) (g : Unit) (b b' : AbsDb hash C),
      AbsDb.LocalTo U a a' b b' → (keyContract U False .blind).pre op g →
        (AbsDb.handler op b).1 = (AbsDb.handler op b').1 ∧
          ∃ g', (keyContract U False .blind).post op g (AbsDb.handler op b).1 g' ∧
            AbsDb.LocalTo U a a' (AbsDb.handler op b).2 (AbsDb.handler op b').2 := by
    intro op _ b b' hlocal hpre
    have h := handler_local op hlocal hpre
    exact ⟨h.1, (), h.2.1, h.2.2⟩
  have hstart : AbsDb.LocalTo U a a' a a' :=
    ⟨hagree, ⟨fun _ _ => rfl, fun _ _ => rfl⟩, ⟨fun _ _ => rfl, fun _ _ => rfl⟩⟩
  have hsame := hp.same_outcome _ _ (fun _ => AbsDb.LocalTo U a a') hstep hstart
  apply hsame.mono
  rintro r b b' ⟨-, hlocal, -⟩
  exact hlocal

end Mmkv
