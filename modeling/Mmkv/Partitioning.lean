import Mmkv.DatabaseManager
import Mmkv.KeyIndependence
import Mathlib.Algebra.Ring.Nat
import Mathlib.Data.List.FinRange

/-!
# Several instances and one

With several instances each key has its own, and a request goes to the instance of its
key.  Here the instances are compared with a single database that is given the same
requests.  They hold the same data as long as the other keys of a request have the same
instance as its key.
-/

namespace Mmkv

open List AbsDict Function

open EffectPrograms

variable {hash : Str → Nat} {C : Type} {U : Set Str}

/-! ## Reported sizes -/

namespace AbsDict

variable {V : Type} {a a' : AbsDict V} {k : Str}

def Counted (a : AbsDict V) : Prop :=
  ∀ l : List Str, l.Nodup → (∀ k ∈ l, (a.get k).isSome) → l.length ≤ a.used

variable {v : V}

theorem Counted.one_le (h : a.Counted) (hget : a.get k = some v) : 1 ≤ a.used := by
  refine h [k] (nodup_singleton k) ?_
  grind

theorem Counted.insert (h : a.Counted) (k : Str) (v : V) : (a.insert k v).Counted := by
  intro l hl hsome
  have hlength : l.length ≤ (l.erase k).length + 1 := by grind
  refine Nat.le_trans hlength (Nat.succ_le_succ (h _ (hl.erase k) ?_))
  intro k' hk'
  have hne : k' ≠ k := (hl.mem_erase_iff.1 hk').1
  have hsome' := hsome k' (mem_of_mem_erase hk')
  simpa [AbsDict.insert, set, hne] using hsome'

theorem Counted.set (h : a.Counted) {old : V} (hget : a.get k = some old) (v : V) :
    (a.set k v).Counted := by
  intro l hl hsome
  refine h l hl fun k' hk' => ?_
  by_cases hkk : k' = k
  · rw [hkk, hget]
    rfl
  · have hsome' := hsome k' hk'
    simpa [AbsDict.set, hkk] using hsome'

theorem isSome_of_remove {k' : Str} (h : ((a.remove k).get k').isSome) :
    k' ≠ k ∧ (a.get k').isSome := by
  rw [get_remove] at h
  grind

theorem Counted.remove (h : a.Counted) (k : Str) : (a.remove k).Counted :=
  fun l hl hsome => h l hl fun k' hk' => (isSome_of_remove (hsome k' hk')).2

theorem Counted.extract (h : a.Counted) (hget : a.get k = some v) : (a.extract k).Counted := by
  intro l hl hsome
  have hleft : ∀ k' ∈ l, k' ≠ k ∧ (a.get k').isSome := fun k' hk' => isSome_of_remove (hsome k' hk')
  have hle := h (k :: l) (nodup_cons.2 ⟨fun hk => (hleft k hk).1 rfl, hl⟩) ?_
  · rw [length_cons] at hle
    change l.length ≤ a.used - 1
    omega
  · grind

theorem Counted.step (h : a.Counted) (op : DictOp V) : (a.step op).2.Counted := by
  cases op with
  | find k => exact h
  | dropNode => exact h
  | size => exact h
  | eraseNode k => exact h.remove k
  | clear =>
    intro l _ hsome
    cases l with
    | nil => exact Nat.le_refl _
    | cons k l => cases hsome k (.head _)
  | insertKvWithDuplicate k v =>
    simp only [AbsDict.step]
    split
    · exact h
    · exact h.insert k v
  | push k v =>
    simp only [AbsDict.step]
    split
    · exact h
    · exact h.insert k v
  | write k v =>
    simp only [AbsDict.step]
    split
    · next hget => exact h.set hget v
    · exact h
  | extract k =>
    simp only [AbsDict.step]
    split
    · next hget => exact h.extract hget
    · exact h
  | erase k =>
    simp only [AbsDict.step]
    split
    · next hget => exact h.extract hget
    · exact h

theorem step_used {op : DictOp V} (hop : op.On U) (hwhole : ¬ op.IsWhole)
    (hagree : ∀ k ∈ U, a.get k = a'.get k) (h : a.Counted) (h' : a'.Counted) :
    (a.step op).2.used + a'.used = (a'.step op).2.used + a.used := by
  cases op with
  | size => exact absurd trivial hwhole
  | clear => exact absurd trivial hwhole
  | dropNode => exact Nat.add_comm _ _
  | find k => exact Nat.add_comm _ _
  | eraseNode k => exact Nat.add_comm _ _
  | insertKvWithDuplicate k v | write k v | extract k | push k v | erase k =>
    have hget := hagree k hop
    cases hval : a.get k with
    | none =>
      simp only [step, hval, ← hget, insert]
      omega
    | some old =>
      rw [hval] at hget
      have hle := h.one_le hval
      have hle' := h'.one_le hget.symm
      simp only [step, hval, ← hget, set, extract]
      omega

end AbsDict

theorem Dict.counted_abs {V : Type} (d : Dict hash V) : d.abs.Counted := by
  intro l hl hsome
  have hsub : l ⊆ d.entries.map KeyValue.key := fun k hk => (d.isSome_abs_iff k).1 (hsome k hk)
  have hle := (hl.subperm hsub).length_le
  rw [length_map] at hle
  exact Nat.le_trans hle d.wf.counted

variable {α : Type}

/-- Two runs of a program that keeps to the keys of `U` add the same to the size. -/
theorem run_local_counted {p : Db hash C α} {Q : α → Unit → Prop}
    (hp : Meets (keyContract U False .blind) p () Q) {a a' : AbsDb hash C} (hagree : a.AgreeOn U a')
    (ha : a.dict.Counted) (ha' : a'.dict.Counted) :
    SameOutcome
      (fun _ b b' => AbsDb.LocalTo U a a' b b' ∧
        b.dict.used + a'.dict.used = b'.dict.used + a.dict.used)
      (p.run AbsDb.handler a) (p.run AbsDb.handler a') := by
  let R : AbsDb hash C → AbsDb hash C → Prop := fun b b' =>
    AbsDb.LocalTo U a a' b b' ∧ b.dict.Counted ∧ b'.dict.Counted ∧
      b.dict.used + a'.dict.used = b'.dict.used + a.dict.used
  have hstep : ∀ (op : DbOp hash C) (g : Unit) (b b' : AbsDb hash C),
      R b b' → (keyContract U False .blind).pre op g →
        (AbsDb.handler op b).1 = (AbsDb.handler op b').1 ∧
          ∃ g', (keyContract U False .blind).post op g (AbsDb.handler op b).1 g' ∧
            R (AbsDb.handler op b).2 (AbsDb.handler op b').2 := by
    rintro op _ b b' ⟨hlocal, hb, hb', hused⟩ hpre
    obtain ⟨hans, hpost, hlocal'⟩ := handler_local op hlocal hpre
    refine ⟨hans, (), hpost, hlocal', ?_⟩
    cases op with
    | dict op =>
      refine ⟨hb.step op, hb'.step op, ?_⟩
      have hstep := step_used hpre.1 hpre.2 hlocal.inside.dict hb hb'
      change (b.dict.step op).2.used + _ = (b'.dict.step op).2.used + _
      omega
    | expDict op => exact ⟨hb, hb', hused⟩
    | side α f => exact ⟨hb, hb', hused⟩
  have hstart : R a a' := by
    refine ⟨⟨hagree, ⟨fun _ _ => rfl, fun _ _ => rfl⟩, ⟨fun _ _ => rfl, fun _ _ => rfl⟩⟩, ha, ha',
      Nat.add_comm _ _⟩
  apply (hp.same_outcome _ _ (fun _ => R) hstep hstart).mono
  grind

/-- Two executions that fail alike, or come back with related results. -/
inductive SameResult {α S S' : Type} (A : α → α → Prop) (R : S → S' → Prop) :
    Except Fault (α × S) → Except Fault (α × S') → Prop
  | fault (f : Fault) : SameResult A R (.error f) (.error f)
  | result {a a' : α} {s : S} {s' : S'} (hA : A a a') (hR : R s s') :
      SameResult A R (.ok (a, s)) (.ok (a', s'))

theorem SameResult.map {β S S' T T' : Type} {A : α → α → Prop} {B : β → β → Prop}
    {R : S → S' → Prop} {Q : T → T' → Prop} {x : Except Fault (α × S)} {x' : Except Fault (α × S')}
    {f : α × S → β × T} {f' : α × S' → β × T'} (h : SameResult A R x x')
    (hf : ∀ a a' s s', A a a' → R s s' →
      B (f (a, s)).1 (f' (a', s')).1 ∧ Q (f (a, s)).2 (f' (a', s')).2) :
    SameResult B Q (x.map f) (x'.map f') := by
  cases h with
  | fault fault => exact .fault fault
  | result hA hR => exact .result (hf _ _ _ _ hA hR).1 (hf _ _ _ _ hA hR).2

namespace DatabaseManager

variable {m : DatabaseManager} {U : Set Str}

/-! ## The data of all instances -/

def whole (m : DatabaseManager) : DatabaseManager :=
  { m with bits := 0 }

theorem whole_index (i j : Fin m.whole.size) : i = j := by
  have hi : i.val < 1 := i.isLt
  have hj : j.val < 1 := j.isLt
  exact Fin.ext (by omega)

def share (m : DatabaseManager) (i : Fin m.size) : Set Str :=
  {k | m.getDatabaseInstance k = i}

def totalSize (s : m.Instances hash C) : Nat :=
  ((List.finRange m.size).map fun i => (s i).db.abs.dict.used).sum

/-- The single database holds what the instances hold, each for its own keys. -/
structure Partitions (U : Set Str) (s : m.Instances hash C) (t : DbState hash C) : Prop where
  keysIn : ∀ i, (s i).db.KeysIn U
  wholeKeysIn : t.KeysIn U
  agree : ∀ i, (s i).db.abs.AgreeOn (m.share i) t.abs
  dict : ∀ i, ∀ k ∉ m.share i, (s i).db.abs.dict.get k = none
  expDict : ∀ i, ∀ k ∉ m.share i, (s i).db.abs.expDict.get k = none
  size : totalSize s = t.abs.dict.used

theorem sum_map_update {ι : Type} [DecidableEq ι] (f : ι → Nat) (i : ι) (n : Nat)
    {l : List ι} (hl : l.Nodup) (hi : i ∈ l) :
    (l.map (update f i n)).sum + f i = (l.map f).sum + n := by
  induction l with
  | nil => cases hi
  | cons j l ih =>
    obtain ⟨hj, hl⟩ := nodup_cons.1 hl
    by_cases hij : i = j
    · subst hij
      have hrest : l.map (update f i n) = l.map f := by
        refine map_congr_left fun x hx => update_of_ne ?_ n f
        rintro rfl
        exact hj hx
      grind
    · grind

theorem totalSize_setDb (s : m.Instances hash C) (i : Fin m.size) (db : DbState hash C) :
    totalSize (setDb s i db) + (s i).db.abs.dict.used = totalSize s + db.abs.dict.used := by
  have hsizes : (fun j => (setDb s i db j).db.abs.dict.used) =
      update (fun j => (s j).db.abs.dict.used) i db.abs.dict.used := by
    funext j
    by_cases hj : j = i
    · subst hj
      rw [db_setDb_self, update_self]
    · rw [db_setDb_of_ne hj, update_of_ne hj]
  unfold totalSize
  rw [hsizes]
  exact sum_map_update _ i _ (nodup_finRange _) (mem_finRange i)

variable {s : m.Instances hash C} {t : DbState hash C} {i : Fin m.size}

theorem Partitions.setDb {db t' : DbState hash C} (h : Partitions U s t) (hdb : db.KeysIn U)
    (ht' : t'.KeysIn U) (hlocal : AbsDb.LocalTo (m.share i) (s i).db.abs t.abs db.abs t'.abs)
    (hused : db.abs.dict.used + t.abs.dict.used = t'.abs.dict.used + (s i).db.abs.dict.used) :
    Partitions U (setDb s i db) t' where
  keysIn j := by
    by_cases hj : j = i
    · subst hj
      rwa [db_setDb_self]
    · rw [db_setDb_of_ne hj]
      exact h.keysIn j
  wholeKeysIn := ht'
  agree j := by
    by_cases hj : j = i
    · subst hj
      rw [db_setDb_self]
      exact hlocal.inside
    · rw [db_setDb_of_ne hj]
      -- The keys of another instance are not among those that have changed.
      have hother : ∀ k ∈ m.share j, k ∈ (m.share i)ᶜ := fun k hk hk' => hj (hk.symm.trans hk')
      exact ⟨fun k hk => ((h.agree j).dict k hk).trans (hlocal.outside'.dict k (hother k hk)).symm,
        fun k hk => ((h.agree j).expDict k hk).trans (hlocal.outside'.expDict k (hother k hk)).symm⟩
  dict j k hk := by
    by_cases hj : j = i
    · subst hj
      rw [db_setDb_self, hlocal.outside.dict k hk]
      exact h.dict j k hk
    · rw [db_setDb_of_ne hj]
      exact h.dict j k hk
  expDict j k hk := by
    by_cases hj : j = i
    · subst hj
      rw [db_setDb_self, hlocal.outside.expDict k hk]
      exact h.expDict j k hk
    · rw [db_setDb_of_ne hj]
      exact h.expDict j k hk
  size := by
    have htotal := totalSize_setDb s i db
    have hsize := h.size
    omega

theorem Partitions.run (h : Partitions U s t) (hU : Separated U) {α : Type} {p : Db hash C α}
    {Q Q' : α → Unit → Prop} (hkeys : Meets (keyContract U True (.keys U)) p () Q)
    (hshare : Meets (keyContract (m.share i) False .blind) p () Q') :
    SameOutcome (fun _ db t' => Partitions U (DatabaseManager.setDb s i db) t')
      (p.run DbState.handler (s i).db) (p.run DbState.handler t) := by
  have hleft := run_abs hU hkeys (h.keysIn i)
  have hright := run_abs hU hkeys h.wholeKeysIn
  have hboth := run_local_counted hshare (h.agree i) (Dict.counted_abs _) (Dict.counted_abs _)
  cases hrun : p.run DbState.handler (s i).db with
  | none =>
    rw [hrun, sameOutcome_none_left] at hleft
    rw [hleft, sameOutcome_none_left] at hboth
    rw [hboth, sameOutcome_none_right] at hright
    rw [hright]
    exact .aborted
  | some r =>
    rw [hrun] at hleft
    obtain ⟨b, hb, hdb, rfl⟩ := hleft.exists_of_left
    rw [hb] at hboth
    obtain ⟨b', hb', hlocal, hused⟩ := hboth.exists_of_left
    rw [hb'] at hright
    obtain ⟨t', ht, ht', rfl⟩ := hright.exists_of_right
    rw [ht]
    exact .returned (h.setDb hdb ht' hlocal hused)

/-! ## The commands of an instance -/

section Commands

variable {w : World C} {recvTime : UInt64} {request : Request} {response : Response}
  {s : m.Instances hash C} {d : DbState hash C} {i : Fin m.size}

theorem Partitions.exec (h : Partitions U s d) (hU : Separated U) (hplain : w.Plain)
    {c : Command} (hwhole : c ≠ .deleteAll) (hkeys : ∀ k ∈ c.keys w, k ∈ U)
    (hshare : ∀ k ∈ c.keys w, k ∈ m.share i) :
    SameOutcome (fun _ db d' => Partitions U (DatabaseManager.setDb s i db) d')
      ((s i).db.exec w c) (d.exec w c) := by
  have hkeeps : Db.Keeps U True (.keys U) ((c.action w.now : Action hash).run w)
      fun _ => True := by
    apply Action.run_keeps (SideRule.keys_allows U w)
    · rwa [Command.keys_action]
    · exact fun _ => trivial
  have hblind : Db.Keeps (m.share i) False .blind ((c.action w.now : Action hash).run w)
      fun _ => True := by
    apply Action.run_keeps (SideRule.blind_allows _ hplain)
    · rwa [Command.keys_action]
    · exact Command.not_isWhole hwhole _
  exact h.run hU hkeeps hblind

theorem fault_of_executeOn {db : DbState hash C} {fault : Fault}
    (h : DatabaseInstance.executeOn w recvTime request (some response) db = .error fault) :
    fault = if ((request.selected recvTime).bind RequestCase.calls).isSome then .command
      else .valuesEnd := by
  unfold DatabaseInstance.executeOn at h
  cases hselected : request.selected recvTime with
  | none =>
    rw [hselected] at h
    cases h
  | some c =>
    rw [hselected] at h
    rcases c with ⟨valid, message, needsResponse, calls⟩
    cases valid with
    | false => cases h
    | true =>
      simp only [Option.isNone_some, Bool.and_false, Bool.false_eq_true, ↓reduceIte] at h
      cases calls with
      | none =>
        cases h
        rfl
      | some calls => exact fault_of_perform h

theorem Partitions.executeOn (h : Partitions U s d) (hU : Separated U) (hplain : w.Plain)
    (hkeys : ∀ k ∈ request.keys w recvTime, k ∈ U)
    (hshare : ∀ k ∈ request.keys w recvTime, k ∈ m.share i) (response : Response) :
    SameResult Eq (fun db d' => Partitions U (DatabaseManager.setDb s i db) d')
      (DatabaseInstance.executeOn w recvTime request (some response) (s i).db)
      (DatabaseInstance.executeOn w recvTime request (some response) d) := by
  have hsame : SameOutcome (fun _ db d' => Partitions U (DatabaseManager.setDb s i db) d')
      ((s i).db.execute w recvTime request (some response))
      (d.execute w recvTime request (some response)) :=
    h.run hU (DatabaseInstance.execute_keeps (SideRule.keys_allows U w) hkeys _)
      (DatabaseInstance.execute_keeps (SideRule.blind_allows _ hplain) hshare _)
  rw [← DatabaseInstance.toOption_executeOn, ← DatabaseInstance.toOption_executeOn] at hsame
  cases hleft : DatabaseInstance.executeOn w recvTime request (some response) (s i).db with
  | error fault =>
    rw [hleft] at hsame
    have hnone := sameOutcome_none_left.1 hsame
    cases hright : DatabaseInstance.executeOn w recvTime request (some response) d with
    | error fault' =>
      rw [fault_of_executeOn hleft, fault_of_executeOn hright]
      exact .fault _
    | ok r =>
      rw [hright] at hnone
      cases hnone
  | ok r =>
    rw [hleft] at hsame
    obtain ⟨d', hd', hpartitions⟩ := SameOutcome.exists_of_left hsame
    cases hright : DatabaseInstance.executeOn w recvTime request (some response) d with
    | error fault' =>
      rw [hright] at hd'
      cases hd'
    | ok r' =>
      rw [hright] at hd'
      cases hd'
      exact .result rfl hpartitions

end Commands

/-! ## The commands of the manager -/

structure Alike (U : Set Str) (s : m.Instances hash C) (t : m.whole.Instances hash C) :
    Prop where
  idle : Idle s
  wholeIdle : Idle t
  partitions : ∀ j, Partitions U s (t j).db

section Manager

variable {w : World C} {s : m.Instances hash C} {t : m.whole.Instances hash C} {d : DbState hash C}

theorem partitions_setDb (h : Partitions U s d) (j j' : Fin m.whole.size) :
    Partitions U s (setDb t j d j').db := by
  rw [whole_index j' j, db_setDb_self]
  exact h

variable {i : Fin m.size} {db : DbState hash C}

theorem Alike.setDb (h : Alike U s t) (hpartitions : Partitions U (setDb s i db) d)
    (j : Fin m.whole.size) :
    Alike U (DatabaseManager.setDb s i db) (DatabaseManager.setDb t j d) where
  idle := h.idle.setDb db
  wholeIdle := h.wholeIdle.setDb d
  partitions := partitions_setDb hpartitions j

/-! ### `KEYALL` -/

variable {k : Str}

theorem mem_getAllKeys : k ∈ getAllKeys s ↔ ∃ i, ((s i).db.abs.dict.get k).isSome := by
  unfold getAllKeys
  rw [mem_flatMap]
  constructor
  · rintro ⟨i, -, hk⟩
    exact ⟨i, ((s i).db.dict.isSome_abs_iff k).2 hk⟩
  · rintro ⟨i, hk⟩
    exact ⟨i, mem_finRange i, ((s i).db.dict.isSome_abs_iff k).1 hk⟩

theorem nodup_getAllKeys
    (h : ∀ i j k, ((s i).db.abs.dict.get k).isSome → ((s j).db.abs.dict.get k).isSome →
      i = j) : (getAllKeys s).Nodup := by
  unfold getAllKeys
  rw [nodup_flatMap]
  refine ⟨fun i _ => (s i).db.dict.keys_nodup, ?_⟩
  apply (nodup_finRange m.size).imp
  intro i j hne k hi hj
  exact hne (h i j k (((s i).db.dict.isSome_abs_iff k).2 hi)
    (((s j).db.dict.isSome_abs_iff k).2 hj))

theorem Partitions.mem_share (h : Partitions U s d) (hk : ((s i).db.abs.dict.get k).isSome) :
    k ∈ m.share i := by
  by_contra hnot
  rw [h.dict i k hnot] at hk
  cases hk

theorem Alike.perm_getAllKeys (h : Alike U s t) : (getAllKeys s).Perm (getAllKeys t) := by
  have hleft : (getAllKeys s).Nodup := by
    apply nodup_getAllKeys
    intro i j k hi hj
    have hpartitions := h.partitions (m.whole.getDatabaseInstance k)
    exact (hpartitions.mem_share hi).symm.trans (hpartitions.mem_share hj)
  have hright : (getAllKeys t).Nodup := nodup_getAllKeys fun i j _ _ _ => whole_index i j
  rw [perm_ext_iff_of_nodup hleft hright]
  intro k
  rw [mem_getAllKeys, mem_getAllKeys]
  constructor
  · rintro ⟨i, hi⟩
    have hpartitions := h.partitions (m.whole.getDatabaseInstance k)
    refine ⟨m.whole.getDatabaseInstance k, ?_⟩
    rwa [← (hpartitions.agree i).dict k (hpartitions.mem_share hi)]
  · rintro ⟨j, hj⟩
    refine ⟨m.getDatabaseInstance k, ?_⟩
    rwa [((h.partitions j).agree _).dict k rfl]

/-! ### `DELS` -/

theorem Alike.deleteKeys (hU : Separated U) (hplain : w.Plain) {keys : List Str}
    (hkeys : ∀ k ∈ keys, k ∈ U) (h : Alike U s t) :
    SameResult Eq (Alike U) (deleteKeys w keys s) (deleteKeys w keys t) := by
  induction keys generalizing s t with
  | nil => exact .result rfl h
  | cons key keys ih =>
    have hkey : ∀ k ∈ (Command.delete key).keys w, k = key := by
      simp [Command.keys, Command.action, MmkvDb.delete, Action.keys]
    have hsame := (h.partitions (m.whole.getDatabaseInstance key)).exec
      (i := m.getDatabaseInstance key) (c := .delete key) hU hplain (fun h => by cases h)
      (fun k hk => by
        rw [hkey k hk]
        exact hkeys key mem_cons_self)
      (fun k hk => by
        rw [hkey k hk]
        exact rfl)
    simp only [DatabaseManager.deleteKeys]
    cases hexec : (s (m.getDatabaseInstance key)).db.exec w (.delete key) with
    | none =>
      rw [hexec, sameOutcome_none_left] at hsame
      rw [hsame]
      exact .fault _
    | some r =>
      rw [hexec] at hsame
      obtain ⟨d, hd, hpartitions⟩ := SameOutcome.exists_of_left hsame
      rw [hd]
      have hrest := ih (fun k hk => hkeys k (mem_cons_of_mem _ hk))
        (h.setDb hpartitions (m.whole.getDatabaseInstance key))
      dsimp only
      revert hrest
      generalize DatabaseManager.deleteKeys w keys
        (DatabaseManager.setDb s (m.getDatabaseInstance key) r.2) = x
      generalize DatabaseManager.deleteKeys w keys
        (DatabaseManager.setDb t (m.whole.getDatabaseInstance key) d) = x'
      rintro (fault | ⟨rfl, halike⟩)
      · exact .fault fault
      · exact .result rfl halike

/-! ### `DELALL` -/

theorem exec_deleteAll (hU : Separated U) (hplain : w.Plain) (hdb : db.KeysIn U) :
    ∃ db', db.exec w .deleteAll = some (.ok (.number db.abs.dict.used), db') ∧
      db'.KeysIn U ∧ db'.abs.dict = .empty ∧ db'.abs.expDict = .empty := by
  have hrun : ∃ b, db.abs.exec w .deleteAll = some (.ok (.number db.abs.dict.used), b) ∧
      b.dict = .empty ∧ b.expDict = .empty := by
    change ∃ b, (Db.checkHasShardLockedKey w (Db.deleteAll w)).run AbsDb.handler db.abs = _ ∧ _
    rw [Db.checkHasShardLockedKey_plain hplain]
    exact ⟨_, rfl, rfl, rfl⟩
  obtain ⟨b, hb, hdict, hexpDict⟩ := hrun
  have hsame := DbState.exec_abs (w := w) (c := .deleteAll) hU
    (fun k hk => absurd hk not_mem_nil) hdb
  rw [hb] at hsame
  obtain ⟨db', hexec, hdb', rfl⟩ := SameOutcome.exists_of_right hsame
  exact ⟨db', hexec, hdb', hdict, hexpDict⟩

theorem deleteAllFrom_eq (hU : Separated U) (hplain : w.Plain) (hs : ∀ i, (s i).db.KeysIn U)
    {is : List (Fin m.size)} (his : is.Nodup) :
    ∃ s', deleteAllFrom w is s = .ok ((is.map fun i => (s i).db.abs.dict.used).sum, s') ∧
      ∀ i, (s' i).lock = (s i).lock ∧ (s' i).db.KeysIn U ∧
        (i ∈ is → (s' i).db.abs.dict = .empty ∧ (s' i).db.abs.expDict = .empty) ∧
        (i ∉ is → s' i = s i) := by
  induction is generalizing s with
  | nil => exact ⟨s, rfl, fun i => ⟨rfl, hs i, fun h => (by cases h), fun _ => rfl⟩⟩
  | cons i is ih =>
    obtain ⟨hi, his⟩ := nodup_cons.1 his
    obtain ⟨db, hexec, hdb, hdict, hexpDict⟩ := exec_deleteAll hU hplain (hs i)
    have hkeys : ∀ j, (setDb s i db j).db.KeysIn U := by
      intro j
      by_cases hj : j = i
      · subst hj
        rwa [db_setDb_self]
      · rw [db_setDb_of_ne hj]
        exact hs j
    obtain ⟨s', hrest, hs'⟩ := ih hkeys his
    have hsizes : (is.map fun j => (setDb s i db j).db.abs.dict.used) =
        is.map fun j => (s j).db.abs.dict.used := by
      refine map_congr_left fun j hj => ?_
      rw [db_setDb_of_ne]
      rintro rfl
      exact hi hj
    refine ⟨s', ?_, fun j => ?_⟩
    · simp only [deleteAllFrom, hexec]
      rw [if_neg (fun h => by cases h), hrest, hsizes]
      rfl
    · obtain ⟨hlock, hkeysIn, hempty, hsame⟩ := hs' j
      refine ⟨hlock.trans (lock_setDb db j), hkeysIn, fun hj => ?_, fun hj => ?_⟩
      · by_cases hmem : j ∈ is
        · exact hempty hmem
        · obtain rfl := (mem_cons.1 hj).resolve_right hmem
          rw [hsame hmem, db_setDb_self]
          exact ⟨hdict, hexpDict⟩
      · rw [hsame fun hmem => hj (mem_cons_of_mem _ hmem), setDb, update_of_ne]
        grind

theorem partitions_of_empty (hkeys : ∀ i, (s i).db.KeysIn U) (hd : d.KeysIn U)
    (hs : ∀ i, (s i).db.abs.dict = .empty ∧ (s i).db.abs.expDict = .empty)
    (hdict : d.abs.dict = .empty) (hexpDict : d.abs.expDict = .empty) :
    Partitions U s d where
  keysIn := hkeys
  wholeKeysIn := hd
  agree i := ⟨fun k _ => by rw [(hs i).1, hdict], fun k _ => by rw [(hs i).2, hexpDict]⟩
  dict i k _ := by
    rw [(hs i).1]
    rfl
  expDict i k _ := by
    rw [(hs i).2]
    rfl
  size := by
    have hsizes : ((List.finRange m.size).map fun i => (s i).db.abs.dict.used) =
        (List.finRange m.size).map fun _ => 0 := by
      refine map_congr_left fun i _ => ?_
      rw [(hs i).1]
      rfl
    unfold totalSize
    rw [hsizes, hdict]
    simp [empty]

theorem totalSize_whole (j : Fin m.whole.size) : totalSize t = (t j).db.abs.dict.used := by
  have hrange : List.finRange m.whole.size = [j] := by
    rw [eq_replicate_of_mem (fun i _ => whole_index i j : ∀ i ∈ List.finRange _, i = j),
      length_finRange]
    rfl
  unfold totalSize
  rw [hrange]
  simp

theorem Alike.deleteAllFrom (hU : Separated U) (hplain : w.Plain) (h : Alike U s t) :
    SameResult Eq (Alike U) (deleteAllFrom w (List.finRange m.size) s)
      (deleteAllFrom w (List.finRange m.whole.size) t) := by
  let j : Fin m.whole.size := m.whole.getDatabaseInstance []
  obtain ⟨s', hs, hs'⟩ := deleteAllFrom_eq hU hplain (h.partitions j).keysIn (nodup_finRange m.size)
  obtain ⟨t', ht, ht'⟩ := deleteAllFrom_eq hU hplain
    (fun j => (h.partitions j).wholeKeysIn) (nodup_finRange m.whole.size)
  have hcount : totalSize s = totalSize t := by
    rw [totalSize_whole j, (h.partitions j).size]
  rw [hs, ht]
  refine .result hcount ⟨fun i => ?_, fun j => ?_, fun j => ?_⟩
  · rw [(hs' i).1, h.idle i]
  · rw [(ht' j).1, h.wholeIdle j]
  · have hempty := (ht' j).2.2.1 (mem_finRange j)
    exact partitions_of_empty (fun i => (hs' i).2.1) (ht' j).2.1
      (fun i => (hs' i).2.2.1 (mem_finRange i)) hempty.1 hempty.2

end Manager

/-! ## Sequences of requests -/

structure Call (C : Type) where
  world : World C
  memoryStat : Str
  recvTime : UInt64
  request : Request
  response : Response

/-- The responses up to the first request that does not come back. -/
def answers (m : DatabaseManager) :
    List (Call C) → m.Instances hash C → List (Except Fault (Option Response))
  | [], _ => []
  | c :: calls, s =>
    match m.execute c.world c.memoryStat c.recvTime c.request (some c.response) s with
    | .error fault => [.error fault]
    | .ok (response, s) => .ok response :: answers m calls s

def start (m : DatabaseManager) (cache : C) : m.Instances hash C :=
  fun _ => ⟨.new cache, .free⟩

/-- Equal responses, for `KEYALL` up to the order of the keys. -/
inductive SameAnswer (request : Request) : Option Response → Option Response → Prop
  | same (response : Option Response) : SameAnswer request response response
  | keys {keys keys' : List Str} (hcode : request.code = some .keyall)
      (response : Response) (hperm : keys.Perm keys') :
      SameAnswer request (some (response.okKeys keys)) (some (response.okKeys keys'))

inductive SameAnswers : List (Call C) → List (Except Fault (Option Response)) →
    List (Except Fault (Option Response)) → Prop
  | nil : SameAnswers [] [] []
  | fault (c : Call C) (calls : List (Call C)) (f : Fault) :
      SameAnswers (c :: calls) [.error f] [.error f]
  | answer {c : Call C} {calls : List (Call C)} {r r' : Option Response}
      {rs rs' : List (Except Fault (Option Response))} (hsame : SameAnswer c.request r r')
      (hrest : SameAnswers calls rs rs') :
      SameAnswers (c :: calls) (.ok r :: rs) (.ok r' :: rs')

structure Call.Together (m : DatabaseManager) (U : Set Str) (c : Call C) : Prop where
  plain : c.world.Plain
  keys : ∀ k ∈ c.request.keys c.world c.recvTime, k ∈ U
  deleted : c.request.code = some .dels → ∀ k ∈ c.request.values, k ∈ U
  /-- With a key, `MEM_STAT` leaves the instance of the key locked. -/
  memStat : c.request.code = some .memStat → c.request.hasKey = false
  together : ∀ k ∈ c.request.keys c.world c.recvTime,
    m.getDatabaseInstance k = m.getDatabaseInstance c.request.key

section Runs

variable {s : m.Instances hash C} {t : m.whole.Instances hash C} {c : Call C}

theorem instanceOf_local (htype : m.type = .localMultiThread) (w : World C) (key : Str) :
    m.instanceOf w key = m.getDatabaseInstance key := by
  unfold instanceOf
  rw [htype]

theorem Alike.execute_other (hU : Separated U) (htype : m.type = .localMultiThread)
    (hc : c.Together m U) (h : Alike U s t) {code : CommandCode}
    (hcode : c.request.code = some code) (hmanaged : code.isManaged = false) :
    SameResult (SameAnswer c.request) (Alike U)
      (m.execute c.world c.memoryStat c.recvTime c.request (some c.response) s)
      (m.whole.execute c.world c.memoryStat c.recvTime c.request (some c.response) t) := by
  cases hkey : c.request.hasKey with
  | false =>
    rw [execute_of_no_key hkey, execute_of_no_key hkey, switch_other hcode hmanaged,
      switch_other hcode hmanaged]
    exact .fault .nullInstance
  | true =>
    rw [DatabaseManager.execute_other h.idle hcode hmanaged hkey,
      DatabaseManager.execute_other h.wholeIdle hcode hmanaged hkey,
      instanceOf_local htype]
    have hsame := (h.partitions (m.whole.instanceOf c.world c.request.key)).executeOn
      (i := m.getDatabaseInstance c.request.key) hU hc.plain hc.keys hc.together c.response
    refine hsame.map fun r r' db d hr hpartitions => ⟨?_, ?_⟩
    · subst hr
      exact .same r
    · exact h.setDb hpartitions _

theorem Alike.execute (hU : Separated U) (htype : m.type = .localMultiThread)
    (hc : c.Together m U) (h : Alike U s t) :
    SameResult (SameAnswer c.request) (Alike U)
      (m.execute c.world c.memoryStat c.recvTime c.request (some c.response) s)
      (m.whole.execute c.world c.memoryStat c.recvTime c.request (some c.response) t) := by
  cases hcode : c.request.code with
  | none =>
    rw [execute_of_no_code hcode, execute_of_no_code hcode]
    exact .fault _
  | some code =>
    by_cases hmanaged : code.isManaged = true
    · cases code <;> first | (exact absurd hmanaged (by decide)) | skip
      case memStat =>
        have hkey := hc.memStat hcode
        rw [execute_memStat hcode hkey, execute_memStat hcode hkey]
        exact .result (.same _) h
      case keyall =>
        rw [execute_keyall h.idle hcode, execute_keyall h.wholeIdle hcode]
        change SameResult _ _ (if _ then _ else _)
          (if c.request.hasKey ∧ m.rwlock.grants ⟨1, false⟩ .read = false then _ else _)
        split
        next => exact .fault .lockHeld
        next => exact .result (.keys hcode c.response h.perm_getAllKeys) h
      case dels =>
        rw [execute_dels h.idle hcode, execute_dels h.wholeIdle hcode]
        refine (h.deleteKeys hU hc.plain (hc.deleted hcode)).map ?_
        rintro count _ s' t' rfl halike
        exact ⟨.same _, halike⟩
      case delall =>
        rw [execute_delall h.idle hcode, execute_delall h.wholeIdle hcode]
        cases c.request.hasKey with
        | true => exact .fault .lockHeld
        | false =>
          refine (h.deleteAllFrom hU hc.plain).map ?_
          rintro count _ s' t' rfl halike
          exact ⟨.same _, halike⟩
    · exact h.execute_other hU htype hc hcode (by simpa using hmanaged)

theorem Alike.answers (hU : Separated U) (htype : m.type = .localMultiThread)
    {calls : List (Call C)} (hcalls : ∀ c ∈ calls, c.Together m U) (h : Alike U s t) :
    SameAnswers calls (m.answers calls s) (m.whole.answers calls t) := by
  induction calls generalizing s t with
  | nil => exact .nil
  | cons c calls ih =>
    have hsame := h.execute hU htype (hcalls c mem_cons_self)
    simp only [DatabaseManager.answers]
    revert hsame
    generalize m.execute c.world c.memoryStat c.recvTime c.request (some c.response) s = x
    generalize
      m.whole.execute c.world c.memoryStat c.recvTime c.request (some c.response) t = x'
    rintro (fault | ⟨hanswer, halike⟩)
    · exact .fault c calls fault
    · exact .answer hanswer
        (ih (fun c hc => hcalls c (mem_cons_of_mem _ hc)) halike)

end Runs

end DatabaseManager

end Mmkv
