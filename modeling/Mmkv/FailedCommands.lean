import Mmkv.DataViews
import Mmkv.PlainRuns

/-!
# Failed commands

A command that does not answer `S_OK` leaves every key and value as it was.  This
is proved on the tables, for all keys: also for those that `strcmp` confuses, a
write goes through the pointer to the node that was found and to no other one.
-/

namespace Mmkv

open EffectPrograms Db DbState

variable {hash : Str → Nat} {C : Type} {α β : Type} {w : World C}

/-! ## Dictionaries with the same entries -/

namespace Dict

variable {V : Type}

theorem abs_get_of_perm {d d' : Dict hash V} (hperm : d'.entries.Perm d.entries) :
    d'.abs.get = d.abs.get :=
  abs_get_eq (d.represents_abs.perm hperm)

theorem abs_get_write {d : Dict hash V} {kv : KeyValue V} (hkv : kv ∈ d.entries) (v : V) :
    (d.write kv.key v).abs.get = Function.update d.abs.get kv.key (some v) := by
  have hstored := TreeHashTable.modify_stored d.wf (f := KeyValue.assign v) (fun _ => rfl) hkv
  rcases hstored with ⟨rest, hold, hnew⟩
  have hrep := (d.represents_abs.perm hold.symm).replace (w := KeyValue.assign v kv) rfl
  rw [AbsDict.store_set] at hrep
  exact abs_get_eq (d := d.write kv.key v) (hrep.perm hnew)

end Dict

/-! ## States with the same data -/

namespace DbState

/-- The same keys, each with a value of the same type and content. -/
def SameData (s s' : DbState hash C) : Prop :=
  ∀ k, Option.Rel MmkvData.Same (s.dict.abs.get k) (s'.dict.abs.get k)

structure Unchanged (s s' : DbState hash C) : Prop where
  dict : s'.dict.entries.Perm s.dict.entries
  expDict : s'.expDict.entries.Perm s.expDict.entries

theorem Unchanged.refl (s : DbState hash C) : s.Unchanged s := ⟨.refl _, .refl _⟩

theorem Unchanged.trans {s1 s2 s3 : DbState hash C} (h : s1.Unchanged s2)
    (h' : s2.Unchanged s3) : s1.Unchanged s3 :=
  ⟨h'.dict.trans h.dict, h'.expDict.trans h.expDict⟩

variable {s s' : DbState hash C}

theorem Unchanged.noDeadlines (h : s.Unchanged s') (hexp : s.expDict.entries = []) :
    s'.expDict.entries = [] := by
  have hperm := h.expDict
  rw [hexp] at hperm
  exact hperm.eq_nil

theorem Unchanged.sameData (h : s.Unchanged s') : s.SameData s' := by
  intro k
  rw [Dict.abs_get_of_perm h.dict]
  exact MmkvData.Same.option_refl _

theorem Unchanged.sameData_write (h : s.Unchanged s') {kv : KeyValue (MmkvData hash)}
    (hkv : kv ∈ s'.dict.entries) {data : MmkvData hash} (hsame : kv.value.Same data) :
    s.SameData { s' with dict := s'.dict.write kv.key data } := by
  intro k
  have hget : s'.dict.abs.get kv.key = some kv.value :=
    (AbsDict.store_eq_some.mp ((s'.dict.represents_abs.mem_iff kv).mp hkv)).1
  rw [Dict.abs_get_write hkv, ← Dict.abs_get_of_perm h.dict]
  by_cases hk : k = kv.key
  · subst hk
    rw [hget]
    simpa using Option.Rel.some hsame
  · simpa [hk] using MmkvData.Same.option_refl _

end DbState

/-! ## Failing leaves the data as it was -/

namespace Db

/-- If the program fails from `s'`, it ends with the data of `s`. -/
def Atomic (s : DbState hash C) (p : Db hash C Reply) (s' : DbState hash C) : Prop :=
  Ensures handler p s' fun reply t => reply.status ≠ .ok → s.SameData t

variable {w : World C} {s s' : DbState hash C} {k : Str}

theorem Atomic.ok (out : Output) : Atomic s (pure (.ok out)) s' :=
  .pure fun hfail => absurd rfl hfail

theorem Atomic.of_unchanged (h : s.Unchanged s') (reply : Reply) : Atomic s (pure reply) s' :=
  .pure fun _ => h.sameData

theorem Atomic.after {p : Db hash C α} {f : α → Db hash C Reply}
    (hf : ∀ x t, Atomic s (f x) t) : Atomic s (p >>= f) s' :=
  .bind (Q := fun _ _ => True) (fun _ _ _ => trivial) fun x t _ => hf x t

theorem ensures_find (k : Str) (s : DbState hash C) :
    Ensures handler (find k) s fun found s' =>
      s.Unchanged s' ∧ ∀ kv ∈ found, kv ∈ s'.dict.entries := by
  intro found s' hrun
  cases hrun
  have hspec := s.dict.find_spec k
  exact ⟨⟨hspec.1, .refl _⟩, fun kv hkv => hspec.1.mem_iff.mpr (hspec.2 kv hkv)⟩

theorem ensures_insertKvWithDuplicate (data : MmkvData hash) (s : DbState hash C) :
    Ensures handler (insertKvWithDuplicate w k data) s fun r s' =>
      r = (true, ⟨k, data⟩) ∨ r.1 = false ∧ s.Unchanged s' := by
  have hrun : Program.run handler (dict (.insertKvWithDuplicate k data)) s =
      some ((s.dict.insertKvWithDuplicate k data).1,
        { s with dict := (s.dict.insertKvWithDuplicate k data).2 }) := rfl
  refine .step hrun ?_
  rcases s.dict.insertKvWithDuplicate_spec k data with ⟨hinserted, -⟩ | ⟨hrefused, -, hperm⟩
  · rw [hinserted]
    intro r s' hrun
    cases hrun
    exact .inl rfl
  · rw [hrefused]
    exact .pure (.inr ⟨hrefused, hperm, .refl _⟩)

theorem ensures_extract (k : Str) (s : DbState hash C) :
    Ensures handler (extract k) s fun found s' => found = none → s.Unchanged s' := by
  intro found s' hrun
  cases hrun
  intro hnone
  rcases s.dict.extract_spec k with ⟨-, hperm⟩ | ⟨kv, hsome, -⟩
  · exact ⟨hperm, .refl _⟩
  · cases hnone.symm.trans hsome

theorem ensures_checkExpire (k : Str) (hexp : s.expDict.entries = []) :
    Ensures handler (checkExpire w k) s fun r s' =>
      r.1 = false ∧ s.Unchanged s' := by
  apply Ensures.ite
  · intro _
    have hrun : Program.run handler (expDict (.find k)) s =
        some ((s.expDict.find k).1, { s with expDict := (s.expDict.find k).2 }) := rfl
    refine .step hrun ?_
    rw [Dict.find_eq_none_of_empty hexp]
    exact .pure ⟨rfl, .refl _, (s.expDict.find_spec k).1⟩
  · exact fun _ => .pure ⟨rfl, .refl s⟩

section Shapes

variable (hs : s.Unchanged s') (hexp : s.expDict.entries = [])

include hs hexp in
theorem atomic_checkExpireRoutine {p : Db hash C Reply}
    (hp : ∀ t, s.Unchanged t → Atomic s p t) : Atomic s (checkExpireRoutine w k p) s' := by
  refine (ensures_checkExpire k (hs.noDeadlines hexp)).bind ?_
  rintro r t ⟨hr, ht⟩
  rw [hr]
  exact hp t (hs.trans ht)

variable {τ : Type}

include hs in
theorem atomic_findTyped (kind : DataKind hash τ)
    {p : KeyValue (MmkvData hash) → τ → Db hash C Reply}
    (hp : ∀ kv x t, s.Unchanged t → kv ∈ t.dict.entries → kind.get kv.value = some x →
      Atomic s (p kv x) t) : Atomic s (findTyped kind k p) s' := by
  refine (ensures_find k s').bind ?_
  rintro found t ⟨ht, hfound⟩
  have hst := hs.trans ht
  split
  · exact Atomic.of_unchanged hst _
  · next kv =>
      cases hkind : kind.get kv.value with
      | none => exact Atomic.of_unchanged hst _
      | some x => exact hp kv x t hst (hfound kv rfl) hkind

variable (hplain : w.Plain)

include hs hexp hplain in
theorem atomic_onValue (access : Access) (kind : DataKind hash τ) {body : τ → Option (Reply × τ)}
    (hclean : ∀ x reply x', body x = some (reply, x') → reply.status ≠ .ok →
      (kind.put x).Same (kind.put x')) : Atomic s (onValue w access kind k body) s' := by
  apply atomic_checkExpireRoutine hs hexp
  intro t ht
  apply atomic_findTyped ht
  intro kv x u hu hkv hkind
  simp only [cacheUpdate_plain hplain, tryReplacekey_plain hplain, onlyIf_pure]
  intro reply u' hrun hfail
  cases hbody : body x with
  | none =>
    rw [hbody] at hrun
    cases hrun
  | some r =>
    rw [hbody] at hrun
    cases hrun
    apply hu.sameData_write hkv
    rw [kind.get_eq_some.mp hkind]
    exact hclean x r.1 r.2 hbody hfail

include hplain in
theorem atomic_insertNew (replace : Bool) (data : MmkvData hash) :
    Atomic s (insertNew w replace k data) s := by
  unfold insertNew
  simp only [tryReplacekey_plain hplain, onlyIf_pure, registerKey_plain hplain]
  refine (ensures_insertKvWithDuplicate data s).bind ?_
  rintro ⟨success, kv⟩ t (hr | ⟨hr, ht⟩)
  · cases hr
    exact Atomic.ok _
  · cases hr
    exact Atomic.of_unchanged ht _

include hexp in
theorem ensures_keyAfterExpire (expire : Bool) :
    Ensures handler (keyAfterExpire w expire k) s fun _ t => s.Unchanged t := by
  apply Ensures.ite
  · intro _
    refine (ensures_checkExpire k hexp).bind ?_
    exact fun r t ht => .pure ht.2
  · exact fun _ => .pure (.refl s)

include hexp hplain in
theorem atomic_addTo (expire : Bool) (kind : DataKind hash τ) (init : τ) (body : τ → Output × τ) :
    Atomic s (addTo w expire kind k init body) s := by
  unfold addTo
  simp only [registerKey_plain hplain, onlyIf_pure]
  refine (ensures_keyAfterExpire hexp expire).bind ?_
  intro k' t ht
  refine (ensures_insertKvWithDuplicate (kind.put init) t).bind ?_
  rintro ⟨success, kv⟩ u hu
  cases hkind : kind.get kv.value with
  | some x => exact Atomic.after fun _ _ => Atomic.ok _
  | none =>
    rcases hu with hr | ⟨-, hu⟩
    · cases hr
      simp at hkind
    · exact Atomic.of_unchanged (ht.trans hu) _

include hexp hplain in
theorem atomic_setStr (v : Str) : Atomic s (setStr w k v) s := by
  unfold setStr
  simp only [tryReplacekey_plain hplain, registerKey_plain hplain, cacheUpdate_plain hplain]
  apply atomic_checkExpireRoutine (.refl s) hexp
  intro t ht
  refine (ensures_insertKvWithDuplicate _ t).bind ?_
  rintro ⟨success, kv⟩ u (hr | ⟨hr, hu⟩)
  · cases hr
    exact Atomic.ok _
  · cases hr
    cases DataKind.string.get kv.value with
    | some _ => exact Atomic.after fun _ _ => Atomic.ok _
    | none => exact Atomic.of_unchanged (ht.trans hu) _

theorem atomic_eraseValue (kind : DataKind hash τ) (ifErased ifAbsent : Bool) :
    Atomic s (eraseValue w kind ifErased ifAbsent k) s := by
  refine (ensures_find k s).bind ?_
  rintro found t ⟨ht, -⟩
  split
  · intro reply u hrun _
    cases ifAbsent <;> cases hrun <;> exact ht.sameData
  · next kv =>
      cases kind.get kv.value with
      | none => exact Atomic.of_unchanged ht _
      | some _ =>
        iterate 4 refine Atomic.after fun _ _ => ?_
        exact Atomic.ok _

theorem atomic_delete : Atomic s (delete w k) s := by
  refine (ensures_extract k s).bind ?_
  intro found t ht
  cases found with
  | none => exact Atomic.of_unchanged (ht rfl) _
  | some kv =>
    iterate 4 refine Atomic.after fun _ _ => ?_
    exact Atomic.ok _

include hexp in
theorem atomic_rename (newName : Str) : Atomic s (rename w k newName) s := by
  apply atomic_checkExpireRoutine (.refl s) hexp
  intro t ht
  refine (ensures_find newName t).bind ?_
  rintro found u ⟨hu, -⟩
  split
  · exact Atomic.of_unchanged (ht.trans hu) _
  · refine (ensures_extract k u).bind ?_
    intro found v hv
    cases found with
    | none => exact Atomic.of_unchanged ((ht.trans hu).trans (hv rfl)) _
    | some kv =>
      iterate 4 refine Atomic.after fun _ _ => ?_
      exact Atomic.ok _

variable {k1 k2 : Str}

include hexp in
theorem atomic_setOpRoutine {p : Str → Str → SetHeap hash → Db hash C Reply}
    (hp : ∀ k1 k2 heap t, s.Unchanged t → Atomic s (p k1 k2 heap) t) :
    Atomic s (setOpRoutine w k1 k2 p) s := by
  apply atomic_checkExpireRoutine (.refl s) hexp
  intro t ht
  apply atomic_checkExpireRoutine ht hexp
  intro t ht
  apply atomic_findTyped ht
  intro kv1 s1 t ht _ _
  apply atomic_findTyped ht
  grind

include hexp in
theorem atomic_setOp (op : SetOp) (out : List Str → Output) :
    Atomic s (setOp w op k1 k2 out) s := by
  apply atomic_setOpRoutine hexp
  intro k1 k2 heap t _
  exact Atomic.after fun _ _ => Atomic.ok _

include hexp hplain in
theorem atomic_setOpTo {dest : Str} (op : SetOp) : Atomic s (setOpTo w op k1 k2 dest) s := by
  apply atomic_setOpRoutine hexp
  intro k1 k2 heap t ht
  simp only [registerKey_plain hplain, onlyIf_pure]
  refine (ensures_insertKvWithDuplicate _ t).bind ?_
  rintro ⟨success, kv⟩ u hu
  cases hkind : DataKind.set.get kv.value with
  | some x =>
    exact Atomic.after fun _ _ => Atomic.after fun _ _ => Atomic.ok _
  | none =>
    rcases hu with hr | ⟨-, hu⟩
    · cases hr
      cases hkind
    · exact Atomic.of_unchanged (ht.trans hu) _

theorem atomic_expireAtMs (expire : UInt64) : Atomic s (expireAtMs w k expire) s := by
  apply Ensures.ite
  · exact fun _ => Atomic.of_unchanged (.refl s) _
  · intro _
    refine (ensures_find k s).bind ?_
    rintro found t ⟨ht, -⟩
    split
    · exact Atomic.of_unchanged ht _
    · exact Atomic.after fun _ _ => Atomic.ok _

theorem atomic_persist : Atomic s (persist k) s := by
  refine (ensures_find k s).bind ?_
  rintro found t ⟨ht, -⟩
  split
  · exact Atomic.of_unchanged ht _
  · exact Atomic.after fun _ _ => Atomic.ok _

theorem atomic_getExpiration (out : UInt64 → Output) : Atomic s (getExpiration k out) s := by
  have hrun : Program.run handler (expDict (.find k)) s =
      some ((s.expDict.find k).1, { s with expDict := (s.expDict.find k).2 }) := rfl
  have hfound : s.Unchanged { s with expDict := (s.expDict.find k).2 } :=
    ⟨.refl _, (s.expDict.find_spec k).1⟩
  refine .step hrun ?_
  split
  · exact Atomic.of_unchanged hfound _
  · exact Atomic.ok _

theorem atomic_deleteAll : Atomic s (deleteAll w) s :=
  Atomic.after fun _ _ => Atomic.ok _

end Shapes

end Db

/-! ## All commands -/

theorem Action.atomic (hplain : w.Plain) {s : DbState hash C}
    (hexp : s.expDict.entries = []) {a : Action hash} (hclean : a.FailsClean) :
    Db.Atomic s (a.run w) s := by
  rw [Action.run_plain hplain]
  cases a with
  | onValue access kind k body => exact atomic_onValue (.refl s) hexp hplain access kind hclean
  | insertNew replace k data => exact atomic_insertNew hplain replace data
  | addTo expire kind k init body => exact atomic_addTo hexp hplain expire kind init body
  | setStr k v => exact atomic_setStr hexp hplain v
  | eraseValue kind ifErased ifAbsent k => exact atomic_eraseValue kind ifErased ifAbsent
  | setOp op k1 k2 out => exact atomic_setOp hexp op out
  | setOpTo op k1 k2 dest => exact atomic_setOpTo hexp hplain op
  | delete k => exact atomic_delete
  | deleteAll => exact atomic_deleteAll
  | rename oldName newName => exact atomic_rename hexp newName
  | expireAtMs k expire => exact atomic_expireAtMs expire
  | persist k => exact atomic_persist
  | getExpiration k out => exact atomic_getExpiration out

/-- Without replacement, shards and deadlines: if a command does not answer `S_OK`,
every key has a value of the same type and content as before. -/
theorem failed_command_keeps_data (hplain : w.Plain) (c : Command) {s s' : DbState hash C}
    (hexp : s.expDict.entries = []) {reply : Reply}
    (hexec : s.exec w c = some (reply, s')) (hfail : reply.status ≠ .ok) :
    s.SameData s' :=
  Action.atomic hplain hexp (c.failsClean_action w.now) reply s' hexec hfail

/-- A read of a field that the map does not have. -/
theorem failed_mapGet_keeps_data :
    ∃ s s' : DbState (fun _ => 0) Unit,
      (new ()).exec (.standalone false 0) (.mapAdd [97] [⟨[98], [120]⟩]) =
        some (.ok (.number 1), s) ∧
      s.exec (.standalone false 0) (.mapGet [97] [99]) =
        some (.fail .fieldNonexists, s') ∧
      s.SameData s' := by
  refine ⟨_, _, rfl, rfl, ?_⟩
  exact failed_command_keeps_data (w := .standalone false 0) ⟨rfl, rfl⟩ (.mapGet [97] [99])
    rfl rfl (by decide)

end Mmkv
