import Mmkv.ExpirationInvariant
import Mmkv.ReadRequests

/-!
# How long a key lives

`Rename` and the four commands that set a deadline promise something about later moments: that
the old name stays without a deadline, and that the key can be read until the deadline and not
after it.  The later moments are those of every run of commands and cycles that leaves the key
alone.  `Rename` does not look at `exp_dict_` at all, and the deadlines are sums and products
of unsigned integers, of which those that have passed are not stored.
-/

namespace Mmkv

open EffectPrograms Db AbsDb Command UInt64 Change

variable {hash : Str → Nat} {C : Type} {s s' : DbState hash C} {U : Set Str}

/-! ## Later states -/

def Event.UsesKeys (U : Set Str) (w : World C) : Event → Prop
  | .command c => ∀ k ∈ c.keys w, k ∈ U
  | .checkExpireCycle => True

namespace DbState

/-- Steps with the property lead from the one state to the other. -/
inductive Later (P : World C → Event → Prop) (s : DbState hash C) : DbState hash C → Prop where
  | refl : Later P s s
  | step {w : World C} {e : Event} {s' s'' : DbState hash C} (run : Later P s s')
      (allowed : P w e) (hstep : s'.perform w e = some s'') : Later P s s''

theorem Later.keeps {P : World C → Event → Prop} {I : AbsDb hash C → Prop}
    (hU : Separated U) (hkeys : ∀ w e, P w e → e.UsesKeys U w)
    (hcommand : ∀ w c a reply b, P w (.command c) → a.exec w c = some (reply, b) → I a → I b)
    (hcycle : ∀ (w : World C) (s : DbState hash C) b, P w .checkExpireCycle →
      Db.Purged w (Db.expiredKeys w s.expDict.entries) s.abs b → I s.abs → I b)
    (hlater : s.Later P s') (hs : s.KeysIn U) (hI : I s.abs) : s'.KeysIn U ∧ I s'.abs := by
  induction hlater with
  | refl => exact ⟨hs, hI⟩
  | @step w e s' s'' _ allowed hstep ih =>
    cases e with
    | command c =>
      obtain ⟨reply, hrun, hin⟩ := exec_of_perform hU (hkeys _ _ allowed) ih.1 hstep
      exact ⟨hin, hcommand w c _ reply _ allowed hrun ih.2⟩
    | checkExpireCycle =>
      obtain ⟨u, hrun, hin⟩ := checkExpireCycle_of_perform hU ih.1 hstep
      have hpurged := (ensures_checkExpireCycle s'.expDict.represents_abs _ _ hrun).2
      exact ⟨hin, hcycle w s' _ allowed hpurged ih.2⟩

end DbState

/-! ## Commands that set a deadline -/

/-- The deadline that the command asks for, without a bound. -/
def Command.deadline : Command → Option (Str × Nat)
  | .expireAtMs k expire => some (k, expire.toNat)
  | .expireAt k expire => some (k, 1000 * expire.toNat)
  | .expireAfterMs k ms interval => some (k, ms.toNat + interval.toNat)
  | .expireAfter k ms interval => some (k, ms.toNat + 1000 * interval.toNat)
  | _ => none

def Event.Dates (k : Str) : Event → Prop
  | .command c => ∃ D, c.deadline = some (k, D)
  | .checkExpireCycle => False

variable {c : Command} {k : Str}

theorem Command.action_of_deadline {D : Nat} (h : c.deadline = some (k, D)) (now : UInt64) :
    (c.action now : Action hash) = .expireAtMs k (UInt64.ofNat D) := by
  cases c
  case expireAtMs k' expire | expireAt k' expire | expireAfterMs k' ms interval
      | expireAfter k' ms interval =>
    cases h
    simp [action, MmkvDb.expireAtMs, MmkvDb.expireAt, MmkvDb.expireAfterMs, MmkvDb.expireAfter,
      UInt64.mul_comm]
  all_goals cases h

variable {now : UInt64} {reply : Reply}

theorem Command.deadline_of_action {expire : UInt64}
    (h : (c.action now : Action hash) = .expireAtMs k expire) : ∃ D, c.deadline = some (k, D) := by
  cases c
  case expireAtMs k' expire | expireAt k' expire | expireAfterMs k' ms interval
      | expireAfter k' ms interval =>
    cases h
    exact ⟨_, rfl⟩
  all_goals cases h

theorem Command.rename_of_action {oldName newName : Str}
    (h : (c.action now : Action hash) = .rename oldName newName) : c = .rename oldName newName := by
  cases c
  case rename => cases h; rfl
  all_goals cases h

section Undated

variable {w : World C} {k : Str} {a b : AbsDb hash C}

theorem AbsDb.exec_undated {c : Command} (hrun : a.exec w c = some (reply, b))
    (hc : ¬(Event.command c).Dates k) (ha : a.expDict.get k = none) :
    b.expDict.get k = none := by
  refine ((c.action w.now : Action hash).changes w a _ _ hrun).keeps
    (I := fun b => b.expDict.get k = none) ?_ ha
  intro b b' x hdoes hleads hb
  rw [hleads.deadlines]
  cases x with
  | dated k' expire =>
    obtain ⟨D, hD⟩ := deadline_of_action hdoes
    have hne : k ≠ k' := fun hk => hc ⟨D, by rw [hk, hD]⟩
    rw [deadlines, Function.update_of_ne hne, hb]
  | removed k' deadline =>
    cases deadline <;> simp [deadlines, Function.update_apply, hb]
  | expired k' | undated k' => simp [deadlines, Function.update_apply, hb]
  | cleared => rfl
  | _ => exact hb

/-- Without a command that sets one, a key without a deadline stays so. -/
theorem DbState.Later.undated (hU : Separated U)
    (hlater : s.Later (fun w e => e.UsesKeys U w ∧ ¬e.Dates k) s') (hs : s.KeysIn U)
    (hk : s.abs.expDict.get k = none) : s'.abs.expDict.get k = none := by
  refine (hlater.keeps (I := fun a => a.expDict.get k = none) hU (fun _ _ h => h.1) ?_ ?_ hs hk).2
  · exact fun w c a reply b h hrun ha => exec_undated hrun h.2 ha
  · intro w s b _ hpurged ha
    rw [hpurged.expDict k, ha, ite_self]

end Undated

/-! ## A new name -/

/-- The key has moved with its value and its deadline, and nothing is left of it under the old
name: whoever uses that later does not find a deadline that has not been set since. -/
structure DbState.Renamed (U : Set Str) (oldName newName : Str) (s s' : DbState hash C) :
    Prop where
  value : s'.abs.dict.get newName = s.abs.dict.get oldName
  deadline : s'.abs.expDict.get newName = s.abs.expDict.get oldName
  gone : s'.abs.dict.get oldName = none
  undated : s'.abs.expDict.get oldName = none
  others : ∀ k, k ≠ oldName → k ≠ newName →
    s'.abs.dict.get k = s.abs.dict.get k ∧ s'.abs.expDict.get k = s.abs.expDict.get k
  recreated : ∀ s'', s'.Later (fun w e => e.UsesKeys U w ∧ ¬e.Dates oldName) s'' →
    ∀ t, s''.abs.expired t oldName = false

namespace DbState

variable {U : Set Str} {w : World C} {s s' : DbState hash C}

section Rename

variable {oldName newName : Str} {data : MmkvData hash}

theorem exec_rename : s.abs.exec w (.rename oldName newName) =
      (Db.checkShardIsLockedKey w oldName (Db.rename w oldName newName)).run AbsDb.handler
        s.abs := rfl

theorem renamed_of_exec (hcurrent : s.abs.lapsed w oldName = false)
    (hget : s.abs.dict.get oldName = some data) (habsent : s.abs.dict.get newName = none)
    (hexec : s.abs.exec w (.rename oldName newName) = some (.ok .none, s'.abs))
    (h : s.Renamed U oldName newName s') :
    s.abs.unlocked w oldName = true ∧ s.abs.expDict.get oldName = none ∧
      s.abs.expDict.get newName = none ∧ w.SkipsReplacement s.side oldName := by
  obtain ⟨code, -, hcheck⟩ := run_checkShardIsLockedKey (w := w) (a := s.abs) (k := oldName)
    (Db.rename w oldName newName)
  rw [exec_rename, hcheck] at hexec
  split at hexec
  next hunlocked =>
    obtain ⟨-, b, hb, hexp, hleads⟩ := ensures_rename hcurrent habsent hget _ _ hexec
    have hdeadlines : s'.abs.expDict.get = s.abs.expDict.get := by
      rw [hleads.deadlines, hexp]
      rfl
    have hold : s.abs.expDict.get oldName = none := by rw [← hdeadlines, h.undated]
    refine ⟨hunlocked, hold, ?_, ?_⟩
    · rw [← hdeadlines, h.deadline, hold]
    · obtain ⟨-, hskips⟩ | ⟨v, -, hevict⟩ := hb
      · exact hskips
      · -- the evicted key is another one, and it is gone
        have hv : b.dict.get v = none := by simp [hevict.values, values]
        have hne : v ≠ oldName := by
          rintro rfl
          cases hv.symm.trans hleads.allowed.1
        have hstored : (s.abs.dict.get v).isSome := hevict.allowed.1
        have hne' : v ≠ newName := by grind
        rw [← (h.others v hne hne').1, hleads.values] at hstored
        simp [values, hne, hne', hv] at hstored
  next =>
    have hsame : s.abs = s'.abs := congrArg Prod.snd (Option.some.inj hexec)
    have hvalue := h.value
    grind

theorem exec_rename_skips (hcurrent : s.abs.lapsed w oldName = false)
    (hget : s.abs.dict.get oldName = some data) (habsent : s.abs.dict.get newName = none)
    (hunlocked : s.abs.unlocked w oldName = true) (hskips : w.SkipsReplacement s.side oldName) :
    ∃ b, s.abs.exec w (.rename oldName newName) = some (.ok .none, b) ∧
      (renamed oldName newName data).Leads w s.abs b := by
  obtain ⟨code, -, hcheck⟩ := run_checkShardIsLockedKey (w := w) (a := s.abs) (k := oldName)
    (Db.rename w oldName newName)
  have hreplace := run_tryReplacekey_skips (w := w)
    (a := { s.abs with dict := s.abs.dict.extract oldName }) hskips
  rw [exec_rename, hcheck, if_pos hunlocked, run_rename_current hcurrent habsent hget, hreplace]
  exact ⟨_, rfl, ⟨hget, habsent⟩, rfl, rfl, rfl⟩

theorem renamed_of_leads (hU : Separated U) (hs : s'.KeysIn U)
    (hundated : s.abs.expDict.get oldName = none)
    (hundated' : s.abs.expDict.get newName = none)
    (h : (renamed oldName newName data).Leads w s.abs s'.abs) :
    s.Renamed U oldName newName s' := by
  obtain ⟨⟨hget, habsent⟩, hdict, hexp, -⟩ := h
  have hne : oldName ≠ newName := by grind
  simp only [values] at hdict
  simp only [deadlines] at hexp
  have hfree : s'.abs.expDict.get oldName = none := by rw [hexp, hundated]
  refine ⟨by simp [hdict, hget], ?_, by simp [hdict, hne], hfree, ?_, ?_⟩
  · rw [hexp, hundated, hundated']
  · intro k hk hk'
    exact ⟨by simp [hdict, hk, hk'], by rw [hexp]⟩
  · exact fun s'' hlater t => expired_of_none (hlater.undated hU hs hfree)

/-- `Rename` moves the whole key exactly when neither name has a deadline, the shard of the key
is not locked and no other key is evicted. -/
theorem rename_moves_iff (hU : Separated U) (hs : s.KeysIn U) (hold : oldName ∈ U)
    (hnew : newName ∈ U) (hstored : (s.abs.dict.get oldName).isSome)
    (hcurrent : s.abs.expired w.now oldName = false) (habsent : s.abs.dict.get newName = none) :
    (∃ s', s.exec w (.rename oldName newName) = some (.ok .none, s') ∧
        s.Renamed U oldName newName s') ↔
      s.abs.unlocked w oldName = true ∧ s.abs.expDict.get oldName = none ∧
        s.abs.expDict.get newName = none ∧ w.SkipsReplacement s.side oldName := by
  have hlapsed : s.abs.lapsed w oldName = false := by simp [lapsed, hcurrent]
  obtain ⟨data, hget⟩ := Option.isSome_iff_exists.mp hstored
  have hkeys : ∀ k ∈ (rename oldName newName).keys w, k ∈ U := by
    simp [keys, action, MmkvDb.rename, Action.keys, hold, hnew]
  constructor
  · rintro ⟨s', hexec, h⟩
    exact renamed_of_exec hlapsed hget habsent (abs_exec hU hkeys hs hexec).1 h
  · rintro ⟨hunlocked, hundated, hundated', hskips⟩
    obtain ⟨b, hrun, hleads⟩ := exec_rename_skips hlapsed hget habsent hunlocked hskips
    obtain ⟨s', hexec, hin, rfl⟩ := exec_of_abs hU hkeys hs hrun
    exact ⟨s', hexec, renamed_of_leads hU hin hundated hundated' hleads⟩

/-- A string without a deadline moves. -/
theorem rename_undated_string :
    ∃ s s' : DbState (fun _ => 0) Unit,
      (new ()).exec (.standalone true 0) (.insertStr [97] [99]) = some (.ok .none, s) ∧
      s.exec (.standalone true 0) (.rename [97] [98]) = some (.ok .none, s') ∧
      s.Renamed {k : Str | 0 ∉ k} [97] [98] s' := by
  obtain ⟨s, hexec⟩ : ∃ s : DbState (fun _ => 0) Unit,
      (new ()).exec (.standalone true 0) (.insertStr [97] [99]) = some (.ok .none, s) :=
    ⟨_, rfl⟩
  have hs := (abs_exec separated_nulFree (by decide) (keysIn_new _ ()) hexec).2
  refine ⟨s, ?_⟩
  cases hexec
  obtain ⟨s', h⟩ := (rename_moves_iff (w := .standalone true 0) separated_nulFree hs
    (by decide : [97] ∈ {k : Str | 0 ∉ k}) (by decide : [98] ∈ {k : Str | 0 ∉ k}) rfl rfl
    rfl).mpr ⟨rfl, rfl, rfl, fun p hp => by cases hp⟩
  exact ⟨s', rfl, h⟩

/-- A key with a deadline does not take it along: the new name has none, and a new key under
the old name expires at the moment that was set for the other one. -/
theorem rename_leaves_deadline :
    ∃ s : DbState (fun _ => 0) Unit,
      expiringDb.exec (.standalone true 0) (.rename [97] [98]) = some (.ok .none, s) ∧
      s.abs.expDict.get [98] = none ∧ s.abs.expDict.get [97] = some 1 ∧
      (execAll [(.standalone true 0, .insertStr [97] [99]), (.standalone true 0, .getStr [97]),
        (.standalone true 1, .getStr [97])] s).map Prod.fst =
          some [.ok .none, .ok (.str [99]), .fail .nonexists] :=
  ⟨_, rfl, rfl, rfl, rfl⟩

end Rename

end DbState

/-! ## Until the deadline -/

/-- The step asks for the key or has to do with other keys only. -/
def Event.LeavesAlone (U : Set Str) (k : Str) (w : World C) : Event → Prop
  | .command c => (∀ k ∈ c.keys w, k ∈ U) ∧ (c.IsQuery ∨ k ∉ c.keys w ∧ c ≠ .deleteAll ∧
      ∀ oldName newName, c = .rename oldName newName → w.policy = none)
  | .checkExpireCycle => True

/-- The key is stored with the deadline, or the deadline had passed at the time `t` and both
are gone. -/
def AbsDb.Awaits (k : Str) (deadline : Option UInt64) (t : UInt64) (a : AbsDb hash C) : Prop :=
  (a.dict.get k).isSome ∧ a.expDict.get k = deadline ∨
    a.dict.get k = none ∧ a.expDict.get k = none ∧ ∃ e, deadline = some e ∧ e ≤ t

/-- The change does not store the key, set or erase its deadline, or remove it before that. -/
def Change.Spares (k : Str) : Change hash → Prop
  | .inserted k' _ | .removed k' _ | .evicted k' | .dated k' _ | .undated k' => k' ≠ k
  | .renamed oldName newName _ => oldName ≠ k ∧ newName ≠ k
  | .cleared => False
  | .touched _ | .written _ _ _ | .expired _ => True

section Awaits

variable {k : Str} {deadline : Option UInt64} {t : UInt64} {w : World C} {a b : AbsDb hash C}

theorem AbsDb.Awaits.of_eq (h : a.Awaits k deadline t) (hdict : b.dict.get k = a.dict.get k)
    (hexp : b.expDict.get k = a.expDict.get k) : b.Awaits k deadline t := by
  rw [Awaits, hdict, hexp]
  exact h

theorem AbsDb.Awaits.of_lapsed (h : a.Awaits k deadline t) (ht : w.now ≤ t)
    (hlapsed : a.expired w.now k = true) (hdict : b.dict.get k = none)
    (hexp : b.expDict.get k = none) : b.Awaits k deadline t := by
  obtain ⟨-, hdeadline⟩ | ⟨-, hnone, -⟩ := h
  · cases deadline with
    | none => simp [expired, hdeadline] at hlapsed
    | some e =>
      have he : e ≤ w.now := by simpa [expired, hdeadline] using hlapsed
      exact .inr ⟨hdict, hexp, e, rfl, UInt64.le_trans he ht⟩
  · simp [expired, hnone] at hlapsed

theorem Change.Leads.awaits {c : Change hash} (h : c.Leads w a b) (hc : c.Spares k)
    (ht : w.now ≤ t) (ha : a.Awaits k deadline t) : b.Awaits k deadline t := by
  obtain ⟨hallowed, hdict, hexp, -⟩ := h
  cases c with
  | touched k' => exact ha.of_eq (by rw [hdict]; rfl) (by rw [hexp]; rfl)
  | written k' old new =>
    by_cases hk : k' = k
    · subst hk
      obtain ⟨-, hdeadline⟩ | ⟨hnone, -⟩ := ha
      · refine .inl ⟨by simp [hdict, Change.values], ?_⟩
        rw [hexp]
        exact hdeadline
      · cases hnone.symm.trans hallowed
    · exact ha.of_eq (by simp [hdict, Change.values, Ne.symm hk]) (by rw [hexp]; rfl)
  | expired k' =>
    by_cases hk : k' = k
    · subst hk
      have hlapsed := hallowed.2
      rw [lapsed, Bool.and_eq_true] at hlapsed
      exact ha.of_lapsed ht hlapsed.2 (by simp [hdict, Change.values])
        (by simp [hexp, Change.deadlines])
    · exact ha.of_eq (by simp [hdict, Change.values, Ne.symm hk])
        (by simp [hexp, Change.deadlines, Ne.symm hk])
  | removed k' gone =>
    have hk : k ≠ k' := Ne.symm hc
    exact ha.of_eq (by simp [hdict, Change.values, hk])
      (by cases gone <;> simp [hexp, Change.deadlines, hk])
  | renamed oldName newName data =>
    have hold : k ≠ oldName := Ne.symm hc.1
    have hnew : k ≠ newName := Ne.symm hc.2
    exact ha.of_eq (by simp [hdict, Change.values, hold, hnew]) (by rw [hexp]; rfl)
  | cleared => exact hc.elim
  | inserted k' _ | evicted k' | dated k' _ | undated k' =>
    have hk : k ≠ k' := Ne.symm hc
    exact ha.of_eq (by simp [hdict, Change.values, hk]) (by simp [hexp, Change.deadlines, hk])

theorem Action.removes_mem {x : Action hash} {gone : Bool} (h : x.Removes a k gone) :
    k ∈ x.keys w := by
  cases x with
  | eraseValue kind ifErased ifAbsent k' | delete k' =>
    rw [← h.1]
    exact List.mem_singleton_self k'
  | _ => exact h.elim

variable {c : Command}

/-- What a command does that neither names the key nor evicts others spares it. -/
theorem Command.spares {x : Change hash} {b' : AbsDb hash C}
    (hdoes : (c.action w.now : Action hash).Does w a b x) (hleads : x.Leads w b b')
    (hk : k ∉ c.keys w) (hwhole : c ≠ .deleteAll)
    (hpolicy : ∀ oldName newName, c = .rename oldName newName → w.policy = none) : x.Spares k := by
  replace hk : k ∉ (c.action w.now : Action hash).keys w := by rwa [keys_action]
  have hne : ∀ {k'}, k' ∈ (c.action w.now : Action hash).keys w → k' ≠ k := by
    rintro k' hk' rfl
    exact hk hk'
  cases x with
  | inserted k' data | undated k' => exact hne hdoes
  | removed k' gone => exact hne (Action.removes_mem hdoes.2)
  | evicted k' =>
    obtain ⟨-, oldName, newName, hrenames⟩ := hdoes
    have hvictim := hleads.allowed.2
    rw [World.victim, hpolicy oldName newName (rename_of_action hrenames.eq_rename)] at hvictim
    cases hvictim
  | renamed oldName newName data =>
    rw [hdoes.2.eq_rename] at hne
    exact ⟨hne (by simp [Action.keys]), hne (by simp [Action.keys])⟩
  | cleared =>
    have hnot : ¬ (c.action w.now : Action hash).IsWhole := not_isWhole hwhole w.now
    rw [show (c.action w.now : Action hash) = .deleteAll from hdoes] at hnot
    exact hnot trivial
  | dated k' expire =>
    rw [show (c.action w.now : Action hash) = .expireAtMs k' expire from hdoes] at hne
    exact hne (List.mem_singleton_self k')
  | touched k' | written k' old new | expired k' => trivial

variable {U : Set Str}

theorem AbsDb.exec_awaits (hc : (Event.command c).LeavesAlone U k w)
    (ht : w.now ≤ t) (hrun : a.exec w c = some (reply, b)) (ha : a.Awaits k deadline t) :
    b.Awaits k deadline t := by
  obtain hquery | ⟨hk, hwhole, hpolicy⟩ := hc.2
  · refine (changes_of_query hquery a _ _ hrun).keeps ?_ ha
    intro b b' x hreads hleads hb
    refine hleads.awaits ?_ ht hb
    cases x with
    | touched k' | written k' old new | expired k' => trivial
    | _ => exact hreads.elim
  · refine ((c.action w.now : Action hash).changes w a _ _ hrun).keeps ?_ ha
    exact fun b b' x hdoes hleads hb =>
      hleads.awaits (spares hdoes hleads hk hwhole hpolicy) ht hb

theorem DbState.Later.awaits (hU : Separated U)
    (hlater : s.Later (fun w e => w.now ≤ t ∧ e.LeavesAlone U k w) s') (hs : s.KeysIn U)
    (ha : s.abs.Awaits k deadline t) : s'.KeysIn U ∧ s'.abs.Awaits k deadline t := by
  refine hlater.keeps hU ?_ ?_ ?_ hs ha
  · rintro w (c | _) ⟨-, h⟩
    · exact h.1
    · trivial
  · exact fun w c a reply b h hrun ha => exec_awaits h.2 h.1 hrun ha
  · intro w s b h hpurged ha
    obtain ⟨hdict, hexp⟩ := get_of_purged hpurged k
    cases hexpired : s.abs.expired w.now k with
    | true =>
      simp only [hexpired, ↓reduceIte] at hdict hexp
      exact ha.of_lapsed h.1 hexpired hdict hexp
    | false =>
      simp only [hexpired, Bool.false_eq_true, ↓reduceIte] at hdict hexp
      exact ha.of_eq hdict hexp

/-! ### Reading -/

theorem AbsDb.answer_type_current (hcurrent : a.lapsed w k = false) :
    (a.exec w (.type k)).map Prod.fst =
      some ((a.dict.get k).elim (.fail .nonexists) fun data => .ok (.type data.type)) := by
  have hrun : a.exec w (.type k) = _ :=
    (run_checkExpireRoutine_current hcurrent _).trans (run_findTyped .any _)
  rw [hrun]
  cases hget : a.dict.get k with
  | none => rfl
  | some data =>
    have htouch : (Db.onlyIf true (Db.cacheUpdate w k)).run handler a = some ((), _) :=
      run_cacheUpdate
    simp only [DataKind.any]
    rw [Program.run_bind_of_some htouch, Program.run_bind_of_some (run_ofOption (some _)),
      Program.run_bind_of_some (run_write (a := { a with side := a.side.touch w k }) hget _)]
    rfl

theorem AbsDb.Awaits.answer_type (h : a.Awaits k deadline w.now) :
    (w.config.lazyExpiration = true → (∃ e, deadline = some e ∧ e ≤ w.now) →
      (a.exec w (.type k)).map Prod.fst = some (.fail .nonexists)) ∧
    (¬(∃ e, deadline = some e ∧ e ≤ w.now) →
      ∃ type, (a.exec w (.type k)).map Prod.fst = some (.ok (.type type))) := by
  obtain ⟨hstored, hdeadline⟩ | ⟨hnone, hundated, hpassed⟩ := h
  · obtain ⟨data, hget⟩ := Option.isSome_iff_exists.mp hstored
    constructor
    · rintro hlazy ⟨e, rfl, hpassed⟩
      have hlapsed : a.lapsed w k = true := by
        simp [lapsed, expired, hlazy, hdeadline, hpassed]
      obtain ⟨b, hrun, -⟩ := run_checkExpireRoutine_lapsed hlapsed hget _
      exact congrArg (Option.map Prod.fst) hrun
    · intro hcurrent
      have hlapsed : a.lapsed w k = false := by
        cases deadline with
        | none => simp [lapsed, expired, hdeadline]
        | some e =>
          have hlate : ¬e ≤ w.now := fun h => hcurrent ⟨e, rfl, h⟩
          simp [lapsed, expired, hdeadline, hlate]
      exact ⟨data.type, by rw [answer_type_current hlapsed, hget]; rfl⟩
  · have hlapsed : a.lapsed w k = false := by
      simp [lapsed, expired_of_none hundated]
    exact ⟨fun _ _ => by rw [answer_type_current hlapsed, hnone]; rfl, fun h => absurd hpassed h⟩

end Awaits

namespace DbState

/-- At every moment from now on, after any steps that leave the key alone, `Type` finds the key
before the deadline and does not find it from the deadline on. -/
def Expires (U : Set Str) (w : World C) (k : Str) (D : Nat) (s : DbState hash C) : Prop :=
  ∀ t, w.now ≤ t → ∀ s', s.Later (fun v e => v.now ≤ t ∧ e.LeavesAlone U k v) s' →
    ∀ v : World C, v.config = w.config → v.now = t →
      (t.toNat < D → ∃ type, (s'.exec v (.type k)).map Prod.fst = some (.ok (.type type))) ∧
      (D ≤ t.toNat → (s'.exec v (.type k)).map Prod.fst = some (.fail .nonexists))

/-- A deadline that fits and is to come is kept if it is checked on access.  One that does not
fit is never reached if the wrapped one has passed, so that none is set. -/
def MeetsDeadline (w : World C) (k : Str) (D : Nat) (s : DbState hash C) : Prop :=
  D < 2 ^ 64 ∧ w.config.lazyExpiration = true ∧ w.now.toNat < D ∨
    2 ^ 64 ≤ D ∧ D % 2 ^ 64 ≤ w.now.toNat ∧ s.abs.expDict.get k = none

section Deadline

variable {U : Set Str} {w : World C} {k : Str} {D : Nat} {c : Command} {s s' : DbState hash C}

theorem exec_deadline {b : AbsDb hash C} (hdate : c.deadline = some (k, D))
    (hrun : s.abs.exec w c = some (.ok .none, b)) :
    b.dict.get = s.abs.dict.get ∧ b.expDict.get k =
      if w.now < UInt64.ofNat D then some (UInt64.ofNat D) else s.abs.expDict.get k := by
  obtain ⟨code, hcode, hcheck⟩ := run_checkShardIsLockedKey (w := w) (a := s.abs) (k := k)
    (Db.expireAtMs w k (UInt64.ofNat D))
  rw [AbsDb.exec, run, action_of_deadline hdate, Action.run, hcheck] at hrun
  split at hrun
  · obtain ⟨rfl, hpassed⟩ | ⟨hlate, hleads⟩ := ensures_expireAtMs _ _ _ hrun
    · grind
    · rw [if_pos hlate, hleads.values, hleads.deadlines]
      simp [values, deadlines]
  · cases hrun
    exact absurd rfl hcode

theorem keys_of_deadline (hdate : c.deadline = some (k, D)) : c.keys w = [k] := by
  rw [keys, action_of_deadline hdate]
  rfl

section

variable (hU : Separated U)

include hU

theorem answer_type (hk : k ∈ U) (hs : s.KeysIn U) :
    (s.exec w (.type k)).map Prod.fst = (s.abs.exec w (.type k)).map Prod.fst := by
  have hkeys : ∀ k' ∈ (type k).keys w, k' ∈ U := by
    simpa [keys, action, MmkvDb.type, Action.keys] using hk
  exact (exec_abs hU hkeys hs).result_eq

theorem expires_of_meets (hk : k ∈ U) (hs' : s'.KeysIn U)
    (hstored : (s'.abs.dict.get k).isSome)
    (hset : s'.abs.expDict.get k =
      if w.now < UInt64.ofNat D then some (UInt64.ofNat D) else s.abs.expDict.get k)
    (h : s.MeetsDeadline w k D) : s'.Expires U w k D := by
  intro t _ s'' hlater v hconfig hv
  subst hv
  obtain ⟨hin, hawaits⟩ := hlater.awaits hU hs' (.inl ⟨hstored, hset⟩)
  obtain ⟨hgone, hfound⟩ := hawaits.answer_type
  rw [answer_type hU hk hin, hconfig] at *
  obtain ⟨hfits, hlazy, hnow⟩ | ⟨hwraps, hpassed, hnone⟩ := h
  · have hD : (UInt64.ofNat D).toNat = D := toNat_ofNat_of_lt' hfits
    have hlate : w.now < UInt64.ofNat D := by rwa [lt_iff_toNat_lt, hD]
    simp only [hlate, ↓reduceIte, Option.some.injEq, exists_eq_left', le_iff_toNat_le,
      hD] at hgone hfound
    exact ⟨fun ht => hfound (by omega), hgone hlazy⟩
  · have hearly : ¬w.now < UInt64.ofNat D := by
      rw [lt_iff_toNat_lt, toNat_ofNat']
      omega
    have hv := v.now.toNat_lt
    grind

theorem lapsed_of_expires (hk : k ∈ U) (hs : s.KeysIn U)
    (hstored : (s.abs.dict.get k).isSome) (h : s.Expires U w k D) {t : UInt64}
    (ht : w.now ≤ t) : s.abs.lapsed { w with now := t } k = decide (D ≤ t.toNat) := by
  obtain ⟨data, hget⟩ := Option.isSome_iff_exists.mp hstored
  obtain ⟨hfound, hgone⟩ := h t ht s .refl { w with now := t } rfl rfl
  rw [answer_type hU hk hs] at hfound hgone
  cases hlapsed : s.abs.lapsed { w with now := t } k with
  | false =>
    rw [answer_type_current hlapsed, hget] at hgone
    simpa [Reply.ok, Reply.fail] using hgone
  | true =>
    obtain ⟨b, hrun, -⟩ := run_checkExpireRoutine_lapsed hlapsed hget _
    rw [show (s.abs.exec { w with now := t } (.type k)).map Prod.fst = _ from
      congrArg (Option.map Prod.fst) hrun] at hfound
    simpa [Reply.ok, Reply.fail] using hfound

/-- The cycle removes the key even if deadlines are not checked on access. -/
theorem later_cycle (hs : s.KeysIn U) (hdeadlines : s.abs.DeadlinesStored)
    {e : UInt64} (he : s.abs.expDict.get k = some e) (hpassed : e ≤ w.now) :
    ∃ s', s.perform w .checkExpireCycle = some s' ∧ s'.KeysIn U ∧ s'.abs.dict.get k = none ∧
      s'.abs.expDict.get k = none := by
  obtain ⟨b, hreaches, hpurged⟩ := reaches_checkExpireCycle_stored (w := w)
    s.expDict.represents_abs hdeadlines
  have hsame := checkExpireCycle_abs (w := w) hU hs
  rw [hreaches.run] at hsame
  obtain ⟨s', hcycle, hin, rfl⟩ := hsame.exists_of_right
  have hexpired : s.abs.expired w.now k = true := by simp [AbsDb.expired, he, hpassed]
  obtain ⟨hdict, hexp⟩ := get_of_purged hpurged k
  exact ⟨s', by simp [perform, hcycle], hin, by simpa [hexpired] using hdict,
    by simpa [hexpired] using hexp⟩

theorem meets_of_expires (hk : k ∈ U) (hs' : s'.KeysIn U)
    (hstored : (s'.abs.dict.get k).isSome) (hcurrent : s.abs.expired w.now k = false)
    (hset : s'.abs.expDict.get k =
      if w.now < UInt64.ofNat D then some (UInt64.ofNat D) else s.abs.expDict.get k)
    (hdeadlines : w.config.lazyExpiration = false → s'.abs.DeadlinesStored)
    (h : s'.Expires U w k D) : s.MeetsDeadline w k D := by
  have hlapsed := fun t => lapsed_of_expires hU hk hs' hstored h (t := t)
  by_cases hfits : D < 2 ^ 64
  · have hD : (UInt64.ofNat D).toNat = D := toNat_ofNat_of_lt' hfits
    have hnow : w.now.toNat < D := by
      by_contra hpassed
      have hearly : ¬w.now < UInt64.ofNat D := by rwa [lt_iff_toNat_lt, hD]
      rw [if_neg hearly] at hset
      have hsame := hlapsed w.now (UInt64.le_refl _)
      have hexpired : s'.abs.expired w.now k = false := by
        rw [AbsDb.expired, hset]
        exact hcurrent
      simp [AbsDb.lapsed, hexpired] at hsame
      omega
    have hlate : w.now < UInt64.ofNat D := by rwa [lt_iff_toNat_lt, hD]
    have hlazy := hlapsed (UInt64.ofNat D) (UInt64.le_of_lt hlate)
    rw [hD, decide_eq_true (le_refl D), AbsDb.lapsed, Bool.and_eq_true] at hlazy
    exact .inl ⟨hfits, hlazy.1, hnow⟩
  · have hnone : s'.abs.expDict.get k = none := by
      by_contra hsome
      obtain ⟨e, he⟩ := Option.ne_none_iff_exists'.mp hsome
      obtain ⟨t, ht, het⟩ : ∃ t, w.now ≤ t ∧ e ≤ t := by
        obtain hle | hle := UInt64.le_total w.now e
        · exact ⟨e, hle, UInt64.le_refl e⟩
        · exact ⟨w.now, UInt64.le_refl w.now, hle⟩
      have hbound := t.toNat_lt
      have hearly : t.toNat < D := by omega
      have hlazy : w.config.lazyExpiration = false := by
        simpa [AbsDb.lapsed, AbsDb.expired, he, het, hearly.not_ge] using hlapsed t ht
      obtain ⟨s'', hstep, hin, hdict, hexp⟩ := later_cycle (w := { w with now := t }) hU hs'
        (hdeadlines hlazy) he het
      have hlater : s'.Later (fun v e => v.now ≤ t ∧ e.LeavesAlone U k v) s'' := by
        refine .step .refl ?_ hstep
        exact ⟨UInt64.le_refl t, trivial⟩
      obtain ⟨type, htype⟩ := (h t ht s'' hlater { w with now := t } rfl rfl).1 hearly
      rw [answer_type hU hk hin, answer_type_current (by
        simp [AbsDb.lapsed, AbsDb.expired, hexp]), hdict] at htype
      simp [Reply.ok, Reply.fail] at htype
    rw [hnone] at hset
    split at hset
    next => cases hset
    next hearly =>
      rw [lt_iff_toNat_lt, toNat_ofNat'] at hearly
      exact .inr ⟨by omega, by omega, hset.symm⟩

/-- The condition is enough in every state, and it is necessary wherever the cycle, which has
to remove the keys if they are not checked on access, comes to its end. -/
theorem expires_meets_deadline (hk : k ∈ U) (hs : s.KeysIn U)
    (hdate : c.deadline = some (k, D)) (hstored : (s.abs.dict.get k).isSome)
    (hcurrent : s.abs.expired w.now k = false) (hexec : s.exec w c = some (.ok .none, s')) :
    (s.MeetsDeadline w k D → s'.Expires U w k D) ∧
      ((w.config.lazyExpiration = false → s.DeadlinesStored) → s'.Expires U w k D →
        s.MeetsDeadline w k D) := by
  obtain ⟨hrun, hs'⟩ := abs_exec hU (by simpa [keys_of_deadline hdate] using hk) hs hexec
  obtain ⟨hdict, hset⟩ := exec_deadline hdate hrun
  rw [← hdict] at hstored
  refine ⟨expires_of_meets hU hk hs' hstored hset, fun hdeadlines => ?_⟩
  refine meets_of_expires hU hk hs' hstored hcurrent hset fun hlazy => ?_
  refine Action.stores _ ?_ ((deadlinesStored_iff s).mp (hdeadlines hlazy)) _ _ hrun
  rw [action_of_deadline hdate]
  trivial

end

/-- A second deadline replaces the first one. -/
theorem expires_later_deadline :
    ∃ s', expiringDb.exec (.standalone true 0) (.expireAtMs [97] 5) = some (.ok .none, s') ∧
      s'.Expires {k : Str | 0 ∉ k} (.standalone true 0) [97] 5 := by
  obtain ⟨s', hexec⟩ : ∃ s',
      expiringDb.exec (.standalone true 0) (.expireAtMs [97] 5) = some (.ok .none, s') :=
    ⟨_, rfl⟩
  exact ⟨s', hexec, (expires_meets_deadline separated_nulFree (by decide) expiringDb_keysIn rfl
    rfl rfl hexec).1 (.inl ⟨by decide, rfl, by decide⟩)⟩

/-- `ExpireAtMs` with a moment that has passed leaves the key as it is, and 1000 times
18446744073709552 seconds is a deadline of 384 milliseconds. -/
theorem expireAt_wraps :
    (execAll [(.standalone true 5, .insertStr [97] [98]),
        (.standalone true 5, .expireAtMs [97] 3), (.standalone true 9, .type [97]),
        (.standalone true 9, .expireAt [97] 18446744073709552),
        (.standalone true 384, .type [97])]
      (new () : DbState (fun _ => 0) Unit)).map Prod.fst =
        some [.ok .none, .ok .none, .ok (.type .string), .ok .none, .fail .nonexists] := by
  decide +kernel

end Deadline

end DbState

end Mmkv
