import Mmkv.PlainRuns

/-!
# Lazy expiration

A key whose deadline has passed should look as if it were not there.  The
commands that read and overwrite check the deadline first, most of those that
insert or delete do not.  `Action.HidesExpired` says for every shape on which
states an expired key makes no difference.
-/

namespace Mmkv

open EffectPrograms Db AbsDb

variable {hash : Str → Nat} {C : Type}

/-! ## States without their expired keys -/

namespace AbsDb

def visible (t : UInt64) (a : AbsDb hash C) (k : Str) : Option (MmkvData hash) × Option UInt64 :=
  if a.expired t k then (none, none) else (a.dict.get k, a.expDict.get k)

/-- The keys that have expired at `t` are gone from both dictionaries. -/
def PurgedTo (t : UInt64) (a a₀ : AbsDb hash C) : Prop :=
  ∀ k, (a₀.dict.get k, a₀.expDict.get k) = a.visible t k

def SameVisible (t : UInt64) (a a' : AbsDb hash C) : Prop :=
  ∀ k, a.visible t k = a'.visible t k

variable {t : UInt64} {a a' a₀ b b0 : AbsDb hash C} {k : Str}

theorem SameVisible.trans (h : SameVisible t a a') (h' : SameVisible t a' b) : SameVisible t a b :=
  fun k => (h k).trans (h' k)

theorem expired_congr (hexp : a.expDict.get k = a'.expDict.get k) :
    a.expired t k = a'.expired t k := by
  simp only [expired, hexp]

theorem visible_congr
    (hdict : a.dict.get k = a'.dict.get k) (hexp : a.expDict.get k = a'.expDict.get k) :
    a.visible t k = a'.visible t k := by
  simp only [visible, expired_congr hexp, hdict, hexp]

theorem visible_expired (hexpired : a.expired t k = true) : a.visible t k = (none, none) := by
  simp [visible, hexpired]

theorem visible_current (hcurrent : a.expired t k = false) :
    a.visible t k = (a.dict.get k, a.expDict.get k) := by
  simp [visible, hcurrent]

theorem visible_of_persistent (hexp : a.expDict.get k = none) :
    a.visible t k = (a.dict.get k, none) := by
  simp [visible_current (expired_of_none hexp), hexp]

theorem SameVisible.of_changed
    (hsame : SameVisible t a a₀) (hb : b.AgreeOn {k}ᶜ a) (hb0 : b0.AgreeOn {k}ᶜ a₀)
    (hk : b.visible t k = b0.visible t k) : SameVisible t b b0 := by
  intro k'
  by_cases hne : k' = k
  · subst hne
    exact hk
  · calc
      b.visible t k' = a.visible t k' := visible_congr (hb.dict k' hne) (hb.expDict k' hne)
      _ = a₀.visible t k' := hsame k'
      _ = b0.visible t k' := (visible_congr (hb0.dict k' hne) (hb0.expDict k' hne)).symm

variable {w : World C} {data data' : MmkvData hash}

theorem agreeOn_added : AgreeOn {k}ᶜ ((a.add w k data).put k data') a := by
  refine ⟨fun k' hk => ?_, fun _ _ => rfl⟩
  have hne : k' ≠ k := hk
  simp [add, put, AbsDict.insert, AbsDict.set, hne]

theorem visible_added (hexp : a.expDict.get k = none) :
    ((a.add w k data).put k data').visible t k = (some data', none) := by
  rw [visible_of_persistent (a := (a.add w k data).put k data') hexp]
  simp [put, AbsDict.set]

theorem agreeOn_eraseDeadline : AgreeOn {k}ᶜ { a with expDict := a.expDict.erase k } a := by
  refine ⟨fun _ _ => rfl, fun k' hk => ?_⟩
  have hne : k' ≠ k := hk
  simp [AbsDict.remove, hne]

theorem visible_eraseDeadline :
    visible t { a with expDict := a.expDict.erase k } k = (a.dict.get k, none) := by
  apply visible_of_persistent
  simp [AbsDict.remove]

namespace PurgedTo

section

variable (hpurged : PurgedTo t a a₀)

include hpurged

theorem get_expired (hexpired : a.expired t k = true) :
    a₀.dict.get k = none ∧ a₀.expDict.get k = none := by
  have h := hpurged k
  rw [visible_expired hexpired] at h
  simpa using h

theorem get_current (hcurrent : a.expired t k = false) :
    a₀.dict.get k = a.dict.get k ∧ a₀.expDict.get k = a.expDict.get k := by
  have h := hpurged k
  rw [visible_current hcurrent] at h
  simpa using h

theorem not_expired (k : Str) : a₀.expired t k = false := by
  cases hexpired : a.expired t k with
  | false => simpa [expired, (hpurged.get_current hexpired).2] using hexpired
  | true => exact expired_of_none (hpurged.get_expired hexpired).2

theorem sameVisible : SameVisible t a a₀ := by
  intro k
  rw [visible_current (hpurged.not_expired k)]
  exact (hpurged k).symm

end

end PurgedTo

end AbsDb

theorem Db.Dropped.sameVisible {t : UInt64} {a b : AbsDb hash C} {k : Str}
    (hdropped : Db.Dropped a b k) (hexpired : a.expired t k = true) :
    AbsDb.SameVisible t b a := by
  intro k'
  by_cases hk : k' = k
  · subst hk
    have hexp : b.expDict.get k' = none := by simp [hdropped.expDict, AbsDict.remove]
    rw [visible_expired hexpired, visible_of_persistent hexp]
    simp [hdropped.dict, AbsDict.extract, AbsDict.remove]
  · apply visible_congr
    · simp [hdropped.dict, AbsDict.extract, AbsDict.remove, hk]
    · simp [hdropped.expDict, AbsDict.remove, hk]

/-! ## Where expired keys are invisible -/

/-- The states on which the command does the same as without the expired keys. -/
def Action.HidesExpired (w : World C) (a : AbsDb hash C) : Action hash → Prop
  | .onValue _ _ k _ => a.expired w.now k → (a.dict.get k).isSome
  | .insertNew _ k _ => ¬ a.expired w.now k
  | .addTo expire _ k _ _ =>
    a.expired w.now k →
      expire ∧ (a.dict.get k).isSome ∧ (w.config.logMethod = .request → k = [])
  | .setStr k _ => ¬ a.expired w.now k
  | .eraseValue _ _ _ k => a.expired w.now k → a.dict.get k = none
  | .delete k => a.expired w.now k → a.dict.get k = none
  | .rename oldName newName =>
    if a.expired w.now oldName then
      (a.dict.get oldName).isSome ∧
        ((a.dict.get newName).isSome → a.expired w.now newName)
    else
      a.expired w.now newName → a.dict.get newName = none ∧ a.dict.get oldName = none
  | .setOp _ k₁ k₂ _ => OperandsHidden k₁ k₂
  | .setOpTo _ k₁ k₂ dest =>
    OperandsHidden k₁ k₂ ∧
      (¬ a.expired w.now k₁ → ¬ a.expired w.now k₂ →
        ∀ s₁ s₂, a.dict.get k₁ = some (.set s₁) → a.dict.get k₂ = some (.set s₂) →
          ¬ a.expired w.now dest)
  | _ => True
where
  OperandsHidden (k₁ k₂ : Str) : Prop :=
    if a.expired w.now k₁ then (a.dict.get k₁).isSome = true
    else
      a.expired w.now k₂ → (a.dict.get k₂).isSome ∧
        ∀ data, a.dict.get k₁ = some data → (DataKind.set.get data).isSome

/-- The commands on data, that is all but those on deadlines and the one that
empties the database. -/
def Action.IsData : Action hash → Prop
  | .deleteAll => False
  | .expireAtMs _ _ => False
  | .persist _ => False
  | .getExpiration _ _ => False
  | _ => True

/-! ## The shapes one by one -/

section Shapes

variable {w : World C} {a a₀ : AbsDb hash C} {k : Str}

/-- The command does the same on both states, as far as unexpired keys go. -/
def SameRun (w : World C) (p : Db hash C Reply) (a a₀ : AbsDb hash C) : Prop :=
  SameOutcome (fun _ => AbsDb.SameVisible w.now)
    (p.run handler a) (p.run handler a₀)

variable (hplain : w.Plain) (hlazy : w.config.lazyExpiration = true)
  (hpurged : AbsDb.PurgedTo w.now a a₀)

include hplain hpurged in
theorem sameRun_of_current (c : Action hash) (hwhole : ¬ c.IsWhole)
    (hcurrent : ∀ k ∈ c.keys w, a.expired w.now k = false) :
    SameRun w (c.unguarded w) a a₀ := by
  let U : Set Str := {k | k ∈ c.keys w}
  have hkeeps : Db.Keeps U False .blind (c.run w) fun _ => True :=
    Action.run_keeps (SideRule.blind_allows U hplain) c (fun _ hk => hk) hwhole
  rw [Action.run_plain hplain] at hkeeps
  have hagree : a.AgreeOn U a₀ :=
    ⟨fun k hk => (hpurged.get_current (hcurrent k hk)).1.symm,
      fun k hk => (hpurged.get_current (hcurrent k hk)).2.symm⟩
  apply (run_local hkeeps hagree).mono
  intro r b b0 hlocal k
  by_cases hk : k ∈ U
  · exact visible_congr (hlocal.inside.dict k hk) (hlocal.inside.expDict k hk)
  · calc
      b.visible w.now k = a.visible w.now k :=
        visible_congr (hlocal.outside.dict k hk) (hlocal.outside.expDict k hk)
      _ = a₀.visible w.now k := hpurged.sameVisible k
      _ = b0.visible w.now k :=
        (visible_congr (hlocal.outside'.dict k hk) (hlocal.outside'.expDict k hk)).symm

theorem Action.hidesExpired_of_current {c : Action hash}
    (hcurrent : ∀ k ∈ c.keys w, a.expired w.now k = false) : c.HidesExpired w a := by
  cases c with
  | setOpTo op k₁ k₂ dest =>
    obtain ⟨h1, h2, hdest⟩ := by simpa [keys] using hcurrent
    simp [HidesExpired, HidesExpired.OperandsHidden, h1, h2, hdest]
  | _ => grind [HidesExpired, HidesExpired.OperandsHidden, keys]

include hlazy in
theorem AbsDb.lapsed_of_expired (hexpired : a.expired w.now k = true) : a.lapsed w k = true := by
  simp [lapsed, hlazy, hexpired]

theorem AbsDb.lapsed_of_current (hcurrent : a.expired w.now k = false) : a.lapsed w k = false := by
  simp [lapsed, hcurrent]

include hpurged in
theorem AbsDb.PurgedTo.lapsed (k : Str) : a₀.lapsed w k = false :=
  lapsed_of_current (hpurged.not_expired k)

theorem not_sameRun_of_value {p : Db hash C Reply} {r r0 : Reply} {b b0 : AbsDb hash C}
    (hrun : p.run handler a = some (r, b))
    (hrun0 : p.run handler a₀ = some (r0, b0))
    (hhidden : (b.visible w.now k).1 = none) (hvalue : (b0.visible w.now k).1 ≠ none) :
    ¬ SameRun w p a a₀ := by
  unfold SameRun
  rw [hrun, hrun0]
  simp only [sameOutcome_some_iff, not_and]
  intro _ hsame
  rw [← hsame k] at hvalue
  exact hvalue hhidden

section ExpiredKey

variable (hexpired : a.expired w.now k = true) {p : Db hash C Reply}

include hlazy hpurged hexpired in
/-- `CHECK_EXPIRE_ROUTINE` hides an expired key from a command that would not
find it, unless the key has a deadline only. -/
theorem checkExpireRoutine_sameRun_iff (habsent : p.run handler a₀ = some (.fail .nonexists, a₀)) :
    SameRun w (checkExpireRoutine w k p) a a₀ ↔ (a.dict.get k).isSome := by
  have hlapsed := lapsed_of_expired hlazy hexpired
  unfold SameRun
  rw [run_checkExpireRoutine_current (hpurged.lapsed k), habsent]
  cases hget : a.dict.get k with
  | none =>
    rw [run_checkExpireRoutine_dangling hlapsed hget]
    simp
  | some data =>
    rcases run_checkExpireRoutine_lapsed hlapsed hget p with ⟨b, hrun, hdropped⟩
    rw [hrun]
    simp [(hdropped.sameVisible hexpired).trans hpurged.sameVisible]

include hlazy hexpired in
theorem checkExpireRoutine_not_sameRun
    (h : ∃ r0 b0, (checkExpireRoutine w k p).run handler a₀ = some (r0, b0) ∧
      .fail .nonexists ≠ r0) : ¬ SameRun w (checkExpireRoutine w k p) a a₀ := by
  obtain ⟨r0, b0, hrun0, hne⟩ := h
  have hlapsed := lapsed_of_expired hlazy hexpired
  unfold SameRun
  rw [hrun0]
  cases hget : a.dict.get k with
  | none =>
    rw [run_checkExpireRoutine_dangling hlapsed hget]
    simp
  | some data =>
    rcases run_checkExpireRoutine_lapsed hlapsed hget p with ⟨b, hrun, -⟩
    rw [hrun]
    simp [hne]

include hplain hpurged hexpired in
theorem insertNew_not_sameRun (replace : Bool) (data : MmkvData hash) :
    ¬ SameRun w (insertNew w replace k data) a a₀ := by
  have hget0 := hpurged.get_expired hexpired
  have hrun0 := run_insertNew (a := a₀) (k := k) hplain replace data
  rw [hget0.1] at hrun0
  have hrun := run_insertNew (a := a) (k := k) hplain replace data
  cases hget : a.dict.get k with
  | none =>
    rw [hget] at hrun
    apply not_sameRun_of_value hrun hrun0
    · rw [visible_expired (a := a.add w k data) hexpired]
    · rw [visible_of_persistent (a := a₀.add w k data) hget0.2]
      simp [add, AbsDict.insert, AbsDict.set]
  | some old =>
    rw [hget] at hrun
    unfold SameRun
    rw [hrun, hrun0]
    simp [Reply.ok, Reply.fail]

include hlazy hplain hpurged hexpired in
theorem setStr_not_sameRun (v : Str) : ¬ SameRun w (setStr w k v) a a₀ := by
  have hrun0 := run_setStr (a := a₀) (k := k) hplain v (hpurged.lapsed k)
  rw [(hpurged.get_expired hexpired).1] at hrun0
  exact checkExpireRoutine_not_sameRun hlazy hexpired ⟨_, _, hrun0, by simp [Reply.ok, Reply.fail]⟩

variable {τ : Type}

include hplain hpurged hexpired in
theorem eraseValue_sameRun_iff (kind : DataKind hash τ) (ifErased ifAbsent : Bool) :
    SameRun w (eraseValue w kind ifErased ifAbsent k) a a₀ ↔ a.dict.get k = none := by
  have hget0 := hpurged.get_expired hexpired
  have hrun0 := run_eraseValue (a := a₀) (k := k) hplain kind ifErased ifAbsent
  rw [hget0.1] at hrun0
  have hrun := run_eraseValue (a := a) (k := k) hplain kind ifErased ifAbsent
  unfold SameRun
  rw [hrun, hrun0]
  cases hget : a.dict.get k with
  | none =>
    simp only [sameOutcome_some_iff, true_and, iff_true]
    cases ifAbsent with
    | false => exact hpurged.sameVisible
    | true =>
      apply hpurged.sameVisible.of_changed agreeOn_eraseDeadline agreeOn_eraseDeadline
      rw [visible_eraseDeadline, visible_eraseDeadline, hget, hget0.1]
  | some data =>
    dsimp only
    cases kind.get data with
    | none => simp [Reply.fail]
    | some x => simp [Reply.ok, Reply.fail]

include hplain hpurged hexpired in
theorem delete_sameRun_iff : SameRun w (delete w k) a a₀ ↔ a.dict.get k = none := by
  have hrun0 := run_delete (a := a₀) (k := k) hplain
  rw [(hpurged.get_expired hexpired).1] at hrun0
  unfold SameRun
  rw [run_delete hplain, hrun0]
  cases hget : a.dict.get k with
  | none => simp [hpurged.sameVisible]
  | some data => simp [Reply.ok, Reply.fail]

include hplain hpurged in
theorem addTo_fresh_sameOutcome (kind : DataKind hash τ) (init : τ) (body : τ → Output × τ)
    {b : AbsDb hash C} (hdropped : Db.Dropped a b k) (hexpired : a.expired w.now k = true) :
    SameOutcome (fun _ => AbsDb.SameVisible w.now)
      ((addTo w false kind k init body).run handler b)
      ((addTo w false kind k init body).run handler a₀) := by
  have hget0 := hpurged.get_expired hexpired
  have hget : b.dict.get k = none := by
    simp [hdropped.dict, AbsDict.extract, AbsDict.remove]
  have hexp : b.expDict.get k = none := by simp [hdropped.expDict, AbsDict.remove]
  rw [run_addTo hplain, run_addTo hplain, hget, hget0.1]
  simp only [sameOutcome_some_iff, true_and]
  apply ((hdropped.sameVisible hexpired).trans hpurged.sameVisible).of_changed (k := k)
  · exact agreeOn_added
  · exact agreeOn_added
  · rw [visible_added hexp, visible_added hget0.2]

include hplain hpurged hexpired in
theorem addTo_run_purged (expire : Bool) (kind : DataKind hash τ) (init : τ)
    (body : τ → Output × τ) :
    ∃ r b, (addTo w expire kind k init body).run handler a₀ = some (r, b) ∧
      (b.visible w.now k).1 ≠ none := by
  have hget0 := hpurged.get_expired hexpired
  rw [run_addTo_current expire kind init body (hpurged.lapsed k), run_addTo hplain, hget0.1]
  refine ⟨_, _, rfl, ?_⟩
  rw [visible_added hget0.2]
  simp

include hplain hlazy hpurged hexpired in
theorem addTo_sameRun_iff (expire : Bool) (kind : DataKind hash τ) (init : τ)
    (body : τ → Output × τ) :
    SameRun w (addTo w expire kind k init body) a a₀ ↔
      expire ∧ (a.dict.get k).isSome ∧ (w.config.logMethod = .request → k = []) := by
  have hlapsed := lapsed_of_expired hlazy hexpired
  rcases addTo_run_purged hplain hpurged hexpired expire kind init body with
    ⟨r0, b0, hrun0, hvalue⟩
  cases expire with
  | false =>
    rcases run_addTo_frame (a := a) (k := k) hplain kind init body with
      ⟨r, b, hrun, hexp, -⟩
    have hhidden : (b.visible w.now k).1 = none := by
      have hexpired' : b.expired w.now k = true := by
        rw [← hexpired]
        exact expired_congr (by rw [hexp])
      rw [visible_expired hexpired']
    simpa using not_sameRun_of_value hrun hrun0 hhidden hvalue
  | true =>
    cases hget : a.dict.get k with
    | none =>
      unfold SameRun
      rw [run_addTo_of_none _ _ _ (run_checkExpire_dangling hlapsed hget), hrun0]
      simp
    | some data =>
      rcases run_checkExpire_lapsed hlapsed hget with ⟨b, hcheck, hdropped⟩
      have hmoved := run_addTo_of_some kind init body hcheck
      by_cases hsame : w.config.logMethod = .request → k = []
      · have hkey : (if w.config.logMethod = .request then [] else k) = k := by grind
        rw [hkey] at hmoved
        have hfresh := addTo_fresh_sameOutcome hplain hpurged kind init body hdropped hexpired
        unfold SameRun
        rw [hmoved, run_addTo_current true kind init body (hpurged.lapsed k)]
        exact iff_of_true hfresh ⟨rfl, rfl, hsame⟩
      · have hlog : w.config.logMethod = .request := by grind
        have hk : k ≠ [] := fun h => hsame fun _ => h
        rw [if_pos hlog] at hmoved
        rcases run_addTo_frame (a := b) (k := []) hplain kind init body with
          ⟨r, b', hrun, hexp, hframe⟩
        have hhidden : (b'.visible w.now k).1 = none := by
          have hexp' : b'.expDict.get k = none := by
            simp [hexp, hdropped.expDict, AbsDict.remove]
          rw [visible_of_persistent hexp']
          simp [hframe k hk, hdropped.dict, AbsDict.extract, AbsDict.remove]
        simpa [hsame] using not_sameRun_of_value (hmoved.trans hrun) hrun0 hhidden hvalue

include hplain hlazy hpurged hexpired in
theorem rename_old_sameRun_iff (newName : Str) : SameRun w (rename w k newName) a a₀ ↔
      (a.dict.get k).isSome ∧ ((a.dict.get newName).isSome → a.expired w.now newName) := by
  have hrun0 := run_rename hplain newName (hpurged.lapsed k)
  rw [(hpurged.get_expired hexpired).1] at hrun0
  cases hnew : a₀.dict.get newName with
  | none =>
    have hhidden : (a.dict.get newName).isSome → a.expired w.now newName := by
      intro hsome
      by_contra hcurrent
      have hget := (hpurged.get_current (by simpa using hcurrent)).1
      grind
    rw [hnew] at hrun0
    unfold rename at hrun0 ⊢
    rw [run_checkExpireRoutine_current (hpurged.lapsed k)] at hrun0
    rw [checkExpireRoutine_sameRun_iff hlazy hpurged hexpired hrun0]
    exact ⟨fun hsome => ⟨hsome, hhidden⟩, And.left⟩
  | some data =>
    have hcurrent : a.expired w.now newName = false := by
      by_contra h
      have hget := (hpurged.get_expired (by simpa using h)).1
      rw [hnew] at hget
      cases hget
    have hget := (hpurged.get_current hcurrent).1
    rw [hnew] at hrun0 hget
    have hnot : ¬ SameRun w (rename w k newName) a a₀ :=
      checkExpireRoutine_not_sameRun hlazy hexpired ⟨_, _, hrun0, by simp [Reply.fail]⟩
    simp [hnot, ← hget, hcurrent]

include hplain hpurged hexpired in
theorem rename_new_sameRun_iff {oldName : Str} (hcurrent : a.expired w.now oldName = false) :
    SameRun w (rename w oldName k) a a₀ ↔
      a.dict.get k = none ∧ a.dict.get oldName = none := by
  have hget0 := hpurged.get_expired hexpired
  have hold := hpurged.get_current hcurrent
  have hrun := run_rename hplain k (lapsed_of_current hcurrent)
  have hrun0 := run_rename hplain k (hpurged.lapsed oldName)
  rw [hget0.1, hold.1] at hrun0
  cases hget : a.dict.get k with
  | some data =>
    rw [hget] at hrun
    unfold SameRun
    rw [hrun, hrun0]
    cases a.dict.get oldName with
    | none => simp [Reply.fail]
    | some data' => simp [Reply.fail, Reply.ok]
  | none =>
    rw [hget] at hrun
    cases hgetOld : a.dict.get oldName with
    | none =>
      rw [hgetOld] at hrun hrun0
      unfold SameRun
      rw [hrun, hrun0]
      simp [hpurged.sameVisible]
    | some data =>
      rw [hgetOld] at hrun hrun0
      have hnot := not_sameRun_of_value (w := w) (k := k) hrun hrun0
        (by rw [visible_expired (by exact hexpired)])
        (by
          rw [visible_of_persistent (by exact hget0.2)]
          simp [AbsDict.insert, AbsDict.set])
      simp [hnot]

variable {k₂ : Str}

include hlazy hpurged hexpired in
theorem setOpRoutine_first_sameRun_iff (p : Str → Str → SetHeap hash → Db hash C Reply) :
    SameRun w (setOpRoutine w k k₂ p) a a₀ ↔ (a.dict.get k).isSome := by
  apply checkExpireRoutine_sameRun_iff hlazy hpurged hexpired
  rw [run_checkExpireRoutine_current (hpurged.lapsed k₂), run_findTyped,
    (hpurged.get_expired hexpired).1]

variable {k₁ : Str}

include hlazy hpurged hexpired in
theorem setOpRoutine_second_sameRun_iff (hcurrent : a.expired w.now k₁ = false)
    (p : Str → Str → SetHeap hash → Db hash C Reply) :
    SameRun w (setOpRoutine w k₁ k p) a a₀ ↔
      (a.dict.get k).isSome ∧
        ∀ data, a.dict.get k₁ = some data → (DataKind.set.get data).isSome := by
  have hget1 := (hpurged.get_current hcurrent).1
  have hget0 := (hpurged.get_expired hexpired).1
  unfold setOpRoutine SameRun
  rw [run_checkExpireRoutine_current (lapsed_of_current hcurrent),
    run_checkExpireRoutine_current (hpurged.lapsed k₁)]
  by_cases hset : ∀ data, a.dict.get k₁ = some data → (DataKind.set.get data).isSome
  · have hiff := checkExpireRoutine_sameRun_iff hlazy hpurged hexpired (p :=
      findTyped .set k₁ fun kv1 s1 => findTyped .set k fun kv2 s2 =>
        p kv1.key kv2.key (operands kv1.key kv2.key s1 s2)) ?_
    · exact hiff.trans ⟨fun hsome => ⟨hsome, hset⟩, And.left⟩
    · rw [run_findTyped, hget1]
      cases hfirst : a.dict.get k₁ with
      | none => rfl
      | some data =>
        rcases Option.isSome_iff_exists.mp (hset data hfirst) with ⟨s, hs⟩
        simp only [hs]
        rw [run_findTyped, hget0]
  · refine iff_of_false (checkExpireRoutine_not_sameRun hlazy hexpired
      ⟨.fail .existsDiffType, a₀, ?_, by simp [Reply.fail]⟩) fun h => hset h.2
    push Not at hset
    rcases hset with ⟨data, hfirst, hkind⟩
    have hnone : DataKind.set.get data = none := by simpa using hkind
    rw [run_checkExpireRoutine_current (hpurged.lapsed k), run_findTyped, hget1]
    simp only [hfirst, hnone]

include hplain hpurged hexpired in
/-- A result is stored under an expired destination, where it is not seen. -/
theorem setOpTo_dest_not_sameRun (op : SetOp) (hcurrent1 : a.expired w.now k₁ = false)
    (hcurrent2 : a.expired w.now k₂ = false) {s1 s2 : StrSet hash}
    (hget1 : a.dict.get k₁ = some (.set s1)) (hget2 : a.dict.get k₂ = some (.set s2))
    (hreturns : (setOpTo w op k₁ k₂ k).run handler a₀ ≠ none) :
    ¬ SameRun w (setOpTo w op k₁ k₂ k) a a₀ := by
  have hget0 := hpurged.get_expired hexpired
  have hrun := run_setOpTo hplain k op (lapsed_of_current hcurrent1)
    (lapsed_of_current hcurrent2) hget1 hget2
  have hrun0 := run_setOpTo hplain k op (hpurged.lapsed k₁) (hpurged.lapsed k₂)
    ((hpurged.get_current hcurrent1).1.trans hget1) ((hpurged.get_current hcurrent2).1.trans hget2)
  rw [hget0.1] at hrun0
  obtain ⟨⟨r0, b0⟩, hsome0⟩ := Option.ne_none_iff_exists'.mp hreturns
  have hvalue : (b0.visible w.now k).1 ≠ none := by
    rw [hrun0] at hsome0
    obtain ⟨h, -, heq⟩ := Option.map_eq_some_iff.mp hsome0
    cases heq
    rw [visible_of_persistent (by exact hget0.2)]
    simp [storeSets, put, AbsDict.set]
  cases hsome : (setOpTo w op k₁ k₂ k).run handler a with
  | none =>
    unfold SameRun
    rw [hsome, hsome0]
    simp
  | some result =>
    have hexp : result.2.expDict = a.expDict := by
      rw [hsome] at hrun
      split at hrun
      · obtain ⟨h, -, rfl⟩ := Option.map_eq_some_iff.mp hrun.symm
        rfl
      · split at hrun
        · cases hrun
          rfl
        · obtain ⟨h, -, rfl⟩ := Option.map_eq_some_iff.mp hrun.symm
          rfl
    refine not_sameRun_of_value hsome hsome0 ?_ hvalue
    rw [visible_expired ((expired_congr (by rw [hexp])).trans hexpired)]

end ExpiredKey

variable {k₁ k₂ : Str}

include hlazy hpurged in
theorem setOpRoutine_sameRun_iff (hexpired : a.expired w.now k₁ = true ∨ a.expired w.now k₂ = true)
    (p : Str → Str → SetHeap hash → Db hash C Reply) :
    SameRun w (setOpRoutine w k₁ k₂ p) a a₀ ↔
      Action.HidesExpired.OperandsHidden w a k₁ k₂ := by
  unfold Action.HidesExpired.OperandsHidden
  cases hexpired1 : a.expired w.now k₁ with
  | true => simpa using setOpRoutine_first_sameRun_iff hlazy hpurged hexpired1 p
  | false =>
    have hexpired2 : a.expired w.now k₂ = true := by simpa [hexpired1] using hexpired
    simpa [hexpired2] using setOpRoutine_second_sameRun_iff hlazy hpurged hexpired2 hexpired1 p

include hpurged in
theorem setOpTo_sameRun_of_not_sets (op : SetOp) {dest : Str}
    (hcurrent1 : a.expired w.now k₁ = false) (hcurrent2 : a.expired w.now k₂ = false)
    (hsets : ∀ s1 s2, a.dict.get k₁ = some (.set s1) → a.dict.get k₂ ≠ some (.set s2)) :
    SameRun w (setOpTo w op k₁ k₂ dest) a a₀ := by
  unfold SameRun setOpTo setOpRoutine
  rw [run_checkExpireRoutine_current (lapsed_of_current hcurrent1),
    run_checkExpireRoutine_current (lapsed_of_current hcurrent2),
    run_checkExpireRoutine_current (hpurged.lapsed k₁),
    run_checkExpireRoutine_current (hpurged.lapsed k₂), run_findTyped,
    run_findTyped, (hpurged.get_current hcurrent1).1]
  cases hget1 : a.dict.get k₁ with
  | none => simp [hpurged.sameVisible]
  | some data1 =>
    dsimp only
    cases hkind1 : DataKind.set.get data1 with
    | none => simp [hpurged.sameVisible]
    | some s1 =>
      dsimp only
      rw [run_findTyped, run_findTyped, (hpurged.get_current hcurrent2).1]
      cases hget2 : a.dict.get k₂ with
      | none => simp [hpurged.sameVisible]
      | some data2 =>
        dsimp only
        cases hkind2 : DataKind.set.get data2 with
        | none => simp [hpurged.sameVisible]
        | some s2 =>
          rw [DataKind.set.get_eq_some] at hkind1 hkind2
          subst hkind1 hkind2
          exact absurd hget2 (hsets s1 s2 hget1)

include hplain hlazy hpurged in
theorem setOpTo_sameRun_iff (op : SetOp) {k₁ k₂ dest : Str}
    (hexpired : a.expired w.now k₁ = true ∨ a.expired w.now k₂ = true ∨ a.expired w.now dest = true)
    (hreturns : ¬ ((setOpTo w op k₁ k₂ dest).run handler a = none ∧
      (setOpTo w op k₁ k₂ dest).run handler a₀ = none)) :
    SameRun w (setOpTo w op k₁ k₂ dest) a a₀ ↔
      (Action.setOpTo op k₁ k₂ dest).HidesExpired w a := by
  simp only [Action.HidesExpired]
  by_cases hoperand : a.expired w.now k₁ = true ∨ a.expired w.now k₂ = true
  · have hiff : SameRun w (setOpTo w op k₁ k₂ dest) a a₀ ↔ _ :=
      setOpRoutine_sameRun_iff hlazy hpurged hoperand _
    grind
  · have h1 : a.expired w.now k₁ = false := by simpa using fun h => hoperand (.inl h)
    have h2 : a.expired w.now k₂ = false := by simpa using fun h => hoperand (.inr h)
    have hdest : a.expired w.now dest = true := by simpa [h1, h2] using hexpired
    simp only [Action.HidesExpired.OperandsHidden, h1, h2, hdest]
    by_cases hsets :
      ∃ s1 s2, a.dict.get k₁ = some (.set s1) ∧ a.dict.get k₂ = some (.set s2)
    · rcases hsets with ⟨s1, s2, hget1, hget2⟩
      refine iff_of_false (fun hsame => ?_) (by simp [hget1, hget2])
      refine setOpTo_dest_not_sameRun hplain hpurged hdest op h1 h2 hget1 hget2
        (fun hnone => hreturns ⟨?_, hnone⟩) hsame
      unfold SameRun at hsame
      rw [hnone] at hsame
      cases hrun : (setOpTo w op k₁ k₂ dest).run handler a with
      | none => rfl
      | some r => simp [hrun] at hsame
    · apply iff_of_true
      · apply setOpTo_sameRun_of_not_sets hpurged op h1 h2
        grind
      · grind

include hplain hlazy hpurged in
/-- The expired keys are invisible to the command exactly on the states that
`Action.HidesExpired` describes, unless it comes back on neither state. -/
theorem Action.sameRun_iff (c : Action hash) (hdata : c.IsData)
    (hreturns : ¬ ((c.run w).run handler a = none ∧
      (c.run w).run handler a₀ = none)) :
    SameRun w (c.run w) a a₀ ↔ c.HidesExpired w a := by
  rw [run_plain hplain] at hreturns ⊢
  by_cases hcurrent : ∀ k ∈ c.keys w, a.expired w.now k = false
  · refine iff_of_true (sameRun_of_current hplain hpurged c ?_ hcurrent)
      (hidesExpired_of_current hcurrent)
    cases c <;> first | exact id | exact hdata.elim
  cases c with
  | onValue access kind k body =>
    have hexpired : a.expired w.now k = true := by simpa [keys] using hcurrent
    simp only [HidesExpired, hexpired, forall_const]
    apply checkExpireRoutine_sameRun_iff hlazy hpurged hexpired
    rw [run_findTyped, (hpurged.get_expired hexpired).1]
  | insertNew replace k data =>
    have hexpired : a.expired w.now k = true := by simpa [keys] using hcurrent
    simpa [HidesExpired, unguarded, hexpired] using
      insertNew_not_sameRun hplain hpurged hexpired replace data
  | addTo expire kind k init body =>
    cases hexpired : a.expired w.now k with
    | false =>
      have hsame := sameRun_of_current hplain hpurged (.addTo false kind k init body) id (by
        simp [keys, hexpired])
      rw [unguarded, SameRun,
        ← run_addTo_current expire kind init body (lapsed_of_current hexpired),
        ← run_addTo_current expire kind init body (hpurged.lapsed k)] at hsame
      exact iff_of_true hsame (by simp [HidesExpired, hexpired])
    | true =>
      simpa [HidesExpired, unguarded, hexpired] using
        addTo_sameRun_iff hplain hlazy hpurged hexpired expire kind init body
  | setStr k v =>
    have hexpired : a.expired w.now k = true := by simpa [keys] using hcurrent
    simpa [HidesExpired, unguarded, hexpired] using
      setStr_not_sameRun hplain hlazy hpurged hexpired v
  | eraseValue kind ifErased ifAbsent k =>
    have hexpired : a.expired w.now k = true := by simpa [keys] using hcurrent
    simpa [HidesExpired, unguarded, hexpired] using
      eraseValue_sameRun_iff hplain hpurged hexpired kind ifErased ifAbsent
  | delete k =>
    have hexpired : a.expired w.now k = true := by simpa [keys] using hcurrent
    simpa [HidesExpired, unguarded, hexpired] using delete_sameRun_iff hplain hpurged hexpired
  | setOp op k₁ k₂ out =>
    have hexpired : a.expired w.now k₁ = true ∨ a.expired w.now k₂ = true := by
      grind [keys]
    rw [unguarded]
    exact setOpRoutine_sameRun_iff hlazy hpurged hexpired _
  | setOpTo op k₁ k₂ dest =>
    rw [unguarded] at hreturns ⊢
    exact setOpTo_sameRun_iff hplain hlazy hpurged op (by grind [keys]) hreturns
  | rename oldName newName =>
    simp only [HidesExpired, unguarded]
    cases hold : a.expired w.now oldName with
    | true => simpa using rename_old_sameRun_iff hplain hlazy hpurged hold newName
    | false =>
      have hnew : a.expired w.now newName = true := by simpa [keys, hold] using hcurrent
      simpa [hnew] using rename_new_sameRun_iff hplain hpurged hnew hold
  | deleteAll => exact hdata.elim
  | expireAtMs k expire => exact hdata.elim
  | persist k => exact hdata.elim
  | getExpiration k out => exact hdata.elim

end Shapes

/-! ## The database -/

/-- The command gives the same reply on both states and leaves the same unexpired
keys. -/
def HidesExpiredKeys (w : World C) (c : Command) (s s₀ : DbState hash C) : Prop :=
  SameOutcome (fun _ t t₀ => t.abs.SameVisible w.now t₀.abs) (s.exec w c) (s₀.exec w c)

/-- With lazy expiration and for keys that `strcmp` tells apart: a command does the
same with and without the expired keys on the states that `Action.HidesExpired`
describes, and on no others on which it comes back. -/
theorem hidesExpiredKeys_iff
    {w : World C} (hplain : w.Plain) (hlazy : w.config.lazyExpiration = true)
    (c : Command) (hdata : (c.action w.now : Action hash).IsData)
    {U : Set Str} (hU : Separated U) (hkeys : ∀ k ∈ c.keys w, k ∈ U)
    {s s₀ : DbState hash C} (hs : s.KeysIn U) (hs₀ : s₀.KeysIn U)
    (hpurged : s.abs.PurgedTo w.now s₀.abs) :
    HidesExpiredKeys w c s s₀ ↔
      (c.action w.now : Action hash).HidesExpired w s.abs ∨
        (s.exec w c = none ∧ s₀.exec w c = none) := by
  have hrun := (DbState.exec_abs hU hkeys hs).mono fun _ _ _ h => h.2
  have hrun₀ := (DbState.exec_abs hU hkeys hs₀).mono fun _ _ _ h => h.2
  by_cases hnone : s.exec w c = none ∧ s₀.exec w c = none
  · refine iff_of_true ?_ (.inr hnone)
    rw [HidesExpiredKeys, hnone.1, hnone.2]
    exact .aborted
  · rw [or_iff_left hnone, ← Action.sameRun_iff hplain hlazy hpurged _ hdata fun h => hnone ?_]
    · exact hrun.iff_of_image hrun₀
    · rw [exec, Command.run, h.1, sameOutcome_none_right] at hrun
      rw [exec, Command.run, h.2, sameOutcome_none_right] at hrun₀
      exact ⟨hrun, hrun₀⟩

theorem expiringDb_purgedTo_new :
    expiringDb.abs.PurgedTo 5 (DbState.new () : DbState (fun _ => 0) Unit).abs := by
  have hdict : expiringDb.dict.entries = [⟨[97], .string [98]⟩] := rfl
  have hexp : expiringDb.expDict.entries = [⟨[97], 1⟩] := rfl
  intro k
  have hnew : ((DbState.new () : DbState (fun _ => 0) Unit).abs.dict.get k,
      (DbState.new () : DbState (fun _ => 0) Unit).abs.expDict.get k) = (none, none) := rfl
  rw [hnew]
  by_cases hk : [97] = k
  · subst hk
    rfl
  · simp [visible, expired, DbState.abs, Dict.abs, hdict, hexp, hk]

/-- A read of the key `a`, whose deadline has passed. -/
theorem hidesExpiredKeys_getStr :
    HidesExpiredKeys (.standalone true 5) (.getStr [97]) expiringDb (DbState.new ()) := by
  apply (hidesExpiredKeys_iff ⟨rfl, rfl⟩ rfl (.getStr [97]) trivial separated_nulFree
    (by decide) expiringDb_keysIn (DbState.keysIn_new _ _) expiringDb_purgedTo_new).mpr
  exact .inl fun _ => rfl

/-- `InsertStr` answers that an expired key exists. -/
theorem insertStr_finds_expired_key :
    expiringDb.abs.PurgedTo 5 (DbState.new () : DbState (fun _ => 0) Unit).abs ∧
      ¬ HidesExpiredKeys (.standalone true 5) (.insertStr [97] [99]) expiringDb
        (DbState.new ()) := by
  refine ⟨expiringDb_purgedTo_new, fun hsame => ?_⟩
  have hreply := hsame.result_eq
  revert hreply
  decide +kernel

end Mmkv
