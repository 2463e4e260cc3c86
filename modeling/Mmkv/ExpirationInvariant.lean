import Mmkv.DatabaseChanges

/-!
# Deadlines of stored keys

`CheckExpire` and `CheckExpireCycle` take for granted that a key with a deadline
is in the dictionary.  Three commands do not see to that: `EraseStr` and `Rename`
leave the deadline of the key behind, and so does the replacement, which takes
place in `Rename`.  Every other command keeps the invariant.
-/

namespace Mmkv

open EffectPrograms List Option AbsDict KeyValue Db

variable {hash : Str → Nat} {C : Type}

/-- Every key of `exp_dict_` is a key of `dict_`. -/
def AbsDb.DeadlinesStored (a : AbsDb hash C) : Prop :=
  ∀ k, (a.expDict.get k).isSome → (a.dict.get k).isSome

/-! ## Changes -/

variable {a b : AbsDb hash C} {k : Str}

theorem AbsDb.DeadlinesStored.of_removed (ha : a.DeadlinesStored)
    (hdict : ∀ k', k' ≠ k → b.dict.get k' = a.dict.get k')
    (hexp : ∀ k', k' ≠ k → b.expDict.get k' = a.expDict.get k') (hk : b.expDict.get k = none) :
    b.DeadlinesStored := by
  intro k' hsome
  by_cases hne : k' = k
  · subst hne
    simp [hk] at hsome
  · rw [hdict k' hne]
    apply ha
    rwa [hexp k' hne] at hsome

/-- The key whose deadline stays behind. -/
def Change.leftBehind : Change hash → Option Str
  | .removed k false | .evicted k | .renamed k _ _ => some k
  | _ => none

variable {w : World C}

theorem Change.Leads.stores {c : Change hash} (h : c.Leads w a b) (ha : a.DeadlinesStored)
    (hleft : ∀ k, c.leftBehind = some k → a.expDict.get k = none) : b.DeadlinesStored := by
  obtain ⟨hallowed, hvalues, hdeadlines, -⟩ := h
  have hrest : ∀ {k k' : Str}, k' ≠ k →
      (b.dict.get = Function.update a.dict.get k none → b.dict.get k' = a.dict.get k') ∧
      (b.expDict.get = Function.update a.expDict.get k none →
        b.expDict.get k' = a.expDict.get k') := by
    intro k k' hk
    exact ⟨fun h => by rw [h, Function.update_of_ne hk],
      fun h => by rw [h, Function.update_of_ne hk]⟩
  cases c with
  | removed k deadline =>
    refine ha.of_removed (k := k) (fun k' hk => (hrest hk).1 hvalues) (fun k' hk => ?_) ?_
    · cases deadline with
      | true => exact (hrest hk).2 hdeadlines
      | false => rw [hdeadlines]; rfl
    · cases deadline with
      | true => simp [hdeadlines, Change.deadlines]
      | false => exact (congrFun hdeadlines k).trans (hleft k rfl)
  | expired k =>
    refine ha.of_removed (k := k) (fun k' hk => (hrest hk).1 hvalues)
      (fun k' hk => (hrest hk).2 hdeadlines) ?_
    simp [hdeadlines, Change.deadlines]
  | evicted k =>
    refine ha.of_removed (k := k) (fun k' hk => (hrest hk).1 hvalues)
      (fun k' _ => congrFun hdeadlines k') ?_
    exact (congrFun hdeadlines k).trans (hleft k rfl)
  | renamed oldName newName data =>
    intro k' hsome
    rw [hdeadlines] at hsome
    have hne : k' ≠ oldName := by
      rintro rfl
      simp [Change.deadlines, hleft k' rfl] at hsome
    rw [hvalues]
    apply isSome_update_some
    rw [Function.update_of_ne hne]
    exact ha k' hsome
  | cleared =>
    intro k' hsome
    rw [hdeadlines] at hsome
    cases hsome
  | dated k expire =>
    intro k' hsome
    rw [hvalues]
    by_cases hk : k' = k
    · rw [hk]
      exact hallowed
    · rw [hdeadlines] at hsome
      exact ha k' (by simpa [Change.deadlines, hk] using hsome)
  | undated k =>
    intro k' hsome
    rw [hdeadlines] at hsome
    rw [hvalues]
    exact ha k' (isSome_of_update_none hsome)
  | touched k =>
    intro k' hsome
    rw [hdeadlines] at hsome
    rw [hvalues]
    exact ha k' hsome
  | written k _ data | inserted k data =>
    intro k' hsome
    rw [hdeadlines] at hsome
    rw [hvalues]
    exact isSome_update_some (ha k' hsome)

/-! ## All commands -/

/-- The states on which the command leaves no deadline of a removed key behind. -/
def Action.ClearsDeadlines (w : World C) (a : AbsDb hash C) : Action hash → Prop
  | .eraseValue kind ifErased _ k =>
    ifErased = false → ∀ data x, a.dict.get k = some data → kind.get data = some x →
      a.expDict.get k = none
  | .rename oldName newName =>
    a.lapsed w oldName = false → a.dict.get newName = none →
      (a.dict.get oldName).isSome →
        a.expDict.get oldName = none ∧
          ∀ v, w.victim a.side = some v → a.expDict.get v = none
  | _ => True

theorem Action.stores (x : Action hash) (hclears : x.ClearsDeadlines w a) (ha : a.DeadlinesStored) :
    Ensures AbsDb.handler (x.run w) a fun _ b => b.DeadlinesStored := by
  have hrenames : ∀ {oldName newName : Str}, x.Renames w a oldName newName →
      a.expDict.get oldName = none ∧
        ∀ v, w.victim a.side = some v → a.expDict.get v = none := by
    intro oldName newName h
    cases x with
    | rename k k' =>
      obtain ⟨rfl, rfl, hcurrent, hnew, hold⟩ := h
      exact hclears hcurrent hnew hold
    | _ => exact h.elim
  refine (x.changes w a).mono fun _ b hpath => hpath.keeps ?_ ha
  intro b b' c hdoes hleads hb
  refine hleads.stores hb fun k hk => ?_
  cases c with
  | removed k' deadline =>
    obtain ⟨rfl, hremoves⟩ := hdoes
    cases deadline with
    | true => cases hk
    | false =>
      cases hk
      cases x with
      | eraseValue kind ifErased ifAbsent k' =>
        obtain ⟨rfl, hleft, x, hget⟩ := hremoves
        exact hclears hleft _ x hget (kind.get_put x)
      | delete k' => cases hremoves.2
      | _ => exact hremoves.elim
  | evicted v =>
    cases hk
    obtain ⟨rfl, oldName, newName, h⟩ := hdoes
    exact (hrenames h).2 _ hleads.allowed.2
  | renamed oldName newName data =>
    cases hk
    rw [hdoes.1]
    exact (hrenames hdoes.2).1
  | _ => cases hk

/-! ## The checks -/

namespace Db

variable {w : World C} {a : AbsDb hash C} {k : Str} {b : AbsDb hash C}

theorem Dropped.deadlinesStored (ha : a.DeadlinesStored) (hdropped : Dropped a b k) :
    b.DeadlinesStored := by
  apply ha.of_removed (k := k)
  · intro k' hk'
    simp [hdropped.dict, AbsDict.extract, AbsDict.remove, hk']
  · intro k' hk'
    simp [hdropped.expDict, AbsDict.remove, hk']
  · simp [hdropped.expDict, AbsDict.remove]

theorem run_checkExpire_stored (ha : a.DeadlinesStored) :
    ∃ r b, (checkExpire w k).run AbsDb.handler a = some (r, b) ∧ b.DeadlinesStored ∧
      (r.1 = false → b = a ∧ a.lapsed w k = false) := by
  cases hlapsed : a.lapsed w k with
  | false => exact ⟨_, a, run_checkExpire_current hlapsed, ha, fun _ => ⟨rfl, rfl⟩⟩
  | true =>
    rcases exists_deadline hlapsed with ⟨-, e, hexp, -⟩
    have hsome := ha k (by simp [hexp])
    rcases isSome_iff_exists.mp hsome with ⟨data, hget⟩
    rcases run_checkExpire_lapsed hlapsed hget with ⟨b, hrun, hdropped⟩
    exact ⟨_, b, hrun, hdropped.deadlinesStored ha, by simp⟩

def expiredKeys (w : World C) (deadlines : List (KeyValue UInt64)) : List Str :=
  (deadlines.filter fun kv => decide (kv.value ≤ w.now)).map key

theorem mem_expiredKeys {deadlines : List (KeyValue UInt64)} :
    k ∈ expiredKeys w deadlines ↔ ∃ kv ∈ deadlines, kv.value ≤ w.now ∧ kv.key = k := by
  simp [expiredKeys, and_assoc]

/-- The keys are gone from both dictionaries and stand in the log. -/
structure Purged (w : World C) (keys : List Str) (a b : AbsDb hash C) : Prop where
  dict : ∀ k, b.dict.get k = if k ∈ keys then none else a.dict.get k
  expDict : ∀ k, b.expDict.get k = if k ∈ keys then none else a.expDict.get k
  log : b.side.log = a.side.log ++ if w.config.logMethod = .request then keys else []

/-! ### Calls on stored keys -/

variable {data : MmkvData hash}

theorem reaches_extract (hget : a.dict.get k = some data) :
    Reaches (extract k) a (some ⟨k, data⟩) { a with dict := a.dict.extract k } :=
  .request (run_extract_some hget) (by simp [storedContract, DictOp.OnStored, hget])

theorem reaches_change (f : Side C → Side C) :
    Reaches (change f : Db hash C Unit) a () { a with side := f a.side } :=
  .request (run_change f) trivial

theorem reaches_dropNode : Reaches (dropNode k) a () { a with side := a.side.unlinkKey k } :=
  .bind (.request (run_dict .dropNode) trivial) (reaches_change _)

theorem reaches_checkExpire {e : UInt64} (hexp : a.expDict.get k = some e)
    (hget : a.dict.get k = some data) :
    ∃ r, Reaches (checkExpire w k) a r (if a.lapsed w k then a.drop w k else a) := by
  have hstored : (a.expDict.get k).isSome := by simp [hexp]
  unfold checkExpire AbsDb.lapsed AbsDb.expired
  cases w.config.lazyExpiration with
  | false => exact ⟨_, .pure⟩
  | true =>
    simp only [Bool.true_and, ↓reduceIte, hexp, decide_eq_true_eq]
    have hfind : Reaches (expDict (.find k)) a (some ⟨k, e⟩) a :=
      .request (run_expFind.trans (by rw [hexp]; rfl)) hstored
    by_cases hpassed : e ≤ w.now
    · rw [if_pos hpassed]
      refine ⟨(true, if w.config.logMethod = .request then [] else k), hfind.bind ?_⟩
      simp only [hpassed, ↓reduceIte]
      refine .bind (.request run_expEraseNode hstored) ?_
      refine .bind (reaches_extract (a := ⟨_, a.expDict.remove k, _⟩) hget) ?_
      refine .bind reaches_dropNode ?_
      refine .bind (r := ()) (b := a.drop w k) ?_ .pure
      refine ⟨run_appendDel, ?_⟩
      unfold appendDel AbsDb.drop Side.logDel
      split
      · exact (reaches_change _).stored
      · exact rfl
    · rw [if_neg hpassed]
      refine ⟨(false, k), hfind.bind ?_⟩
      simp only [hpassed, ↓reduceIte]
      exact .pure

section Cycle

variable {deadlines : List (KeyValue UInt64)}

theorem reaches_dropExpired (hnodup : (deadlines.map key).Nodup)
    (hstored : ∀ k ∈ expiredKeys w deadlines, (a.dict.get k).isSome) :
    ∃ b, Reaches (dropExpired w deadlines) a (expiredKeys w deadlines) b ∧
      b.expDict = a.expDict ∧ b.side.log = a.side.log ∧
      ∀ k, b.dict.get k = if k ∈ expiredKeys w deadlines then none else a.dict.get k := by
  induction deadlines generalizing a with
  | nil => exact ⟨a, .pure, rfl, rfl, fun _ => rfl⟩
  | cons kv rest ih =>
    have hhead : kv.key ∉ rest.map key ∧ (rest.map key).Nodup :=
      nodup_cons.mp hnodup
    unfold dropExpired
    by_cases hpassed : kv.value ≤ w.now
    · have hkeys : expiredKeys w (kv :: rest) = kv.key :: expiredKeys w rest := by
        simp [expiredKeys, hpassed]
      rw [hkeys] at hstored ⊢
      rcases isSome_iff_exists.mp (hstored kv.key mem_cons_self) with ⟨data, hget⟩
      have hrest : ∀ k ∈ expiredKeys w rest, ((a.dict.extract kv.key).get k).isSome := by
        intro k hk
        have hne : k ≠ kv.key := by
          rintro rfl
          obtain ⟨kv', hkv', -, heq⟩ := mem_expiredKeys.mp hk
          grind
        simpa [AbsDict.extract, AbsDict.remove, hne] using hstored k (mem_cons_of_mem _ hk)
      rcases ih (a := ⟨a.dict.extract kv.key, a.expDict, a.side.unlinkKey kv.key⟩)
        hhead.2 hrest with ⟨b, hreaches, hexp, hlog, hdict⟩
      refine ⟨b, ?_, hexp, hlog, ?_⟩
      · simp only [hpassed, ↓reduceIte]
        refine .bind (reaches_extract hget) ?_
        exact .bind reaches_dropNode (.bind hreaches .pure)
      · intro k
        rw [hdict k]
        by_cases hk : k = kv.key
        · simp [hk, AbsDict.extract, AbsDict.remove]
        · simp [hk, AbsDict.extract, AbsDict.remove]
    · have hkeys : expiredKeys w (kv :: rest) = expiredKeys w rest := by
        simp [expiredKeys, hpassed]
      rw [hkeys] at hstored ⊢
      simp only [hpassed, ↓reduceIte]
      exact ih hhead.2 hstored

end Cycle

theorem reaches_eraseDeadlines {keys : List Str} (hnodup : keys.Nodup)
    (hdated : ∀ k ∈ keys, (a.expDict.get k).isSome) :
    ∃ b, Reaches (eraseDeadlines keys) a () b ∧ b.dict = a.dict ∧
      b.side = a.side ∧ ∀ k, b.expDict.get k = if k ∈ keys then none else a.expDict.get k := by
  induction keys generalizing a with
  | nil => exact ⟨a, .pure, rfl, rfl, by simp⟩
  | cons k keys ih =>
    obtain ⟨hk, hnodup⟩ := nodup_cons.mp hnodup
    obtain ⟨hhead, hdated⟩ := forall_mem_cons.mp hdated
    have hrest : ∀ k' ∈ keys, ((a.expDict.erase k).get k').isSome := by
      intro k' hk'
      have hne : k' ≠ k := fun heq => hk (heq ▸ hk')
      simpa [remove, hne] using hdated k' hk'
    rcases ih (a := { a with expDict := a.expDict.erase k }) hnodup hrest with
      ⟨b, hreaches, hdict, hside, hexp⟩
    refine ⟨b, ?_, hdict, hside, ?_⟩
    · have herase : Reaches (expDict (.erase k)) a _ { a with expDict := a.expDict.erase k } :=
        .request (run_expDict (.erase k)) hhead
      exact .bind (.bind herase .pure) hreaches
    · intro k'
      rw [hexp k']
      by_cases hk : k' = k
      · simp [hk, remove]
      · simp [hk, remove]

section Cycle

variable {deadlines : List (KeyValue UInt64)}
  (hdeadlines : KeyedStore.Represents key deadlines a.expDict.store)

include hdeadlines

theorem get_of_mem_deadlines {kv : KeyValue UInt64} (hkv : kv ∈ deadlines) :
    a.expDict.get kv.key = some kv.value :=
  (store_eq_some.mp ((hdeadlines.mem_iff kv).mp hkv)).1

theorem reaches_checkExpireCycle (hstored : ∀ k ∈ expiredKeys w deadlines, (a.dict.get k).isSome) :
    ∃ b, Reaches (checkExpireCycle w deadlines) a () b ∧
      Purged w (expiredKeys w deadlines) a b := by
  have hnodup : (expiredKeys w deadlines).Nodup :=
    hdeadlines.nodup.sublist (filter_sublist.map key)
  rcases reaches_dropExpired hdeadlines.nodup hstored with ⟨b, hdrops, hexp, hlog, hdict⟩
  have hdated : ∀ k ∈ expiredKeys w deadlines, (b.expDict.get k).isSome := by
    intro k hk
    obtain ⟨kv, hkv, -, rfl⟩ := mem_expiredKeys.mp hk
    simp [hexp, get_of_mem_deadlines hdeadlines hkv]
  rcases reaches_eraseDeadlines hnodup hdated with ⟨b', herases, hdict', hside', hexp'⟩
  rw [hexp] at hexp'
  rw [← hdict'] at hdict
  by_cases hmethod : w.config.logMethod = .request
  · have hlogs := reaches_change (a := b') fun σ =>
      { σ with log := σ.log ++ expiredKeys w deadlines }
    refine ⟨_, .bind hdrops (.bind herases (by rwa [if_pos hmethod])), ?_⟩
    exact ⟨hdict, hexp', by simp [hmethod, hside', hlog]⟩
  · refine ⟨b', .bind hdrops (.bind herases (by rw [if_neg hmethod]; exact .pure)), ?_⟩
    exact ⟨hdict, hexp', by simp [hmethod, hside', hlog]⟩

omit hdeadlines in
theorem stored_of_dropExpired : Ensures AbsDb.handler (dropExpired w deadlines) a fun _ _ =>
      ∀ k ∈ expiredKeys w deadlines, (a.dict.get k).isSome := by
  induction deadlines generalizing a with
  | nil =>
    refine .pure fun k hk => ?_
    cases hk
  | cons kv rest ih =>
    apply Ensures.ite
    · intro hpassed
      have hkeys : expiredKeys w (kv :: rest) = kv.key :: expiredKeys w rest := by
        simp [expiredKeys, hpassed]
      cases hget : a.dict.get kv.key with
      | none => exact Ensures.step (run_extract_none hget) .abort
      | some data =>
        refine Ensures.step (run_extract_some hget) ?_
        refine ih.bind fun _ _ hrest => .pure ?_
        rw [hkeys, forall_mem_cons]
        exact ⟨by simp [hget], fun k hk => isSome_of_update_none (hrest k hk)⟩
    · intro hpassed
      have hkeys : expiredKeys w (kv :: rest) = expiredKeys w rest := by
        simp [expiredKeys, hpassed]
      rw [hkeys]
      exact ih

theorem ensures_checkExpireCycle :
    Ensures AbsDb.handler (checkExpireCycle w deadlines) a fun _ b =>
      (∀ k ∈ expiredKeys w deadlines, (a.dict.get k).isSome) ∧
        Purged w (expiredKeys w deadlines) a b := by
  intro _ b hrun
  have hfirst : ∃ r, (dropExpired w deadlines).run AbsDb.handler a = some r := by
    unfold checkExpireCycle at hrun
    rw [Program.run_bind] at hrun
    obtain ⟨r, hr, -⟩ := bind_eq_some_iff.mp hrun
    exact ⟨r, hr⟩
  obtain ⟨r, hr⟩ := hfirst
  have hstored := stored_of_dropExpired r.1 r.2 hr
  obtain ⟨b', hreaches, hpurged⟩ := reaches_checkExpireCycle hdeadlines hstored
  cases hrun.symm.trans hreaches.run
  exact ⟨hstored, hpurged⟩

theorem reaches_checkExpireCycle_stored (ha : a.DeadlinesStored) :
    ∃ b, Reaches (checkExpireCycle w deadlines) a () b ∧
      Purged w (expiredKeys w deadlines) a b := by
  refine reaches_checkExpireCycle hdeadlines fun k hk => ?_
  obtain ⟨kv, hkv, -, rfl⟩ := mem_expiredKeys.mp hk
  exact ha kv.key (by simp [get_of_mem_deadlines hdeadlines hkv])

end Cycle

variable {keys : List Str}

theorem Purged.deadlinesStored (h : Purged w keys a b) (ha : a.DeadlinesStored) :
    b.DeadlinesStored := by
  intro k hk
  rw [h.expDict k] at hk
  rw [h.dict k]
  by_cases hmem : k ∈ keys
  · simp [hmem] at hk
  · simp only [hmem, ↓reduceIte] at hk ⊢
    exact ha k hk

/-! ### One key after the other -/

def checkExpireEach (w : World C) : List Str → Db hash C Unit
  | [] => return ()
  | k :: keys => do
    discard <| checkExpire w k
    checkExpireEach w keys

theorem reaches_checkExpireEach (hlazy : w.config.lazyExpiration = true) (hnodup : keys.Nodup)
    (hdated : ∀ k ∈ keys, (a.expDict.get k).isSome)
    (hstored : ∀ k ∈ keys, (a.dict.get k).isSome) :
    ∃ b, Reaches (checkExpireEach w keys) a () b ∧
      Purged w (keys.filter (a.expired w.now)) a b := by
  induction keys generalizing a with
  | nil => exact ⟨a, .pure, by simp, by simp, by simp⟩
  | cons k keys ih =>
    obtain ⟨hk, hnodup⟩ := nodup_cons.mp hnodup
    rw [forall_mem_cons] at hdated hstored
    obtain ⟨e, hexp⟩ := isSome_iff_exists.mp hdated.1
    obtain ⟨data, hget⟩ := isSome_iff_exists.mp hstored.1
    obtain ⟨r, hfirst⟩ := reaches_checkExpire (w := w) hexp hget
    rw [AbsDb.lapsed, hlazy, Bool.true_and] at hfirst
    cases hexpired : a.expired w.now k with
    | false =>
      simp only [hexpired, Bool.false_eq_true, ↓reduceIte] at hfirst
      obtain ⟨b, hreaches, hpurged⟩ := ih hnodup hdated.2 hstored.2
      rw [filter_cons_of_neg (by simp [hexpired])]
      exact ⟨b, .bind (.bind hfirst .pure) hreaches, hpurged⟩
    | true =>
      rw [if_pos hexpired] at hfirst
      have hne : ∀ k' ∈ keys, k' ≠ k := fun k' hk' heq => hk (heq ▸ hk')
      have hkept : ∀ k', k' ≠ k → (a.drop w k).dict.get k' = a.dict.get k' ∧
          (a.drop w k).expDict.get k' = a.expDict.get k' := by
        intro k' hk'
        simp [AbsDb.drop, AbsDict.extract, AbsDict.remove, hk']
      have hgone : (a.drop w k).dict.get k = none ∧ (a.drop w k).expDict.get k = none := by
        simp [AbsDb.drop, AbsDict.extract, AbsDict.remove]
      obtain ⟨b, hreaches, hpurged⟩ := ih (a := a.drop w k) hnodup
        (fun k' hk' => by rw [(hkept k' (hne k' hk')).2]; exact hdated.2 k' hk')
        (fun k' hk' => by rw [(hkept k' (hne k' hk')).1]; exact hstored.2 k' hk')
      have hfilter : keys.filter ((a.drop w k).expired w.now) = keys.filter (a.expired w.now) := by
        refine filter_congr fun k' hk' => ?_
        rw [AbsDb.expired, AbsDb.expired, (hkept k' (hne k' hk')).2]
      rw [hfilter] at hpurged
      rw [filter_cons_of_pos hexpired]
      refine ⟨b, .bind (.bind hfirst .pure) hreaches, fun k' => ?_, fun k' => ?_, ?_⟩
      · rw [hpurged.dict]
        grind
      · rw [hpurged.expDict]
        grind
      · rw [hpurged.log]
        by_cases hlog : w.config.logMethod = .request
        · simp [AbsDb.drop, Side.logDel, Side.unlinkKey, hlog]
        · simp [AbsDb.drop, Side.logDel, Side.unlinkKey, hlog]

end Db

/-! ## Runs of the database -/

inductive Event where
  | command (c : Command)
  | checkExpireCycle
  deriving Repr, DecidableEq

namespace DbState

def perform (w : World C) : Event → DbState hash C → Option (DbState hash C)
  | .command c, s => (s.exec w c).map Prod.snd
  | .checkExpireCycle, s => (s.checkExpireCycle w).map Prod.snd

section Perform

variable {U : Set Str} {w : World C} {s s' : DbState hash C}

theorem exec_of_perform {c : Command} (hU : Separated U) (hkeys : ∀ k ∈ c.keys w, k ∈ U)
    (hs : s.KeysIn U) (hstep : s.perform w (.command c) = some s') :
    ∃ reply, s.abs.exec w c = some (reply, s'.abs) ∧ s'.KeysIn U := by
  obtain ⟨⟨reply, t⟩, hexec, rfl⟩ := map_eq_some_iff.mp hstep
  exact ⟨reply, abs_exec hU hkeys hs hexec⟩

theorem checkExpireCycle_of_perform (hU : Separated U) (hs : s.KeysIn U)
    (hstep : s.perform w .checkExpireCycle = some s') :
    ∃ u, (Db.checkExpireCycle w s.expDict.entries).run AbsDb.handler s.abs =
      some (u, s'.abs) ∧ s'.KeysIn U := by
  obtain ⟨⟨u, t⟩, hexec, rfl⟩ := map_eq_some_iff.mp hstep
  have hsame := checkExpireCycle_abs (w := w) hU hs
  rw [hexec] at hsame
  obtain ⟨b, hrun, hin, rfl⟩ := hsame.exists_of_left
  exact ⟨u, hrun, hin⟩

theorem mem_expiredKeys_entries :
    k ∈ expiredKeys w s.expDict.entries ↔ s.abs.expired w.now k = true := by
  have hmem : ∀ kv, kv ∈ s.expDict.entries ↔ s.abs.expDict.get kv.key = some kv.value := by
    intro kv
    rw [s.expDict.represents_abs.mem_iff, store_eq_some]
    exact and_iff_left rfl
  rw [mem_expiredKeys, AbsDb.expired]
  constructor
  · grind
  · intro h
    cases hexp : s.abs.expDict.get k with
    | none => simp [hexp] at h
    | some e =>
      exact ⟨⟨k, e⟩, (hmem _).mpr hexp, by simpa [hexp] using h, rfl⟩

theorem get_of_purged {b : AbsDb hash C}
    (h : Db.Purged w (expiredKeys w s.expDict.entries) s.abs b) (k : Str) :
    b.dict.get k = (if s.abs.expired w.now k then none else s.abs.dict.get k) ∧
      b.expDict.get k = if s.abs.expired w.now k then none else s.abs.expDict.get k := by
  rw [h.dict, h.expDict]
  simp only [mem_expiredKeys_entries, and_self]

end Perform

/-- Every key of `exp_dict_` is a key of `dict_`. -/
def DeadlinesStored (s : DbState hash C) : Prop :=
  ∀ kv ∈ s.expDict.entries, kv.key ∈ s.dict.entries.map key

instance (s : DbState hash C) : Decidable s.DeadlinesStored :=
  inferInstanceAs (Decidable (∀ kv ∈ s.expDict.entries, _))

theorem deadlinesStored_iff (s : DbState hash C) : s.DeadlinesStored ↔ s.abs.DeadlinesStored := by
  constructor
  · intro h k hsome
    rcases mem_map.mp ((s.expDict.isSome_abs_iff k).mp hsome) with ⟨kv, hkv, rfl⟩
    exact (s.dict.isSome_abs_iff _).mpr (h kv hkv)
  · intro h kv hkv
    apply (s.dict.isSome_abs_iff _).mp
    apply h
    exact (s.expDict.isSome_abs_iff _).mpr (mem_map_of_mem hkv)

variable {s : DbState hash C} {w : World C}

/-- If every key with a deadline is stored, a cycle does what `CheckExpire` does on all keys with
a deadline, in whatever order. -/
theorem checkExpireCycle_agrees {w : World C} {s : DbState hash C} {order : List Str}
    (hlazy : w.config.lazyExpiration = true) (hs : s.DeadlinesStored)
    (horder : order.Perm (s.expDict.entries.map key)) :
    ∃ s₁ s₂ : DbState hash C, ∃ keys₁ keys₂,
      s.checkExpireCycle w = some ((), s₁) ∧
      (checkExpireEach w order).run handler s = some ((), s₂) ∧
      s₂.abs.dict.get = s₁.abs.dict.get ∧ s₂.abs.expDict.get = s₁.abs.expDict.get ∧
      Db.Purged w keys₁ s.abs s₁.abs ∧ Db.Purged w keys₂ s.abs s₂.abs ∧ keys₂.Perm keys₁ ∧
      ∀ k, k ∈ keys₁ ↔ s.abs.expired w.now k = true := by
  have hstored := (deadlinesStored_iff s).mp hs
  have hdated : ∀ k ∈ order, (s.abs.expDict.get k).isSome := by
    intro k hk
    exact (s.expDict.isSome_abs_iff k).mpr (horder.mem_iff.mp hk)
  obtain ⟨b₁, hcycle, hpurged₁⟩ := reaches_checkExpireCycle_stored (w := w)
    s.expDict.represents_abs hstored
  obtain ⟨b₂, heach, hpurged₂⟩ := reaches_checkExpireEach hlazy
    (horder.nodup_iff.mpr s.expDict.keys_nodup) hdated fun k hk => hstored k (hdated k hk)
  obtain ⟨s₁, hrun₁, rfl⟩ := hcycle.exists_run
  obtain ⟨s₂, hrun₂, rfl⟩ := heach.exists_run
  have hmem : ∀ k, k ∈ order.filter (s.abs.expired w.now) ↔
      k ∈ expiredKeys w s.expDict.entries := by
    intro k
    rw [mem_expiredKeys_entries, mem_filter, and_iff_right_iff_imp]
    intro hexpired
    obtain ⟨kv, hkv, -, rfl⟩ := mem_expiredKeys.mp (mem_expiredKeys_entries.mpr hexpired)
    exact horder.mem_iff.mpr (mem_map_of_mem hkv)
  refine ⟨s₁, s₂, _, _, hrun₁, hrun₂, ?_, ?_, hpurged₁, hpurged₂, ?_,
    fun k => mem_expiredKeys_entries⟩
  · funext k
    simp only [hpurged₁.dict, hpurged₂.dict, hmem]
  · funext k
    simp only [hpurged₁.expDict, hpurged₂.expDict, hmem]
  · refine (perm_ext_iff_of_nodup ?_ ?_).mpr hmem
    · exact (horder.nodup_iff.mpr s.expDict.keys_nodup).filter _
    · exact s.expDict.keys_nodup.sublist (filter_sublist.map key)

/-- The cycle and the check of the one key both remove it. -/
theorem expiringDb_cycle_agrees :
    ∃ s₁ s₂ : DbState (fun _ => 0) Unit,
      expiringDb.checkExpireCycle (.standalone true 5) = some ((), s₁) ∧
      (checkExpireEach (.standalone true 5) [[97]]).run handler expiringDb =
        some ((), s₂) ∧
      s₂.abs.dict.get = s₁.abs.dict.get ∧ s₁.abs.dict.get [97] = none := by
  have hentries : expiringDb.expDict.entries = [⟨[97], 1⟩] := rfl
  have horder : [[97]].Perm (expiringDb.expDict.entries.map key) := by
    rw [hentries]
    exact .refl _
  obtain ⟨s₁, s₂, keys₁, _, hrun₁, hrun₂, hdict, -, hpurged, -, -, hmem⟩ :=
    checkExpireCycle_agrees (w := .standalone true 5) rfl (by decide +kernel) horder
  refine ⟨s₁, s₂, hrun₁, hrun₂, hdict, ?_⟩
  rw [hpurged.dict, if_pos ((hmem [97]).mpr rfl)]

/-- Cycles at any times complete and drop just what is due at one of them. -/
theorem checkExpireCycles_get (ws : List (World C)) {s : DbState hash C} (hs : s.DeadlinesStored) :
    ∃ s', ws.foldlM (fun s w => s.perform w .checkExpireCycle) s = some s' ∧ s'.DeadlinesStored ∧
      ∀ k, (s'.abs.dict.get k, s'.abs.expDict.get k) =
        if ws.any fun w => s.abs.expired w.now k then (none, none)
        else (s.abs.dict.get k, s.abs.expDict.get k) := by
  induction ws generalizing s with
  | nil => exact ⟨s, rfl, hs, fun _ => rfl⟩
  | cons w ws ih =>
    rw [deadlinesStored_iff] at hs
    obtain ⟨_, h, hgone⟩ := reaches_checkExpireCycle_stored (w := w) s.expDict.represents_abs hs
    obtain ⟨t, hrun, rfl⟩ := h.exists_run
    obtain ⟨s', hrest, hs', hget⟩ := ih ((deadlinesStored_iff t).2 (hgone.deadlinesStored hs))
    refine ⟨s', ?_, hs', fun k => ?_⟩
    · have hstep : s.perform w .checkExpireCycle = some t := congrArg (·.map Prod.snd) hrun
      simp [hstep, hrest]
    · obtain ⟨hdict, hexp⟩ := get_of_purged hgone k
      have hlater n : t.abs.expired n k = (!s.abs.expired w.now k && s.abs.expired n k) := by
        rw [AbsDb.expired, hexp]
        cases s.abs.expired w.now k <;> rfl
      simp only [hget, hdict, hexp, hlater, any_cons]
      by_cases hdue : s.abs.expired w.now k <;> simp [hdue]

/-- The first cycle removes the key, the second one finds it gone. -/
theorem expiringDb_cycles : ∃ s,
    [.standalone true 5, .standalone true 3].foldlM (fun s w => perform w .checkExpireCycle s)
      expiringDb = some s ∧ s.abs.dict.get [97] = none :=
  have ⟨s, hrun, _, hget⟩ := checkExpireCycles_get _ (by decide +kernel)
  ⟨s, hrun, congrArg Prod.fst (hget [97])⟩

/-- The commands use the keys of `U` and leave no deadline of a removed key
behind. -/
def Event.ClearsDeadlines (U : Set Str) (w : World C) (s : DbState hash C) : Event → Prop
  | .command c =>
    (∀ k ∈ c.keys w, k ∈ U) ∧ (c.action w.now : Action hash).ClearsDeadlines w s.abs
  | .checkExpireCycle => True

/-- The states of the runs whose steps all satisfy the condition. -/
inductive Reached (U : Set Str) (cache : C) : DbState hash C → Prop where
  | start : Reached U cache (new cache)
  | step {w : World C} {e : Event} {s s' : DbState hash C} (hs : Reached U cache s)
      (he : Event.ClearsDeadlines U w s e) (hstep : s.perform w e = some s') :
      Reached U cache s'

variable {U : Set Str} {cache : C} {s s' : DbState hash C}

theorem perform_stores (hU : Separated U) {e : Event}
    (hs : s.KeysIn U) (hstored : s.abs.DeadlinesStored)
    (he : Event.ClearsDeadlines U w s e) (hstep : s.perform w e = some s') :
    s'.KeysIn U ∧ s'.abs.DeadlinesStored := by
  cases e with
  | command c =>
    obtain ⟨reply, hrun, hkeys⟩ := exec_of_perform hU he.1 hs hstep
    exact ⟨hkeys, Action.stores _ he.2 hstored _ _ hrun⟩
  | checkExpireCycle =>
    obtain ⟨u, hrun, hkeys⟩ := checkExpireCycle_of_perform hU hs hstep
    rcases Db.reaches_checkExpireCycle_stored (w := w) s.expDict.represents_abs hstored with
      ⟨b, hreaches, hpurged⟩
    obtain ⟨-, rfl⟩ : u = () ∧ s'.abs = b := by
      simpa using hrun.symm.trans hreaches.run
    exact ⟨hkeys, hpurged.deadlinesStored hstored⟩

theorem Reached.stores (hU : Separated U) (hs : Reached U cache s) :
    s.KeysIn U ∧ s.abs.DeadlinesStored := by
  induction hs with
  | start =>
    refine ⟨keysIn_new U cache, ?_⟩
    rw [← deadlinesStored_iff]
    intro kv hkv
    have hentries : (Dict.new : Dict hash UInt64).entries = [] := TreeHashTable.entries_new
    have hmem : kv ∈ (Dict.new : Dict hash UInt64).entries := hkv
    simp [hentries] at hmem
  | step _ he hstep ih => exact perform_stores hU ih.1 ih.2 he hstep

/-- In every state that a run reaches whose commands use keys that `strcmp` tells
apart and leave no deadline of a removed key behind: the keys with a deadline are
stored, and neither `CheckExpire` nor `CheckExpireCycle` meets a null node. -/
theorem Reached.no_null_node (hU : Separated U) (hs : Reached U cache s) :
    s.DeadlinesStored ∧
      (∀ (w : World C), ∀ k ∈ U, (checkExpire w k).run handler s ≠ none) ∧
      ∀ w : World C, s.checkExpireCycle w ≠ none := by
  rcases hs.stores hU with ⟨hkeys, hstored⟩
  refine ⟨(deadlinesStored_iff s).mpr hstored, ?_, ?_⟩
  · intro w k hk hnone
    have hkeeps : Db.Keeps U True (.keys U) (checkExpire w k : Db hash C (Bool × Str)) _ :=
      (obeys_checkExpire (SideRule.keys_allows U w) hk).keeps
    have hsame := run_abs hU hkeeps hkeys
    rcases run_checkExpire_stored (w := w) (k := k) hstored with ⟨r, b, hrun, -⟩
    rw [hnone, hrun] at hsame
    cases hsame
  · intro w hnone
    rcases reaches_checkExpireCycle_stored (w := w) s.expDict.represents_abs hstored with
      ⟨b, hreaches, -⟩
    obtain ⟨s', hrun, -⟩ := hreaches.exists_run
    cases hnone.symm.trans hrun

/-- The database with one key and its deadline. -/
theorem expiringDb_deadlinesStored :
    expiringDb.DeadlinesStored ∧
      (∀ w : World Unit, ∀ k ∈ {k : Str | 0 ∉ k},
        (checkExpire w k).run handler expiringDb ≠ none) ∧
      ∀ w : World Unit, expiringDb.checkExpireCycle w ≠ none := by
  have hreached : Reached {k : Str | 0 ∉ k} () expiringDb := by
    apply Reached.step (w := .standalone true 0) (e := .command (.expireAtMs [97] 1))
    · apply Reached.step (w := .standalone true 0) (e := .command (.insertStr [97] [98]))
      · exact .start
      · exact ⟨by decide, trivial⟩
      · rfl
    · exact ⟨by decide, trivial⟩
    · rfl
  exact Reached.no_null_node separated_nulFree hreached

/-- `EraseStr` erases the string and not its deadline.  The next command on the
key fails once the deadline has passed. -/
theorem eraseStr_leaves_deadline :
    ∃ s : DbState (fun _ => 0) Unit,
      execAll
        [(.standalone true 0, .insertStr [97] [98]),
          (.standalone true 0, .expireAtMs [97] 1), (.standalone true 0, .eraseStr [97])]
        (new ()) = some ([.ok .none, .ok .none, .ok .none], s) ∧
      ¬ s.DeadlinesStored ∧ s.exec (.standalone true 5) (.getStr [97]) = none :=
  ⟨_, rfl, by decide +kernel, rfl⟩

end DbState

end Mmkv
