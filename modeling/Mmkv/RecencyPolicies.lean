import Mathlib.Data.Set.Card
import Mmkv.RecencyCaches

/-!
# Least and most recently used keys

The policies that `LruCache` and `MruCache` implement: every tracked key has the time of its
last update, and the victim is the key with the first or the last one.  After every sequence
of calls the list of the cache is the tracked keys by these times.
-/

namespace Mmkv.Replacement

open List

/-! ## Times of updates -/

def Stamps (K : Type) : Type :=
  K → Option Nat

namespace Stamps

variable {P K : Type}

def tracked (time : Stamps K) : Set K :=
  { k | (time k).isSome }

/-- The key to be replaced: the one that was updated the longest ago, or just before. -/
def Victim (e : ListEnd) (time : Stamps K) (k : K) : Prop :=
  ∃ t, time k = some t ∧ ∀ k' t', time k' = some t' →
    match e with
    | .back => t ≤ t'
    | .front => t' ≤ t

open Classical in
noncomputable def drop (e : ListEnd) (time : Stamps K) : Stamps K :=
  fun k => if Victim e time k then none else time k

/-- These are the tracked keys, the one that was updated last in front. -/
structure Sorted (time : Stamps K) (ks : List K) : Prop where
  nodup : ks.Nodup
  mem_iff : ∀ k, k ∈ ks ↔ (time k).isSome
  sorted : ks.Pairwise fun k k' => ∀ t t', time k = some t → time k' = some t' → t' < t

def Until (time : Stamps K) (now : Nat) : Prop :=
  ∀ k t, time k = some t → t < now

variable {time : Stamps K} {ks : List K} {k : K} {now : Nat} {e : ListEnd}

theorem eq_some_of_drop {t : Nat} (h : time.drop e k = some t) : time k = some t := by
  unfold drop at h
  split at h
  · cases h
  · exact h

theorem Until.drop (h : time.Until now) (e : ListEnd) : (time.drop e).Until now :=
  fun k t hk => h k t (eq_some_of_drop hk)

theorem Until.succ (h : time.Until now) : time.Until (now + 1) :=
  fun k t hk => Nat.lt_succ_of_lt (h k t hk)

namespace Sorted

theorem sorted_nil : Sorted (fun _ => none : Stamps K) [] where
  nodup := nodup_nil
  mem_iff := by simp
  sorted := .nil

theorem eq_none_iff (h : time.Sorted ks) : time k = none ↔ k ∉ ks := by
  rw [h.mem_iff, Option.not_isSome_iff_eq_none]

theorem eq_nil_iff (h : time.Sorted ks) : ks = [] ↔ ∀ k, time k = none := by
  simp only [h.eq_none_iff, eq_nil_iff_forall_not_mem]

theorem victim_iff (h : time.Sorted ks) : time.Victim e k ↔ e.pick ks = some k := by
  have hsome : ∀ {k}, k ∈ ks → ∃ t, time k = some t := fun hk =>
    Option.isSome_iff_exists.1 ((h.mem_iff _).1 hk)
  have hmem : ∀ {k t}, time k = some t → k ∈ ks := fun hk =>
    (h.mem_iff _).2 (Option.isSome_of_eq_some hk)
  cases e with
  | back =>
    rcases eq_nil_or_concat' ks with rfl | ⟨init, x, rfl⟩
    · constructor
      · rintro ⟨t, hk, -⟩
        cases hmem hk
      · intro hk
        cases hk
    · obtain ⟨tx, htx⟩ := hsome (mem_append_right init (mem_singleton_self x))
      have hlt : ∀ {k t}, k ∈ init → time k = some t → tx < t := fun hk ht =>
        (pairwise_append.1 h.sorted).2.2 _ hk x (mem_singleton_self x) _ _ ht htx
      simp only [ListEnd.pick, List.getLast?_concat, Option.some.injEq]
      constructor
      · rintro ⟨t, hk, hleast⟩
        grind
      · rintro rfl
        refine ⟨tx, htx, fun k' t' hk' => ?_⟩
        grind
  | front =>
    cases ks with
    | nil =>
      constructor
      · rintro ⟨t, hk, -⟩
        cases hmem hk
      · intro hk
        cases hk
    | cons x rest =>
      obtain ⟨tx, htx⟩ := hsome (k := x) mem_cons_self
      have hlt : ∀ {k t}, k ∈ rest → time k = some t → t < tx := fun hk ht =>
        (pairwise_cons.1 h.sorted).1 _ hk _ _ htx ht
      simp only [ListEnd.pick, List.head?_cons, Option.some.injEq]
      constructor
      · rintro ⟨t, hk, hgreatest⟩
        grind
      · rintro rfl
        refine ⟨tx, htx, fun k' t' hk' => ?_⟩
        grind

end Sorted

/-! ## The calls -/

variable [DecidableEq K]

def set (time : Stamps K) (k : K) (t : Option Nat) : Stamps K :=
  fun k' => if k' = k then t else time k'

noncomputable def update (e : ListEnd) (maxSize now : Nat) (k : K) (time : Stamps K) : Stamps K :=
  set (if time k = none ∧ maxSize ≤ time.tracked.ncard then time.drop e else time) k (some now)

noncomputable def step (e : ListEnd) (maxSize now : Nat) : CacheCall P K → Stamps K → Stamps K
  | .updateEntry k _, time => time.update e maxSize now k
  | .delEntry k, time => time.set k none
  | .delVictim, time => time.drop e
  | .clear, _ => fun _ => none
  | .search _, time => time
  | .victim, time => time

/-- The last updates after a sequence of calls, which happen at the times 0, 1, 2, … -/
noncomputable def after (e : ListEnd) (maxSize : Nat) (calls : List (CacheCall P K)) : Stamps K :=
  (calls.foldl (fun s call => (step e maxSize s.2 call s.1, s.2 + 1)) (fun _ => none, 0)).1

def Answers (e : ListEnd) (time : Stamps K) : CacheCall P K → CacheReply K → Prop
  | .updateEntry k _, reply => reply = .entry (some k)
  | .search k, reply =>
    (time k = none ∧ reply = .entry none) ∨ ((time k).isSome ∧ reply = .entry (some k))
  | .delEntry k, reply => reply = .deleted (time k).isSome
  | .victim, reply =>
    ((∀ k, time k = none) ∧ reply = .entry none) ∨
      ∃ k, time.Victim e k ∧ reply = .entry (some k)
  | .delVictim, reply => reply = .done
  | .clear, reply => reply = .done

theorem after_concat (maxSize : Nat) (calls : List (CacheCall P K)) (call : CacheCall P K) :
    after e maxSize (calls ++ [call]) =
      step e maxSize calls.length call (after e maxSize calls) := by
  have hlength : ∀ (calls : List (CacheCall P K)) (s : Stamps K × Nat),
      (calls.foldl (fun s call => (step e maxSize s.2 call s.1, s.2 + 1)) s).2 =
        s.2 + calls.length := by
    intro calls
    induction calls with
    | nil => exact fun _ => rfl
    | cons call calls ih => grind
  rw [after, foldl_append, foldl_cons, foldl_nil, hlength, Nat.zero_add]
  rfl

theorem set_self (time : Stamps K) {k : K} (t : Option Nat) : time.set k t k = t := if_pos rfl

theorem set_of_ne (time : Stamps K) {k k' : K} (hk : k' ≠ k) (t : Option Nat) :
    time.set k t k' = time k' :=
  if_neg hk

theorem set_set (time : Stamps K) (k : K) (t t' : Option Nat) :
    (time.set k t).set k t' = time.set k t' := by
  funext k'
  by_cases hk : k' = k
  · rw [hk, set_self, set_self]
  · rw [set_of_ne _ hk, set_of_ne _ hk, set_of_ne _ hk]

theorem Until.set (h : time.Until now) (k : K) {t : Option Nat}
    (ht : ∀ t', t = some t' → t' < now) : (time.set k t).Until now := by
  intro k' t' hk'
  by_cases hk : k' = k
  · rw [hk, set_self] at hk'
    exact ht t' hk'
  · rw [set_of_ne _ hk] at hk'
    exact h k' t' hk'

theorem Until.step (h : time.Until now) (e : ListEnd) (maxSize : Nat) (call : CacheCall P K) :
    (time.step e maxSize now call).Until (now + 1) := by
  cases call with
  | updateEntry k a =>
    apply Until.set
    · split
      · exact (h.drop e).succ
      · exact h.succ
    · grind
  | delEntry k => exact h.succ.set k fun t' heq => by cases heq
  | delVictim => exact (h.drop e).succ
  | clear => exact fun k t hk => by cases hk
  | search k => exact h.succ
  | victim => exact h.succ

namespace Sorted

section

variable (h : time.Sorted ks)

include h

theorem ncard_tracked : time.tracked.ncard = ks.length := by
  have hset : time.tracked = (ks.toFinset : Set K) := by
    simp [tracked, h.mem_iff]
  rw [hset, Set.ncard_coe_finset, toFinset_card_of_nodup h.nodup]

theorem erase (k : K) : (time.set k none).Sorted (ks.erase k) where
  nodup := h.nodup.erase k
  mem_iff := by
    intro k'
    rw [h.nodup.mem_erase_iff, h.mem_iff]
    by_cases hk' : k' = k
    · simp [hk', set_self]
    · simp [hk', set_of_ne time hk']
  sorted := by
    apply (h.sorted.sublist erase_sublist).imp_of_mem
    intro a b ha hb hlt t t' ht ht'
    have hne : ∀ {a}, a ∈ ks.erase k → a ≠ k := fun ha => (h.nodup.mem_erase_iff.1 ha).1
    rw [set_of_ne time (hne ha)] at ht
    rw [set_of_ne time (hne hb)] at ht'
    exact hlt t t' ht ht'

theorem cons (hk : k ∉ ks) (hnow : time.Until now) : (time.set k (some now)).Sorted (k :: ks) where
  nodup := nodup_cons.2 ⟨hk, h.nodup⟩
  mem_iff := by
    intro k'
    by_cases hk' : k' = k
    · simp [hk', set_self]
    · simp [hk', set_of_ne time hk', h.mem_iff]
  sorted := by
    have hne : ∀ {a}, a ∈ ks → a ≠ k := by
      rintro a ha rfl
      exact hk ha
    refine pairwise_cons.2 ⟨?_, h.sorted.imp_of_mem ?_⟩
    · intro b hb t t' ht ht'
      rw [set_self time] at ht
      rw [set_of_ne time (hne hb)] at ht'
      cases ht
      exact hnow b t' ht'
    · intro a b ha hb hlt t t' ht ht'
      rw [set_of_ne time (hne ha)] at ht
      rw [set_of_ne time (hne hb)] at ht'
      exact hlt t t' ht ht'

theorem drop (e : ListEnd) : (time.drop e).Sorted (e.drop ks) := by
  by_cases hks : ks = []
  · have hsame : time.drop e = time := by
      funext k
      rw [Stamps.drop, if_neg]
      rw [h.victim_iff, hks]
      cases e with
      | back => exact fun hk => by cases hk
      | front => exact fun hk => by cases hk
    rw [hsame, show e.drop ks = ks by rw [hks]; cases e <;> rfl]
    exact h
  · obtain ⟨before, x, behind, hsplit, hdrop, hpick⟩ := e.split hks
    have hsame : time.drop e = time.set x none := by
      funext k
      by_cases hk : k = x
      · rw [hk, set_self time, Stamps.drop, if_pos (h.victim_iff.2 hpick)]
      · rw [set_of_ne time hk, Stamps.drop, if_neg]
        rw [h.victim_iff, hpick]
        exact fun heq => hk (Option.some.inj heq).symm
    have herase : e.drop ks = ks.erase x := by
      have hnodup := h.nodup
      grind
    rw [hsame, herase]
    exact h.erase x

theorem step (hnow : time.Until now) (e : ListEnd) (maxSize : Nat)
    (call : CacheCall P K) :
    (time.step e maxSize now call).Sorted (keysStep e maxSize call ks) := by
  cases call with
  | updateEntry k a =>
    unfold Stamps.step Stamps.update keysStep
    by_cases hk : k ∈ ks
    · have hsome : ¬ (time k = none ∧ maxSize ≤ time.tracked.ncard) := fun hnone =>
        h.eq_none_iff.1 hnone.1 hk
      have hcons := (h.erase k).cons h.nodup.not_mem_erase (hnow.set k fun t' heq => by cases heq)
      rw [set_set] at hcons
      grind
    · have hnone : time k = none := h.eq_none_iff.2 hk
      simp only [if_neg hk, hnone, true_and, h.ncard_tracked]
      by_cases hfull : maxSize ≤ ks.length
      · rw [if_pos hfull, if_pos hfull]
        refine (h.drop e).cons ?_ (hnow.drop e)
        rw [← (h.drop e).eq_none_iff]
        unfold Stamps.drop
        grind
      · rw [if_neg hfull, if_neg hfull]
        exact h.cons hk hnow
  | delEntry k => exact h.erase k
  | delVictim => exact h.drop e
  | clear => exact sorted_nil
  | search k => exact h
  | victim => exact h

theorem answers (e : ListEnd) (call : CacheCall P K) :
    time.Answers e call (keysReply e call ks) := by
  cases call with
  | updateEntry k a => rfl
  | search k =>
    by_cases hk : k ∈ ks
    · exact .inr ⟨(h.mem_iff k).1 hk, by simp [keysReply, hk]⟩
    · exact .inl ⟨h.eq_none_iff.2 hk, by simp [keysReply, hk]⟩
  | delEntry k => simp [Answers, keysReply, h.mem_iff]
  | victim =>
    by_cases hks : ks = []
    · refine .inl ⟨h.eq_nil_iff.1 hks, ?_⟩
      rw [hks]
      cases e with
      | back => rfl
      | front => rfl
    · obtain ⟨-, x, -, -, -, hpick⟩ := e.split hks
      exact .inr ⟨x, h.victim_iff.2 hpick, by rw [keysReply, hpick]⟩
  | delVictim => rfl
  | clear => rfl

end

end Sorted

end Stamps

/-! ## Runs -/

namespace ListCache

variable {P K : Type} [DecidableEq P] [DecidableEq K] {hash : K → Nat} {ev : Eviction P K}
  {e : ListEnd} {maxSize : Nat} {calls : List (CacheCall P K)} {c : ListCache P K}

/-- The cache after these calls: the list holds the tracked keys in the order of the policy,
the dictionary has their entries, and `size()` is their number. -/
def Implements (e : ListEnd) (hash : K → Nat) (maxSize : Nat) (calls : List (CacheCall P K))
    (c : ListCache P K) : Prop :=
  ∃ xs : List (P × K), c.Tracks hash xs ∧
    (Stamps.after e maxSize calls).Sorted (xs.map Prod.snd) ∧
    c.cache.count = (Stamps.after e maxSize calls).tracked.ncard ∧ c.cache.count ≤ maxSize

/-- Without keys the calls for a victim all do nothing, or all fail. -/
def EmptyCalls (ev : Eviction P K) (hash : K → Nat) : Prop :=
  ∀ c : ListCache P K, c.Tracks hash [] →
    (ev.victim c = some none ∧ ev.delVictim c = some c) ∨
      (ev.victim c = none ∧ ev.delVictim c = none)

theorem Run.tracks (hev : ev.TakesFrom hash e) (hempty : EmptyCalls ev hash)
    (hsize : 1 ≤ maxSize) (hrun : Run hash ev maxSize calls c) :
    ∃ xs, c.Tracks hash xs ∧ c.maxSize = maxSize ∧ xs.length ≤ maxSize ∧
      (Stamps.after e maxSize calls).Sorted (xs.map Prod.snd) ∧
      (Stamps.after e maxSize calls).Until calls.length := by
  induction hrun with
  | new =>
    exact ⟨[], tracks_new maxSize, rfl, Nat.zero_le _, Stamps.Sorted.sorted_nil,
      fun k t hk => by cases hk⟩
  | @call calls c c' call reply run admits hstep ih =>
    obtain ⟨xs, htracks, hmax, hlength, hsorted, huntil⟩ := ih
    have hmissing : call = .victim ∨ call = .delVictim → xs = [] →
        ev.victim c = some none ∧ ev.delVictim c = some c := by
      rintro hcall rfl
      rcases hempty c htracks with hnothing | ⟨hvictim, hdel⟩
      · exact hnothing
      · rcases hcall with rfl | rfl
        · simp [ListCache.step, hvictim] at hstep
        · simp [ListCache.step, hdel] at hstep
    obtain ⟨c'', xs', hrun', hmax', htracks', hkeys⟩ := htracks.step hev (hmax ▸ hsize)
      (hmax ▸ hlength) admits hmissing
    rw [hstep] at hrun'
    cases hrun'
    rw [hmax] at hkeys
    refine ⟨xs', htracks', hmax'.trans hmax, ?_, ?_, ?_⟩
    · rw [← length_map Prod.snd, hkeys]
      exact length_keysStep_le hsize ((length_map Prod.snd).trans_le hlength) call
    · rw [hkeys, Stamps.after_concat]
      exact hsorted.step huntil e maxSize call
    · rw [Stamps.after_concat, length_append]
      exact huntil.step e maxSize call

omit [DecidableEq P] in
theorem Tracks.implements {xs : List (P × K)} (h : c.Tracks hash xs) (hlength : xs.length ≤ maxSize)
    (hsorted : (Stamps.after e maxSize calls).Sorted (xs.map Prod.snd)) :
    c.Implements e hash maxSize calls := by
  refine ⟨xs, h, hsorted, ?_, ?_⟩
  · rw [hsorted.ncard_tracked, length_map, h.list.count]
  · rw [h.list.count]
    exact hlength

end ListCache

section Policies

open ListCache

variable {P K : Type} [DecidableEq P] [DecidableEq K] {hash : K → Nat} {maxSize : Nat}
  {calls : List (CacheCall P K)} {c : ListCache P K}

theorem LruCache.calls_of_empty (h : c.Tracks hash []) :
    (LruCache.eviction hash).victim c = some none ∧
      (LruCache.eviction hash).delVictim c = some c := by
  have hempty : c.cache.empty = true := by
    rw [Blist.empty, h.list.header]
    rfl
  simp [LruCache.eviction, LruCache.victim, LruCache.delVictim, hempty]

theorem MruCache.calls_of_empty (h : c.Tracks hash []) :
    (MruCache.eviction hash).victim c = none ∧ (MruCache.eviction hash).delVictim c = none := by
  have hfront : c.cache.front c.nodes = none := h.list.front
  simp [MruCache.eviction, MruCache.victim, MruCache.delVictim, hfront]

/-- After any calls the list has the tracked keys by their last update, the victim is the one
that was updated the longest ago, and every call answers so. -/
theorem LruCache.recency_of_run (hsize : 1 ≤ maxSize)
    (hrun : Run hash (LruCache.eviction hash) maxSize calls c) :
    c.Implements .back hash maxSize calls ∧
      ∀ call, Admits call c → ∃ reply c', c.step hash (LruCache.eviction hash) call =
        some (reply, c') ∧ (Stamps.after .back maxSize calls).Answers .back call reply := by
  obtain ⟨xs, htracks, hmax, hlength, hsorted, -⟩ := hrun.tracks LruCache.takesFrom
    (fun c h => .inl (LruCache.calls_of_empty h)) hsize
  refine ⟨htracks.implements hlength hsorted, fun call hadmits => ?_⟩
  obtain ⟨c', -, hstep, -⟩ := htracks.step LruCache.takesFrom (hmax ▸ hsize) (hmax ▸ hlength)
    hadmits fun _ hxs => LruCache.calls_of_empty (hxs ▸ htracks)
  exact ⟨_, c', hstep, hsorted.answers .back call⟩

/-- The third key replaces the first one. -/
theorem LruCache.recency_of_run_full :
    let calls : List (CacheCall Nat Nat) := [.updateEntry 7 0, .updateEntry 8 1, .updateEntry 9 2]
    ∃ c, Run id (LruCache.eviction id) 2 calls c ∧ c.Implements .back id 2 calls := by
  intro calls
  have hrun : ∃ c, Run id (LruCache.eviction id) 2
      ([] ++ [.updateEntry 7 0] ++ [.updateEntry 8 1] ++ [.updateEntry 9 2]) c :=
    ⟨_, .call (.call (.call .new rfl rfl) rfl rfl) rfl rfl⟩
  obtain ⟨c, hrun⟩ := hrun
  exact ⟨c, hrun, (LruCache.recency_of_run (by decide) hrun).1⟩

/-- The same for the key that was updated last, but for the calls that need a victim where
there is none. -/
theorem MruCache.mostRecent_of_run (hsize : 1 ≤ maxSize)
    (hrun : Run hash (MruCache.eviction hash) maxSize calls c) :
    c.Implements .front hash maxSize calls ∧
      ∀ call, Admits call c →
        ((∃ reply c', c.step hash (MruCache.eviction hash) call = some (reply, c') ∧
            (Stamps.after .front maxSize calls).Answers .front call reply) ↔
          (call = .victim ∨ call = .delVictim →
            (Stamps.after .front maxSize calls).tracked.Nonempty)) := by
  obtain ⟨xs, htracks, hmax, hlength, hsorted, -⟩ := hrun.tracks MruCache.takesFrom
    (fun c h => .inr (MruCache.calls_of_empty h)) hsize
  refine ⟨htracks.implements hlength hsorted, fun call hadmits => ⟨?_, ?_⟩⟩
  · rintro ⟨reply, c', hstep, -⟩ hcall
    cases xs with
    | nil =>
      obtain ⟨hvictim, hdel⟩ := MruCache.calls_of_empty htracks
      rcases hcall with rfl | rfl
      · simp [ListCache.step, hvictim] at hstep
      · simp [ListCache.step, hdel] at hstep
    | cons x xs => exact ⟨x.2, (hsorted.mem_iff x.2).1 mem_cons_self⟩
  · intro htracked
    obtain ⟨c', -, hstep, -⟩ := htracks.step MruCache.takesFrom (hmax ▸ hsize) (hmax ▸ hlength)
      hadmits (by
        rintro hcall rfl
        obtain ⟨k, hk⟩ := htracked hcall
        cases (hsorted.mem_iff k).2 hk)
    exact ⟨_, c', hstep, hsorted.answers .front call⟩

/-- Three keys in a cache of two. -/
theorem MruCache.mostRecent_of_run_full :
    let calls : List (CacheCall Nat Nat) := [.updateEntry 7 0, .updateEntry 8 1, .updateEntry 9 2]
    ∃ c, Run id (MruCache.eviction id) 2 calls c ∧ c.Implements .front id 2 calls := by
  intro calls
  have hrun : ∃ c, Run id (MruCache.eviction id) 2
      ([] ++ [.updateEntry 7 0] ++ [.updateEntry 8 1] ++ [.updateEntry 9 2]) c :=
    ⟨_, .call (.call (.call .new rfl rfl) rfl rfl) rfl rfl⟩
  obtain ⟨c, hrun⟩ := hrun
  exact ⟨c, hrun, (MruCache.mostRecent_of_run (by decide) hrun).1⟩

/-- A cache from which the only key was deleted has no victim to give. -/
theorem MruCache.victim_of_drained :
    let calls : List (CacheCall Nat Nat) := [] ++ [.updateEntry 7 0] ++ [.delEntry 7]
    ∃ c, Run id (MruCache.eviction id) 2 calls c ∧
      c.step id (MruCache.eviction id) .victim = none ∧
      c.step id (MruCache.eviction id) .delVictim = none :=
  ⟨_, .call (.call .new rfl rfl) trivial rfl, rfl, rfl⟩

end Policies

end Mmkv.Replacement
