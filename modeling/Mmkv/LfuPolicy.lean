import Mmkv.LfuCache

/-!
# Least frequently used keys

The policy that `LfuCache` implements: every tracked key has a number of updates, and among
the keys with the smallest number the one that reached it first is the victim.  The lists of
the cache are the tracked keys in this order, after every sequence of calls.
-/

namespace Mmkv.Replacement

open FreqGroup

/-! ## Numbers of updates -/

/-- How often a tracked key was updated since it came, and when for the last time. -/
def Uses (K : Type) : Type :=
  K → Option (Nat × Nat)

namespace Uses

variable {A K : Type}

/-- The key that was updated the least often, and reached this number first. -/
def Victim (uses : Uses K) (k : K) : Prop :=
  ∃ f t, uses k = some (f, t) ∧ ∀ k' f' t', uses k' = some (f', t') → f < f' ∨ f = f' ∧ t ≤ t'

open Classical in
noncomputable def drop (uses : Uses K) : Uses K :=
  fun k => if uses.Victim k then none else uses k

/-- A frequency with the keys that have it, in the order in which they reached it. -/
structure GroupOk {P Q : Type} (uses : Uses K) (g : FreqGroup P Q K) : Prop where
  nonempty : g.items ≠ []
  positive : 1 ≤ g.freq
  counted : ∀ y ∈ g.items, ∃ t, uses y.2 = some (g.freq, t)
  fifo : g.items.Pairwise fun y y' =>
    ∀ u u', uses y.2 = some u → uses y'.2 = some u' → u.2 < u'.2

structure Grouped {P Q : Type} (uses : Uses K) (gs : List (FreqGroup P Q K)) : Prop where
  increasing : gs.Pairwise fun g g' => g.freq < g'.freq
  ok : ∀ g ∈ gs, uses.GroupOk g
  found : ∀ k f t, uses k = some (f, t) → ∃ g ∈ gs, g.freq = f ∧ k ∈ g.items.map Prod.snd

def Until (uses : Uses K) (now : Nat) : Prop :=
  ∀ k u, uses k = some u → u.2 < now

variable {P Q : Type} {uses uses' : Uses K} {k : K} {now : Nat} {g g' : FreqGroup P Q K}
  {gs before behind : List (FreqGroup P Q K)} {p a : P} {f : Nat} {ys zs : List (Q × K)}
  {y : Q × K} {t : Nat}

theorem mem_keep : g' ∈ g.keep ↔ g' = g ∧ g.items ≠ [] := by
  grind [keep]

theorem GroupOk.congr (h : uses.GroupOk g) (hsame : ∀ y ∈ g.items, uses' y.2 = uses y.2) :
    uses'.GroupOk g where
  nonempty := h.nonempty
  positive := h.positive
  counted := by
    intro y hy
    rw [hsame y hy]
    exact h.counted y hy
  fifo := by
    apply h.fifo.imp_of_mem
    grind

theorem GroupOk.remove (h : uses.GroupOk (⟨p, f, ys ++ y :: zs⟩ : FreqGroup P Q K)) :
    ∀ g ∈ (⟨p, f, ys ++ zs⟩ : FreqGroup P Q K).keep, uses.GroupOk g ∧
      ∀ y' ∈ g.items, y'.2 ≠ y.2 := by
  intro g hg
  have hsub : List.Sublist (ys ++ zs) (ys ++ y :: zs) :=
    List.Sublist.append_left (List.sublist_cons_self _ _) _
  obtain ⟨rfl, hne⟩ := mem_keep.1 hg
  refine ⟨⟨hne, h.positive, fun y' hy' => h.counted y' (hsub.subset hy'), h.fifo.sublist hsub⟩, ?_⟩
  intro y' hy' heq
  obtain ⟨t, ht⟩ := h.counted y (by simp)
  have ht' : uses y'.2 = some (f, t) := by rw [heq, ht]
  have hfifo := h.fifo
  grind [List.pairwise_cons]

theorem GroupOk.append (h : uses.GroupOk g) (hy : uses y.2 = some (g.freq, t))
    (hlast : ∀ y' ∈ g.items, ∀ u, uses y'.2 = some u → u.2 < t) :
    uses.GroupOk { g with items := g.items ++ [y] } where
  nonempty := by simp
  positive := h.positive
  counted := by
    have hcounted := h.counted
    grind
  fifo := by
    refine List.pairwise_append.2 ⟨h.fifo, List.pairwise_singleton _ _, ?_⟩
    grind

theorem Until.succ (h : uses.Until now) : uses.Until (now + 1) :=
  fun k u hk => Nat.lt_succ_of_lt (h k u hk)

namespace Grouped

theorem frequency_unique (h : uses.Grouped gs) (hg : g ∈ gs)
    (hg' : g' ∈ gs) {y y' : Q × K} (hy : y ∈ g.items) (hy' : y' ∈ g'.items)
    (hkey : y.2 = y'.2) : g.freq = g'.freq := by
  obtain ⟨t, ht⟩ := (h.ok g hg).counted y hy
  obtain ⟨t', ht'⟩ := (h.ok g' hg').counted y' hy'
  grind

theorem grouped_nil : Grouped (fun _ => none : Uses K) ([] : List (FreqGroup P Q K)) where
  increasing := .nil
  ok := fun g hg => by cases hg
  found := fun k f t hk => by cases hk

theorem victim_iff (h : uses.Grouped (⟨p, f, y :: ys⟩ :: behind)) : uses.Victim k ↔ k = y.2 := by
  have hfirst := h.ok _ List.mem_cons_self
  obtain ⟨t, ht⟩ : ∃ t, uses y.2 = some (f, t) := hfirst.counted y List.mem_cons_self
  have hlt := (List.pairwise_cons.1 h.increasing).1
  have hfifo := (List.pairwise_cons.1 hfirst.fifo).1
  -- every other key is in a later group, or later in this one
  have hleast : ∀ k' f' t', uses k' = some (f', t') →
      k' = y.2 ∨ f < f' ∨ f = f' ∧ t < t' := by
    intro k' f' t' hk'
    obtain ⟨g, hg, rfl, hmem⟩ := h.found k' f' t' hk'
    grind
  constructor
  · rintro ⟨f', t', hk', hmin⟩
    have hmin' := hmin _ _ _ ht
    grind
  · rintro rfl
    refine ⟨f, t, ht, fun k' f' t' hk' => ?_⟩
    grind

theorem eq_none_of_nil (h : uses.Grouped ([] : List (FreqGroup P Q K))) (k : K) :
    uses k = none := by
  cases hk : uses k with
  | none => rfl
  | some u =>
    obtain ⟨g, hg, -⟩ := h.found k u.1 u.2 hk
    cases hg

theorem drop_of_nil (h : uses.Grouped ([] : List (FreqGroup P Q K))) : uses.drop = uses := by
  funext k
  unfold drop
  rw [if_neg]
  rintro ⟨f, t, hk, -⟩
  rw [h.eq_none_of_nil k] at hk
  cases hk

theorem exists_split (h : uses.Grouped gs) (hk : uses k = some (f, t)) :
    ∃ before behind p ys zs y, gs = before ++ ⟨p, f, ys ++ y :: zs⟩ :: behind ∧ y.2 = k := by
  obtain ⟨g, hg, rfl, hmem⟩ := h.found k f t hk
  obtain ⟨before, behind, rfl⟩ := List.append_of_mem hg
  obtain ⟨y, hy, rfl⟩ := List.mem_map.1 hmem
  obtain ⟨ys, zs, hitems⟩ := List.append_of_mem hy
  exact ⟨before, behind, g.addr, ys, zs, y, by rw [← hitems], rfl⟩

theorem key_ne_of_none (h : uses.Grouped gs) (hk : uses k = none) :
    ∀ e ∈ LfuCache.allEntries gs, e.key ≠ k := by
  rintro e he rfl
  obtain ⟨g, hg, he⟩ := List.mem_flatMap.1 he
  obtain ⟨y, hy, rfl⟩ := List.mem_map.1 he
  obtain ⟨t, ht⟩ := (h.ok g hg).counted y hy
  rw [hk] at ht
  cases ht

end Grouped

/-! ## The calls -/

variable [DecidableEq K]

def set (uses : Uses K) (k : K) (u : Option (Nat × Nat)) : Uses K :=
  fun k' => if k' = k then u else uses k'

def frequency (uses : Uses K) (k : K) : Nat :=
  match uses k with
  | none => 0
  | some (f, _) => f

noncomputable def step (now : Nat) : CacheCall A K → Uses K → Uses K
  | .updateEntry k _, uses => uses.set k (some (uses.frequency k + 1, now))
  | .delEntry k, uses => uses.set k none
  | .delVictim, uses => uses.drop
  | .clear, _ => fun _ => none
  | .search _, uses => uses
  | .victim, uses => uses

/-- The numbers after a sequence of calls, which happen at the times 0, 1, 2, … -/
noncomputable def after (calls : List (CacheCall A K)) : Uses K :=
  (calls.foldl (fun s call => (step s.2 call s.1, s.2 + 1)) (fun _ => none, 0)).1

def Answers (uses : Uses K) : CacheCall A K → CacheReply K → Prop
  | .updateEntry k _, reply => reply = .entry (some k)
  | .search k, reply =>
    (uses k = none ∧ reply = .entry none) ∨ ((uses k).isSome ∧ reply = .entry (some k))
  | .delEntry k, reply => reply = .deleted (uses k).isSome
  | .victim, reply =>
    ((∀ k, uses k = none) ∧ reply = .entry none) ∨
      ∃ k, uses.Victim k ∧ reply = .entry (some k)
  | .delVictim, reply => reply = .done
  | .clear, reply => reply = .done

theorem set_self (uses : Uses K) {k : K} (u : Option (Nat × Nat)) : uses.set k u k = u := if_pos rfl

theorem set_of_ne (uses : Uses K) {k k' : K} (hk : k' ≠ k) (u : Option (Nat × Nat)) :
    uses.set k u k' = uses k' :=
  if_neg hk

theorem set_set (uses : Uses K) (k : K) (u u' : Option (Nat × Nat)) :
    (uses.set k u).set k u' = uses.set k u' := by
  funext k'
  by_cases hk : k' = k
  · rw [hk, set_self, set_self]
  · rw [set_of_ne _ hk, set_of_ne _ hk, set_of_ne _ hk]

namespace Grouped

theorem remove (h : uses.Grouped (before ++ ⟨p, f, ys ++ y :: zs⟩ :: behind)) :
    (uses.set y.2 none).Grouped
      (before ++ (⟨p, f, ys ++ zs⟩ : FreqGroup P Q K).keep ++ behind) := by
  obtain ⟨hleft, hright, hcross⟩ := List.pairwise_append.1 h.increasing
  have hright' := List.pairwise_cons.1 hright
  have hmid : (⟨p, f, ys ++ y :: zs⟩ : FreqGroup P Q K) ∈
      before ++ ⟨p, f, ys ++ y :: zs⟩ :: behind := List.mem_append_right _ List.mem_cons_self
  have hremoved := (h.ok _ hmid).remove
  have hkeep : ∀ g ∈ (⟨p, f, ys ++ zs⟩ : FreqGroup P Q K).keep, g.freq = f := by
    grind [mem_keep]
  have hother : ∀ g ∈ before ++ behind, g ∈ before ++ ⟨p, f, ys ++ y :: zs⟩ :: behind ∧
      ∀ y' ∈ g.items, y'.2 ≠ y.2 := by
    intro g hg
    have hmem : g ∈ before ++ ⟨p, f, ys ++ y :: zs⟩ :: behind := by grind
    refine ⟨hmem, fun y' hy' hkey => ?_⟩
    have hfreq : g.freq = f := h.frequency_unique hmem hmid hy' (by simp) hkey
    grind
  refine ⟨?_, ?_, ?_⟩
  · rw [List.append_assoc]
    refine List.pairwise_append.2 ⟨hleft, List.pairwise_append.2 ⟨?_, hright'.2, ?_⟩, ?_⟩
    · unfold keep
      grind
    · grind
    · grind
  · intro g hg
    have hcases : g ∈ (⟨p, f, ys ++ zs⟩ : FreqGroup P Q K).keep ∨ g ∈ before ++ behind := by
      grind
    rcases hcases with hg | hg
    · exact (hremoved g hg).1.congr fun y' hy' => set_of_ne _ ((hremoved g hg).2 y' hy') _
    · exact (h.ok g (hother g hg).1).congr fun y' hy' => set_of_ne _ ((hother g hg).2 y' hy') _
  · intro k f' t hk
    have hne : k ≠ y.2 := by
      rintro rfl
      rw [set_self] at hk
      cases hk
    rw [set_of_ne _ hne] at hk
    obtain ⟨g, hg, hfreq, hmem⟩ := h.found k f' t hk
    have hcases : g = ⟨p, f, ys ++ y :: zs⟩ ∨ g ∈ before ++ behind := by grind
    rcases hcases with rfl | hg
    · have hmem' : k ∈ (ys ++ zs).map Prod.snd := by grind
      exact ⟨⟨p, f, ys ++ zs⟩, by grind [mem_keep], hfreq, hmem'⟩
    · exact ⟨g, by grind, hfreq, hmem⟩

theorem ok_set (h : uses.Grouped gs) (hk : uses k = none) (u : Option (Nat × Nat)) (hg : g ∈ gs) :
    (uses.set k u).GroupOk g := by
  apply (h.ok g hg).congr
  intro y' hy'
  apply set_of_ne
  rintro heq
  obtain ⟨t, ht⟩ := (h.ok g hg).counted y' hy'
  rw [heq, hk] at ht
  cases ht

theorem insert (h : uses.Grouped (before ++ behind)) (hk : uses y.2 = none) (hf : 1 ≤ f)
    (hbefore : ∀ g ∈ before, g.freq < f) (hbehind : ∀ g ∈ behind, f < g.freq) (a : P)
    (now : Nat) :
    (uses.set y.2 (some (f, now))).Grouped (before ++ ⟨a, f, [y]⟩ :: behind) := by
  obtain ⟨hleft, hright, hcross⟩ := List.pairwise_append.1 h.increasing
  have hmem : ∀ {g}, g ∈ before ++ ⟨a, f, [y]⟩ :: behind →
      g = ⟨a, f, [y]⟩ ∨ g ∈ before ++ behind := by
    grind
  refine ⟨?_, ?_, ?_⟩
  · refine List.pairwise_append.2 ⟨hleft, List.pairwise_cons.2 ⟨hbehind, hright⟩, ?_⟩
    grind
  · intro g hg
    rcases hmem hg with rfl | hg
    · refine ⟨List.cons_ne_nil _ _, hf, ?_, List.pairwise_singleton _ _⟩
      intro y' hy'
      rw [List.mem_singleton.1 hy']
      exact ⟨now, set_self _ _⟩
    · exact h.ok_set hk _ hg
  · intro k f' t hk'
    by_cases hkey : k = y.2
    · rw [hkey, set_self] at hk'
      cases hk'
      exact ⟨⟨a, f, [y]⟩, by simp, rfl, by simp [hkey]⟩
    · rw [set_of_ne _ hkey] at hk'
      obtain ⟨g, hg, hfreq, hitem⟩ := h.found k f' t hk'
      exact ⟨g, by grind, hfreq, hitem⟩

theorem join (h : uses.Grouped (before ++ g :: behind)) (hk : uses y.2 = none)
    (hnow : uses.Until now) :
    (uses.set y.2 (some (g.freq, now))).Grouped
      (before ++ { g with items := g.items ++ [y] } :: behind) := by
  have hg : g ∈ before ++ g :: behind := List.mem_append_right _ List.mem_cons_self
  have hmem : ∀ {g'}, g' ∈ before ++ { g with items := g.items ++ [y] } :: behind →
      g' = { g with items := g.items ++ [y] } ∨ g' ∈ before ++ g :: behind := by
    grind
  refine ⟨?_, ?_, ?_⟩
  · have hfreqs : (before ++ { g with items := g.items ++ [y] } :: behind).map freq =
        (before ++ g :: behind).map freq := by simp
    have hmap : ((before ++ g :: behind).map freq).Pairwise (· < ·) :=
      List.pairwise_map.2 h.increasing
    grind
  · intro g' hg'
    rcases hmem hg' with rfl | hg'
    · refine (h.ok_set hk _ hg).append (set_self _ _) ?_
      intro y' hy' u hu
      by_cases hkey : y'.2 = y.2
      · obtain ⟨t, ht⟩ := (h.ok g hg).counted y' hy'
        rw [hkey, hk] at ht
        cases ht
      · rw [set_of_ne _ hkey] at hu
        exact hnow _ u hu
    · exact h.ok_set hk _ hg'
  · intro k f' t hk'
    by_cases hkey : k = y.2
    · rw [hkey, set_self] at hk'
      cases hk'
      exact ⟨{ g with items := g.items ++ [y] }, by simp, rfl, by simp [hkey]⟩
    · rw [set_of_ne _ hkey] at hk'
      obtain ⟨g', hg', hfreq, hitem⟩ := h.found k f' t hk'
      have hcases : g' = g ∨ g' ∈ before ++ behind := by grind
      rcases hcases with rfl | hg'
      · exact ⟨{ g' with items := g'.items ++ [y] }, by simp, hfreq, by grind⟩
      · exact ⟨g', by grind, hfreq, hitem⟩

theorem append (h : uses.Grouped (before ++ behind)) (hk : uses y.2 = none)
    (hnow : uses.Until now) (hf : 1 ≤ f) (hbefore : ∀ g ∈ before, g.freq < f)
    (hbehind : ∀ g ∈ behind, f ≤ g.freq) (a : P) :
    (uses.set y.2 (some (f, now))).Grouped (before ++ LfuCache.appendAt a f y behind) := by
  cases behind with
  | nil => exact h.insert hk hf hbefore (fun g hg => by cases hg) a now
  | cons g gs =>
    have hlt : ∀ g' ∈ gs, g.freq < g'.freq :=
      (List.pairwise_cons.1 (List.pairwise_append.1 h.increasing).2.1).1
    by_cases hless : f < g.freq
    · rw [LfuCache.appendAt, if_pos hless]
      exact h.insert hk hf hbefore (by grind) a now
    · have hfreq : f = g.freq :=
        Nat.le_antisymm (hbehind g List.mem_cons_self) (Nat.le_of_not_lt hless)
      rw [LfuCache.appendAt, if_neg hless, hfreq]
      exact h.join hk hnow

theorem drop_eq (h : uses.Grouped (⟨p, f, y :: ys⟩ :: behind)) : uses.drop = uses.set y.2 none := by
  funext k
  unfold drop
  by_cases hk : k = y.2
  · rw [if_pos (h.victim_iff.2 hk), hk, set_self]
  · rw [if_neg fun hvictim => hk (h.victim_iff.1 hvictim), set_of_ne _ hk]

end Grouped

theorem Until.set (h : uses.Until now) (k : K) {u : Option (Nat × Nat)}
    (hu : ∀ u', u = some u' → u'.2 < now) : (uses.set k u).Until now := by
  intro k' u' hk'
  by_cases hk : k' = k
  · rw [hk, set_self] at hk'
    exact hu u' hk'
  · rw [set_of_ne _ hk] at hk'
    exact h k' u' hk'

theorem Until.step (h : uses.Until now) (call : CacheCall A K) :
    (uses.step now call).Until (now + 1) := by
  cases call with
  | updateEntry k a =>
    apply h.succ.set
    grind
  | delEntry k => exact h.succ.set k fun u' heq => by cases heq
  | delVictim =>
    intro k u hk
    replace hk : uses.drop k = some u := hk
    unfold drop at hk
    split at hk
    · cases hk
    · exact h.succ k u hk
  | clear => exact fun k u hk => by cases hk
  | search k => exact h.succ
  | victim => exact h.succ

theorem after_concat (calls : List (CacheCall A K)) (call : CacheCall A K) :
    after (calls ++ [call]) = step calls.length call (after calls) := by
  have hlength : ∀ (calls : List (CacheCall A K)) (s : Uses K × Nat),
      (calls.foldl (fun s call => (step s.2 call s.1, s.2 + 1)) s).2 = s.2 + calls.length := by
    intro calls
    induction calls with
    | nil => exact fun _ => rfl
    | cons call calls ih => grind
  rw [after, List.foldl_append, List.foldl_cons, List.foldl_nil, hlength, Nat.zero_add]
  rfl

end Uses

/-! ## Runs -/

namespace LfuCache

open Uses

variable {P Q K : Type} {cmp : K → K → Ordering} {hash : K → Nat} {c : LfuCache P Q K}
  {gs : List (FreqGroup P Q K)} {uses : Uses K} {now : Nat}

theorem Tracks.keys_nodup (h : c.Tracks cmp hash gs) :
    (gs.flatMap fun g => g.items.map Prod.snd).Nodup := by
  have hnodup := Tables.Indexes.nodup h.dict
  rw [allEntries, List.map_flatMap] at hnodup
  simp only [entries, List.map_map] at hnodup
  exact hnodup

variable [DecidableEq K] {call : CacheCall (P × Q) K}

/-- The lists before and after a call have the keys that the interface promises. -/
theorem promises_step {gs' : List (FreqGroup P Q K)} (hgroups : uses.Grouped gs)
    (hgroups' : (uses.step now call).Grouped gs') {victim : Option K}
    (hvictim : ∀ k, victim = some k ↔ uses.Victim k) :
    call.Promises victim (gs.flatMap fun g => g.items.map Prod.snd)
      (gs'.flatMap fun g => g.items.map Prod.snd) := by
  have hkeys : ∀ {uses : Uses K} {gs : List (FreqGroup P Q K)}, uses.Grouped gs → ∀ k,
      (k ∈ gs.flatMap fun g => g.items.map Prod.snd) ↔ uses k ≠ none := by
    intro uses gs h k
    simp only [List.mem_flatMap, List.mem_map]
    constructor
    · rintro ⟨g, hg, y, hy, rfl⟩ hnone
      obtain ⟨t, ht⟩ := (h.ok g hg).counted y hy
      cases hnone.symm.trans ht
    · intro hsome
      obtain ⟨⟨f, t⟩, hk⟩ := Option.ne_none_iff_exists'.1 hsome
      obtain ⟨g, hg, -, hmem⟩ := h.found k f t hk
      exact ⟨g, hg, List.mem_map.1 hmem⟩
  cases call with
  | clear => exact List.eq_nil_iff_forall_not_mem.2 fun k hk => (hkeys hgroups' k).1 hk rfl
  | search | victim => exact fun k => (hkeys hgroups' k).trans (hkeys hgroups k).symm
  | updateEntry | delEntry | delVictim =>
    intro k'
    rw [hkeys hgroups, hkeys hgroups']
    simp only [Uses.step, Uses.set, Uses.drop]
    grind

variable [Std.TransCmp cmp] [Std.LawfulEqCmp cmp]

theorem search_answers (h : c.Tracks cmp hash gs) (hgroups : uses.Grouped gs) (k : K) :
    (uses k = none ∧ (c.search cmp hash k).1 = none) ∨
      ((uses k).isSome ∧ (c.search cmp hash k).1 = some k) := by
  rw [(search_spec h k).1]
  have hrep := KeyedStore.represents_ofList (Tables.Indexes.nodup h.dict)
  cases hk : uses k with
  | none =>
    rw [hrep.eq_none_iff.2 (hgroups.key_ne_of_none hk)]
    exact .inl ⟨rfl, rfl⟩
  | some u =>
    obtain ⟨f, t⟩ := u
    obtain ⟨before, behind, p, ys, zs, y, rfl, rfl⟩ := hgroups.exists_split hk
    have hmem := (allEntries_perm before behind p f ys zs y).mem_iff.2 List.mem_cons_self
    rw [hrep.eq_some_iff.2 ⟨hmem, rfl⟩]
    exact .inr ⟨rfl, rfl⟩

variable [DecidableEq P] [DecidableEq Q] {calls : List (CacheCall (P × Q) K)}

theorem updateEntry_new (h : c.Tracks cmp hash gs) (hgroups : uses.Grouped gs)
    (hnow : uses.Until now) {k : K} (hk : uses k = none) {a : P} {b : Q}
    (ha : c.fnodes.node a = none) (hb : c.inodes.node b = none) :
    ∃ c' gs', c.updateEntry cmp hash a b k = some (some k, c') ∧ c'.Tracks cmp hash gs' ∧
      (uses.set k (some (1, now))).Grouped gs' := by
  obtain ⟨dict, hinsert, hdict⟩ := TreeHashTable.Indexes.insert_new h.dict
    (show ∀ v ∈ _, _ ≠ LfuEntry.key ⟨k, none, none⟩ from hgroups.key_ne_of_none hk)
  obtain ⟨c', hadd, htracks⟩ := addEntry_spec (c := { c with dict := dict })
    (h.view.withDict dict) hdict ha hb
  refine ⟨c', _, ?_, htracks, ?_⟩
  · simp only [updateEntry, hinsert, hadd]
    rfl
  · have hgroups' : uses.Grouped ([] ++ gs) := hgroups
    exact hgroups'.append (y := (b, k)) hk hnow (Nat.le_refl 1) (fun g hg => by cases hg)
      (fun g hg => (hgroups.ok g hg).positive) a

theorem updateEntry_old (h : c.Tracks cmp hash gs) (hgroups : uses.Grouped gs)
    (hnow : uses.Until now) {k : K} {f t : Nat} (hk : uses k = some (f, t)) {a : P} (b : Q)
    (ha : c.fnodes.node a = none) :
    ∃ c' gs', c.updateEntry cmp hash a b k = some (some k, c') ∧ c'.Tracks cmp hash gs' ∧
      (uses.set k (some (f + 1, now))).Grouped gs' := by
  obtain ⟨before, behind, p, ys, zs, y, rfl, rfl⟩ := hgroups.exists_split hk
  have hperm := allEntries_perm before behind p f ys zs y
  obtain ⟨dict, hinsert, hdict⟩ := TreeHashTable.Indexes.insert_duplicate h.dict
    (hperm.mem_iff.2 List.mem_cons_self)
    (show LfuEntry.key ⟨y.2, some p, some y.1⟩ = LfuEntry.key ⟨y.2, none, none⟩ from rfl)
  have htracks : Tracks cmp hash { c with dict := dict } _ := ⟨h.view.withDict dict, hdict⟩
  obtain ⟨c', hpromote, htracks'⟩ := promote_spec htracks ha
  refine ⟨c', _, ?_, htracks', ?_⟩
  · simp only [updateEntry, hinsert, hpromote]
    rfl
  · obtain ⟨-, hright, hcross⟩ := List.pairwise_append.1 hgroups.increasing
    have hgrouped := hgroups.remove.append (f := f + 1) (set_self _ _)
      (hnow.set y.2 fun u' heq => by cases heq) (Nat.succ_pos f) (fun g hg => ?_)
      (fun g hg => (List.pairwise_cons.1 hright).1 g hg) a
    · rwa [set_set] at hgrouped
    · rcases List.mem_append.1 hg with hg | hg
      · exact Nat.lt_succ_of_lt (hcross g hg _ List.mem_cons_self)
      · rw [(mem_keep.1 hg).1]
        exact Nat.lt_succ_self _

theorem Tracks.step (h : c.Tracks cmp hash gs) (hgroups : uses.Grouped gs)
    (hnow : uses.Until now) (hadmits : Admits call c) :
    ∃ reply c' gs', c.step cmp hash call = some (reply, c') ∧ c'.Tracks cmp hash gs' ∧
      (uses.step now call).Grouped gs' ∧ uses.Answers call reply := by
  cases call with
  | updateEntry k ab =>
    obtain ⟨a, b⟩ := ab
    cases hk : uses k with
    | none =>
      obtain ⟨c', gs', hrun, htracks, hgroups'⟩ :=
        updateEntry_new h hgroups hnow hk hadmits.1 hadmits.2
      refine ⟨_, c', gs', ?_, htracks, ?_, rfl⟩
      · simp only [LfuCache.step, hrun]
        rfl
      · simpa only [Uses.step, Uses.frequency, hk] using hgroups'
    | some u =>
      obtain ⟨c', gs', hrun, htracks, hgroups'⟩ := updateEntry_old h hgroups hnow hk b hadmits.1
      refine ⟨_, c', gs', ?_, htracks, ?_, rfl⟩
      · simp only [LfuCache.step, hrun]
        rfl
      · simpa only [Uses.step, Uses.frequency, hk] using hgroups'
  | search k =>
    refine ⟨.entry (c.search cmp hash k).1, (c.search cmp hash k).2, gs, rfl,
      (search_spec h k).2, hgroups, ?_⟩
    rcases search_answers h hgroups k with ⟨hk, hreply⟩ | ⟨hk, hreply⟩
    · exact .inl ⟨hk, congrArg CacheReply.entry hreply⟩
    · exact .inr ⟨hk, congrArg CacheReply.entry hreply⟩
  | delEntry k =>
    cases hk : uses k with
    | none =>
      obtain ⟨c', hrun, htracks⟩ := delEntry_none h (hgroups.key_ne_of_none hk)
      have hsame : uses.set k none = uses := by
        funext k'
        by_cases hk' : k' = k
        · rw [hk', set_self, hk]
        · rw [set_of_ne _ hk']
      refine ⟨.deleted false, c', gs, ?_, htracks, ?_, ?_⟩
      · simp only [LfuCache.step, hrun]
        rfl
      · rw [Uses.step, hsame]
        exact hgroups
      · simp only [Answers, hk]
        rfl
    | some u =>
      obtain ⟨before, behind, p, ys, zs, y, rfl, rfl⟩ := hgroups.exists_split hk
      obtain ⟨c', hrun, htracks⟩ := delEntry_spec h
      refine ⟨.deleted true, c', _, ?_, htracks, hgroups.remove, ?_⟩
      · simp only [LfuCache.step, hrun]
        rfl
      · simp only [Answers, hk]
        rfl
  | victim =>
    cases gs with
    | nil =>
      have hsize : c.dict.size = 0 := size_eq h
      refine ⟨.entry none, c, [], ?_, h, hgroups, .inl ⟨hgroups.eq_none_of_nil, rfl⟩⟩
      simp only [LfuCache.step, LfuCache.victim, if_pos hsize]
      rfl
    | cons g gs =>
      obtain ⟨y, ys, hitems⟩ := List.exists_cons_of_ne_nil
        (hgroups.ok g List.mem_cons_self).nonempty
      obtain ⟨p, f, items⟩ := g
      subst hitems
      refine ⟨.entry (some y.2), c, _, ?_, h, hgroups, .inr ⟨y.2, hgroups.victim_iff.2 rfl, rfl⟩⟩
      simp only [LfuCache.step, victim_spec h]
      rfl
  | delVictim =>
    cases gs with
    | nil =>
      have hsize : c.dict.size = 0 := size_eq h
      refine ⟨.done, c, [], ?_, h, ?_, rfl⟩
      · simp only [LfuCache.step, LfuCache.delVictim, if_pos hsize]
        rfl
      · rw [Uses.step, hgroups.drop_of_nil]
        exact hgroups
    | cons g gs =>
      obtain ⟨y, ys, hitems⟩ := List.exists_cons_of_ne_nil
        (hgroups.ok g List.mem_cons_self).nonempty
      obtain ⟨p, f, items⟩ := g
      subst hitems
      obtain ⟨c', hrun, htracks⟩ := delVictim_spec h
      refine ⟨.done, c', _, ?_, htracks, ?_, rfl⟩
      · simp only [LfuCache.step, hrun]
        rfl
      · have hremoved := @Uses.Grouped.remove _ _ _ _ [] gs p f [] ys y _ hgroups
        rw [Uses.step, hgroups.drop_eq]
        exact hremoved
  | clear =>
    obtain ⟨c', hrun, htracks⟩ := clear_spec h
    refine ⟨.done, c', [], ?_, htracks, Uses.Grouped.grouped_nil, rfl⟩
    simp only [LfuCache.step, hrun]
    rfl

/-- The cache after these calls: all pointers are right, each key has one node, and the lists
are those of the policy. -/
def Implements (cmp : K → K → Ordering) (hash : K → Nat) (calls : List (CacheCall (P × Q) K))
    (c : LfuCache P Q K) : Prop :=
  ∃ gs : List (FreqGroup P Q K), c.Tracks cmp hash gs ∧ (Uses.after calls).Grouped gs ∧
    (gs.flatMap fun g => g.items.map Prod.snd).Nodup

theorem Run.tracks (hrun : Run cmp hash calls c) :
    ∃ gs, c.Tracks cmp hash gs ∧ (Uses.after calls).Grouped gs ∧
      (Uses.after calls).Until calls.length := by
  induction hrun with
  | new =>
    refine ⟨[], ⟨⟨Blist.holds_new _, ?_, .nil⟩, TreeHashTable.indexes_new⟩,
      Uses.Grouped.grouped_nil, fun k u hk => by cases hk⟩
    intro g hg
    cases hg
  | @call calls c c' call reply run admits hstep ih =>
    obtain ⟨gs, htracks, hgroups, huntil⟩ := ih
    obtain ⟨reply', c'', gs', hstep', htracks', hgroups', -⟩ := htracks.step hgroups huntil admits
    rw [hstep] at hstep'
    cases hstep'
    rw [Uses.after_concat, List.length_append]
    exact ⟨gs', htracks', hgroups', huntil.step call⟩

/-- After any calls the frequency list is that of the policy, and every call answers so. -/
theorem frequencies_of_run (hrun : Run cmp hash calls c) :
    c.Implements cmp hash calls ∧
      ∀ call, Admits call c → ∃ reply c', c.step cmp hash call = some (reply, c') ∧
        (Uses.after calls).Answers call reply := by
  obtain ⟨gs, htracks, hgroups, huntil⟩ := hrun.tracks
  refine ⟨⟨gs, htracks, hgroups, htracks.keys_nodup⟩, fun call hadmits => ?_⟩
  obtain ⟨reply, c', -, hstep, -, -, hanswers⟩ := htracks.step hgroups huntil hadmits
  exact ⟨reply, c', hstep, hanswers⟩

/-- Two updates of one key and one of another. -/
theorem frequencies_of_run_two :
    let calls : List (CacheCall (Nat × Nat) Nat) :=
      [.updateEntry 7 (0, 0), .updateEntry 8 (1, 1), .updateEntry 7 (2, 2), .delVictim]
    ∃ c, Run compare id calls c ∧ c.Implements compare id calls := by
  intro calls
  have hrun : ∃ c, Run compare id ([] ++ [.updateEntry 7 (0, 0)] ++ [.updateEntry 8 (1, 1)] ++
      [.updateEntry 7 (2, 2)] ++ [.delVictim]) c :=
    ⟨_, .call (.call (.call (.call .new ⟨rfl, rfl⟩ rfl) ⟨rfl, rfl⟩ rfl) ⟨rfl, rfl⟩ rfl) trivial rfl⟩
  obtain ⟨c, hrun⟩ := hrun
  exact ⟨c, hrun, (frequencies_of_run hrun).1⟩

end LfuCache

end Mmkv.Replacement
