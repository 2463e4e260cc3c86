import Mmkv.IncrementalDoubling
import Mmkv.TreeHashTableRuns
import Mmkv.HashTable

/-!
# Growth of the tables

Every call but `Clear` first moves one bucket of a rehash that is on.  The
rehash therefore ends after as many calls as the first table has buckets, and
the second table is never outgrown.
-/

namespace Mmkv

open scoped List
open IncrementalDoubling List Table Nat Tables

namespace Tables

variable {V B N X : Type} {kind : BucketKind V B N} {hash : V → Nat}
  {ok : B → Prop} {apart : V → V → Prop} {settled : Prop}

def growth (t : Tables B) : Growth :=
  ⟨t.table1.size, t.rehashMoveBucketIndex, t.size⟩

def newest (t : Tables B) : Table B :=
  if t.inRehashing then t.table2 else t.table1

def StoredAmong (kind : BucketKind V B N) (t : Tables B) (n : Nat) (v : V) : Prop :=
  (t.table1.size = n ∧ v ∈ t.table1.values kind) ∨
    (t.table2.size = n ∧ v ∈ t.table2.values kind)

/-- All values that are in another table afterwards come from one bucket. -/
def MovesOnly (kind : BucketKind V B N) (hash : V → Nat) (t t' : Tables B) (i : Nat) : Prop :=
  ∀ v n n', t.StoredAmong kind n v → t'.StoredAmong kind n' v → n ≠ n' →
    hash v % t.table1.size = i

variable {t : Tables B} {n : Nat} {v : V}

theorem StoredAmong.mem_entries (h : t.StoredAmong kind n v) : v ∈ t.entries kind := by
  rcases h with h | h
  · exact mem_append_left _ h.2
  · exact mem_append_right _ h.2

/-! ## The rehash -/

theorem growth_rehash (t : Tables B) : (t.rehash kind).growth = t.growth.start := by
  unfold rehash Growth.start
  split
  next h => exact (if_pos h).symm
  next h => exact (if_neg h).symm

theorem growth_incrementalRehash (law : kind.Lawful ok apart)
    (hwf : t.WF kind hash ok apart settled) :
    (t.incrementalRehash kind hash).growth = t.growth.advance := by
  cases hindex : t.rehashMoveBucketIndex with
  | none =>
    have hsame : t.incrementalRehash kind hash = t := by
      unfold incrementalRehash
      rw [hindex]
    rw [hsame, Growth.advance]
    simp only [growth, hindex]
  | some i =>
    have hmoved := (hwf.moving i hindex).moveBucket law hwf.table1
    have hpos := hmoved.sound2.size_pos
    have hsize := hmoved.size2
    unfold incrementalRehash Growth.advance
    simp only [growth, hindex, size_setBucket]
    split
    · exact congrArg (fun n => Growth.mk n (some (i + 1)) t.size) (size_setBucket _ _ _)
    · rw [if_neg fun hnil => by rw [Table.size, hnil] at hpos; exact lt_irrefl _ hpos]
      exact congrArg (fun n => Growth.mk n none t.table1.used) hsize

theorem storedAmong_rehash (h : t.StoredAmong kind n v) (hwf : t.WF kind hash ok apart settled) :
    (t.rehash kind).StoredAmong kind n v := by
  unfold rehash
  split
  next hstart =>
    rcases h with h | h
    · exact .inl h
    · rw [values_eq_nil_of_table_nil (hwf.idle hstart.1)] at h
      exact absurd h.2 not_mem_nil
  next => exact h

variable {i : Nat}

theorem storedAmong_incrementalRehash (law : kind.Lawful ok apart)
    (hwf : t.WF kind hash ok apart settled) (hindex : t.rehashMoveBucketIndex = some i)
    (h : (t.incrementalRehash kind hash).StoredAmong kind n v) :
    (n = t.table1.size ∧ v ∈ t.table1.values kind) ∨
      (n = t.table2.size ∧ (hash v % t.table1.size = i ∨ v ∈ t.table2.values kind)) := by
  have hmoving := hwf.moving i hindex
  have hmoved := hmoving.moveBucket law hwf.table1
  have hsize2 := hmoved.size2.trans hmoving.size2.symm
  have hpos := hmoved.sound2.size_pos
  unfold incrementalRehash at h
  simp only [hindex, size_setBucket] at h
  split at h
  · rcases h with ⟨rfl, hv⟩ | ⟨rfl, hv⟩
    · exact .inl ⟨size_setBucket _ _ _, mem_of_mem_emptied law hmoving.index_lt hv⟩
    · exact .inr ⟨hsize2, hmoving.mem_of_moved law hwf.table1 hv⟩
  · rw [if_neg fun hnil => by rw [Table.size, hnil] at hpos; exact lt_irrefl _ hpos] at h
    rcases h with ⟨rfl, hv⟩ | ⟨-, hv⟩
    · exact .inr ⟨hsize2, hmoving.mem_of_moved law hwf.table1 hv⟩
    · rw [values_eq_nil_of_table_nil (law.reset_table _)] at hv
      cases hv

theorem movesOnly_incrementalRehash (law : kind.Lawful ok apart) (hirrefl : ∀ v, ¬apart v v)
    (hwf : t.WF kind hash ok apart settled) :
    ∃ i, t.MovesOnly kind hash (t.incrementalRehash kind hash) i := by
  cases hindex : t.rehashMoveBucketIndex with
  | none =>
    refine ⟨0, fun v n n' hbefore hafter hne => ?_⟩
    rw [incrementalRehash_idle hindex] at hafter
    simp only [StoredAmong, values_eq_nil_of_table_nil (hwf.idle hindex),
      not_mem_nil, and_false, or_false] at hbefore hafter
    exact absurd (hbefore.1.symm.trans hafter.1) hne
  | some i =>
    have hnot : ∀ v ∈ t.table1.values kind, v ∉ t.table2.values kind :=
      fun v h1 h2 => hirrefl v ((hwf.moving i hindex).cross v h1 v h2 rfl)
    refine ⟨i, fun v n n' hbefore hafter hne => ?_⟩
    have hafter := storedAmong_incrementalRehash law hwf hindex hafter
    rcases hbefore with ⟨rfl, h1⟩ | ⟨rfl, h2⟩
    · grind
    · grind

/-! ## The access after it -/

/-- What a call does to the tables behind the rehash: buckets keep their tables. -/
structure Accessed (kind : BucketKind V B N) (t t' : Tables B) (added : List V) : Prop where
  size1 : t'.table1.size = t.table1.size
  size2 : t'.table2.size = t.table2.size
  index : t'.rehashMoveBucketIndex = t.rehashMoveBucketIndex
  used : t'.size ≤ t.size + added.length
  mem1 : ∀ v ∈ t'.table1.values kind, v ∈ t.table1.values kind ∨ v ∈ added
  mem2 : ∀ v ∈ t'.table2.values kind, v ∈ t.table2.values kind ∨ v ∈ added

theorem Accessed.refl (t : Tables B) : Accessed kind t t [] :=
  ⟨rfl, rfl, rfl, le_refl _, fun _ => .inl, fun _ => .inl⟩

variable {t' : Tables B} {added : List V} {op : B → Option X × B} {stay : X → List V}
  {hit : V → Prop} {res : X → V}

theorem Accessed.growth (h : Accessed kind t t' added) :
    t'.growth = { t.growth with load := t'.size } := by
  simp only [Tables.growth, h.size1, h.index]

theorem Accessed.storedAmong (h : Accessed kind t t' added) (hv : t'.StoredAmong kind n v)
    (hnew : v ∉ added) : t.StoredAmong kind n v := by
  rcases hv with ⟨hn, hv⟩ | ⟨hn, hv⟩
  · exact .inl ⟨h.size1.symm.trans hn, (h.mem1 v hv).resolve_right hnew⟩
  · exact .inr ⟨h.size2.symm.trans hn, (h.mem2 v hv).resolve_right hnew⟩

theorem Accessed.setUsed (h : Accessed kind t t' added) {used : Nat}
    (hused : used ≤ t.size + added.length) : Accessed kind t (t'.setUsed used) added :=
  ⟨h.size1, h.size2, h.index, hused, h.mem1, h.mem2⟩

theorem mem_values_setBucket {t : Table B} {b : B} (hv : v ∈ (t.setBucket i b).values kind) :
    v ∈ kind.values b ∨ v ∈ t.values kind := by
  obtain ⟨b', hb', hmem⟩ := mem_flatMap.1 hv
  rcases mem_or_eq_of_mem_set hb' with hb' | rfl
  · exact .inr (mem_flatMap.2 ⟨b', hb', hmem⟩)
  · exact .inl hmem

theorem mem_values_of_bucket {t : Table B} (law : kind.Lawful ok apart)
    (hv : v ∈ kind.values (t.bucket kind.empty i)) : v ∈ t.values kind := by
  by_cases hi : i < t.size
  · exact mem_flatMap.2 ⟨_, bucket_mem _ hi, hv⟩
  · rw [Table.bucket, getD_eq_default _ _ (Nat.le_of_not_lt hi), law.values_empty] at hv
    cases hv

section Access

variable {t : Tables B} {h : Nat} {b : B} {elem : V}

theorem mem_values_of_added (law : kind.Lawful ok apart) {t : Table B}
    (hb : ∀ v ∈ kind.values b, v ∈ kind.values (t.bucket kind.empty i) ∨ v = elem)
    (hv : v ∈ (t.setBucket i b).values kind) : v ∈ t.values kind ∨ v ∈ [elem] := by
  rcases mem_values_setBucket hv with hv | hv
  · rcases hb v hv with hv | rfl
    · exact .inl (mem_values_of_bucket law hv)
    · exact .inr mem_cons_self
  · exact .inl hv

theorem accessed_addTo1 (law : kind.Lawful ok apart) (hb : ∀ v ∈ kind.values b,
      v ∈ kind.values (t.table1.bucket kind.empty (t.table1.bucketIndex h)) ∨ v = elem) :
    Accessed kind t (t.addTo1 h b) [elem] :=
  ⟨size_setBucket _ _ _, rfl, rfl, le_refl _, fun _ => mem_values_of_added law hb, fun _ => .inl⟩

theorem accessed_addTo2 (law : kind.Lawful ok apart) (hb : ∀ v ∈ kind.values b,
      v ∈ kind.values (t.table2.bucket kind.empty (t.table2.bucketIndex h)) ∨ v = elem) :
    Accessed kind t (t.addTo2 h b) [elem] :=
  ⟨rfl, size_setBucket _ _ _, rfl, le_refl _, fun _ => .inl, fun _ => mem_values_of_added law hb⟩

/-- What an insertion does behind the rehash: it adds the entry, or nothing. -/
def Adds (kind : BucketKind V B N) (t : Tables B) (elem : V) (r : Bool × V × Tables B) : Prop :=
  Accessed kind t r.2.2 [] ∨ Accessed kind t r.2.2 [elem] ∧ r.1 = true

theorem accessed_visit (hop : LawfulOp kind hash ok apart op hit res stay)
    (hstay : ∀ x, ∀ w ∈ stay x, w = res x) (hwf : t.WF kind hash ok apart settled) (h : Nat) :
    Accessed kind t (t.visit kind op h).2 [] := by
  have hset : ∀ {t : Table B} {x : X} {b' : B}, t.Sound kind hash ok →
      op (t.bucket kind.empty (t.bucketIndex h)) = (some x, b') →
        ∀ v ∈ (t.setBucket (t.bucketIndex h) b').values kind, v ∈ t.values kind ∨ v ∈ [] := by
    intro t x b' hsound hfound v hv
    obtain ⟨-, -, rest, hrep⟩ := hop.setBucket hsound hfound
    refine .inl (hrep.before.mem_iff.2 ?_)
    rcases mem_append.1 (hrep.after.mem_iff.1 hv) with hv | hv
    · exact mem_cons.2 (.inl (hstay x v hv))
    · exact mem_cons_of_mem _ hv
  unfold visit
  dsimp only
  split
  · rename_i x b' hfound
    exact ⟨size_setBucket _ _ _, rfl, rfl, le_refl _, hset hwf.table1 hfound, fun _ => .inl⟩
  · split
    · rename_i hrehashing
      obtain ⟨i, hi⟩ := Option.isSome_iff_exists.1 hrehashing
      split
      · rename_i x b' hfound
        exact ⟨rfl, size_setBucket _ _ _, rfl, le_refl _, fun _ => .inl,
          hset (hwf.moving i hi).table2 hfound⟩
      · exact .refl t
    · exact .refl t

end Access

/-! ## One call -/

/-- What a call other than `Clear` does to the rehash. -/
structure KeepsPace (kind : BucketKind V B N) (hash : V → Nat) (t t' : Tables B) : Prop where
  step : Growth.Step t.growth t'.growth
  moves : ∃ i, t.MovesOnly kind hash t' i

section KeepsPace

variable (law : kind.Lawful ok apart) (hirrefl : ∀ v, ¬apart v v) {t t' : Tables B}
  (hwf : t.WF kind hash ok apart settled)

include law hirrefl hwf

theorem keepsPace_look (h : Accessed kind (t.incrementalRehash kind hash) t' []) :
    KeepsPace kind hash t t' where
  step := by
    rw [h.growth, growth_incrementalRehash law hwf]
    refine .look (h.used.trans ?_)
    exact le_of_eq (hwf.incrementalRehash_spec law).2.size
  moves := by
    obtain ⟨i, hi⟩ := movesOnly_incrementalRehash law hirrefl hwf
    exact ⟨i, fun v n n' hbefore hafter =>
      hi v n n' hbefore (h.storedAmong hafter not_mem_nil)⟩

theorem keepsPace_find (hop : LawfulOp kind hash ok apart op hit res stay)
    (hstay : ∀ x, ∀ w ∈ stay x, w = res x) (h : Nat) :
    KeepsPace kind hash t (t.find kind hash op h).2 :=
  keepsPace_look law hirrefl hwf (accessed_visit hop hstay (hwf.incrementalRehash_spec law).1 h)

theorem keepsPace_extract (hop : LawfulOp kind hash ok apart op hit res stay)
    (hstay : ∀ x, ∀ w ∈ stay x, w = res x) (h : Nat) :
    KeepsPace kind hash t (t.extract kind hash op h).2 := by
  have haccessed := accessed_visit hop hstay (hwf.incrementalRehash_spec law).1 h
  refine keepsPace_look law hirrefl hwf ?_
  unfold extract
  split
  · rename_i x t' hvisit
    rw [hvisit] at haccessed
    exact haccessed.setUsed ((sub_le _ _).trans haccessed.used)
  · grind

theorem keepsPace_insert {added : List V} (hlength : added.length ≤ 1)
    (hnew : ∀ v ∈ added, v ∉ t.entries kind)
    (h : Accessed kind ((t.rehash kind).incrementalRehash kind hash) t' added) :
    KeepsPace kind hash t t' where
  step := by
    have hrehash := hwf.rehash_spec law
    rw [h.growth, growth_incrementalRehash law hrehash.1, growth_rehash]
    refine .insert (h.used.trans ?_)
    rw [(hrehash.1.incrementalRehash_spec law).2.size, hrehash.2.size]
    exact Nat.add_le_add_left hlength _
  moves := by
    have hrehash := hwf.rehash_spec law
    obtain ⟨i, hi⟩ := movesOnly_incrementalRehash law hirrefl hrehash.1
    refine ⟨i, fun v n n' hbefore hafter hne => ?_⟩
    have hold : v ∉ added := fun hv => hnew v hv hbefore.mem_entries
    have hsize : (t.rehash kind).table1.size = t.table1.size :=
      congrArg Growth.size ((growth_rehash t).trans rfl) |>.trans (Growth.size_start _)
    rw [← hsize]
    exact hi v n n' (storedAmong_rehash hbefore hwf) (h.storedAmong hafter hold) hne

theorem keepsPace_insertOutcome {wf : Tables B → Prop} {distinct equal : V → V → Prop} {elem : V}
    {r : Bool × V × Tables B} (hout : InsertOutcome kind wf distinct equal elem t r)
    (hself : ¬distinct elem elem)
    (h : Adds kind ((t.rehash kind).incrementalRehash kind hash) elem r) :
    KeepsPace kind hash t r.2.2 := by
  rcases h with h | ⟨h, htrue⟩
  · exact keepsPace_insert law hirrefl hwf (zero_le _) (fun _ hv => by cases hv) h
  · refine keepsPace_insert law hirrefl hwf (le_refl _) (fun v hv hmem => ?_) h
    obtain rfl := mem_singleton.1 hv
    cases hout with
    | inserted wf' added fresh => exact hself (fresh v hmem)
    | refused wf' same mem eq => cases htrue

end KeepsPace

theorem growth_clear (t : Tables B) : (t.clear kind).growth = ⟨min 4 t.table1.size, none, 0⟩ := by
  simp [growth, clear, Table.shrink, Table.size, Tables.size]

theorem newest_size (hwf : t.WF kind hash ok apart settled) :
    t.newest.size = t.growth.capacity := by
  unfold newest Growth.capacity
  cases hindex : t.rehashMoveBucketIndex with
  | none => simp [inRehashing, growth, hindex]
  | some i => simp [inRehashing, growth, hindex, (hwf.moving i hindex).size2]

/-! ## Runs -/

section Runs

variable {K S R : Type}

/-- The rehash keeps up with the calls that follow the state `s`. -/
structure KeepsUp (kind : BucketKind V B N) (hash : V → Nat)
    (step : TableCall K V → S → R × S) (tables : S → Tables B) (s : S) : Prop where
  size_pow : ∃ m, (tables s).newest.size = 2 ^ m
  load_le : ((tables s).entries kind).length ≤ (tables s).newest.size
  moves_one : ∀ c, ∃ i, (tables s).MovesOnly kind hash (tables (step c s).2) i
  /-- While a rehash is on no call starts another one. -/
  goes_on : ∀ c i, c ≠ .clear → (tables s).rehashMoveBucketIndex = some i →
    i + 1 < (tables s).table1.size →
      (tables (step c s).2).rehashMoveBucketIndex = some (i + 1) ∧
        (tables (step c s).2).table1.size = (tables s).table1.size ∧
        (tables (step c s).2).table2.size = (tables s).table2.size
  ends : ∀ c i, c ≠ .clear → (tables s).rehashMoveBucketIndex = some i →
    i + 1 = (tables s).table1.size →
      (tables (step c s).2).rehashMoveBucketIndex = none ∧
        (tables (step c s).2).table1.size = (tables s).table2.size
  /-- From the call that starts it a rehash takes as many calls as there are buckets. -/
  takes : ∀ c calls, (tables s).inRehashing = false → (tables (step c s).2).inRehashing = true →
    (∀ d ∈ calls, d ≠ .clear) → calls.length + 1 ≤ (tables s).table1.size →
      ((tables (CallRuns.run step calls (step c s).2).2).inRehashing = true ↔
        calls.length + 1 < (tables s).table1.size)

structure Paced (kind : BucketKind V B N) (hash : V → Nat) (ok : B → Prop)
    (apart : V → V → Prop) (settled : Prop) (step : TableCall K V → S → R × S)
    (tables : S → Tables B) : Prop where
  wf : ∀ c s, (tables s).WF kind hash ok apart settled →
    (tables (step c s).2).WF kind hash ok apart settled
  pace : ∀ c s, (tables s).WF kind hash ok apart settled → c ≠ .clear →
    KeepsPace kind hash (tables s) (tables (step c s).2)
  clear : ∀ s, tables (step .clear s).2 = (tables s).clear kind

variable {step : TableCall K V → S → R × S} {tables : S → Tables B} {s : S}

theorem Paced.of_calls (law : kind.Lawful ok apart)
    (hcall : ∀ c s, (tables s).WF kind hash ok apart settled → c ≠ .clear →
      (tables (step c s).2).WF kind hash ok apart settled ∧
        KeepsPace kind hash (tables s) (tables (step c s).2))
    (hclear : ∀ s, tables (step .clear s).2 = (tables s).clear kind) :
    Paced kind hash ok apart settled step tables where
  wf := by
    intro c s hwf
    by_cases hc : c = .clear
    · rw [hc, hclear]
      exact (hwf.clear_spec law).1
    · exact (hcall c s hwf hc).1
  pace := fun c s hwf hc => (hcall c s hwf hc).2
  clear := hclear

section

variable (hpaced : Paced kind hash ok apart settled step tables)
  (hwf : (tables s).WF kind hash ok apart settled)
include hpaced hwf

theorem Paced.valid (hvalid : (tables s).growth.Valid) (c : TableCall K V) :
    (tables (step c s).2).growth.Valid := by
  by_cases hclear : c = .clear
  · subst hclear
    rw [hpaced.clear, growth_clear]
    refine ⟨?_, fun _ => zero_le _, fun i hi => by cases hi⟩
    exact Nat.lt_min.2 ⟨by decide, hwf.table1.size_pos⟩
  · exact hvalid.step (hpaced.pace c s hwf hclear).step

theorem Paced.run (hvalid : (tables s).growth.Valid) (calls : List (TableCall K V)) :
    (tables (CallRuns.run step calls s).2).WF kind hash ok apart settled ∧
      (tables (CallRuns.run step calls s).2).growth.Valid := by
  induction calls generalizing s with
  | nil => exact ⟨hwf, hvalid⟩
  | cons c calls ih => exact ih (hpaced.wf c s hwf) (hpaced.valid hwf hvalid c)

theorem Paced.steps {calls : List (TableCall K V)} (hcalls : ∀ c ∈ calls, c ≠ .clear) :
    Growth.Steps calls.length (tables s).growth (tables (CallRuns.run step calls s).2).growth := by
  induction calls generalizing s with
  | nil => exact .zero _
  | cons c calls ih =>
    refine .succ (hpaced.pace c s hwf (hcalls c mem_cons_self)).step ?_
    exact ih (hpaced.wf c s hwf) fun d hd => hcalls d (mem_cons_of_mem _ hd)

end

theorem inRehashing_iff {t : Tables B} : t.inRehashing = true ↔ t.growth.cursor ≠ none := by
  simp only [inRehashing, growth]
  cases t.rehashMoveBucketIndex <;> simp

theorem Paced.keepsUp (hpaced : Paced kind hash ok apart settled step tables)
    (law : kind.Lawful ok apart)
    (hwf : (tables s).WF kind hash ok apart settled) (hvalid : (tables s).growth.Valid) :
    KeepsUp kind hash step tables s where
  size_pow := by
    unfold newest
    cases hindex : (tables s).rehashMoveBucketIndex with
    | none =>
      simp only [inRehashing, hindex, Option.isSome_none, Bool.false_eq_true, ↓reduceIte]
      exact hwf.table1.size_pow
    | some i =>
      simp only [inRehashing, hindex, Option.isSome_some, ↓reduceIte]
      exact (hwf.moving i hindex).table2.size_pow
  load_le := by
    rw [newest_size hwf]
    exact hwf.counted.trans hvalid.load_le_capacity
  moves_one := by
    intro c
    by_cases hclear : c = .clear
    · subst hclear
      refine ⟨0, fun v n n' _ hafter => ?_⟩
      rw [hpaced.clear] at hafter
      have hmem := hafter.mem_entries
      rw [(hwf.clear_spec law).2.1] at hmem
      cases hmem
    · exact (hpaced.pace c s hwf hclear).moves
  goes_on := by
    intro c i hclear hindex hlt
    have hstep := (hpaced.pace c s hwf hclear).step.next_of_lt hindex hlt
    refine ⟨hstep.1, hstep.2, ?_⟩
    have hsize := hstep.2
    rw [((hpaced.wf c s hwf).moving _ hstep.1).size2, (hwf.moving i hindex).size2]
    exact congrArg (· * 2) hsize
  ends := by
    intro c i hclear hindex hlast
    have hstep := (hpaced.pace c s hwf hclear).step.next_of_last hindex hlast
    rw [(hwf.moving i hindex).size2]
    exact hstep
  takes := by
    intro c calls hidle hmoving hcalls hlength
    have hclear : c ≠ .clear := by
      rintro rfl
      rw [hpaced.clear] at hmoving
      cases hmoving
    have hnone : (tables s).growth.cursor = none := by
      by_contra h
      rw [inRehashing_iff.2 h] at hidle
      cases hidle
    obtain ⟨hcursor, hsize⟩ := (hpaced.pace c s hwf hclear).step.cursor_of_start hnone
      (inRehashing_iff.1 hmoving)
    have hlt := ((hpaced.valid hwf hvalid c).moving 1 hcursor).1
    have hsteps := (hpaced.steps (hpaced.wf c s hwf) hcalls).moving_iff hcursor
      (by rw [hsize, add_comm]; exact hlength) hlt
    rw [inRehashing_iff, hsteps.1, hsize, add_comm]
    rfl

end Runs

end Tables

/-! ## The table with AVL buckets -/

namespace TreeHashTable

variable {K V : Type} {cmp : K → K → Ordering} {key : V → K} {hash : K → Nat}
  [Std.TransCmp cmp] {t : Tables (AvlTree V)}

theorem apart_irrefl (v : V) : ¬Apart cmp key v v := fun h => h Std.ReflCmp.compare_self

theorem adds_pushTable1 (hwf : WF cmp key hash t) (n : AvlNode V) :
    Tables.Adds (kind cmp key) t n.value (pushTable1 cmp key hash n t) := by
  unfold pushTable1
  dsimp only
  split
  · exact .inl (.refl t)
  · rename_i b hpush
    have hlinked := AvlTree.pushWithDuplicate_linked (hwf.table1.bucketOf _).1 hpush
    exact .inr ⟨accessed_addTo1 kind_lawful fun v hv =>
      (mem_cons.1 (hlinked.2.1.mem_iff.1 hv)).symm, rfl⟩

theorem adds_pushTable2 (hwf : WF cmp key hash t) {i : Nat}
    (hindex : t.rehashMoveBucketIndex = some i) (n : AvlNode V) :
    Tables.Adds (kind cmp key) t n.value (pushTable2 cmp key hash n t) := by
  unfold pushTable2
  dsimp only
  split
  · exact .inl (.refl t)
  · rename_i b hpush
    have hlinked := AvlTree.pushWithDuplicate_linked ((hwf.moving i hindex).table2.bucketOf _).1
      hpush
    exact .inr ⟨accessed_addTo2 kind_lawful fun v hv =>
      (mem_cons.1 (hlinked.2.1.mem_iff.1 hv)).symm, rfl⟩

theorem adds_insertWithDuplicate (hwf : WF cmp key hash t) (elem : V) :
    Tables.Adds (kind cmp key) (incrementalRehash cmp key hash (rehash cmp key t)) elem
      (insertWithDuplicate cmp key hash elem t) := by
  have hwf' := (rehashed_spec hwf).1
  unfold insertWithDuplicate
  dsimp only
  generalize incrementalRehash cmp key hash (rehash cmp key t) = t' at hwf' ⊢
  split
  · exact adds_pushTable1 hwf' (AvlTree.createNode elem)
  · rename_i i hindex
    split
    · exact adds_pushTable2 hwf' hindex (AvlTree.createNode elem)
    · split
      · exact .inl (.refl t')
      · exact adds_pushTable1 hwf' (AvlTree.createNode elem)

omit [Std.TransCmp cmp] in
theorem insert_snd (elem : V) (t : Tables (AvlTree V)) :
    (insert cmp key hash elem t).2 = (insertWithDuplicate cmp key hash elem t).2.2 := by
  unfold insert
  split <;> rename_i h <;> rw [h]

theorem paced : Tables.Paced (kind cmp key) (hash ∘ key) (BucketOk cmp key) (Apart cmp key) True
    (callTable cmp key hash) TreeState.tables := by
  refine .of_calls kind_lawful (fun c s hwf hclear => ?_) fun _ => rfl
  have hinsert elem := And.intro (insertWithDuplicate_outcome hwf elem).wf
    (keepsPace_insertOutcome kind_lawful apart_irrefl hwf
      (insertWithDuplicate_outcome hwf elem) (fun h => h rfl Std.ReflCmp.compare_self)
      (adds_insertWithDuplicate hwf elem))
  have hextract k := And.intro (extract_outcome hwf k).wf
    (keepsPace_extract kind_lawful apart_irrefl hwf (extractOp_lawful k)
      (fun x w hw => by cases hw) (hash k))
  cases c with
  | insert elem =>
    simp only [callTable, insert_snd]
    exact hinsert elem
  | insertWithDuplicate elem => exact hinsert elem
  | find k =>
    exact ⟨(find_outcome hwf k).kept.1, keepsPace_find kind_lawful apart_irrefl hwf
      (findOp_lawful k) (fun x w hw => mem_singleton.1 hw) (hash k)⟩
  | extract k => exact hextract k
  | erase k =>
    simp only [callTable, erase_eq]
    exact hextract k
  | clear => exact absurd rfl hclear

end TreeHashTable

/-! ## The table with list buckets -/

namespace HashTable

variable {K V : Type} [DecidableEq K] {key : V → K} {hash : K → Nat} {t : Tables (List V)}

omit [DecidableEq K] in
theorem apart_irrefl (v : V) : ¬Apart key v v := fun h => h rfl

theorem adds_insertWithDuplicate (key : V → K) (hash : K → Nat) (elem : V) (t : Tables (List V)) :
    Tables.Adds kind (incrementalRehash key hash (t.rehash kind)) elem
      (insertWithDuplicate key hash elem t) := by
  have law : kind.Lawful (BucketOk key) (Apart key) := kind_lawful
  unfold insertWithDuplicate
  dsimp only
  generalize incrementalRehash key hash (t.rehash kind) = t'
  have hadd1 := @accessed_addTo1 _ _ _ kind _ _ t' (hash (key elem))
    (elem :: bucket1 (hash (key elem)) t') elem law fun v hv => (mem_cons.1 hv).symm
  have hadd2 := @accessed_addTo2 _ _ _ kind _ _ t' (hash (key elem))
    (elem :: bucket2 (hash (key elem)) t') elem law fun v hv => (mem_cons.1 hv).symm
  split
  · split
    · exact .inl (.refl t')
    · exact .inr ⟨hadd1, rfl⟩
  · split
    · split
      · exact .inl (.refl t')
      · exact .inr ⟨hadd2, rfl⟩
    · split
      · exact .inl (.refl t')
      · split
        · exact .inl (.refl t')
        · exact .inr ⟨hadd2, rfl⟩

theorem insert_snd (elem : V) (t : Tables (List V)) :
    (insert key hash elem t).2 = (insertWithDuplicate key hash elem t).2.2 := by
  unfold insert
  split <;> rename_i h <;> rw [h]

theorem paced : Tables.Paced kind (hash ∘ key) (BucketOk key) (Apart key) False
    (call key hash) id := by
  refine .of_calls kind_lawful (fun c t hwf hclear => ?_) fun _ => rfl
  have hinsert elem := And.intro (insertWithDuplicate_outcome hwf elem).wf
    (keepsPace_insertOutcome kind_lawful apart_irrefl hwf
      (insertWithDuplicate_outcome hwf elem) (fun h => h rfl)
      (adds_insertWithDuplicate key hash elem t))
  have hextract k := And.intro (extract_outcome hwf k).wf
    (keepsPace_extract kind_lawful apart_irrefl hwf (extractNodeIf_lawful k)
      (fun x w hw => by cases hw) (hash k))
  cases c with
  | insert elem =>
    simp only [call, insert_snd]
    exact hinsert elem
  | insertWithDuplicate elem => exact hinsert elem
  | find k =>
    exact ⟨(find_outcome hwf k).kept.1, keepsPace_find kind_lawful apart_irrefl hwf
      (moveToFront_lawful k) (fun x w hw => mem_singleton.1 hw) (hash k)⟩
  | extract k => exact hextract k
  | erase k =>
    simp only [call, erase_eq]
    exact hextract k
  | clear => exact absurd rfl hclear

end HashTable

/-- After any calls on a fresh table the rehash keeps up with the calls to come. -/
theorem rehash_keepsUp {K V : Type} [DecidableEq K] (cmp : K → K → Ordering) [Std.TransCmp cmp]
    (key : V → K) (hash : K → Nat) (calls : List (TableCall K V)) :
    Tables.KeepsUp (TreeHashTable.kind cmp key) (hash ∘ key)
        (TreeHashTable.callTable cmp key hash) TreeState.tables
        (CallRuns.run (TreeHashTable.callTable cmp key hash) calls
          (TreeHashTable.start cmp key)).2 ∧
      Tables.KeepsUp HashTable.kind (hash ∘ key) (HashTable.call key hash) id
        (CallRuns.run (HashTable.call key hash) calls HashTable.new).2 := by
  have hvalid : Growth.Valid ⟨4, none, 0⟩ :=
    ⟨by decide, fun _ => by decide, fun i hi => by cases hi⟩
  constructor
  · have hpaced := @TreeHashTable.paced K V cmp key hash _
    obtain ⟨hwf, hvalid⟩ := hpaced.run (s := TreeHashTable.start cmp key)
      TreeHashTable.wf_new hvalid calls
    exact hpaced.keepsUp TreeHashTable.kind_lawful hwf hvalid
  · have hpaced := @HashTable.paced K V _ key hash
    obtain ⟨hwf, hvalid⟩ := hpaced.run (s := HashTable.new)
      (wf_new HashTable.kind_lawful) hvalid calls
    exact hpaced.keepsUp HashTable.kind_lawful hwf hvalid

/-- Five numbers, of which the last starts a rehash in both tables. -/
theorem rehash_keepsUp_five :
    Tables.KeepsUp (TreeHashTable.kind compare id) (id ∘ id)
        (TreeHashTable.callTable compare id id) TreeState.tables
        (CallRuns.run (TreeHashTable.callTable compare id id)
          [.insert 0, .insert 1, .insert 2, .insert 3, .insert 4]
          (TreeHashTable.start (compare : Nat → Nat → Ordering) id)).2 ∧
      (CallRuns.run (TreeHashTable.callTable compare id id)
        [.insert 0, .insert 1, .insert 2, .insert 3, .insert 4]
        (TreeHashTable.start (compare : Nat → Nat → Ordering) id)).2.tables.inRehashing = true :=
  ⟨(rehash_keepsUp (compare : Nat → Nat → Ordering) id id _).1, by decide⟩

end Mmkv
