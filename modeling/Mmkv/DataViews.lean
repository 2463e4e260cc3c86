import Mmkv.Commands

/-!
# What a value holds

Reading a map or a set moves nodes about: a lookup brings the node it finds to the
front of its bucket and advances a rehash.  Two values are the same here if they
hold the same entries.  Which commands leave the value of their key the same,
always or when they fail, is read off their bodies.
-/

namespace Mmkv

open Option HashDict Mmkv.Action

variable {hash : Str → Nat} {K V : Type} {v v' : Vset hash} {member : Str}

inductive MmkvData.Same : MmkvData hash → MmkvData hash → Prop where
  | string (s : Str) : Same (.string s) (.string s)
  | strList (l : List Str) : Same (.strList l) (.strList l)
  | sortedSet {v v' : Vset hash} (h : v.Same v') : Same (.sortedSet v) (.sortedSet v')
  | map {m m' : StrMap hash} (h : m.Same m') : Same (.map m) (.map m')
  | set {s s' : StrSet hash} (h : s.Same s') : Same (.set s) (.set s')

theorem MmkvData.Same.refl (data : MmkvData hash) : data.Same data := by
  cases data with
  | string s => exact .string s
  | strList l => exact .strList l
  | sortedSet v => exact .sortedSet (.refl v)
  | map m => exact .map (.refl m)
  | set s => exact .set (.refl s)

theorem MmkvData.Same.trans {x y z : MmkvData hash} (h : x.Same y) (h' : y.Same z) : x.Same z := by
  cases h with
  | string s => exact h'
  | strList l => exact h'
  | sortedSet h =>
    cases h' with
    | sortedSet h' => exact .sortedSet (h.trans h')
  | map h =>
    cases h' with
    | map h' => exact .map (h.trans h')
  | set h =>
    cases h' with
    | set h' => exact .set (h.trans h')

theorem MmkvData.Same.option_refl (o : Option (MmkvData hash)) : Option.Rel MmkvData.Same o o := by
  cases o with
  | none => exact .none
  | some data => exact .some (.refl data)

/-! ## Reads -/

theorem mapGets_same (fields values : List Str) (m : StrMap hash) :
    m.Same (mapGets fields values m).2 := by
  induction fields generalizing values m with
  | nil => exact .refl m
  | cons field fields ih =>
    have hspec := (find_spec field m).2
    unfold mapGets
    cases hfind : m.find field with
    | mk found m' =>
      rw [hfind] at hspec
      cases found with
      | none => exact hspec
      | some fv => exact hspec.trans (ih _ m')

theorem Vset.getOrder_same {reverse : Bool}
    {order : Option Nat} (h : v.getOrder reverse member = some (order, v')) : v.Same v' := by
  have hsame := v.getWeight_same member
  unfold getOrder at h
  dsimp only at h
  split at h
  · cases h
    exact hsame
  · rcases map_eq_some_iff.mp h with ⟨i, -, hi⟩
    cases hi
    exact hsame

/-! ## Setting a field -/

theorem mapSet_spec (field value : Str) (m : StrMap hash) :
    (mapSet field value m).lookup = m.lookup.set KeyValue.key ⟨field, value⟩ ∧
      (mapSet field value m).size = if (m.lookup field).isSome then m.size else m.size + 1 := by
  unfold mapSet
  cases hlookup : m.lookup field with
  | none =>
    have hspec := insertWithDuplicate_none (⟨field, value⟩ : KeyValue Str) hlookup
    grind
  | some old =>
    have hspec := insertWithDuplicate_some (⟨field, value⟩ : KeyValue Str) hlookup
    have hlookup' : (m.insertWithDuplicate ⟨field, value⟩).2.2.lookup field = some old := by
      rw [hspec.2.2.lookup, hlookup]
    have hassign := assign_spec (⟨field, value⟩ : KeyValue Str) hlookup'
    simp only [hspec.1, Bool.false_eq_true, ↓reduceIte]
    rw [hassign.1, hassign.2, hspec.2.2.lookup, hspec.2.2.size]
    exact ⟨rfl, rfl⟩

theorem HashDict.extract_same {key : V → K} {hash : K → Nat} [DecidableEq K]
    {t : HashDict key hash} {k : K} (hnone : (t.extract k).1 = none) :
    t.Same (t.extract k).2 := by
  have hspec := extract_spec k t
  rw [hspec.1] at hnone
  rw [hnone, KeyedStore.remove_of_eq_none hnone] at hspec
  exact ⟨hspec.2.1, hspec.2.2⟩

theorem HashDict.erase_same {key : V → K} {hash : K → Nat} [DecidableEq K]
    {t t' : HashDict key hash} {k : K} (h : t.erase k = (false, t')) : t.Same t' := by
  have hnone : (t.extract k).1 = none := by simpa [erase] using congrArg Prod.fst h
  have hsame := extract_same hnone
  rwa [show (t.extract k).2 = t' from congrArg Prod.snd h] at hsame

theorem HashDict.eraseRandom_same {key : V → K} {hash : K → Nat} [DecidableEq K]
    {t t' : HashDict key hash} (h : t.eraseRandom = (false, t')) : t.Same t' := by
  have hfalse : (HashTable.eraseRandom key hash t.tables).1 = false := congrArg Prod.fst h
  rcases (HashTable.eraseRandom_spec t.wf).2.2 with ⟨htrue, -⟩ | ⟨-, hsame⟩
  · simp [htrue] at hfalse
  · rw [← show t.eraseRandom.2 = t' from congrArg Prod.snd h]
    exact .of_sameEntries hsame

theorem Vset.erase_same (h : v.erase member = some (false, v')) : v.Same v' := by
  unfold erase at h
  dsimp only at h
  split at h
  · next hnone =>
      cases h
      exact ⟨rfl, rfl, extract_same hnone⟩
  · rcases map_eq_some_iff.mp h with ⟨_, -, hv⟩
    cases hv

/-! ## The bodies of the commands -/

def Action.FailsClean : Action hash → Prop
  | .onValue _ kind _ body =>
    ∀ x reply x', body x = some (reply, x') → reply.status ≠ .ok →
      (kind.put x).Same (kind.put x')
  | _ => True

/-- A body that does not change the value, apart from the order of its nodes. -/
def Action.Reads : Action hash → Prop
  | .onValue _ kind _ body =>
    ∀ x reply x', body x = some (reply, x') → (kind.put x).Same (kind.put x')
  | _ => False

theorem Action.Reads.failsClean {a : Action hash} (h : a.Reads) : a.FailsClean := by
  cases a with
  | onValue _ kind _ body => exact fun x reply x' hbody _ => h x reply x' hbody
  | _ => trivial

variable {access : Access} {k : Str} {τ : Type}

/-- A body whose reply is always `S_OK`. -/
theorem Action.failsClean_of_ok {kind : DataKind hash τ} {body : τ → Option (Reply × τ)}
    (h : ∀ x reply x', body x = some (reply, x') → reply.status = .ok) :
    (Action.onValue access kind k body).FailsClean :=
  fun x reply x' hbody hfail => absurd (h x reply x' hbody) hfail

theorem Action.reads_of_eq {kind : DataKind hash τ} {body : τ → Option (Reply × τ)}
    (h : ∀ x reply x', body x = some (reply, x') → x' = x) :
    (Action.onValue access kind k body).Reads := by
  intro x reply x' hbody
  rw [h x reply x' hbody]
  exact .refl _

theorem Action.reads_map {τ ρ : Type} {kind : DataKind hash τ}
    (result : τ → Option ρ) (reply : ρ → Reply) :
    (Action.onValue access kind k fun x => (result x).map fun r => (reply r, x)).Reads := by
  apply reads_of_eq
  intro x r x' hbody
  rcases map_eq_some_iff.mp hbody with ⟨y, -, hy⟩
  cases hy
  rfl

def Command.IsRead : Command → Bool
  | .type _ | .getStr _ | .listGetSize _ | .listGetAll _ | .listGetRange _ _ _
  | .vsetSize _ | .vsetSizeByWeight _ _ _ | .vsetWeight _ _ | .vsetOrder _ _
  | .vsetROrder _ _ | .vsetAll _ | .vsetRange _ _ _ | .vsetRangeByWeight _ _ _
  | .vsetRRange _ _ _ | .vsetRRangeByWeight _ _ _ | .mapGet _ _ | .mapGets _ _
  | .mapSize _ | .mapExists _ _ | .mapFields _ | .mapValues _ | .mapAll _
  | .setSize _ | .setExists _ _ | .setAll _ => true
  | _ => false

theorem Action.reads_vsetOrderOf (reverse : Bool) (k member : Str) :
    (MmkvDb.vsetOrderOf reverse k member : Action hash).Reads := by
  intro v reply v' hbody
  rcases map_eq_some_iff.mp hbody with ⟨⟨order, v''⟩, horder, hv⟩
  have hsame := Vset.getOrder_same horder
  cases order <;> cases hv <;> exact .sortedSet hsame

theorem Command.reads_action {c : Command} (hc : c.IsRead) (now : UInt64) :
    (c.action now : Action hash).Reads := by
  cases c
  case type k | getStr k | listGetSize k | listGetAll k | listGetRange k l r | vsetSize k
      | mapSize k | mapFields k | mapValues k | mapAll k | setSize k | setAll k =>
    apply reads_of_eq
    intro x reply x' hbody
    cases hbody
    rfl
  case vsetSizeByWeight k left right =>
    exact reads_map (Vset.getSizeByWeight left right) fun count => .ok (.number count)
  case vsetAll k | vsetRange k left right | vsetRangeByWeight k left right
      | vsetRRange k left right | vsetRRangeByWeight k left right =>
    exact reads_map _ fun wms => .ok (.weights wms)
  case vsetWeight k member =>
    intro v reply v' hbody
    have hsame := v.getWeight_same member
    cases hweight : v.getWeight member with
    | mk weight v'' =>
      simp only [hweight] at hbody hsame
      cases weight <;> cases hbody <;> exact .sortedSet hsame
  case vsetOrder k member => exact reads_vsetOrderOf false k member
  case vsetROrder k member => exact reads_vsetOrderOf true k member
  case mapGet k field =>
    intro m reply m' hbody
    have hsame := (find_spec field m).2
    cases hfind : m.find field with
    | mk found m'' =>
      simp only [hfind] at hbody hsame
      cases found <;> cases hbody <;> exact .map hsame
  case mapGets k fields =>
    intro m reply m' hbody
    have hsame := mapGets_same fields [] m
    cases hgets : Mmkv.mapGets fields [] m with
    | mk reply' m'' =>
      simp only [hgets] at hbody hsame
      cases hbody
      exact .map hsame
  case mapExists k field =>
    intro m reply m' hbody
    cases hbody
    exact .map (find_spec field m).2
  case setExists k member =>
    intro s reply s' hbody
    cases hbody
    exact .set (find_spec member s).2
  all_goals simp [IsRead] at hc

theorem Command.failsClean_action (c : Command) (now : UInt64) :
    (c.action now : Action hash).FailsClean := by
  by_cases hread : c.IsRead
  · exact (reads_action hread now).failsClean
  cases c
  case strAppend k str | listPrepend k elems | listPopFront k count | listPopBack k count
      | mapSet k field value =>
    apply failsClean_of_ok
    intro x reply x' hbody
    cases hbody
    rfl
  case strPopBack k count =>
    apply failsClean_of_ok
    intro x reply x' hbody
    split at hbody
    · cases hbody
      rfl
    · cases hbody
  case vsetDelRange k left right | vsetDelRangeByWeight k left right =>
    apply failsClean_of_ok
    intro v reply v' hbody
    rcases map_eq_some_iff.mp hbody with ⟨r, -, hr⟩
    cases hr
    rfl
  case vsetDel k member =>
    intro v reply v' hbody hfail
    rcases map_eq_some_iff.mp hbody with ⟨⟨erased, v''⟩, herase, hr⟩
    cases hr
    cases erased with
    | true => exact absurd rfl hfail
    | false => exact .sortedSet (Vset.erase_same herase)
  case mapDel k field =>
    intro m reply m' hbody hfail
    cases herase : m.erase field with
    | mk erased m'' =>
      simp only [herase] at hbody
      cases hbody
      cases erased with
      | true => exact absurd rfl hfail
      | false => exact .map (erase_same herase)
  case setDelm k member =>
    intro s reply s' hbody hfail
    cases herase : s.erase member with
    | mk erased s'' =>
      simp only [herase] at hbody
      cases hbody
      cases erased with
      | true => exact absurd rfl hfail
      | false => exact .set (erase_same herase)
  case setRandDelm k =>
    intro s reply s' hbody hfail
    cases herase : s.eraseRandom with
    | mk erased s'' =>
      simp only [herase] at hbody
      cases hbody
      cases erased with
      | true => exact absurd rfl hfail
      | false => exact .set (eraseRandom_same herase)
  all_goals first | exact absurd rfl hread | trivial

end Mmkv
