import Mmkv.DataViews
import Mmkv.PlainRuns

/-!
# The reference store

What the string, map and set commands are for: a partial function from keys to
typed values, where a map is a list of fields and a set a list of members.  The
database answers like this function, step by step, as long as there are no
deadlines, no replacement and no shards.

Lists stand for maps and sets up to the order of their entries, so the replies
of the two commands that list a whole value agree up to a permutation.
-/

namespace Mmkv

open EffectPrograms DataKind DbState Function

/-! ## Lists of entries -/

section Entries

variable {K V : Type} [DecidableEq K] (key : V → K)

def insertEntry (v : V) (l : List V) : Bool × List V :=
  if (KeyedStore.ofList key l (key v)).isSome then (false, l) else (true, v :: l)

def removeEntry (k : K) (l : List V) : List V :=
  l.eraseP fun v => decide (key v = k)

def setEntry (v : V) (l : List V) : List V :=
  v :: removeEntry key (key v) l

end Entries

/-! ## The store -/

inductive RefData where
  | string (s : Str)
  | map (fields : List (KeyValue Str))
  | set (members : List Str)
  deriving Repr, DecidableEq

def RefData.type : RefData → DataType
  | .string _ => .string
  | .map _ => .map
  | .set _ => .set

structure RefKind (σ : Type) where
  get : RefData → Option σ
  put : σ → RefData

namespace RefKind

def string : RefKind Str where
  get := fun | .string s => some s | _ => none
  put := .string

def map : RefKind (List (KeyValue Str)) where
  get := fun | .map l => some l | _ => none
  put := .map

def set : RefKind (List Str) where
  get := fun | .set l => some l | _ => none
  put := .set

def any : RefKind RefData where
  get := some
  put := id

end RefKind

abbrev RefStore : Type :=
  Str → Option RefData

namespace RefStore

variable {σ : Type}

def empty : RefStore :=
  fun _ => none

def put (m : RefStore) (k : Str) (d : RefData) : RefStore :=
  update m k (some d)

def remove (m : RefStore) (k : Str) : RefStore :=
  update m k none

def onValue (kind : RefKind σ) (k : Str) (body : σ → Reply × σ) (m : RefStore) : Reply × RefStore :=
  match m k with
  | none => (.fail .nonexists, m)
  | some d =>
    match kind.get d with
    | none => (.fail .existsDiffType, m)
    | some x => ((body x).1, m.put k (kind.put (body x).2))

/-- A command on the value of a key, or on `init` if the key is new. -/
def addTo (kind : RefKind σ) (k : Str) (init : σ) (body : σ → Reply × σ) (m : RefStore) :
    Reply × RefStore :=
  match m k with
  | none => ((body init).1, m.put k (kind.put (body init).2))
  | some _ => onValue kind k body m

def insertNew (k : Str) (d : RefData) (m : RefStore) : Reply × RefStore :=
  match m k with
  | none => (.ok .none, m.put k d)
  | some _ => (.fail .exists, m)

def eraseValue (kind : RefKind σ) (k : Str) (m : RefStore) : Reply × RefStore :=
  match m k with
  | none => (.fail .nonexists, m)
  | some d =>
    match kind.get d with
    | none => (.fail .existsDiffType, m)
    | some _ => (.ok .none, m.remove k)

def count {E T : Type} (insert : E → T → Bool × T) (elems : List E) (t : T) : Reply × T :=
  (.ok (.number (insertAll insert elems t).1), (insertAll insert elems t).2)

def getFields : List Str → List Str → List (KeyValue Str) → Reply
  | [], values, _ => .ok (.strs values)
  | field :: fields, values, l =>
    match KeyedStore.ofList KeyValue.key l field with
    | some fv => getFields fields (values ++ [fv.value]) l
    | none => ⟨.fieldNonexists, .strs values⟩

/-- `S_OK` for an entry that is there. -/
def found {V : Type} (v : Option V) (absent : StatusCode) : Reply :=
  if v.isSome then .ok .none else .fail absent

end RefStore

open RefStore

/-- The key of a command on strings, maps and sets; the other commands are not
part of the reference. -/
def Command.typedKey : Command → Option Str
  | .insertStr k _ | .setStr k _ | .getStr k | .strAppend k _ | .eraseStr k
  | .delete k | .type k | .mapAdd k _ | .mapSet k _ _ | .mapGet k _ | .mapGets k _
  | .mapDel k _ | .mapExists k _ | .mapSize k | .mapAll k | .setAdd k _
  | .setDelm k _ | .setExists k _ | .setSize k | .setAll k => some k
  | _ => none

namespace RefStore

def step (m : RefStore) : Command → Reply × RefStore
  | .insertStr k v => m.insertNew k (.string v)
  | .setStr k v => m.addTo .string k v fun _ => (.ok .none, v)
  | .getStr k => m.onValue .string k fun s => (.ok (.str s), s)
  | .strAppend k str => m.onValue .string k fun s => (.ok .none, s ++ str)
  | .eraseStr k => m.eraseValue .string k
  | .delete k => m.eraseValue .any k
  | .type k => m.onValue .any k fun d => (.ok (.type d.type), d)
  | .mapAdd k kvs => m.addTo .map k [] (count (insertEntry KeyValue.key) kvs)
  | .mapSet k field value => m.onValue .map k fun l =>
    (.ok .none, setEntry KeyValue.key ⟨field, value⟩ l)
  | .mapGet k field => m.onValue .map k fun l =>
    match KeyedStore.ofList KeyValue.key l field with
    | some fv => (.ok (.str fv.value), l)
    | none => (.fail .fieldNonexists, l)
  | .mapGets k fields => m.onValue .map k fun l => (getFields fields [] l, l)
  | .mapDel k field => m.onValue .map k fun l =>
    (found (KeyedStore.ofList KeyValue.key l field) .fieldNonexists,
      removeEntry KeyValue.key field l)
  | .mapExists k field => m.onValue .map k fun l =>
    (found (KeyedStore.ofList KeyValue.key l field) .fieldNonexists, l)
  | .mapSize k => m.onValue .map k fun l => (.ok (.number l.length), l)
  | .mapAll k => m.onValue .map k fun l => (.ok (.kvs l), l)
  | .setAdd k members => m.addTo .set k [] (count (insertEntry id) members)
  | .setDelm k member => m.onValue .set k fun l =>
    (found (KeyedStore.ofList id l member) .setMemberNonexists, removeEntry id member l)
  | .setExists k member => m.onValue .set k fun l =>
    (found (KeyedStore.ofList id l member) .setMemberNonexists, l)
  | .setSize k => m.onValue .set k fun l => (.ok (.number l.length), l)
  | .setAll k => m.onValue .set k fun l => (.ok (.strs l), l)
  | _ => (.fail .invalidRequest, m)

def after (cs : List Command) : RefStore :=
  cs.foldl (fun m c => (m.step c).2) empty

end RefStore

/-! ## Tables and lists -/

namespace HashDict

variable {K V : Type} [DecidableEq K] {key : V → K} {hash : K → Nat}

/-- The table has the entries of the list and counts them exactly. -/
structure Holds (t : HashDict key hash) (l : List V) : Prop where
  represents : KeyedStore.Represents key l t.lookup
  size : t.size = l.length

namespace Holds

variable {t t' : HashDict key hash} {l : List V}

theorem new : Holds (HashDict.new : HashDict key hash) [] where
  represents := .nil
  size := rfl

section

variable (h : t.Holds l)

include h

theorem same (hsame : t.Same t') : t'.Holds l where
  represents := by
    rw [hsame.lookup]
    exact h.represents
  size := hsame.size.trans h.size

theorem entries_perm : t.entries.Perm l :=
  t.represents_lookup.list_perm h.represents

theorem find (k : K) : (t.find k).1 = KeyedStore.ofList key l k ∧ (t.find k).2.Holds l := by
  have hspec := find_spec k t
  rw [h.represents.ofList_eq]
  exact ⟨hspec.1, h.same hspec.2⟩

theorem insert (v : V) : (t.insert v).1 = (insertEntry key v l).1 ∧
      (t.insert v).2.Holds (insertEntry key v l).2 := by
  unfold insertEntry HashDict.insert
  rw [h.represents.ofList_eq]
  cases hlookup : t.lookup (key v) with
  | some old =>
    have hspec := insertWithDuplicate_some v hlookup
    exact ⟨hspec.1, h.same hspec.2.2⟩
  | none =>
    have hspec := insertWithDuplicate_none v hlookup
    refine ⟨hspec.1, ?_, ?_⟩
    · simp only [Option.isSome_none, Bool.false_eq_true, ↓reduceIte, hspec.2.2.1]
      exact h.represents.cons hlookup
    · simp [hspec.2.2.2, h.size]

theorem insertAll (elems : List V) :
    (insertAll HashDict.insert elems t).1 = (insertAll (insertEntry key) elems l).1 ∧
      (insertAll HashDict.insert elems t).2.Holds (insertAll (insertEntry key) elems l).2 := by
  unfold Mmkv.insertAll
  -- the counters of the two loops stay equal, the table keeps holding the list
  generalize (0 : Nat) = n
  induction elems generalizing t l n with
  | nil => exact ⟨rfl, h⟩
  | cons v elems ih =>
    have hinsert := h.insert v
    grind

theorem removeEntry_cases (k : K) : t.lookup k = none ∧ removeEntry key k l = l ∨
      ∃ v, t.lookup k = some v ∧ l.Perm (v :: removeEntry key k l) := by
  rcases List.exists_or_eq_self_of_eraseP (fun v => decide (key v = k)) l with
    hself | ⟨v, l1, l2, -, hv, hl, herase⟩
  · cases hlookup : t.lookup k with
    | none => exact .inl ⟨rfl, hself⟩
    | some v =>
      have hmem := h.represents.eq_some_iff.mp hlookup
      have hlength := List.length_eraseP_of_mem (p := fun v => decide (key v = k)) hmem.1
        (by simpa using hmem.2)
      grind
  · refine .inr ⟨v, ?_, ?_⟩
    · rw [h.represents.eq_some_iff]
      exact ⟨by simp [hl], by simpa using hv⟩
    · unfold removeEntry
      rw [herase, hl]
      exact List.perm_middle

theorem erase (k : K) : (t.erase k).1 = (KeyedStore.ofList key l k).isSome ∧
      (t.erase k).2.Holds (removeEntry key k l) := by
  have hspec := extract_spec k t
  rw [h.represents.ofList_eq]
  refine ⟨congrArg Option.isSome hspec.1, ?_⟩
  rcases h.removeEntry_cases k with ⟨hnone, hself⟩ | ⟨v, hsome, hperm⟩
  · rw [hself]
    apply h.same
    apply extract_same
    rw [hspec.1, hnone]
  · have hkey := key_of_lookup hsome
    have hrep := (h.represents.perm hperm.symm).tail
    rw [hkey] at hrep
    have hlength := hperm.length_eq
    have hsize := h.size
    constructor
    · exact hspec.2.1 ▸ hrep
    · change (t.extract k).2.size = _
      grind

end

end Holds

end HashDict

variable {hash : Str → Nat} {C : Type}

/-! ## Values -/

inductive MmkvData.Refines : MmkvData hash → RefData → Prop where
  | string (s : Str) : Refines (.string s) (.string s)
  | map {m : StrMap hash} {l : List (KeyValue Str)} (h : m.Holds l) :
      Refines (.map m) (.map l)
  | set {s : StrSet hash} {l : List Str} (h : s.Holds l) : Refines (.set s) (.set l)

/-- The values of a type and what stands for them in the reference. -/
structure DataKind.Refines {τ σ : Type} (kind : DataKind hash τ) (ref : RefKind σ)
    (R : τ → σ → Prop) : Prop where
  get : ∀ {data d}, data.Refines d → Option.Rel R (kind.get data) (ref.get d)
  put : ∀ {x y}, R x y → (kind.put x).Refines (ref.put y)

namespace DataKind

theorem string_refines : (string : DataKind hash Str).Refines .string Eq where
  get := by
    rintro _ _ (s | h | h)
    · exact .some rfl
    · exact .none
    · exact .none
  put := by
    rintro x _ rfl
    exact .string x

theorem map_refines : (map : DataKind hash (StrMap hash)).Refines .map HashDict.Holds where
  get := by
    rintro _ _ (s | h | h)
    · exact .none
    · exact .some h
    · exact .none
  put := .map

theorem set_refines : (set : DataKind hash (StrSet hash)).Refines .set HashDict.Holds where
  get := by
    rintro _ _ (s | h | h)
    · exact .none
    · exact .none
    · exact .some h
  put := .set

theorem any_refines : (any : DataKind hash (MmkvData hash)).Refines .any MmkvData.Refines where
  get := .some
  put := id

end DataKind

/-! ## One command -/

def Reply.SameItems : Reply → Reply → Prop
  | ⟨status, .strs l⟩, ⟨status', .strs l'⟩ => status = status' ∧ l.Perm l'
  | ⟨status, .kvs l⟩, ⟨status', .kvs l'⟩ => status = status' ∧ l.Perm l'
  | reply, reply' => reply = reply'

/-- The commands that list a whole map or set do so in no particular order. -/
def Command.Agrees : Command → Reply → Reply → Prop
  | .mapAll _ => Reply.SameItems
  | .setAll _ => Reply.SameItems
  | _ => Eq

theorem Reply.SameItems.refl (reply : Reply) : reply.SameItems reply := by
  rcases reply with ⟨status, out⟩
  cases out <;> simp [SameItems]

theorem Command.Agrees.refl (c : Command) (reply : Reply) : c.Agrees reply reply := by
  cases c
  case mapAll => exact Reply.SameItems.refl reply
  case setAll => exact Reply.SameItems.refl reply
  all_goals exact Eq.refl reply

/-- Every key has the value that the reference says, and there are no deadlines. -/
structure AbsDb.Refines (a : AbsDb hash C) (m : RefStore) : Prop where
  dict : ∀ k, Option.Rel MmkvData.Refines (a.dict.get k) (m k)
  expDict : ∀ k, a.expDict.get k = none

namespace AbsDb.Refines

variable {a b : AbsDb hash C} {m : RefStore} {w : World C} {k : Str}

theorem lapsed (h : a.Refines m) (k : Str) : a.lapsed w k = false := by
  simp [AbsDb.lapsed, AbsDb.expired_of_none (h.expDict k)]

theorem update (h : a.Refines m) {o : Option (MmkvData hash)} {o' : Option RefData}
    (ho : Option.Rel MmkvData.Refines o o')
    (hdict : b.dict.get = update a.dict.get k o)
    (hexp : ∀ k', a.expDict.get k' = none → b.expDict.get k' = none) :
    b.Refines (update m k o') where
  dict := by
    intro k'
    rw [hdict]
    by_cases hk : k' = k
    · grind
    · rw [update_of_ne hk, update_of_ne hk]
      exact h.dict k'
  expDict := fun k' => hexp k' (h.expDict k')

variable {data : MmkvData hash} {d : RefData}

theorem put (h : a.Refines m) (hd : data.Refines d) : (a.put k data).Refines (m.put k d) :=
  h.update (.some hd) rfl fun _ hnone => hnone

theorem add (h : a.Refines m) (hd : data.Refines d) : (a.add w k data).Refines (m.put k d) :=
  h.update (.some hd) rfl fun _ hnone => hnone

end AbsDb.Refines

/-- The run of a program on the database answers as the reference does, comes to
the state that the reference says, and leaves the other keys as they are. -/
def AnswersAs (agrees : Reply → Reply → Prop) (k : Str) (a : AbsDb hash C)
    (run : Option (Reply × AbsDb hash C)) (ref : Reply × RefStore) : Prop :=
  ∃ reply b, run = some (reply, b) ∧ agrees reply ref.1 ∧ b.Refines ref.2 ∧
    ∀ k', k' ≠ k → b.dict.get k' = a.dict.get k'

section Shapes

variable {a : AbsDb hash C} {m : RefStore} {w : World C} {k : Str} {τ σ : Type}
  {kind : DataKind hash τ} {ref : RefKind σ} {R : τ → σ → Prop} {agrees : Reply → Reply → Prop}
  {reply : Reply}

theorem AnswersAs.unchanged (h : a.Refines m) (hreply : agrees reply reply) :
    AnswersAs agrees k a (some (reply, a)) (reply, m) :=
  ⟨reply, a, rfl, hreply, h, fun _ _ => rfl⟩

variable {data : MmkvData hash} {d : RefData} {reply' : Reply}

theorem AnswersAs.put (h : a.Refines m) (hd : data.Refines d) (hreply : agrees reply reply') :
    AnswersAs agrees k a (some (reply, a.put k data)) (reply', m.put k d) := by
  refine ⟨reply, _, rfl, hreply, h.put hd, ?_⟩
  intro k' hk
  simp [AbsDb.put, AbsDict.set, hk]

theorem AnswersAs.add (h : a.Refines m) (hd : data.Refines d) (hreply : agrees reply reply') :
    AnswersAs agrees k a (some (reply, a.add w k data)) (reply', m.put k d) := by
  refine ⟨reply, _, rfl, hreply, h.add hd, ?_⟩
  intro k' hk
  simp [AbsDb.add, AbsDict.insert, AbsDict.set, hk]

variable (hplain : w.Plain) (hagrees : ∀ reply, agrees reply reply)

include hplain hagrees

variable {body' : σ → Reply × σ}

theorem answersAs_onValue (hkind : kind.Refines ref R) {access : Access}
    {body : τ → Option (Reply × τ)} (hbody : ∀ x y, R x y → ∃ reply x', body x = some (reply, x') ∧
      agrees reply (body' y).1 ∧ R x' (body' y).2) (h : a.Refines m) :
    AnswersAs agrees k a ((Db.onValue w access kind k body).run AbsDb.handler a)
      (m.onValue ref k body') := by
  have hrel := h.dict k
  rw [Db.run_onValue hplain access kind body (h.lapsed k)]
  unfold onValue
  generalize a.dict.get k = o at hrel ⊢
  generalize m k = o' at hrel ⊢
  cases hrel with
  | none => exact .unchanged h (hagrees _)
  | some hdata =>
    have hget := hkind.get hdata
    dsimp only
    generalize kind.get _ = x at hget ⊢
    generalize ref.get _ = y at hget ⊢
    cases hget with
    | none => exact .unchanged h (hagrees _)
    | some hxy =>
      rcases hbody _ _ hxy with ⟨reply, x', hrun, hreply, hx'⟩
      simp only [hrun, Option.map_some]
      exact .put h (hkind.put hx') hreply

theorem answersAs_insertNew {replace : Bool} (hd : data.Refines d) (h : a.Refines m) :
    AnswersAs agrees k a ((Db.insertNew w replace k data).run AbsDb.handler a)
      (m.insertNew k d) := by
  have hrel := h.dict k
  rw [Db.run_insertNew hplain]
  unfold insertNew
  generalize a.dict.get k = o at hrel ⊢
  generalize m k = o' at hrel ⊢
  cases hrel with
  | none => exact .add h hd (hagrees _)
  | some hdata => exact .unchanged h (hagrees _)

/-- The command that stores its own value first answers like the one that takes
it as the value there is. -/
theorem answersAs_addTo (hkind : kind.Refines ref R) {init : τ} {init' : σ} {body : τ → Output × τ}
    (hinit : R init init')
    (hbody : ∀ x y, R x y → agrees (.ok (body x).1) (body' y).1 ∧ R (body x).2 (body' y).2)
    (h : a.Refines m) :
    AnswersAs agrees k a ((Db.addTo w false kind k init body).run AbsDb.handler a)
      (m.addTo ref k init' body') := by
  have hrel := h.dict k
  rw [Db.run_addTo hplain]
  unfold addTo onValue
  generalize a.dict.get k = o at hrel ⊢
  generalize m k = o' at hrel ⊢
  cases hrel with
  | none =>
    have hnew := hbody _ _ hinit
    refine ⟨_, _, rfl, hnew.1, ?_, ?_⟩
    · refine h.update (.some (hkind.put hnew.2)) ?_ fun _ hnone => hnone
      simp [AbsDb.add, AbsDb.put, AbsDict.insert, AbsDict.set]
    · intro k' hk
      simp [AbsDb.add, AbsDb.put, AbsDict.insert, AbsDict.set, hk]
  | some hdata =>
    have hget := hkind.get hdata
    dsimp only
    generalize kind.get _ = x at hget ⊢
    generalize ref.get _ = y at hget ⊢
    cases hget with
    | none => exact .unchanged h (hagrees _)
    | some hxy => exact .put h (hkind.put (hbody _ _ hxy).2) (hbody _ _ hxy).1

theorem answersAs_setStr {v : Str} (h : a.Refines m) :
    AnswersAs agrees k a ((Db.setStr w k v).run AbsDb.handler a)
      (m.addTo .string k v fun _ => (.ok .none, v)) := by
  have hrel := h.dict k
  rw [Db.run_setStr hplain v (h.lapsed k)]
  unfold addTo onValue
  generalize a.dict.get k = o at hrel ⊢
  generalize m k = o' at hrel ⊢
  cases hrel with
  | none => exact .add h (.string v) (hagrees _)
  | some hdata =>
    have hget := string_refines.get hdata
    dsimp only
    generalize DataKind.string.get _ = x at hget ⊢
    generalize RefKind.string.get _ = y at hget ⊢
    cases hget with
    | none => exact .unchanged h (hagrees _)
    | some hxy => exact .put h (.string v) (hagrees _)

theorem answersAs_eraseValue (hkind : kind.Refines ref R) {ifErased ifAbsent : Bool}
    (h : a.Refines m) :
    AnswersAs agrees k a
      ((Db.eraseValue w kind ifErased ifAbsent k).run AbsDb.handler a)
      (m.eraseValue ref k) := by
  have hexp : ∀ c k', a.expDict.get k' = none →
      (if c = true then a.expDict.erase k else a.expDict).get k' = none := by
    intro c k' hnone
    cases c <;> simp [AbsDict.remove, update_apply, hnone]
  have hrel := h.dict k
  rw [Db.run_eraseValue hplain]
  unfold eraseValue
  generalize a.dict.get k = o at hrel ⊢
  generalize m k = o' at hrel ⊢
  cases hrel with
  | none =>
    refine ⟨_, _, rfl, hagrees _, ⟨h.dict, ?_⟩, fun _ _ => rfl⟩
    exact fun k' => hexp _ k' (h.expDict k')
  | some hdata =>
    have hget := hkind.get hdata
    dsimp only
    generalize kind.get _ = x at hget ⊢
    generalize ref.get _ = y at hget ⊢
    cases hget with
    | none => exact .unchanged h (hagrees _)
    | some hxy =>
      refine ⟨_, _, rfl, hagrees _, h.update .none rfl (hexp _), ?_⟩
      intro k' hk
      simp [AbsDict.remove, hk]

theorem answersAs_delete (h : a.Refines m) :
    AnswersAs agrees k a ((Db.delete w k).run AbsDb.handler a) (m.eraseValue .any k) := by
  have hrel := h.dict k
  rw [Db.run_delete hplain]
  unfold eraseValue
  generalize a.dict.get k = o at hrel ⊢
  generalize m k = o' at hrel ⊢
  cases hrel with
  | none => exact .unchanged h (hagrees _)
  | some hdata =>
    refine ⟨_, _, rfl, hagrees _, h.update .none rfl ?_, ?_⟩
    · intro k' hnone
      simp [AbsDict.remove, update_apply, hnone]
    · intro k' hk
      simp [AbsDict.extract, AbsDict.remove, hk]

end Shapes

/-! ## The bodies -/

section Bodies

theorem RefStore.found_of_isSome {V : Type} {b : Bool} {v : Option V} (h : b = v.isSome)
    (absent : StatusCode) :
    (if b then Reply.ok .none else Reply.fail absent) = found v absent := by
  rw [h]
  rfl

theorem MmkvData.Refines.type_eq {data : MmkvData hash} {d : RefData} (h : data.Refines d) :
    data.type = d.type := by
  cases h <;> rfl

variable {m : StrMap hash} {l : List (KeyValue Str)}

theorem mapGets_refines (h : m.Holds l) (fields values : List Str) :
    (mapGets fields values m).1 = getFields fields values l ∧
      (mapGets fields values m).2.Holds l := by
  induction fields generalizing values m with
  | nil => exact ⟨rfl, h⟩
  | cons field fields ih =>
    have hfind := h.find field
    unfold mapGets getFields
    grind

theorem mapSet_refines (h : m.Holds l) (field value : Str) :
    (mapSet field value m).Holds (setEntry KeyValue.key ⟨field, value⟩ l) := by
  have hspec := mapSet_spec field value m
  unfold setEntry
  rcases h.removeEntry_cases field with ⟨hnone, hself⟩ | ⟨v, hsome, hperm⟩
  · constructor
    · rw [hspec.1, hself]
      exact h.represents.cons hnone
    · simp [hspec.2, hnone, hself, h.size]
  · have hkey := HashDict.key_of_lookup hsome
    have hlength := hperm.length_eq
    constructor
    · rw [hspec.1]
      exact (h.represents.perm hperm.symm).replace hkey.symm
    · simp [hspec.2, hsome, h.size, hlength]

end Bodies

variable {w : World C} {m : RefStore} {c : Command} {k : Str}

theorem Command.answersAs (hplain : w.Plain) {a : AbsDb hash C} (h : a.Refines m)
    (hc : c.typedKey = some k) : AnswersAs c.Agrees k a (a.exec w c) (m.step c) := by
  unfold AbsDb.exec Command.run
  rw [Action.run_plain hplain]
  cases c
  case insertStr k v =>
    cases hc
    exact answersAs_insertNew hplain (.refl _) (.string v) h
  case setStr k v =>
    cases hc
    exact answersAs_setStr hplain (.refl _) h
  case getStr k | strAppend k str =>
    cases hc
    apply answersAs_onValue hplain (.refl _) string_refines _ h
    rintro s _ rfl
    exact ⟨_, _, rfl, rfl, rfl⟩
  case eraseStr k =>
    cases hc
    exact answersAs_eraseValue hplain (.refl _) string_refines h
  case delete k =>
    cases hc
    exact answersAs_delete hplain (.refl _) h
  case type k =>
    cases hc
    apply answersAs_onValue hplain (.refl _) any_refines _ h
    intro data d hd
    exact ⟨_, _, rfl, by rw [hd.type_eq]; rfl, hd⟩
  case mapAdd k elems | setAdd k elems =>
    cases hc
    simp only [action, MmkvDb.mapAdd, MmkvDb.setAdd, Action.unguarded]
    refine answersAs_addTo hplain (.refl _)
      (by first | exact map_refines | exact set_refines) HashDict.Holds.new (fun x l hx => ?_) h
    have hall := hx.insertAll elems
    exact ⟨congrArg (fun n => Reply.ok (.number n)) hall.1, hall.2⟩
  case mapGet k field =>
    cases hc
    apply answersAs_onValue hplain (.refl _) map_refines _ h
    intro x l hx
    have hfind := hx.find field
    rw [← hfind.1]
    cases hm : x.find field with
    | mk found x' =>
      rw [hm] at hfind
      cases found with
      | none => exact ⟨_, _, rfl, rfl, hfind.2⟩
      | some fv => exact ⟨_, _, rfl, rfl, hfind.2⟩
  case mapGets k fields =>
    cases hc
    apply answersAs_onValue hplain (.refl _) map_refines _ h
    intro x l hx
    exact ⟨_, _, rfl, mapGets_refines hx fields []⟩
  case mapSet k field value =>
    cases hc
    apply answersAs_onValue hplain (.refl _) map_refines _ h
    intro x l hx
    exact ⟨_, _, rfl, rfl, mapSet_refines hx field value⟩
  -- What is left is the same for the fields of maps and the members of sets.
  all_goals cases hc
  all_goals
    refine answersAs_onValue hplain (.refl _)
      (by first | exact map_refines | exact set_refines) (fun x l hx => ?_) h
  case mapDel elem | setDelm elem =>
    have herase := hx.erase elem
    exact ⟨_, _, rfl, found_of_isSome herase.1 _, herase.2⟩
  case mapSize | setSize =>
    exact ⟨_, _, rfl, congrArg (fun n => Reply.ok (.number n)) hx.size, hx⟩
  case mapExists elem | setExists elem =>
    have hfind := hx.find elem
    exact ⟨_, _, rfl, found_of_isSome (congrArg Option.isSome hfind.1) _, hfind.2⟩
  case mapAll | setAll => exact ⟨_, _, rfl, ⟨rfl, hx.entries_perm⟩, hx⟩

theorem Command.keys_of_typedKey (hc : c.typedKey = some k) (w : World C) : c.keys w = [k] := by
  cases c <;> first | cases hc; rfl | cases hc

/-! ## Runs from the empty database -/

/-- A command of the reference on a key without NUL bytes, without replacement and
shards. -/
structure TypedCall (w : World C) (c : Command) (k : Str) : Prop where
  plain : w.Plain
  key : c.typedKey = some k
  nulFree : 0 ∉ k

variable {s : DbState hash C}

theorem DbState.exec_refines (hcall : TypedCall w c k) (hs : s.KeysIn {k | 0 ∉ k})
    (h : s.abs.Refines m) :
    ∃ reply s', s.exec w c = some (reply, s') ∧ c.Agrees reply (m.step c).1 ∧
      s'.KeysIn {k | 0 ∉ k} ∧ s'.abs.Refines (m.step c).2 ∧
      ∀ k', k' ≠ k → s'.abs.dict.get k' = s.abs.dict.get k' := by
  rcases Command.answersAs hcall.plain h hcall.key with ⟨reply, b, hrun, hreply, hb, hother⟩
  have hkeys : ∀ k' ∈ c.keys w, 0 ∉ k' := by
    rw [Command.keys_of_typedKey hcall.key]
    intro k' hk'
    rw [List.mem_singleton.mp hk']
    exact hcall.nulFree
  rcases exec_of_abs separated_nulFree hkeys hs hrun with ⟨s', hexec, hs', rfl⟩
  exact ⟨reply, s', hexec, hreply, hs', hb, hother⟩

theorem DbState.execAll_refines {calls : List (World C × Command)}
    (hcalls : ∀ call ∈ calls, ∃ k, TypedCall call.1 call.2 k) (hs : s.KeysIn {k | 0 ∉ k})
    (h : s.abs.Refines m) :
    ∃ replies s', execAll calls s = some (replies, s') ∧ s'.KeysIn {k | 0 ∉ k} ∧
      s'.abs.Refines ((calls.map Prod.snd).foldl (fun m c => (m.step c).2) m) := by
  induction calls generalizing s m with
  | nil => exact ⟨[], s, rfl, hs, h⟩
  | cons call calls ih =>
    rcases hcalls call List.mem_cons_self with ⟨k, hcall⟩
    rcases exec_refines hcall hs h with ⟨reply, s1, hexec, -, hs1, h1, -⟩
    have hrest : ∀ call ∈ calls, ∃ k, TypedCall call.1 call.2 k :=
      fun call hmem => hcalls call (List.mem_cons_of_mem _ hmem)
    rcases ih hrest hs1 h1 with ⟨replies, s2, hexec2, hs2, h2⟩
    exact ⟨reply :: replies, s2, by simp [execAll, hexec, hexec2], hs2, h2⟩

theorem DbState.new_refines (cache : C) : (new cache : DbState hash C).abs.Refines empty where
  dict := by
    have hentries : (Dict.new : Dict hash (MmkvData hash)).entries = [] := TreeHashTable.entries_new
    simp [new, abs, Dict.abs, hentries, empty]
  expDict := by
    have hentries : (Dict.new : Dict hash UInt64).entries = [] := TreeHashTable.entries_new
    simp [new, abs, Dict.abs, hentries]

/-- After any sequence of commands from the empty database, the next one answers as
the reference does after the same sequence, leaves the values of the reference, and
does not touch the values of other keys. -/
theorem mmkvDb_refines_reference (cache : C) {calls : List (World C × Command)}
    (hcalls : ∀ call ∈ calls, ∃ k, TypedCall call.1 call.2 k)
    {w : World C} {c : Command} {k : Str} (hcall : TypedCall w c k) :
    ∃ (replies : List Reply) (s : DbState hash C) (reply : Reply) (s' : DbState hash C),
      execAll calls (new cache) = some (replies, s) ∧
      s.exec w c = some (reply, s') ∧
      c.Agrees reply ((after (calls.map Prod.snd)).step c).1 ∧
      s'.abs.Refines ((after (calls.map Prod.snd)).step c).2 ∧
      ∀ k', k' ≠ k → s'.abs.dict.get k' = s.abs.dict.get k' := by
  rcases execAll_refines hcalls (keysIn_new _ cache)
    (new_refines cache) with ⟨replies, s, hexec, hs, h⟩
  rcases exec_refines hcall hs h with ⟨reply, s', hexec', hreply, -, h', hother⟩
  exact ⟨replies, s, reply, s', hexec, hexec', hreply, h', hother⟩

/-- A field that was added is read back. -/
theorem mapAdd_then_mapGet_refines :
    ∃ (replies : List Reply) (s : DbState (fun _ => 0) Unit) (reply : Reply)
      (s' : DbState (fun _ => 0) Unit),
      execAll [(.standalone false 0, .mapAdd [97] [⟨[98], [120]⟩])]
        (new ()) = some (replies, s) ∧
      s.exec (.standalone false 0) (.mapGet [97] [98]) = some (reply, s') ∧
      reply = .ok (.str [120]) := by
  have hcall : ∀ c, c.typedKey = some [97] →
      TypedCall (.standalone false 0 : World Unit) c [97] :=
    fun c hc => ⟨⟨rfl, rfl⟩, hc, by decide⟩
  have hcalls : ∀ call ∈ [(.standalone false 0, .mapAdd [97] [⟨[98], [120]⟩])],
      ∃ k, TypedCall (call : World Unit × Command).1 call.2 k := by
    simpa using ⟨_, hcall _ rfl⟩
  rcases @mmkvDb_refines_reference (fun _ => 0) Unit () _ hcalls _ _ _
    (hcall (.mapGet [97] [98]) rfl) with
    ⟨replies, s, reply, s', hexec, hexec', hreply, -, -⟩
  exact ⟨replies, s, reply, s', hexec, hexec', hreply⟩

/-- The command that inserts a string says of a key of any type that it is there. -/
theorem insertStr_on_map :
    ∃ s s' : DbState (fun _ => 0) Unit,
      (new ()).exec (.standalone false 0) (.mapAdd [97] [⟨[98], [120]⟩]) =
        some (.ok (.number 1), s) ∧
      s.exec (.standalone false 0) (.insertStr [97] [99]) = some (.fail .exists, s') :=
  ⟨_, _, rfl, rfl⟩

end Mmkv
