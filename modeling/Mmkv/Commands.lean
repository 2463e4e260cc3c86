import Mmkv.Database

/-!
# The commands of the database

`Action.run` is the control flow of the commands, shape by shape.  A command is
an action: `MmkvDb.getStr`, for instance, is the shape "check the deadline, find
the value, check its type" with the type string and a body that reads it.
-/

namespace Mmkv

open EffectPrograms SetHeap

/-! ## Shapes -/

/-- `guarded` is for `CHECK_SHARD_IS_LOCKED_KEY` at the start, `touch` for a
`CacheUpdate` after the type check, `replace` for a `TryReplacekey(nullptr)` at
the end. -/
structure Access where
  guarded : Bool
  touch : Bool
  replace : Bool
  deriving Repr, DecidableEq

def Access.read : Access :=
  ⟨false, false, false⟩

def Access.write : Access :=
  ⟨true, false, false⟩

inductive SetOp where
  | and
  | or
  | sub
  deriving Repr, DecidableEq

def SetOp.eval {hash : Str → Nat} (op : SetOp)
    (cb : Str → SetHeap hash → SetHeap hash) (k₁ k₂ : Str) (fuel : Nat)
    (h : SetHeap hash) : Option (SetHeap hash) :=
  match op with
  | .and => h.intersection cb k₁ k₂ fuel
  | .or => h.union cb k₁ k₂ fuel
  | .sub => h.difference cb k₁ k₂ fuel

variable {hash : Str → Nat} {k₁ k₂ : Str} {h h' : SetHeap hash} (op : SetOp) {fuel : Nat}

theorem SetOp.eval_inv {cb : Str → SetHeap hash → SetHeap hash}
    {P : SetHeap hash → Prop} (hsearch : ∀ k m h, P h → P (h.search k m).2)
    (hcb : ∀ m h, P h → P (cb m h)) (hP : P h) (hrun : op.eval cb k₁ k₂ fuel h = some h') :
    P h' := by
  cases op with
  | and => exact intersection_inv hsearch hcb hP hrun
  | or => exact union_inv hsearch hcb hP hrun
  | sub => exact difference_inv hsearch hcb hP hrun

theorem SetOp.eval_sameSets (hrun : op.eval SetHeap.collect k₁ k₂ fuel h = some h') :
    h.SameSets h' := by
  refine op.eval_inv ?_ ?_ (fun k => .refl (h.sets k)) hrun
  · exact fun k m h1 hsame k' => (hsame k').trans (search_sameSets k m h1 k')
  · exact fun m h1 hsame => hsame

theorem SetOp.eval_sameSetsOff {dest : Str}
    (hrun : op.eval (SetHeap.store dest) k₁ k₂ fuel h = some h') : h.SameSetsOff dest h' := by
  refine op.eval_inv ?_ ?_ (fun k _ => .refl (h.sets k)) hrun
  · exact fun k m h1 hsame k' hk' =>
      (hsame k' hk').trans (search_sameSets k m h1 k')
  · intro m h1 hsame k hk
    simpa [SetHeap.store, hk] using hsame k hk

/-- The shapes of the commands.

* `onValue`: check the deadline, find the value, check its type, run the body.
* `insertNew`: insert a value for a new key; `replace` is for a
  `TryReplacekey(nullptr)` before.
* `addTo`: insert an empty value or take the one there is, check its type, add
  to it; `expire` is for a `CheckExpire` before whose answer is ignored.
* `eraseValue`: erase the value if it has the type; the flags say whether the
  deadline goes too, when the value was erased and when there is none. -/
inductive Action (hash : Str → Nat) : Type 1 where
  | onValue {τ : Type} (access : Access) (kind : DataKind hash τ) (k : Str)
      (body : τ → Option (Reply × τ))
  | insertNew (replace : Bool) (k : Str) (data : MmkvData hash)
  | addTo {τ : Type} (expire : Bool) (kind : DataKind hash τ) (k : Str) (init : τ)
      (body : τ → Output × τ)
  | setStr (k v : Str)
  | eraseValue {τ : Type} (kind : DataKind hash τ) (ifErased ifAbsent : Bool) (k : Str)
  | setOp (op : SetOp) (k₁ k₂ : Str) (out : List Str → Output)
  | setOpTo (op : SetOp) (k₁ k₂ dest : Str)
  | delete (k : Str)
  | deleteAll
  | rename (oldName newName : Str)
  | expireAtMs (k : Str) (expire : UInt64)
  | persist (k : Str)
  | getExpiration (k : Str) (out : UInt64 → Output)

namespace Db

variable {hash : Str → Nat} {C : Type} (w : World C)

/-- `ERROR_ROUTINE_KV` and its siblings: the found node and its value, once the
type is right. -/
def findTyped {τ : Type} (kind : DataKind hash τ) (k : Str)
    (p : KeyValue (MmkvData hash) → τ → Db hash C Reply) : Db hash C Reply := do
  match ← find k with
  | none => return .fail .nonexists
  | some kv =>
    match kind.get kv.value with
    | none => return .fail .existsDiffType
    | some x => p kv x

/-- A command on the stored value of one type, which it may change. -/
def onValue {τ : Type} (access : Access) (kind : DataKind hash τ) (k : Str)
    (body : τ → Option (Reply × τ)) : Db hash C Reply :=
  checkExpireRoutine w k <| findTyped kind k fun kv x => do
    onlyIf access.touch (cacheUpdate w kv.key)
    let (reply, x) ← Program.ofOption (body x)
    dict (.write kv.key (kind.put x))
    onlyIf access.replace (tryReplacekey w none)
    return reply

/-- What an inserted key is entered in beside the dictionary. -/
def registerKey (k : Str) : Db hash C Unit := do
  cacheUpdate w k
  addKeyToShard w k

/-- The command stores a value under a key that must be new. -/
def insertNew (replace : Bool) (k : Str) (data : MmkvData hash) : Db hash C Reply := do
  onlyIf replace (tryReplacekey w none)
  let (success, kv) ← insertKvWithDuplicate w k data
  if success then
    registerKey w kv.key
    return .ok .none
  else return .fail .exists

/-- The key a command goes on with when it ignores the answer of
`CheckExpire`. -/
def keyAfterExpire (expire : Bool) (k : Str) : Db hash C Str :=
  if expire then do
    let r ← checkExpire w k
    return r.2
  else return k

/-- A command on a container, which is created under a new key. -/
def addTo {τ : Type} (expire : Bool) (kind : DataKind hash τ) (k : Str) (init : τ)
    (body : τ → Output × τ) : Db hash C Reply := do
  let k ← keyAfterExpire w expire k
  let (success, kv) ← insertKvWithDuplicate w k (kind.put init)
  onlyIf success (registerKey w kv.key)
  match kind.get kv.value with
  | none => return .fail .existsDiffType
  | some x =>
    let (out, x) := body x
    dict (.write kv.key (kind.put x))
    return .ok out

def setStr (k v : Str) : Db hash C Reply :=
  checkExpireRoutine w k do
    let (success, kv) ← insertKvWithDuplicate w k (.string v)
    if success then
      registerKey w kv.key
      tryReplacekey w none
      return .ok .none
    else
      match DataKind.string.get kv.value with
      | none => return .fail .existsDiffType
      | some _ =>
        dict (.write kv.key (.string v))
        cacheUpdate w kv.key
        tryReplacekey w none
        return .ok .none

/-- The deletion of a value of one type.  The flags say when the deadline goes too. -/
def eraseValue {τ : Type} (kind : DataKind hash τ) (ifErased ifAbsent : Bool)
    (k : Str) : Db hash C Reply := do
  match ← find k with
  | none =>
    onlyIf ifAbsent (discard <| expDict (.erase k))
    return .fail .nonexists
  | some kv =>
    match kind.get kv.value with
    | none => return .fail .existsDiffType
    | some _ =>
      cacheRemove w kv.key
      removeKeyFromShard w kv.key
      eraseNode kv.key
      onlyIf ifErased (discard <| expDict (.erase k))
      return .ok .none

/-- `CHECK_EXPIRE_ROUTINE` for both keys and `SET_OP_ROUTINE`. -/
def setOpRoutine (k₁ k₂ : Str) (p : Str → Str → SetHeap hash → Db hash C Reply) : Db hash C Reply :=
  checkExpireRoutine w k₁ <| checkExpireRoutine w k₂ <|
    findTyped .set k₁ fun kv₁ s₁ => findTyped .set k₂ fun kv₂ s₂ =>
      p kv₁.key kv₂.key
        ⟨Function.update (Function.update (fun _ => HashDict.new) kv₁.key s₁) kv₂.key s₂, []⟩

def setOp (op : SetOp) (k₁ k₂ : Str) (out : List Str → Output) : Db hash C Reply :=
  setOpRoutine w k₁ k₂ fun a b heap => do
    let heap ← Program.ofOption (op.eval SetHeap.collect a b w.fuel heap)
    dict (.write a (.set (heap.sets a)))
    dict (.write b (.set (heap.sets b)))
    return .ok (out heap.members)

/-- `SET_OP_TO_ROUTINE` and the operation.  The destination may be one of the
operands. -/
def setOpTo (op : SetOp) (k₁ k₂ dest : Str) : Db hash C Reply :=
  setOpRoutine w k₁ k₂ fun a b heap => do
    let (success, kv) ← insertKvWithDuplicate w dest (.set HashDict.new)
    onlyIf success (registerKey w kv.key)
    match DataKind.set.get kv.value with
    | none => return .fail .destExists
    | some s =>
      let heap := { heap with sets := Function.update heap.sets kv.key s }
      let heap ← Program.ofOption (op.eval (SetHeap.store kv.key) a b w.fuel heap)
      dict (.write a (.set (heap.sets a)))
      dict (.write b (.set (heap.sets b)))
      dict (.write kv.key (.set (heap.sets kv.key)))
      return .ok .none

def delete (k : Str) : Db hash C Reply := do
  match ← extract k with
  | none => return .fail .nonexists
  | some kv =>
    removeKeyFromShard w kv.key
    cacheRemove w kv.key
    dropNode kv.key
    discard <| expDict (.erase k)
    return .ok .none

/-- `CHECK_HAS_SHARD_LOCKED_KEY`, for the command that leaves the count 0. -/
def checkHasShardLockedKey (p : Db hash C Reply) : Db hash C Reply :=
  if w.config.isSharder then do
    let locked ← ask fun σ => !σ.lockedShards.isEmpty && !σ.isIgnoreLockedShard
    if locked then return ⟨.shardLocked, .number 0⟩ else p
  else p

def deleteAll : Db hash C Reply := do
  let count ← dict .size
  dict .clear
  expDict .clear
  change fun σ => { σ with
    keys := []
    cache := w.policy.elim σ.cache fun p => p.clear σ.cache
    shards := [] }
  return .ok (.number count)

def rename (oldName newName : Str) : Db hash C Reply :=
  checkExpireRoutine w oldName do
    match ← find newName with
    | some _ => return .fail .exists
    | none =>
      match ← extract oldName with
      | none => return .fail .nonexists
      | some kv =>
        tryReplacekey w (some kv.key)
        change fun σ => σ.renameKey kv.key newName
        discard <| dict (.push newName kv.value)
        cacheUpdate w newName
        return .ok .none

def expireAtMs (k : Str) (expire : UInt64) : Db hash C Reply := do
  if w.config.isExpirationDisable then return .fail .expireDisable
  else
    match ← find k with
    | none => return .fail .nonexists
    | some _ =>
      onlyIf (decide (w.now < expire)) do
        let (success, kv) ← expDict (.insertKvWithDuplicate k expire)
        onlyIf (!success) (expDict (.write kv.key expire))
      return .ok .none

def persist (k : Str) : Db hash C Reply := do
  match ← find k with
  | none => return .fail .nonexists
  | some _ =>
    discard <| expDict (.erase k)
    return .ok .none

def getExpiration (k : Str) (out : UInt64 → Output) : Db hash C Reply := do
  match ← expDict (.find k) with
  | none => return .fail .nonexists
  | some kv => return .ok (out kv.value)

end Db

namespace Db

variable {hash : Str → Nat} {C : Type} (w : World C)

/-- The first loop of `CheckExpireCycle`, over what the iteration of `exp_dict_`
yields. -/
def dropExpired : List (KeyValue UInt64) → Db hash C (List Str)
  | [] => return []
  | kv :: rest =>
    if kv.value ≤ w.now then do
      match ← extract kv.key with
      | none => .abort
      | some node =>
        dropNode node.key
        let keys ← dropExpired rest
        return kv.key :: keys
    else dropExpired rest

def eraseDeadlines : List Str → Db hash C Unit
  | [] => return ()
  | k :: keys => do
    discard <| expDict (.erase k)
    eraseDeadlines keys

/-- `CheckExpireCycle` with the deadlines it iterates over. -/
def checkExpireCycle (deadlines : List (KeyValue UInt64)) : Db hash C Unit := do
  let keys ← dropExpired w deadlines
  eraseDeadlines keys
  if w.config.logMethod = .request then
    change fun σ => { σ with log := σ.log ++ keys }
  else return ()

end Db

/-- The command with its check for locked shards. -/
def Action.run {hash : Str → Nat} {C : Type} (w : World C) :
    Action hash → Db hash C Reply
  | .onValue access kind k body =>
    if access.guarded then
      Db.checkShardIsLockedKey w k (Db.onValue w access kind k body)
    else Db.onValue w access kind k body
  | .insertNew replace k data =>
    Db.checkShardIsLockedKey w k (Db.insertNew w replace k data)
  | .addTo expire kind k init body =>
    Db.checkShardIsLockedKey w k (Db.addTo w expire kind k init body)
  | .setStr k v => Db.checkShardIsLockedKey w k (Db.setStr w k v)
  | .eraseValue kind ifErased ifAbsent k =>
    Db.checkShardIsLockedKey w k (Db.eraseValue w kind ifErased ifAbsent k)
  | .setOp op k₁ k₂ out => Db.setOp w op k₁ k₂ out
  | .setOpTo op k₁ k₂ dest =>
    Db.checkShardIsLockedKey w dest (Db.setOpTo w op k₁ k₂ dest)
  | .delete k => Db.checkShardIsLockedKey w k (Db.delete w k)
  | .deleteAll => Db.checkHasShardLockedKey w (Db.deleteAll w)
  | .rename oldName newName =>
    Db.checkShardIsLockedKey w oldName (Db.rename w oldName newName)
  | .expireAtMs k expire => Db.checkShardIsLockedKey w k (Db.expireAtMs w k expire)
  | .persist k => Db.checkShardIsLockedKey w k (Db.persist k)
  | .getExpiration k out => Db.getExpiration k out

section Unguarded

variable {hash : Str → Nat} {C : Type} {w : World C}

/-- The commands without the checks of the shards. -/
def Action.unguarded (w : World C) : Action hash → Db hash C Reply
  | .onValue access kind k body => Db.onValue w access kind k body
  | .insertNew replace k data => Db.insertNew w replace k data
  | .addTo expire kind k init body => Db.addTo w expire kind k init body
  | .setStr k v => Db.setStr w k v
  | .eraseValue kind ifErased ifAbsent k => Db.eraseValue w kind ifErased ifAbsent k
  | .setOp op k₁ k₂ out => Db.setOp w op k₁ k₂ out
  | .setOpTo op k₁ k₂ dest => Db.setOpTo w op k₁ k₂ dest
  | .delete k => Db.delete w k
  | .deleteAll => Db.deleteAll w
  | .rename oldName newName => Db.rename w oldName newName
  | .expireAtMs k expire => Db.expireAtMs w k expire
  | .persist k => Db.persist k
  | .getExpiration k out => Db.getExpiration k out

theorem Action.run_of_unguarded {motive : Db hash C Reply → Prop} {x : Action hash}
    (hkey : ∀ k p, motive p → motive (Db.checkShardIsLockedKey w k p))
    (hall : ∀ p, motive p → motive (Db.checkHasShardLockedKey w p))
    (h : motive (x.unguarded w)) : motive (x.run w) := by
  cases x with
  | onValue access kind k body =>
    rw [run]
    split
    · exact hkey _ _ h
    · exact h
  | deleteAll => exact hall _ h
  | setOp op k₁ k₂ out => exact h
  | getExpiration k out => exact h
  | _ => exact hkey _ _ h

end Unguarded

/-! ## Bodies -/

/-- The `size` elements from the position `last` backwards.  The previous node of the first
one is the last one. -/
def readBackwards (lst : List Str) (last : Int) (size : Nat) : List Str :=
  (List.range size).map fun i : Nat => lst.getD ((last - i) % lst.length).toNat []

def listGetRange (l r : Int) (lst : List Str) : Reply :=
  let n := lst.length
  let l := if l < 0 then toInt64 (n + l) else l
  let r := if r < 0 then toInt64 (n + r + 1) else r
  if toSize l ≥ n ∨ l > r then .fail .invalidRange
  else
    let size := toSize (min (toSize r) n - l)
    let rightDiff := toSize (n - r)
    if toSize l ≤ rightDiff then .ok (.strs ((lst.drop (toSize l)).take size))
    else
      -- `while (--right_diff) --last;`
      let steps := toSize (rightDiff - 1)
      .ok (.strs (readBackwards lst (n - 1 - steps) size))

/-- The loop over the elements of a request, which counts the new ones. -/
def insertAll {E T : Type} (insert : E → T → Bool × T) (elems : List E) (t : T) : Nat × T :=
  elems.foldl (fun (count, t) e =>
    let (success, t) := insert e t
    (if success then count + 1 else count, t)) (0, t)

section

variable {hash : Str → Nat}

def mapGets : List Str → List Str → StrMap hash → Reply × StrMap hash
  | [], values, m => (.ok (.strs values), m)
  | field :: fields, values, m =>
    match m.find field with
    | (some fv, m) => mapGets fields (values ++ [fv.value]) m
    | (none, m) => (⟨.fieldNonexists, .strs values⟩, m)

def mapSet (field value : Str) (m : StrMap hash) : StrMap hash :=
  let (success, _, m) := m.insertWithDuplicate ⟨field, value⟩
  if success then m else m.assign ⟨field, value⟩

end

/-! ## The commands -/

namespace MmkvDb

variable {hash : Str → Nat}

def type (k : Str) : Action hash :=
  .onValue ⟨false, true, false⟩ .any k fun data => some (.ok (.type data.type), data)

def delete (k : Str) : Action hash :=
  .delete k

def deleteAll : Action hash :=
  .deleteAll

def rename (oldName newName : Str) : Action hash :=
  .rename oldName newName

def insertStr (k v : Str) : Action hash :=
  .insertNew true k (.string v)

def eraseStr (k : Str) : Action hash :=
  .eraseValue .string false true k

def getStr (k : Str) : Action hash :=
  .onValue ⟨false, true, false⟩ .string k fun s => some (.ok (.str s), s)

def strAppend (k str : Str) : Action hash :=
  .onValue ⟨true, true, true⟩ .string k fun s => some (.ok .none, s ++ str)

/-- `erase` throws when the position lies behind the end. -/
def strPopBack (k : Str) (count : Nat) : Action hash :=
  .onValue ⟨true, true, false⟩ .string k fun s =>
    if count ≤ s.length then some (.ok .none, s.take (s.length - count)) else none

def setStr (k v : Str) : Action hash :=
  .setStr k v

def listAdd (k : Str) (elems : List Str) : Action hash :=
  .insertNew false k (.strList elems)

def listAppend (k : Str) (elems : List Str) : Action hash :=
  .addTo true .strList k [] fun l => (.none, l ++ elems)

def listPrepend (k : Str) (elems : List Str) : Action hash :=
  .onValue .write .strList k fun l => some (.ok .none, elems.reverse ++ l)

def listGetSize (k : Str) : Action hash :=
  .onValue .read .strList k fun l => some (.ok (.number l.length), l)

def listGetAll (k : Str) : Action hash :=
  .onValue .read .strList k fun l => some (.ok (.strs l), l)

def listGetRange (k : Str) (l r : Int) : Action hash :=
  .onValue .read .strList k fun lst => some (Mmkv.listGetRange l r lst, lst)

def listPopFront (k : Str) (count : Nat) : Action hash :=
  .onValue .write .strList k fun l => some (.ok .none, l.drop (min count l.length))

def listPopBack (k : Str) (count : Nat) : Action hash :=
  .onValue .write .strList k fun l =>
    some (.ok .none, l.take (l.length - min count l.length))

def listDel (k : Str) : Action hash :=
  .eraseValue .strList true false k

def vsetAdd (k : Str) (wms : List WeightValue) : Action hash :=
  .addTo false .sortedSet k Vset.new fun v =>
    let (count, v) := insertAll Vset.insert wms v
    (.number count, v)

def vsetDel (k member : Str) : Action hash :=
  .onValue .write .sortedSet k fun v => (v.erase member).map fun (erased, v) =>
    (if erased then .ok .none else .fail .vmemberNonexists, v)

def vsetDelRange (k : Str) (left right : Int) : Action hash :=
  .onValue .write .sortedSet k fun v => (v.eraseRange left right).map fun (count, v) =>
    (.ok (.number count), v)

def vsetDelRangeByWeight (k : Str) (left right : Weight) : Action hash :=
  .onValue .write .sortedSet k fun v =>
    (v.eraseRangeByWeight left right).map fun (count, v) => (.ok (.number count), v)

def vsetSize (k : Str) : Action hash :=
  .onValue .read .sortedSet k fun v => some (.ok (.number v.count), v)

def vsetSizeByWeight (k : Str) (left right : Weight) : Action hash :=
  .onValue .read .sortedSet k fun v =>
    (v.getSizeByWeight left right).map fun count => (.ok (.number count), v)

def vsetWeight (k member : Str) : Action hash :=
  .onValue .read .sortedSet k fun v =>
    match v.getWeight member with
    | (some weight, v) => some (.ok (.weight weight), v)
    | (none, v) => some (.fail .vmemberNonexists, v)

/-- `VsetOrder` and `VsetROrder`. -/
def vsetOrderOf (reverse : Bool) (k member : Str) : Action hash :=
  .onValue .read .sortedSet k fun v => (v.getOrder reverse member).map fun
    | (some order, v) => (.ok (.number order), v)
    | (none, v) => (.fail .vmemberNonexists, v)

def vsetOrder (k member : Str) : Action hash :=
  vsetOrderOf false k member

def vsetROrder (k member : Str) : Action hash :=
  vsetOrderOf true k member

def vsetList (k : Str) (entries : Vset hash → Option (List WeightValue)) : Action hash :=
  .onValue .read .sortedSet k fun v =>
    (entries v).map fun wms => (.ok (.weights wms), v)

def vsetAll (k : Str) : Action hash :=
  vsetList k fun v => some v.getAll

def vsetRange (k : Str) (left right : Int) : Action hash :=
  vsetList k fun v => v.getRange left right

def vsetRangeByWeight (k : Str) (left right : Weight) : Action hash :=
  vsetList k fun v => v.getRangeByWeight left right

def vsetRRange (k : Str) (left right : Int) : Action hash :=
  vsetList k fun v => v.getRRange left right

def vsetRRangeByWeight (k : Str) (left right : Weight) : Action hash :=
  vsetList k fun v => v.getRRangeByWeight left right

def mapAdd (k : Str) (kvs : List (KeyValue Str)) : Action hash :=
  .addTo false .map k HashDict.new fun m =>
    let (count, m) := insertAll HashDict.insert kvs m
    (.number count, m)

def mapGet (k field : Str) : Action hash :=
  .onValue .read .map k fun m =>
    match m.find field with
    | (some fv, m) => some (.ok (.str fv.value), m)
    | (none, m) => some (.fail .fieldNonexists, m)

def mapGets (k : Str) (fields : List Str) : Action hash :=
  .onValue .read .map k fun m => some (Mmkv.mapGets fields [] m)

def mapSet (k field value : Str) : Action hash :=
  .onValue .write .map k fun m => some (.ok .none, Mmkv.mapSet field value m)

def mapDel (k field : Str) : Action hash :=
  .onValue .write .map k fun m =>
    let (erased, m) := m.erase field
    some (if erased then .ok .none else .fail .fieldNonexists, m)

def mapSize (k : Str) : Action hash :=
  .onValue .read .map k fun m => some (.ok (.number m.size), m)

def mapExists (k field : Str) : Action hash :=
  .onValue .read .map k fun m =>
    let (fv, m) := m.find field
    some (if fv.isSome then .ok .none else .fail .fieldNonexists, m)

def mapFields (k : Str) : Action hash :=
  .onValue .read .map k fun m => some (.ok (.strs (m.entries.map KeyValue.key)), m)

def mapValues (k : Str) : Action hash :=
  .onValue .read .map k fun m => some (.ok (.strs (m.entries.map KeyValue.value)), m)

def mapAll (k : Str) : Action hash :=
  .onValue .read .map k fun m => some (.ok (.kvs m.entries), m)

def setAdd (k : Str) (members : List Str) : Action hash :=
  .addTo false .set k HashDict.new fun s =>
    let (count, s) := insertAll HashDict.insert members s
    (.number count, s)

def setDelm (k member : Str) : Action hash :=
  .onValue .write .set k fun s =>
    let (erased, s) := s.erase member
    some (if erased then .ok .none else .fail .setMemberNonexists, s)

def setRandDelm (k : Str) : Action hash :=
  .onValue .write .set k fun s =>
    let (erased, s) := s.eraseRandom
    some (if erased then .ok .none else .fail .setNoMember, s)

def setSize (k : Str) : Action hash :=
  .onValue .read .set k fun s => some (.ok (.number s.size), s)

def setExists (k member : Str) : Action hash :=
  .onValue .read .set k fun s =>
    let (m, s) := s.find member
    some (if m.isSome then .ok .none else .fail .setMemberNonexists, s)

def setAll (k : Str) : Action hash :=
  .onValue .read .set k fun s => some (.ok (.strs s.entries), s)

def setAnd (k₁ k₂ : Str) : Action hash :=
  .setOp .and k₁ k₂ .strs

def setOr (k₁ k₂ : Str) : Action hash :=
  .setOp .or k₁ k₂ .strs

def setSub (k₁ k₂ : Str) : Action hash :=
  .setOp .sub k₁ k₂ .strs

def setAndSize (k₁ k₂ : Str) : Action hash :=
  .setOp .and k₁ k₂ fun members => .number members.length

def setOrSize (k₁ k₂ : Str) : Action hash :=
  .setOp .or k₁ k₂ fun members => .number members.length

def setSubSize (k₁ k₂ : Str) : Action hash :=
  .setOp .sub k₁ k₂ fun members => .number members.length

def setAndTo (k₁ k₂ dest : Str) : Action hash :=
  .setOpTo .and k₁ k₂ dest

def setOrTo (k₁ k₂ dest : Str) : Action hash :=
  .setOpTo .or k₁ k₂ dest

def setSubTo (k₁ k₂ dest : Str) : Action hash :=
  .setOpTo .sub k₁ k₂ dest

def expireAtMs (k : Str) (expire : UInt64) : Action hash :=
  .expireAtMs k expire

def expireAt (k : Str) (expire : UInt64) : Action hash :=
  expireAtMs k (expire * 1000)

def expireAfterMs (k : Str) (ms interval : UInt64) : Action hash :=
  expireAtMs k (ms + interval)

def expireAfter (k : Str) (ms interval : UInt64) : Action hash :=
  expireAtMs k (ms + interval * 1000)

def getExpiration (k : Str) : Action hash :=
  .getExpiration k fun exp => .number exp.toNat

def getTimeToLive (now : UInt64) (k : Str) : Action hash :=
  .getExpiration k fun exp => .number (if now ≥ exp then 0 else exp - now).toNat

def persist (k : Str) : Action hash :=
  .persist k

end MmkvDb

/-- The public commands of `MmkvDb` with their arguments. -/
inductive Command where
  | type (k : Str)
  | delete (k : Str)
  | deleteAll
  | rename (oldName newName : Str)
  | insertStr (k v : Str)
  | eraseStr (k : Str)
  | getStr (k : Str)
  | strAppend (k str : Str)
  | strPopBack (k : Str) (count : Nat)
  | setStr (k v : Str)
  | listAdd (k : Str) (elems : List Str)
  | listAppend (k : Str) (elems : List Str)
  | listPrepend (k : Str) (elems : List Str)
  | listGetSize (k : Str)
  | listGetAll (k : Str)
  | listGetRange (k : Str) (l r : Int)
  | listPopFront (k : Str) (count : Nat)
  | listPopBack (k : Str) (count : Nat)
  | listDel (k : Str)
  | vsetAdd (k : Str) (wms : List WeightValue)
  | vsetDel (k member : Str)
  | vsetDelRange (k : Str) (left right : Int)
  | vsetDelRangeByWeight (k : Str) (left right : Weight)
  | vsetSize (k : Str)
  | vsetSizeByWeight (k : Str) (left right : Weight)
  | vsetWeight (k member : Str)
  | vsetOrder (k member : Str)
  | vsetROrder (k member : Str)
  | vsetAll (k : Str)
  | vsetRange (k : Str) (left right : Int)
  | vsetRangeByWeight (k : Str) (left right : Weight)
  | vsetRRange (k : Str) (left right : Int)
  | vsetRRangeByWeight (k : Str) (left right : Weight)
  | mapAdd (k : Str) (kvs : List (KeyValue Str))
  | mapGet (k field : Str)
  | mapGets (k : Str) (fields : List Str)
  | mapSet (k field value : Str)
  | mapDel (k field : Str)
  | mapSize (k : Str)
  | mapExists (k field : Str)
  | mapFields (k : Str)
  | mapValues (k : Str)
  | mapAll (k : Str)
  | setAdd (k : Str) (members : List Str)
  | setDelm (k member : Str)
  | setRandDelm (k : Str)
  | setSize (k : Str)
  | setExists (k member : Str)
  | setAll (k : Str)
  | setAnd (k₁ k₂ : Str)
  | setOr (k₁ k₂ : Str)
  | setSub (k₁ k₂ : Str)
  | setAndSize (k₁ k₂ : Str)
  | setOrSize (k₁ k₂ : Str)
  | setSubSize (k₁ k₂ : Str)
  | setAndTo (k₁ k₂ dest : Str)
  | setOrTo (k₁ k₂ dest : Str)
  | setSubTo (k₁ k₂ dest : Str)
  | expireAtMs (k : Str) (expire : UInt64)
  | expireAt (k : Str) (expire : UInt64)
  | expireAfterMs (k : Str) (ms interval : UInt64)
  | expireAfter (k : Str) (ms interval : UInt64)
  | getExpiration (k : Str)
  | getTimeToLive (k : Str)
  | persist (k : Str)
  deriving Repr, DecidableEq

def Command.action {hash : Str → Nat} (now : UInt64) : Command → Action hash
  | .type k => MmkvDb.type k
  | .delete k => MmkvDb.delete k
  | .deleteAll => MmkvDb.deleteAll
  | .rename oldName newName => MmkvDb.rename oldName newName
  | .insertStr k v => MmkvDb.insertStr k v
  | .eraseStr k => MmkvDb.eraseStr k
  | .getStr k => MmkvDb.getStr k
  | .strAppend k str => MmkvDb.strAppend k str
  | .strPopBack k count => MmkvDb.strPopBack k count
  | .setStr k v => MmkvDb.setStr k v
  | .listAdd k elems => MmkvDb.listAdd k elems
  | .listAppend k elems => MmkvDb.listAppend k elems
  | .listPrepend k elems => MmkvDb.listPrepend k elems
  | .listGetSize k => MmkvDb.listGetSize k
  | .listGetAll k => MmkvDb.listGetAll k
  | .listGetRange k l r => MmkvDb.listGetRange k l r
  | .listPopFront k count => MmkvDb.listPopFront k count
  | .listPopBack k count => MmkvDb.listPopBack k count
  | .listDel k => MmkvDb.listDel k
  | .vsetAdd k wms => MmkvDb.vsetAdd k wms
  | .vsetDel k member => MmkvDb.vsetDel k member
  | .vsetDelRange k left right => MmkvDb.vsetDelRange k left right
  | .vsetDelRangeByWeight k left right => MmkvDb.vsetDelRangeByWeight k left right
  | .vsetSize k => MmkvDb.vsetSize k
  | .vsetSizeByWeight k left right => MmkvDb.vsetSizeByWeight k left right
  | .vsetWeight k member => MmkvDb.vsetWeight k member
  | .vsetOrder k member => MmkvDb.vsetOrder k member
  | .vsetROrder k member => MmkvDb.vsetROrder k member
  | .vsetAll k => MmkvDb.vsetAll k
  | .vsetRange k left right => MmkvDb.vsetRange k left right
  | .vsetRangeByWeight k left right => MmkvDb.vsetRangeByWeight k left right
  | .vsetRRange k left right => MmkvDb.vsetRRange k left right
  | .vsetRRangeByWeight k left right => MmkvDb.vsetRRangeByWeight k left right
  | .mapAdd k kvs => MmkvDb.mapAdd k kvs
  | .mapGet k field => MmkvDb.mapGet k field
  | .mapGets k fields => MmkvDb.mapGets k fields
  | .mapSet k field value => MmkvDb.mapSet k field value
  | .mapDel k field => MmkvDb.mapDel k field
  | .mapSize k => MmkvDb.mapSize k
  | .mapExists k field => MmkvDb.mapExists k field
  | .mapFields k => MmkvDb.mapFields k
  | .mapValues k => MmkvDb.mapValues k
  | .mapAll k => MmkvDb.mapAll k
  | .setAdd k members => MmkvDb.setAdd k members
  | .setDelm k member => MmkvDb.setDelm k member
  | .setRandDelm k => MmkvDb.setRandDelm k
  | .setSize k => MmkvDb.setSize k
  | .setExists k member => MmkvDb.setExists k member
  | .setAll k => MmkvDb.setAll k
  | .setAnd k₁ k₂ => MmkvDb.setAnd k₁ k₂
  | .setOr k₁ k₂ => MmkvDb.setOr k₁ k₂
  | .setSub k₁ k₂ => MmkvDb.setSub k₁ k₂
  | .setAndSize k₁ k₂ => MmkvDb.setAndSize k₁ k₂
  | .setOrSize k₁ k₂ => MmkvDb.setOrSize k₁ k₂
  | .setSubSize k₁ k₂ => MmkvDb.setSubSize k₁ k₂
  | .setAndTo k₁ k₂ dest => MmkvDb.setAndTo k₁ k₂ dest
  | .setOrTo k₁ k₂ dest => MmkvDb.setOrTo k₁ k₂ dest
  | .setSubTo k₁ k₂ dest => MmkvDb.setSubTo k₁ k₂ dest
  | .expireAtMs k expire => MmkvDb.expireAtMs k expire
  | .expireAt k expire => MmkvDb.expireAt k expire
  | .expireAfterMs k ms interval => MmkvDb.expireAfterMs k ms interval
  | .expireAfter k ms interval => MmkvDb.expireAfter k ms interval
  | .getExpiration k => MmkvDb.getExpiration k
  | .getTimeToLive k => MmkvDb.getTimeToLive now k
  | .persist k => MmkvDb.persist k

def Command.run {hash : Str → Nat} {C : Type} (w : World C) (c : Command) : Db hash C Reply :=
  (c.action w.now).run w

end Mmkv
