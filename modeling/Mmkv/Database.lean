import Mmkv.EffectPrograms
import Mmkv.Vset

/-!
# The database

`MmkvDb` keeps typed values in `dict_` and deadlines in `exp_dict_`.  Beside
them stands what is keyed by the address of a stored key: the replacement cache
and the shard index.  The commands are programs over the calls on these three;
`Action` lists the shapes they come in, and each command is one of the shapes
with its own type, keys, flags and body.
-/

namespace Mmkv

open EffectPrograms

/-! ## Values, status codes, replies -/

abbrev StrMap (hash : Str → Nat) : Type :=
  HashDict (KeyValue.key : KeyValue Str → Str) hash

inductive DataType where
  | string
  | strList
  | sortedSet
  | map
  | set
  deriving Repr, DecidableEq

inductive MmkvData (hash : Str → Nat) where
  | string (s : Str)
  | strList (l : List Str)
  | sortedSet (v : Vset hash)
  | map (m : StrMap hash)
  | set (s : StrSet hash)

def MmkvData.type {hash : Str → Nat} : MmkvData hash → DataType
  | .string _ => .string
  | .strList _ => .strList
  | .sortedSet _ => .sortedSet
  | .map _ => .map
  | .set _ => .set

/-- How a command reads and writes the values of the type it works on. -/
structure DataKind (hash : Str → Nat) (τ : Type) where
  get : MmkvData hash → Option τ
  put : τ → MmkvData hash
  get_eq_some : ∀ {data x}, get data = some x ↔ data = put x

namespace DataKind

variable {hash : Str → Nat}

def string : DataKind hash Str where
  get := fun | .string s => some s | _ => none
  put := .string
  get_eq_some := by rintro (s | l | v | m | s) x <;> simp

def strList : DataKind hash (List Str) where
  get := fun | .strList l => some l | _ => none
  put := .strList
  get_eq_some := by rintro (s | l | v | m | s) x <;> simp

def sortedSet : DataKind hash (Vset hash) where
  get := fun | .sortedSet v => some v | _ => none
  put := .sortedSet
  get_eq_some := by rintro (s | l | v | m | s) x <;> simp

def map : DataKind hash (StrMap hash) where
  get := fun | .map m => some m | _ => none
  put := .map
  get_eq_some := by rintro (s | l | v | m | s) x <;> simp

def set : DataKind hash (StrSet hash) where
  get := fun | .set s => some s | _ => none
  put := .set
  get_eq_some := by rintro (s | l | v | m | s) x <;> simp

def any : DataKind hash (MmkvData hash) where
  get := some
  put := id
  get_eq_some := by simp

@[simp] theorem get_put {τ : Type} (kind : DataKind hash τ) (x : τ) :
    kind.get (kind.put x) = some x :=
  kind.get_eq_some.mpr rfl

end DataKind

inductive StatusCode where
  | ok
  | exists
  | nonexists
  | invalidMessage
  | invalidRange
  | vmemberNonexists
  | existsDiffType
  | fieldNonexists
  | setMemberNonexists
  | invalidRequest
  | setNoMember
  | destExists
  | expireDisable
  | shardLocked
  | shardProcessing
  | shardNonexists
  deriving Repr, DecidableEq

/-- What a command writes to the parameters it returns results in. -/
inductive Output where
  | none
  | str (s : Str)
  | strs (l : List Str)
  | kvs (l : List (KeyValue Str))
  | number (n : Nat)
  | weight (w : Weight)
  | weights (l : List WeightValue)
  | type (t : DataType)
  deriving Repr, DecidableEq

structure Reply where
  status : StatusCode
  out : Output
  deriving Repr, DecidableEq

def Reply.fail (status : StatusCode) : Reply :=
  ⟨status, .none⟩

def Reply.ok (out : Output) : Reply :=
  ⟨.ok, out⟩

/-! ## Configuration and environment -/

inductive LogMethod where
  | request
  | none
  deriving Repr, DecidableEq

structure Config where
  logMethod : LogMethod
  lazyExpiration : Bool
  expirationCheckCycle : Int
  maxMemoryUsage : Nat
  isSharder : Bool
  shardNum : Nat
  deriving Repr, DecidableEq

def Config.isExpirationDisable (c : Config) : Bool :=
  !c.lazyExpiration && decide (c.expirationCheckCycle ≤ 0)

abbrev Addr : Type :=
  Nat

/-- `CacheInterface`, as far as the database calls it. -/
structure CachePolicy (C : Type) where
  updateEntry : Addr → C → C
  delEntry : Addr → C → C
  victim : C → Option Addr
  delVictim : C → C
  clear : C → C

/-- What a command finds around the database: the configuration, the policy of
`cache_` if there is one, the hash of the shards, the allocator, which sees the
addresses in use, the clock, the memory statistics and the number of rounds
after which a loop counts as endless. -/
structure World (C : Type) where
  config : Config
  policy : Option (CachePolicy C)
  makeShardId : Str → Nat
  allocate : List Addr → Addr
  now : UInt64
  memoryUsage : Nat
  fuel : Nat

def World.standalone {C : Type} (lazyExpiration : Bool) (now : UInt64) : World C where
  config := ⟨.none, lazyExpiration, 0, 0, false, 0⟩
  policy := none
  makeShardId := fun _ => 0
  allocate := List.length
  now := now
  memoryUsage := 0
  fuel := 100

/-- What is kept beside the dictionaries.  `keys` are the stored keys by their
address, `log` the keys of the DEL requests that the database itself appended to
the request log. -/
structure Side (C : Type) where
  keys : List (Addr × Str)
  cache : C
  shards : List (Nat × List Addr)
  lockedShards : List Nat
  isIgnoreLockedShard : Bool
  log : List Str

namespace Side

variable {C : Type} (σ : Side C)

def addressOf (k : Str) : Option Addr :=
  (σ.keys.find? fun p => decide (p.2 = k)).map Prod.fst

def keyAt (a : Addr) : Option Str :=
  (σ.keys.find? fun p => decide (p.1 = a)).map Prod.snd

def linkKey (w : World C) (k : Str) : Side C :=
  { σ with keys := (w.allocate (σ.keys.map Prod.fst), k) :: σ.keys }

def unlinkKey (k : Str) : Side C :=
  { σ with keys := σ.keys.eraseP fun p => decide (p.2 = k) }

def renameKey (old new : Str) : Side C :=
  { σ with keys := σ.keys.map fun p => if p.2 = old then (p.1, new) else p }

def onAddress (k : Str) (f : Addr → Side C) : Side C :=
  (σ.addressOf k).elim σ f

/-- `ShardIdSet::Insert`. -/
def addAddr (a : Addr) (l : List Addr) : List Addr :=
  if a ∈ l then l else a :: l

def hasShard (id : Nat) : Bool :=
  σ.shards.any fun p => decide (p.1 = id)

/-- `sdict_[id]`, which creates the shard if there is none. -/
def modifyShard (id : Nat) (f : List Addr → List Addr) : Side C :=
  if σ.hasShard id then
    { σ with shards := σ.shards.map fun p => if p.1 = id then (id, f p.2) else p }
  else { σ with shards := (id, f []) :: σ.shards }

end Side

/-! ## Programs -/

/-- A request to the key dictionary, the deadlines or the rest of the state. -/
inductive DbOp (hash : Str → Nat) (C : Type) : Type 1 where
  | dict (op : DictOp (MmkvData hash))
  | expDict (op : DictOp UInt64)
  | side (α : Type) (f : Side C → α × Side C)

def dbInterface (hash : Str → Nat) (C : Type) : Interface where
  Op := DbOp hash C
  Ans
    | .dict op => op.Ans
    | .expDict op => op.Ans
    | .side α _ => α

abbrev Db (hash : Str → Nat) (C : Type) : Type → Type 1 :=
  Program (dbInterface hash C)

namespace Db

variable {hash : Str → Nat} {C : Type}

def dict (op : DictOp (MmkvData hash)) : Db hash C op.Ans :=
  Program.request (I := dbInterface hash C) (.dict op)

def expDict (op : DictOp UInt64) : Db hash C op.Ans :=
  Program.request (I := dbInterface hash C) (.expDict op)

def ask {α : Type} (f : Side C → α) : Db hash C α :=
  Program.request (I := dbInterface hash C) (.side α fun σ => (f σ, σ))

def change (f : Side C → Side C) : Db hash C Unit :=
  Program.request (I := dbInterface hash C) (.side Unit fun σ => ((), f σ))

def onlyIf (c : Bool) (p : Db hash C Unit) : Db hash C Unit :=
  if c then p else return ()

variable (w : World C)

/-! ### Nodes and their keys -/

def find (k : Str) : Db hash C (Option (KeyValue (MmkvData hash))) :=
  dict (.find k)

def insertKvWithDuplicate (k : Str) (data : MmkvData hash) :
    Db hash C (Bool × KeyValue (MmkvData hash)) := do
  let r ← dict (.insertKvWithDuplicate k data)
  onlyIf r.1 (change fun σ => σ.linkKey w k)
  return r

def extract (k : Str) : Db hash C (Option (KeyValue (MmkvData hash))) :=
  dict (.extract k)

/-- `DropNode` on the node that was extracted last and has the key `k`. -/
def dropNode (k : Str) : Db hash C Unit := do
  dict .dropNode
  change fun σ => σ.unlinkKey k

/-- `EraseNode` on the node of `k` that `FindNode` just returned. -/
def eraseNode (k : Str) : Db hash C Unit := do
  dict (.eraseNode k)
  change fun σ => σ.unlinkKey k

/-! ### Cache and shards -/

/-- `CacheAdd` and `CacheUpdate` do the same. -/
def cacheUpdate (k : Str) : Db hash C Unit :=
  match w.policy with
  | none => return ()
  | some p => change fun σ => σ.onAddress k fun a =>
    { σ with cache := p.updateEntry a σ.cache }

def cacheRemove (k : Str) : Db hash C Unit :=
  match w.policy with
  | none => return ()
  | some p => change fun σ => σ.onAddress k fun a =>
    { σ with cache := p.delEntry a σ.cache }

def addKeyToShard (k : Str) : Db hash C Unit :=
  if w.config.isSharder then
    change fun σ => σ.onAddress k fun a => σ.modifyShard (w.makeShardId k) (Side.addAddr a)
  else return ()

def removeKeyFromShard (k : Str) : Db hash C Unit :=
  if w.config.isSharder then
    change fun σ => σ.onAddress k fun a =>
      σ.modifyShard (w.makeShardId k) fun l => l.erase a
  else return ()

/-- `CHECK_SHARD_IS_LOCKED_KEY`. -/
def checkShardIsLockedKey (k : Str) (p : Db hash C Reply) : Db hash C Reply :=
  if w.config.isSharder then do
    let id := w.makeShardId k % w.config.shardNum
    let owned ← ask fun σ => σ.hasShard id
    let locked ← ask fun σ => decide (id ∈ σ.lockedShards) && !σ.isIgnoreLockedShard
    if !owned then return .fail .shardNonexists
    else if locked then return .fail .shardLocked
    else p
  else p

def appendDel (k : Str) : Db hash C Unit :=
  if w.config.logMethod = .request then change fun σ => { σ with log := σ.log ++ [k] }
  else return ()

/-- `TryReplacekey`.  The parameter is the key whose address the caller passes,
`none` for a null pointer. -/
def tryReplacekey (key : Option Str) : Db hash C Unit :=
  match w.policy with
  | none => return ()
  | some p =>
    if w.config.maxMemoryUsage > w.memoryUsage then return ()
    else
      match key with
      | none => .abort
      | some k => do
        let locked ← ask fun σ => decide (w.makeShardId k ∈ σ.lockedShards)
        if locked then return ()
        else
          match ← ask fun σ => p.victim σ.cache with
          | none => return ()
          | some a =>
            let own ← ask fun σ => decide (σ.addressOf k = some a)
            if own then return ()
            else
              match ← ask fun σ => σ.keyAt a with
              | none => .abort
              | some victim =>
                match ← extract victim with
                | none => .abort
                | some kv =>
                  change fun σ => { σ with cache := p.delVictim σ.cache }
                  appendDel w kv.key
                  dropNode kv.key

/-- `CheckExpire`.  The key that the caller is left with is returned too: the
request log takes it by move. -/
def checkExpire (k : Str) : Db hash C (Bool × Str) :=
  if w.config.lazyExpiration then do
    match ← expDict (.find k) with
    | none => return (false, k)
    | some kv =>
      if kv.value ≤ w.now then
        expDict (.eraseNode k)
        match ← extract k with
        | none => .abort
        | some node =>
          dropNode node.key
          appendDel w k
          return (true, if w.config.logMethod = .request then [] else k)
      else return (false, k)
  else return (false, k)

/-- `CHECK_EXPIRE_ROUTINE`. -/
def checkExpireRoutine (k : Str) (p : Db hash C Reply) : Db hash C Reply := do
  if (← checkExpire w k).1 then return .fail .nonexists else p

end Db

end Mmkv
