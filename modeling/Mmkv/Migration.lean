import Mmkv.Shards
import Mmkv.DatabaseManager
import Mmkv.RawRequests

/-!
# Moving shards between nodes

A node that joins pulls shards from another one and then has them deleted there; a node
that leaves pushes its shards to others and then deletes everything.  In both cases the
shard is locked first, and the sender still has it locked when it deletes the keys.

The pointers to keys that a session collects are kept over all its shards, so a pointer is
an instance and an address.  A computation without result is an assertion that fails, a
pointer that dangles, or a node that waits.
-/

namespace Mmkv

open EffectPrograms List DbState Option Db

variable {hash : Str → Nat} {C : Type} {m : DatabaseManager} {τ : Type} {s : DbState hash C}
  {keys : List Addr}

/-! ## Messages and sessions -/

inductive ShardStatus where
  | ok
  | wait
  deriving Repr, DecidableEq

structure ShardMessage where
  status : ShardStatus
  shardId : Nat
  dataNum : Option Nat
  data : Option Bytes
  deriving Repr, DecidableEq

namespace ShardMessage

/-- `MakeShardResponse` and `MakeShardRequest`. -/
def new : ShardMessage :=
  ⟨.ok, 0, none, none⟩

def append (msg : ShardMessage) (bytes : Bytes) : ShardMessage :=
  { msg with
    dataNum := some (msg.dataNum.getD 0 + 1)
    data := some (msg.data.getD [] ++ bytes) }

end ShardMessage

/-- `keys_` and `send_key_index_` of a `SharderSession` or a `SharderClient`. -/
structure SharderSession (m : DatabaseManager) where
  keys : List (Fin m.size × Addr)
  sendKeyIndex : Nat

namespace SharderSession

def restart (session : SharderSession m) : SharderSession m :=
  if session.keys.length = session.sendKeyIndex then { session with sendKeyIndex := 0 }
  else session

end SharderSession

def Request.strAdd (key value : Str) : Request :=
  ⟨0, 3, key, value, [], [], [], 0, 0, 0⟩

namespace DatabaseManager

/-! ## The sender -/

def onInstance {α : Type} (node : m.Instances hash C) (i : Fin m.size) (p : Db hash C α) :
    Option (α × m.Instances hash C) :=
  (p.run handler (node i).db).map fun r => (r.1, setDb node i r.2)

def deref (node : m.Instances hash C) (pointer : Fin m.size × Addr) : Option Str :=
  (node pointer.1).db.side.keyAt pointer.2

/-- What `data_type` holds after the call of `Type`. -/
def typeAfter (reply : Reply) (dataType : Option DataType) : Option DataType :=
  match reply.out with
  | .type type => some type
  | _ => dataType

/-- The message after the call of `GetStr`. -/
def messageAfter (kvarint : VarintCode) (key : Str) (reply : Reply) (msg : ShardMessage) :
    ShardMessage :=
  match reply with
  | ⟨.ok, .str value⟩ => msg.append ((Request.strAdd key value).serialize kvarint)
  | _ => msg

/-- `SerializeMmbpDataToSharderRequest` for the keys from the index on.  `data_type` is not
initialised. -/
def serializeMmbpDataToSharderRequest (kvarint : VarintCode) (w : World C) (i : Fin m.size) :
    List (Fin m.size × Addr) → Option DataType → ShardMessage → m.Instances hash C →
      Option (ShardMessage × m.Instances hash C)
  | [], _, msg, node => some (msg, node)
  | pointer :: keys, dataType, msg, node => do
    let key ← deref node pointer
    let (reply, node) ← onInstance node i ((Command.type key).run w)
    match typeAfter reply dataType with
    | some .string => do
      let key ← deref node pointer
      let (reply, node) ← onInstance node i ((Command.getStr key).run w)
      serializeMmbpDataToSharderRequest kvarint w i keys (some .string)
        (messageAfter kvarint key reply msg) node
    | _ => none

/-- The keys of the shard are collected and sent, as far as they are not sent yet. -/
def sendShard (kvarint : VarintCode) (w : World C) (dataType : Option DataType) (id : Nat)
    (session : SharderSession m) (node : m.Instances hash C) :
    Option ((ShardCode × ShardMessage × SharderSession m) × m.Instances hash C) := do
  let i := m.getShardDatabaseInstance id
  let (_, node) ← onInstance node i (lockShard id)
  let (r, node) ← onInstance node i (getShardKeys w id)
  match r.1 with
  | .ok => do
    let keys := session.keys ++ r.2.map fun a => (i, a)
    let (msg, node) ← serializeMmbpDataToSharderRequest kvarint w i
      (keys.drop session.sendKeyIndex) dataType .new node
    return ((.ok, msg, ⟨keys, max session.sendKeyIndex keys.length⟩), node)
  | code => return ((code, .new, session), node)

/-- `OnPullShard`: the response and the session. -/
def onPullShard (kvarint : VarintCode) (w : World C) (dataType : Option DataType) (id : Nat)
    (session : SharderSession m) (node : m.Instances hash C) :
    Option ((ShardMessage × SharderSession m) × m.Instances hash C) := do
  let (r, node) ← sendShard kvarint w dataType id session node
  let resp := match r.1 with
    | .ok => { r.2.1 with shardId := id }
    | .noShard => { r.2.1 with status := .wait }
    | .notShardServer => r.2.1
  return ((resp, r.2.2.restart), node)

def onDelShard (w : World C) (id : Nat) (node : m.Instances hash C) :
    Option (m.Instances hash C) := do
  let i := m.getShardDatabaseInstance id
  let (_, node) ← onInstance node i (removeShard w id)
  let (_, node) ← onInstance node i (unlockShard id)
  return node

/-- `PutShard`: the request and the client. -/
def putShard (kvarint : VarintCode) (w : World C) (dataType : Option DataType) (id : Nat)
    (client : SharderSession m) (node : m.Instances hash C) :
    Option ((ShardMessage × SharderSession m) × m.Instances hash C) := do
  let (r, node) ← sendShard kvarint w dataType id client node
  return (({ r.2.1 with shardId := id }, r.2.2), node)

/-- `HandleLeaveConfChange`, instance by instance. -/
def handleLeaveConfChange (w : World C) (node : m.Instances hash C) : Option (m.Instances hash C) :=
  (List.finRange m.size).foldlM (fun node i => do
    let (_, node) ← onInstance node i (Command.deleteAll.run w)
    let (_, node) ← onInstance node i unlockAllShard
    return node) node

/-! ## The receiver -/

/-- The requests of a pulled shard, parsed and executed.  `ParseFrom2` takes the distance
of a pointer to itself off the size. -/
def executePulled (kvarint : VarintCode) (w : World C) (fresh : Request) (size : Nat) :
    Nat → Bytes → DbState hash C → Option (DbState hash C)
  | 0, _, s => some s
  | n + 1, data, s => do
    let (request, data) ← Request.parseFromRaw kvarint size fresh data
    let (_, s) ← s.execute w 0 request none
    executePulled kvarint w fresh size n data s

/-- The response to a pull, when it says that the shard is there. -/
def onPulled (kvarint : VarintCode) (w : World C) (fresh : Request) (resp : ShardMessage)
    (node : m.Instances hash C) : Option (m.Instances hash C) := do
  let i := m.getShardDatabaseInstance resp.shardId
  let (_, node) ← onInstance node i (addShard w resp.shardId)
  match resp.data, resp.dataNum with
  | some data, some dataNum => do
    let db ← executePulled kvarint w fresh data.length dataNum data (node i).db
    return setDb node i db
  | _, _ => return node

def parsePushed (kvarint : VarintCode) (fresh : Request) : Nat → Bytes → Option (List Request)
  | 0, data => if data.length = 0 then some [] else none
  | n + 1, data => do
    let (request, data) ← Request.parseFromRaw kvarint data.length fresh data
    let requests ← parsePushed kvarint fresh n data
    return request :: requests

def executePushed (w : World C) : List Request → DbState hash C → Option (DbState hash C)
  | [], s => some s
  | request :: requests, s => do
    let (_, s) ← s.execute w 0 request none
    executePushed w requests s

/-- `OnPushShard`: the messages that it sends, and the node.  The response is made and not
sent. -/
def onPushShard (kvarint : VarintCode) (w : World C) (fresh : Request) (req : ShardMessage)
    (node : m.Instances hash C) : Option (List ShardMessage × m.Instances hash C) := do
  let i := m.getShardDatabaseInstance req.shardId
  let (hasShard, node) ← onInstance node i (ask fun σ => σ.hasShard req.shardId)
  if hasShard then none
  else do
    let requests ← parsePushed kvarint fresh (req.dataNum.getD 0) (req.data.getD [])
    let (_, node) ← onInstance node i (change fun σ => { σ with isIgnoreLockedShard := true })
    let db ← executePushed w requests (node i).db
    let (_, node) ← onInstance (setDb node i db) i
      (change fun σ => { σ with isIgnoreLockedShard := false })
    return ([], node)

/-! ## Joining and leaving -/

/-- One shard on its way: the worlds of the sender, of the receiver and of the deletion,
and what memory holds where nothing is initialised. -/
structure Turn (C : Type) where
  id : Nat
  source : World C
  target : World C
  deletion : World C
  dataType : Option DataType
  fresh : Request

/-- All shards are pulled, one after the other.  A response that tells to wait is the last
one. -/
def pullAll {m' : DatabaseManager} (kvarint : VarintCode) :
    List (Turn C) → SharderSession m → m.Instances hash C → m'.Instances hash C →
      Option (m.Instances hash C × m'.Instances hash C)
  | [], _, a, b => some (a, b)
  | turn :: turns, session, a, b => do
    let (r, a) ← onPullShard kvarint turn.source turn.dataType turn.id session a
    match r.1.status with
    | .wait => none
    | .ok => do
      let b ← onPulled kvarint turn.target turn.fresh r.1 b
      pullAll kvarint turns r.2 a b

def delAll : List (Turn C) → m.Instances hash C → Option (m.Instances hash C)
  | [], a => some a
  | turn :: turns, a => do
    let a ← onDelShard turn.deletion turn.id a
    delAll turns a

def join {m' : DatabaseManager} (kvarint : VarintCode) (turns : List (Turn C))
    (a : m.Instances hash C) (b : m'.Instances hash C) :
    Option (m.Instances hash C × m'.Instances hash C) := do
  let (a, b) ← pullAll kvarint turns ⟨[], 0⟩ a b
  let a ← delAll turns a
  return (a, b)

def lookup (makeShardId : Str → Nat) (node : m.Instances hash C) (k : Str) :
    Option (MmkvData hash) :=
  (node (m.getShardDatabaseInstance (makeShardId k))).db.abs.dict.get k

/-- The keys of the shards are on the joining node, and only there. -/
structure JoinKeepsData {m' : DatabaseManager} (makeShardId : Str → Nat) (shardNum : Nat)
    (ids : List Nat) (a a' : m.Instances hash C) (b' : m'.Instances hash C) : Prop where
  moved : ∀ k data, makeShardId k % shardNum ∈ ids → lookup makeShardId a k = some data →
    lookup makeShardId b' k = some data
  removed : ∀ k, makeShardId k % shardNum ∈ ids → lookup makeShardId a' k = none
  others : ∀ k, makeShardId k % shardNum ∉ ids →
    lookup makeShardId a' k = lookup makeShardId a k

structure Push (C : Type) extends Turn C where
  peer : Nat

/-- All shards are pushed.  Each node has its client.  With the nodes, the messages that
each push is answered by. -/
def pushAll {m' : Nat → DatabaseManager} (kvarint : VarintCode) :
    List (Push C) → (Nat → SharderSession m) → m.Instances hash C →
      ((j : Nat) → (m' j).Instances hash C) →
      Option (List (List ShardMessage) × m.Instances hash C × ((j : Nat) → (m' j).Instances hash C))
  | [], _, a, peers => some ([], a, peers)
  | push :: pushes, clients, a, peers => do
    let (r, a) ← putShard kvarint push.source push.dataType push.id (clients push.peer) a
    let (answer, peer) ← onPushShard kvarint push.target push.fresh r.1 (peers push.peer)
    let (answers, a, peers) ← pushAll kvarint pushes
      (Function.update clients push.peer r.2) a (Function.update peers push.peer peer)
    return (answer :: answers, a, peers)

/-- The leaving node pushes and deletes.  The indices of its clients are not
initialised. -/
def leave {m' : Nat → DatabaseManager} (kvarint : VarintCode) (w : World C)
    (pushes : List (Push C)) (indices : Nat → Nat) (a : m.Instances hash C)
    (peers : (j : Nat) → (m' j).Instances hash C) :
    Option (List (List ShardMessage) × m.Instances hash C ×
      ((j : Nat) → (m' j).Instances hash C)) := do
  let (answers, a, peers) ← pushAll kvarint pushes (fun j => ⟨[], indices j⟩) a peers
  let a ← handleLeaveConfChange w a
  return (answers, a, peers)

/-- The string keys are on the nodes of their shards, which own the shards, each push was
answered once, and the node that leaves is empty. -/
structure LeaveKeepsData {m' : Nat → DatabaseManager} (makeShardId : Str → Nat)
    (shardNum : Nat) (pushes : List (Push C)) (a a' : m.Instances hash C)
    (peers' : (j : Nat) → (m' j).Instances hash C) (answers : List (List ShardMessage)) :
    Prop where
  moved : ∀ k value, lookup makeShardId a k = some (.string value) →
    ∃ push ∈ pushes, push.id = makeShardId k % shardNum ∧
      lookup makeShardId (peers' push.peer) k = some (.string value)
  owned : ∀ push ∈ pushes,
    (peers' push.peer ((m' push.peer).getShardDatabaseInstance push.id)).db.side.hasShard
      push.id = true
  answered : ∀ answer ∈ answers, answer.length = 1
  empty : ∀ i k, (a' i).db.abs.dict.get k = none

end DatabaseManager

open Side

/-! ## What the sender keeps -/

theorem AbsDict.set_get {V : Type} {d : AbsDict V} {k : Str} {v : V}
    (hget : d.get k = some v) : d.set k v = d := by
  rw [AbsDict.set, ← hget, Function.update_eq_self]

namespace Db

variable {w : World C} {a : AbsDb hash C} {k : Str}

theorem ensures_checkExpireRoutine_lapsed {p : Db hash C Reply} (ha : a.Linked)
    (hlapsed : a.lapsed w k = true) :
    Ensures AbsDb.handler (checkExpireRoutine w k p) a fun _ b =>
      k ∈ a.side.names ∧ b.side.keys = (a.side.unlinkKey k).keys := by
  intro reply b hrun
  cases hget : a.dict.get k with
  | none =>
    rw [run_checkExpireRoutine_dangling hlapsed hget] at hrun
    cases hrun
  | some data =>
    unfold checkExpireRoutine at hrun
    rw [Program.run_bind_of_some (run_checkExpire_drop hlapsed hget)] at hrun
    cases hrun
    exact ⟨ha.mem_of_isSome (by simp [hget]), rfl⟩

theorem ensures_readValue {kind : DataKind hash τ} {out : τ → Output} (ha : a.Linked) :
    Ensures AbsDb.handler
      (onValue w ⟨false, true, false⟩ kind k fun x => some (.ok (out x), x)) a fun _ b =>
        (a.lapsed w k = true ∧ k ∈ a.side.names ∧ b.side.keys = (a.side.unlinkKey k).keys) ∨
        (a.lapsed w k = false ∧ b.dict = a.dict ∧ b.expDict = a.expDict ∧
          b.side.keys = a.side.keys ∧ b.side.shards = a.side.shards) := by
  cases hlapsed : a.lapsed w k with
  | true =>
    exact (ensures_checkExpireRoutine_lapsed ha hlapsed).mono fun _ _ h => .inl ⟨rfl, h⟩
  | false =>
    refine .step (run_checkExpire_current hlapsed) ?_
    simp only [Bool.false_eq_true, ↓reduceIte]
    refine .step run_find ?_
    cases hget : a.dict.get k with
    | none => exact .pure (.inr ⟨trivial, rfl, rfl, rfl, rfl⟩)
    | some data =>
      simp only [map_some]
      split
      next => exact .pure (.inr ⟨trivial, rfl, rfl, rfl, rfl⟩)
      next x hx =>
        obtain rfl := kind.get_eq_some.1 hx
        refine .step (run_cacheUpdate (k := k)) ?_
        refine .step rfl ?_
        refine .step (run_write (a := { a with side := a.side.touch w k }) hget _) ?_
        refine .step rfl (.pure (.inr ⟨trivial, ?_, rfl, ?_, ?_⟩))
        · exact AbsDict.set_get hget
        · exact keys_touch w k a.side
        · exact shards_touch w k a.side

theorem ensures_delete_filed (ha : a.Linked) (hsharder : w.config.isSharder = true)
    {addr : Addr} (haddr : (addr, k) ∈ a.side.keys) :
    Ensures AbsDb.handler (checkShardIsLockedKey w k (delete w k)) a fun _ b =>
      b = a ∨ b.side.shardSet (w.makeShardId k) =
        (a.side.shardSet (w.makeShardId k)).erase addr := by
  obtain ⟨code, -, hcheck⟩ := run_checkShardIsLockedKey (w := w) (a := a) (k := k) (delete w k)
  intro _ b hrun
  rw [hcheck] at hrun
  split at hrun
  · cases hget : a.dict.get k with
    | none =>
      cases (run_delete_absent hget).symm.trans hrun
      exact .inl rfl
    | some data =>
      cases (run_delete_stored hget).symm.trans hrun
      refine .inr ?_
      have hshards : (((a.side.unfile w k).uncache w k).unlinkKey k).shards =
          (a.side.unfile w k).shards := shards_uncache w k _
      refine (shardSet_congr hshards _).trans ?_
      rw [shardSet_unfile hsharder (ha.distinct.addressOf_iff.2 haddr), if_pos rfl]
  · cases hrun
    exact .inl rfl

end Db

namespace DbState

variable {U : Set Str} {w : World C} {s s' s'' : DbState hash C}

structure SameKeys (U : Set Str) (s s' : DbState hash C) : Prop where
  keysIn : s'.KeysIn U
  dict : s'.abs.dict = s.abs.dict
  keys : s'.side.keys = s.side.keys
  sets : ∀ id, s'.side.shardSet id = s.side.shardSet id ∨ s'.side.shardSet id = []

namespace SameKeys

theorem refl (hs : s.KeysIn U) : SameKeys U s s := ⟨hs, rfl, rfl, fun _ => .inl rfl⟩

theorem trans (h : SameKeys U s s') (h' : SameKeys U s' s'') : SameKeys U s s'' where
  keysIn := h'.keysIn
  dict := h'.dict.trans h.dict
  keys := h'.keys.trans h.keys
  sets id := by
    obtain heq | hempty := h'.sets id
    · rw [heq]
      exact h.sets id
    · exact .inr hempty

theorem linked (h : SameKeys U s s') (hs : s.abs.Linked) : s'.abs.Linked :=
  hs.of_eq h.keys fun k => by rw [h.dict]

theorem of_sameIndex (hs : s.KeysIn U) (h : SameIndex s s') : SameKeys U s s' where
  keysIn :=
    { dict := by
        rw [h.dict]
        exact hs.dict
      expDict := by
        rw [h.expDict]
        exact hs.expDict
      side := by
        rw [Side.KeysIn, h.keys]
        exact hs.side }
  dict := by rw [abs, abs, h.dict]
  keys := h.keys
  sets id := .inl (h.sets id)

theorem of_abs (hs : s'.KeysIn U) (h : s'.abs = s.abs) : SameKeys U s s' where
  keysIn := hs
  dict := congrArg AbsDb.dict h
  keys := congrArg (fun b : AbsDb hash C => b.side.keys) h
  sets id := .inl (congrArg (fun b : AbsDb hash C => b.side.shardSet id) h)

end SameKeys

variable {c : Command}

theorem ensures_command (hU : Separated U) (hs : s.KeysIn U) (hkeys : ∀ k ∈ c.keys w, k ∈ U)
    {Q : AbsDb hash C → Prop} (h : Ensures AbsDb.handler (c.run w) s.abs fun _ b => Q b) :
    Ensures handler (c.run w) s fun _ s' => s'.KeysIn U ∧ Q s'.abs := by
  intro reply s' hrun
  obtain ⟨hrun', hin⟩ := abs_exec hU hkeys hs hrun
  exact ⟨hin, h _ _ hrun'⟩

/-- The addresses in the sets are those of keys with the hash of the set, each once. -/
structure Files (makeShardId : Str → Nat) (s : DbState hash C) : Prop where
  nodup : ∀ id, (s.side.shardSet id).Nodup
  live : ∀ id, ∀ a ∈ s.side.shardSet id, ∃ k, (a, k) ∈ s.side.keys ∧ makeShardId k = id

variable {makeShardId : Str → Nat}

theorem SameKeys.files (h : SameKeys U s s') (hs : s.Files makeShardId) : s'.Files makeShardId where
  nodup id := by
    obtain heq | hempty := h.sets id
    · rw [heq]
      exact hs.nodup id
    · grind
  live id a ha := by
    obtain heq | hempty := h.sets id
    · rw [heq] at ha
      rw [h.keys]
      exact hs.live id a ha
    · grind

structure Intact (U : Set Str) (makeShardId : Str → Nat) (s : DbState hash C) : Prop where
  keysIn : s.KeysIn U
  linked : s.abs.Linked
  files : s.Files makeShardId

theorem SameKeys.intact (h : SameKeys U s s') (hs : s.Intact U makeShardId) :
    s'.Intact U makeShardId :=
  ⟨h.keysIn, h.linked hs.linked, h.files hs.files⟩

variable {k : Str}

theorem KeysIn.of_mem_keys (hs : s.KeysIn U) {a : Addr} (hmem : (a, k) ∈ s.side.keys) : k ∈ U :=
  hs.side _ hmem

/-- The loop of `RemoveShard` comes to its end only if nothing is deleted. -/
theorem ensures_deleteShardKeys (hU : Separated U) (hs : s.Intact U w.makeShardId)
    (hsharder : w.config.isSharder = true) {id : Nat}
    (hkeys : ∀ a ∈ keys, a ∈ s.side.shardSet id) :
    Ensures handler (deleteShardKeys w id keys) s fun _ s' => SameKeys U s s' := by
  induction keys generalizing s with
  | nil => exact .pure (.refl hs.keysIn)
  | cons a keys ih =>
    apply ensures_query
    obtain ⟨k, hmem, hid⟩ := hs.files.live id a (hkeys a (.head _))
    have hat : s.side.keyAt a = some k := hs.linked.distinct.keyAt_iff.2 hmem
    rw [hat]
    have hdelete := ensures_delete_filed hs.linked hsharder hmem
    refine (ensures_command hU hs.keysIn (c := .delete k) ?_ hdelete).bind ?_
    · exact forall_mem_singleton.2 (hs.keysIn.of_mem_keys hmem)
    rintro _ t ⟨ht, hsame | herase⟩
    · have hst : SameKeys U s t := .of_abs ht hsame
      apply ensures_query
      refine .ite (fun _ => ?_) fun _ => .abort
      have hsets : t.side = s.side := congrArg AbsDb.side hsame
      refine (ih (hst.intact hs) ?_).mono fun _ _ htu => hst.trans htu
      grind
    · -- The key is no longer in the set.
      apply ensures_query
      refine .ite (fun hstays => ?_) fun _ => .abort
      have hset : t.side.shardSet id = (s.side.shardSet id).erase a := by
        rw [← hid]
        exact herase
      rw [hset, decide_eq_true_eq] at hstays
      exact absurd rfl ((hs.files.nodup id).mem_erase_iff.1 hstays).1

theorem shardSet_eraseShard_or (σ : Side C) (id id' : Nat) :
    (σ.eraseShard id).shardSet id' = σ.shardSet id' ∨ (σ.eraseShard id).shardSet id' = [] := by
  by_cases hid : id' = id
  · right
    rw [hid, shardSet, findShard_eraseShard_self]
    rfl
  · left
    rw [shardSet, shardSet, findShard_eraseShard hid]

theorem ensures_removeShard_kept (hU : Separated U) (hs : s.Intact U w.makeShardId)
    (hsharder : w.config.isSharder = true) (id : Nat) :
    Ensures handler (removeShard w id) s fun _ s' => SameKeys U s s' := by
  refine .ite (fun _ => ?_) fun h => absurd hsharder h
  apply ensures_query
  split
  next => exact .abort
  next keys hfind =>
    have hset : s.side.shardSet id = keys := by rw [shardSet, hfind, getD_some]
    refine (ensures_deleteShardKeys hU hs hsharder (by rw [hset]; exact fun _ h => h)).bind ?_
    intro _ t hst _ t' hrun
    cases hrun
    refine hst.trans ⟨⟨hst.keysIn.dict, hst.keysIn.expDict, hst.keysIn.side⟩, rfl, rfl, ?_⟩
    exact shardSet_eraseShard_or t.side id

theorem ensures_read (hU : Separated U) (hs : s.Intact U w.makeShardId) (hk : k ∈ U)
    {kind : DataKind hash τ} {out : τ → Output}
    (hc : (c.action w.now : Action hash) =
      .onValue ⟨false, true, false⟩ kind k fun x => some (.ok (out x), x))
    (hkeys : c.keys w = [k]) :
    Ensures handler (c.run w) s fun _ s' =>
      (s.abs.lapsed w k = true ∧ k ∈ s.side.names ∧ s'.side.keys = (s.side.unlinkKey k).keys) ∨
      (s.abs.lapsed w k = false ∧ s'.abs.lapsed w k = false ∧ SameKeys U s s') := by
  have hread : Ensures AbsDb.handler (c.run w) s.abs fun _ b =>
      (s.abs.lapsed w k = true ∧ k ∈ s.abs.side.names ∧
        b.side.keys = (s.abs.side.unlinkKey k).keys) ∨
      (s.abs.lapsed w k = false ∧ b.dict = s.abs.dict ∧ b.expDict = s.abs.expDict ∧
        b.side.keys = s.abs.side.keys ∧ b.side.shards = s.abs.side.shards) := by
    rw [Command.run, hc]
    exact ensures_readValue hs.linked
  refine (ensures_command hU hs.keysIn ?_ hread).mono ?_
  · grind
  · rintro _ t ⟨ht, hlapsed | ⟨hlapsed, hdict, hexp, hkeys, hshards⟩⟩
    · exact .inl hlapsed
    · refine .inr ⟨hlapsed, ?_, ht, hdict, hkeys, fun id => .inl ?_⟩
      · rw [AbsDb.lapsed, AbsDb.expired, hexp]
        exact hlapsed
      · exact shardSet_congr hshards id

end DbState

namespace DatabaseManager

variable {U : Set Str} {makeShardId : Str → Nat} {node node' node'' : m.Instances hash C}
  {i : Fin m.size} {w : World C} {kvarint : VarintCode} {α : Type} {p : Db hash C α} {x : α}

theorem onInstance_eq_some : onInstance node i p = some (x, node') ↔
      ∃ s', p.run handler (node i).db = some (x, s') ∧ setDb node i s' = node' := by
  simp only [onInstance, map_eq_some_iff, Prod.mk.injEq]
  grind

def Kept (U : Set Str) (node node' : m.Instances hash C) : Prop :=
  ∀ i, (node i).db.SameKeys U (node' i).db

/-- All instances are intact and hold only keys that belong there. -/
structure Intact (U : Set Str) (makeShardId : Str → Nat) (node : m.Instances hash C) :
    Prop where
  db : ∀ i, (node i).db.Intact U makeShardId
  routed : ∀ i, ∀ k ∈ (node i).db.side.names, m.getShardDatabaseInstance (makeShardId k) = i

theorem Kept.refl (h : Intact U makeShardId node) : Kept U node node :=
  fun i => .refl (h.db i).keysIn

theorem Kept.trans (h : Kept U node node') (h' : Kept U node' node'') : Kept U node node'' :=
  fun i => (h i).trans (h' i)

theorem Kept.intact (h : Kept U node node') (hnode : Intact U makeShardId node) :
    Intact U makeShardId node' where
  db i := (h i).intact (hnode.db i)
  routed i := by
    rw [names_congr (h i).keys]
    exact hnode.routed i

theorem Kept.lookup_eq (h : Kept U node node') (k : Str) :
    lookup makeShardId node' k = lookup makeShardId node k := by
  rw [lookup, lookup, (h _).dict]

theorem Intact.kept_setDb (hnode : Intact U makeShardId node)
    (h : (node i).db.SameKeys U s) : Kept U node (setDb node i s) := by
  intro j
  by_cases hj : j = i
  · subst hj
    rw [db_setDb_self]
    exact h
  · rw [db_setDb_of_ne hj]
    exact .refl (hnode.db j).keysIn

theorem Intact.kept_onInstance (hnode : Intact U makeShardId node)
    (hp : Ensures handler p (node i).db fun _ s' => (node i).db.SameKeys U s')
    (hrun : onInstance node i p = some (x, node')) : Kept U node node' := by
  obtain ⟨s', hstep, rfl⟩ := onInstance_eq_some.1 hrun
  exact hnode.kept_setDb (hp _ _ hstep)

variable {pointer : Fin m.size × Addr} {k : Str}

theorem deref_eq_some (hnode : Intact U makeShardId node) :
    deref node pointer = some k ↔ (pointer.2, k) ∈ (node pointer.1).db.side.keys :=
  (hnode.db pointer.1).linked.distinct.keyAt_iff

theorem Intact.read (hU : Separated U) (hnode : Intact U w.makeShardId node)
    (hderef : deref node pointer = some k) {c : Command} {kind : DataKind hash τ}
    {out : τ → Output} (hc : (c.action w.now : Action hash) =
      .onValue ⟨false, true, false⟩ kind k fun x => some (.ok (out x), x)) (hkeys : c.keys w = [k])
    {reply : Reply} (hrun : onInstance node i (c.run w) = some (reply, node')) :
    ((node i).db.abs.lapsed w k = true ∧ deref node' pointer = none) ∨
      ((node i).db.abs.lapsed w k = false ∧ (node' i).db.abs.lapsed w k = false ∧
        Kept U node node') := by
  have hmem := (deref_eq_some hnode).1 hderef
  have hk : k ∈ U := (hnode.db _).keysIn.of_mem_keys hmem
  obtain ⟨s', hstep, rfl⟩ := onInstance_eq_some.1 hrun
  obtain ⟨hlapsed, hname, hunlink⟩ | ⟨hlapsed, hlapsed', hsame⟩ :=
    ensures_read hU (hnode.db i) hk hc hkeys _ _ hstep
  · -- The instance of the pointer is the one that dropped the key.
    have hpointer : pointer.1 = i :=
      (hnode.routed _ k (mem_map_of_mem hmem)).symm.trans (hnode.routed i k hname)
    subst hpointer
    refine .inl ⟨hlapsed, ?_⟩
    have hdistinct : (node pointer.1).db.side.Distinct := (hnode.db _).linked.distinct
    rw [deref, db_setDb_self, eq_none_iff_forall_ne_some]
    intro k' hk'
    have hdistinct' : s'.side.Distinct := (hdistinct.unlinkKey k).of_keys_eq hunlink
    have hmem' := hdistinct'.keyAt_iff.1 hk'
    rw [hunlink, mem_keys_unlinkKey hdistinct] at hmem'
    have heq := (hdistinct.keyAt_iff.2 hmem'.1).symm.trans (hdistinct.keyAt_iff.2 hmem)
    exact hmem'.2 (Option.some.inj heq)
  · rw [db_setDb_self]
    exact .inr ⟨hlapsed, hlapsed', hnode.kept_setDb hsame⟩

variable {dataType : Option DataType}

theorem kept_serialize (hU : Separated U) {keys : List (Fin m.size × Addr)}
    {msg msg' : ShardMessage} (hnode : Intact U w.makeShardId node)
    (hrun : serializeMmbpDataToSharderRequest kvarint w i keys dataType msg node =
      some (msg', node')) : Kept U node node' := by
  induction keys generalizing dataType msg node with
  | nil =>
    cases hrun
    exact .refl hnode
  | cons pointer keys ih =>
    obtain ⟨k, hderef, hrun⟩ := bind_eq_some_iff.1 hrun
    obtain ⟨⟨reply, node1⟩, htype, hrun⟩ := bind_eq_some_iff.1 hrun
    dsimp only at hrun
    split at hrun
    next =>
      obtain ⟨k', hderef', hrun⟩ := bind_eq_some_iff.1 hrun
      obtain ⟨⟨reply', node2⟩, hgetStr, hrun⟩ := bind_eq_some_iff.1 hrun
      obtain ⟨-, hdangling⟩ | ⟨-, hcurrent, hkept⟩ := hnode.read hU hderef rfl rfl htype
      · grind
      · have hnode1 := hkept.intact hnode
        obtain rfl : k = k' := by
          rw [deref_eq_some hnode1, (hkept _).keys, ← deref_eq_some hnode, hderef] at hderef'
          exact Option.some.inj hderef'
        obtain ⟨hlapsed, -⟩ | ⟨-, -, hkept'⟩ := hnode1.read hU hderef' rfl rfl hgetStr
        · grind
        · exact hkept.trans (hkept'.trans (ih (hkept'.intact hnode1) hrun))
    next => cases hrun

variable {id : Nat} {session : SharderSession m}

theorem kept_sendShard (hU : Separated U) (hnode : Intact U w.makeShardId node)
    {r : ShardCode × ShardMessage × SharderSession m}
    (hrun : sendShard kvarint w dataType id session node = some (r, node')) :
    Kept U node node' := by
  obtain ⟨⟨_, node1⟩, hlock, hrun⟩ := bind_eq_some_iff.1 hrun
  have hkept : Kept U node node1 := hnode.kept_onInstance
    (ensures_lockShard.mono fun _ _ h => .of_sameIndex (hnode.db _).keysIn h) hlock
  have hnode1 := hkept.intact hnode
  obtain ⟨⟨r1, node2⟩, hkeys, hrun⟩ := bind_eq_some_iff.1 hrun
  have hkept' : Kept U node1 node2 := hnode1.kept_onInstance
    (ensures_getShardKeys.mono fun _ _ h => by
      rw [h.1]
      exact .refl (hnode1.db _).keysIn) hkeys
  dsimp only at hrun
  split at hrun
  next =>
    obtain ⟨⟨msg, node3⟩, hserialize, hrun⟩ := bind_eq_some_iff.1 hrun
    cases hrun
    exact hkept.trans (hkept'.trans (kept_serialize hU (hkept'.intact hnode1) hserialize))
  next =>
    cases hrun
    exact hkept.trans hkept'

theorem kept_onPullShard (hU : Separated U) (hnode : Intact U w.makeShardId node)
    {r : ShardMessage × SharderSession m}
    (hrun : onPullShard kvarint w dataType id session node = some (r, node')) :
    Kept U node node' := by
  obtain ⟨⟨r1, node1⟩, hsend, hrun⟩ := bind_eq_some_iff.1 hrun
  cases hrun
  exact kept_sendShard hU hnode hsend

theorem kept_onDelShard (hU : Separated U) (hnode : Intact U w.makeShardId node)
    (hsharder : w.config.isSharder = true) (hrun : onDelShard w id node = some node') :
    Kept U node node' := by
  obtain ⟨⟨_, node1⟩, hremove, hrun⟩ := bind_eq_some_iff.1 hrun
  have hkept : Kept U node node1 := hnode.kept_onInstance
    (ensures_removeShard_kept hU (hnode.db _) hsharder id) hremove
  have hnode1 := hkept.intact hnode
  obtain ⟨⟨_, node2⟩, hunlock, hrun⟩ := bind_eq_some_iff.1 hrun
  have hkept' : Kept U node1 node2 := hnode1.kept_onInstance
    (ensures_unlockShard.mono fun _ _ h => .of_sameIndex (hnode1.db _).keysIn h) hunlock
  cases hrun
  exact hkept.trans hkept'

end DatabaseManager

/-- The world of a sharder with the hash and the number of shards. -/
structure World.Shards (makeShardId : Str → Nat) (shardNum : Nat) (w : World C) : Prop where
  isSharder : w.config.isSharder = true
  makeShardId : w.makeShardId = makeShardId
  shardNum : w.config.shardNum = shardNum

namespace DatabaseManager

variable {U : Set Str} {makeShardId : Str → Nat} {shardNum : Nat} {kvarint : VarintCode}
  {m' : DatabaseManager} {turns : List (Turn C)} {a a' : m.Instances hash C}
  {b b' : m'.Instances hash C}

def Turn.Shards (makeShardId : Str → Nat) (shardNum : Nat) (turn : Turn C) : Prop :=
  turn.source.Shards makeShardId shardNum ∧ turn.deletion.Shards makeShardId shardNum

section

variable (hU : Separated U) (hturns : ∀ turn ∈ turns, turn.Shards makeShardId shardNum)
  (ha : Intact U makeShardId a)
include hU hturns ha

theorem kept_pullAll {session : SharderSession m}
    (hrun : pullAll kvarint turns session a b = some (a', b')) : Kept U a a' := by
  induction turns generalizing session a b with
  | nil =>
    cases hrun
    exact .refl ha
  | cons turn turns ih =>
    obtain ⟨⟨r, a1⟩, hpull, hrun⟩ := bind_eq_some_iff.1 hrun
    have hid := (hturns turn (.head _)).1.makeShardId
    have hkept : Kept U a a1 := kept_onPullShard hU (by rw [hid]; exact ha) hpull
    dsimp only at hrun
    split at hrun
    next => cases hrun
    next =>
      obtain ⟨b1, -, hrun⟩ := bind_eq_some_iff.1 hrun
      exact hkept.trans (ih (fun turn h => hturns turn (.tail _ h)) (hkept.intact ha) hrun)

theorem kept_delAll (hrun : delAll turns a = some a') : Kept U a a' := by
  induction turns generalizing a with
  | nil =>
    cases hrun
    exact .refl ha
  | cons turn turns ih =>
    obtain ⟨a1, hdel, hrun⟩ := bind_eq_some_iff.1 hrun
    have hworld := (hturns turn (.head _)).2
    have hkept : Kept U a a1 :=
      kept_onDelShard hU (by rw [hworld.makeShardId]; exact ha) hworld.isSharder hdel
    exact hkept.trans (ih (fun turn h => hturns turn (.tail _ h)) (hkept.intact ha) hrun)

theorem kept_join (hrun : join kvarint turns a b = some (a', b')) : Kept U a a' := by
  obtain ⟨⟨a1, b1⟩, hpull, hrun⟩ := bind_eq_some_iff.1 hrun
  obtain ⟨a2, hdel, hrun⟩ := bind_eq_some_iff.1 hrun
  cases hrun
  have hkept := kept_pullAll hU hturns ha hpull
  exact hkept.trans (kept_delAll hU hturns (hkept.intact ha) hdel)

end

end DatabaseManager

/-! ## Shards without keys -/

def Side.EmptyShard (id : Nat) (locked : Bool) (σ : Side C) : Prop :=
  σ.findShard id = some [] ∧ decide (id ∈ σ.lockedShards) = locked

namespace Db

variable {s : DbState hash C} {id : Nat} {w : World C}

theorem run_query {α β : Type} (f : Side C → α) (p : α → Db hash C β) :
    (ask f >>= p).run handler s = (p (f s.side)).run handler s := by
  have hask : (ask f : Db hash C α).run handler s = some (f s.side, s) := rfl
  rw [Program.run_bind_of_some hask]

theorem run_lockShard (hid : id ∉ s.side.lockedShards) : (lockShard id).run handler s =
      some ((), { s with side := { s.side with lockedShards := id :: s.side.lockedShards } }) := by
  unfold lockShard
  rw [run_query, decide_eq_false hid]
  rfl

theorem run_unlockShard (hid : id ∈ s.side.lockedShards) : (unlockShard id).run handler s =
      some ((), { s with side :=
        { s.side with lockedShards := s.side.lockedShards.erase id } }) := by
  unfold unlockShard
  rw [run_query, decide_eq_true hid]
  rfl

theorem run_getShardKeys (hsharder : w.config.isSharder = true)
    (hid : s.side.findShard id = some keys) :
    (getShardKeys w id).run handler s = some ((.ok, keys), s) := by
  unfold getShardKeys
  rw [if_pos hsharder, run_query, hid]
  rfl

theorem run_removeShard_empty (hsharder : w.config.isSharder = true)
    (hid : s.side.findShard id = some []) :
    (removeShard w id).run handler s =
      some ((), { s with side := s.side.eraseShard id }) := by
  unfold removeShard
  rw [if_pos hsharder, run_query, hid]
  rfl

theorem run_addShard (w : World C) (id : Nat) (s : DbState hash C) :
    ∃ s', (addShard w id).run handler s = some ((), s') := by
  unfold addShard
  split
  · exact ⟨_, rfl⟩
  · exact ⟨_, rfl⟩

end Db

namespace DatabaseManager

variable {node : m.Instances hash C} {kvarint : VarintCode} {w : World C} {id : Nat}

def EmptyShard (id : Nat) (locked : Bool) (node : m.Instances hash C) : Prop :=
  (node (m.getShardDatabaseInstance id)).db.side.EmptyShard id locked

variable {i : Fin m.size} {s : DbState hash C} {α : Type} {p : Db hash C α} {x : α}

theorem run_onInstance (hrun : p.run handler (node i).db = some (x, s)) :
    onInstance node i p = some (x, setDb node i s) :=
  onInstance_eq_some.2 ⟨s, hrun, rfl⟩

theorem run_onInstance_setDb {s' : DbState hash C} (hrun : p.run handler s = some (x, s')) :
    onInstance (setDb node i s) i p = some (x, setDb node i s') := by
  rw [← setDb_setDb s s']
  apply run_onInstance
  rw [db_setDb_self]
  exact hrun

theorem EmptyShard.setDb {locked : Bool} (h : EmptyShard id locked node)
    (hfind : s.side.findShard id = (node i).db.side.findShard id)
    (hlocked : id ∈ s.side.lockedShards ↔ id ∈ (node i).db.side.lockedShards) :
    EmptyShard id locked (setDb node i s) := by
  unfold EmptyShard at h ⊢
  by_cases hi : m.getShardDatabaseInstance id = i
  · subst hi
    rw [db_setDb_self]
    refine ⟨hfind.trans h.1, ?_⟩
    rw [decide_eq_decide.2 hlocked]
    exact h.2
  · rw [db_setDb_of_ne hi]
    exact h

theorem sendShard_empty (kvarint : VarintCode) (hsharder : w.config.isSharder = true)
    (hid : EmptyShard id false node) (dataType : Option DataType) :
    ∃ node', sendShard kvarint w dataType id ⟨[], 0⟩ node =
        some ((.ok, .new, ⟨[], 0⟩), node') ∧
      EmptyShard id true node' ∧
      ∀ id' ≠ id, ∀ locked, EmptyShard id' locked node → EmptyShard id' locked node' := by
  let i := m.getShardDatabaseInstance id
  let s := (node i).db
  let s1 : DbState hash C :=
    { s with side := { s.side with lockedShards := id :: s.side.lockedShards } }
  have hlock : onInstance node i (lockShard id) = some ((), setDb node i s1) :=
    run_onInstance (run_lockShard (of_decide_eq_false hid.2))
  have hkeys : onInstance (setDb node i s1) i (getShardKeys w id) =
      some ((.ok, []), setDb node i s1) :=
    run_onInstance_setDb (run_getShardKeys hsharder hid.1)
  refine ⟨setDb node i s1, ?_, ?_, ?_⟩
  · unfold sendShard
    refine bind_eq_some_iff.2 ⟨_, hlock, ?_⟩
    refine bind_eq_some_iff.2 ⟨_, hkeys, ?_⟩
    rfl
  · rw [EmptyShard, db_setDb_self]
    exact ⟨hid.1, decide_eq_true (.head _)⟩
  · intro id' hne locked h
    have hmem : id' ∈ s1.side.lockedShards ↔ id' ∈ s.side.lockedShards := by
      simp [s1, hne]
    exact h.setDb rfl hmem

theorem onDelShard_empty (hsharder : w.config.isSharder = true) (hid : EmptyShard id true node) :
    ∃ node', onDelShard w id node = some node' ∧
      ∀ id' ≠ id, ∀ locked, EmptyShard id' locked node → EmptyShard id' locked node' := by
  let i := m.getShardDatabaseInstance id
  let s := (node i).db
  let s1 : DbState hash C := { s with side := s.side.eraseShard id }
  let s2 : DbState hash C :=
    { s1 with side := { s1.side with lockedShards := s1.side.lockedShards.erase id } }
  have hremove : onInstance node i (removeShard w id) = some ((), setDb node i s1) :=
    run_onInstance (run_removeShard_empty hsharder hid.1)
  have hunlock : onInstance (setDb node i s1) i (unlockShard id) =
      some ((), setDb node i s2) :=
    run_onInstance_setDb (run_unlockShard (of_decide_eq_true hid.2))
  refine ⟨setDb node i s2, ?_, ?_⟩
  · unfold onDelShard
    grind
  · intro id' hne locked h
    have hfind : (s.side.eraseShard id).findShard id' = s.side.findShard id' :=
      findShard_eraseShard hne
    exact h.setDb hfind (mem_erase_of_ne hne)

theorem onPulled_empty (kvarint : VarintCode) (w : World C) (fresh : Request)
    {resp : ShardMessage} (hdata : resp.data = none) (node : m.Instances hash C) :
    ∃ node', onPulled kvarint w fresh resp node = some node' := by
  obtain ⟨s, hadd⟩ := run_addShard w resp.shardId
    (node (m.getShardDatabaseInstance resp.shardId)).db
  refine ⟨setDb node (m.getShardDatabaseInstance resp.shardId) s, ?_⟩
  refine bind_eq_some_iff.2 ⟨_, run_onInstance hadd, ?_⟩
  rw [hdata]
  rfl

variable {m' : DatabaseManager} {turns : List (Turn C)} {makeShardId : Str → Nat}
  {shardNum : Nat} {a : m.Instances hash C}

theorem pullAll_empty (kvarint : VarintCode)
    (hturns : ∀ turn ∈ turns, turn.Shards makeShardId shardNum)
    (hnodup : (turns.map Turn.id).Nodup) (hempty : ∀ turn ∈ turns, EmptyShard turn.id false a)
    (b : m'.Instances hash C) :
    ∃ a' b', pullAll kvarint turns ⟨[], 0⟩ a b = some (a', b') ∧
      (∀ turn ∈ turns, EmptyShard turn.id true a') ∧
      ∀ id ∉ turns.map Turn.id, ∀ locked, EmptyShard id locked a → EmptyShard id locked a' := by
  induction turns generalizing a b with
  | nil => exact ⟨a, b, rfl, by simp, fun _ _ _ h => h⟩
  | cons turn turns ih =>
    obtain ⟨hid, hnodup⟩ := nodup_cons.1 hnodup
    obtain ⟨a1, hsend, hlocked, hothers⟩ := sendShard_empty kvarint
      (hturns turn (.head _)).1.isSharder (hempty turn (.head _)) turn.dataType
    let resp : ShardMessage := { ShardMessage.new with shardId := turn.id }
    have hdata : resp.data = none := rfl
    obtain ⟨b1, hpulled⟩ := onPulled_empty kvarint turn.target turn.fresh hdata b
    have hne : ∀ turn' ∈ turns, turn'.id ≠ turn.id := by grind
    obtain ⟨a', b', hrun, hall, hframe⟩ := ih (fun t ht => hturns t (.tail _ ht)) hnodup
      (fun t ht => hothers t.id (hne t ht) false (hempty t (.tail _ ht))) b1
    refine ⟨a', b', ?_, ?_, ?_⟩
    · refine bind_eq_some_iff.2 ⟨((resp, ⟨[], 0⟩), a1), ?_, ?_⟩
      · exact bind_eq_some_iff.2 ⟨_, hsend, rfl⟩
      · exact bind_eq_some_iff.2 ⟨b1, hpulled, hrun⟩
    · grind
    · grind

theorem delAll_empty (hturns : ∀ turn ∈ turns, turn.Shards makeShardId shardNum)
    (hnodup : (turns.map Turn.id).Nodup) (hempty : ∀ turn ∈ turns, EmptyShard turn.id true a) :
    ∃ a', delAll turns a = some a' := by
  induction turns generalizing a with
  | nil => exact ⟨a, rfl⟩
  | cons turn turns ih =>
    obtain ⟨hid, hnodup⟩ := nodup_cons.1 hnodup
    obtain ⟨a1, hdel, hothers⟩ :=
      onDelShard_empty (hturns turn (.head _)).2.isSharder (hempty turn (.head _))
    have hempty1 : ∀ t ∈ turns, EmptyShard t.id true a1 := by grind
    obtain ⟨a', hrun⟩ := ih (fun t ht => hturns t (.tail _ ht)) hnodup hempty1
    exact ⟨a', bind_eq_some_iff.2 ⟨a1, hdel, hrun⟩⟩

variable {U : Set Str}

theorem Intact.emptyShard (ha : Intact U makeShardId a)
    (hshard : (a (m.getShardDatabaseInstance id)).db.side.hasShard id = true)
    (hlocked : id ∉ (a (m.getShardDatabaseInstance id)).db.side.lockedShards)
    (hnone : ∀ k, makeShardId k = id → lookup makeShardId a k = none) : EmptyShard id false a := by
  rw [hasShard_iff_findShard] at hshard
  obtain ⟨keys, hkeys⟩ := isSome_iff_exists.1 hshard
  refine ⟨?_, decide_eq_false hlocked⟩
  have hdb := ha.db (m.getShardDatabaseInstance id)
  rw [hkeys, Option.some.injEq, eq_nil_iff_forall_not_mem]
  intro addr haddr
  have hset : addr ∈ (a (m.getShardDatabaseInstance id)).db.side.shardSet id := by
    rw [shardSet, hkeys]
    exact haddr
  obtain ⟨k, hmem, rfl⟩ := hdb.files.live id addr hset
  have hstored := ((hdb.linked.mem_names k).1 (mem_map_of_mem hmem)).resolve_right not_mem_nil
  have hget : lookup makeShardId a k = none := hnone k rfl
  rw [lookup] at hget
  rw [hget] at hstored
  cases hstored

/-- A join moves the data only if there is none: the shard is still locked when its keys
are to be deleted. -/
theorem join_keepsData_iff (hU : Separated U) (ha : Intact U makeShardId a)
    (hturns : ∀ turn ∈ turns, turn.Shards makeShardId shardNum)
    (hnodup : (turns.map Turn.id).Nodup) (hlt : ∀ turn ∈ turns, turn.id < shardNum)
    (hshards : ∀ turn ∈ turns,
      (a (m.getShardDatabaseInstance turn.id)).db.side.hasShard turn.id = true ∧
        turn.id ∉ (a (m.getShardDatabaseInstance turn.id)).db.side.lockedShards)
    (b : m'.Instances hash C) :
    (∃ a' b', join kvarint turns a b = some (a', b') ∧
        JoinKeepsData makeShardId shardNum (turns.map Turn.id) a a' b') ↔
      ∀ k, makeShardId k % shardNum ∈ turns.map Turn.id → lookup makeShardId a k = none := by
  constructor
  · rintro ⟨a', b', hrun, hkeeps⟩ k hk
    rw [← (kept_join hU hturns ha hrun).lookup_eq k]
    exact hkeeps.removed k hk
  · intro hnone
    have hempty : ∀ turn ∈ turns, EmptyShard turn.id false a := by
      intro turn hturn
      refine ha.emptyShard (hshards turn hturn).1 (hshards turn hturn).2 ?_
      intro k hk
      apply hnone k
      rw [hk, Nat.mod_eq_of_lt (hlt turn hturn)]
      exact mem_map_of_mem hturn
    obtain ⟨a₁, b', hpull, hlocked, -⟩ := pullAll_empty kvarint hturns hnodup hempty b
    obtain ⟨a', hdel⟩ := delAll_empty hturns hnodup hlocked
    have hrun : join kvarint turns a b = some (a', b') :=
      bind_eq_some_iff.2 ⟨_, hpull, bind_eq_some_iff.2 ⟨_, hdel, rfl⟩⟩
    have hkept := kept_join hU hturns ha hrun
    refine ⟨a', b', hrun, ?_, ?_, ?_⟩
    · grind
    · intro k hk
      rw [hkept.lookup_eq k]
      exact hnone k hk
    · exact fun k _ => hkept.lookup_eq k

def single : DatabaseManager :=
  ⟨.distributed, 0, fun _ => 0, .shared⟩

def oneInstance (db : DbState hash C) : single.Instances hash C :=
  fun _ => ⟨db, .free⟩

def firstTurn (makeShardId : Str → Nat) : Turn Unit where
  id := 1
  source := .sharding makeShardId 0
  target := .sharding makeShardId 0
  deletion := .sharding makeShardId 0
  dataType := none
  fresh := Request.new 0 0 0

end DatabaseManager

theorem DbState.IndexInvariant.intact {U : Set Str} {makeShardId : Str → Nat}
    {shardNum : Nat} (hs : s.IndexInvariant U makeShardId shardNum) :
    s.Intact U makeShardId where
  keysIn := hs.keysIn
  linked := hs.linked
  files :=
    { nodup := hs.wellFiled.indexed.nodup
      live := fun id a => (hs.wellFiled.indexed.mem_iff id a).1 }

namespace DatabaseManager

/-- A shard without keys is moved, from a node with a key in another shard. -/
theorem emptyShard_joined :
    ∃ (s : DbState (fun _ => 0) Unit) (a' b' : single.Instances (fun _ => 0) Unit),
      manageAll [(byLength, .addShard 1), (byLength, .addShard 2),
        (byLength, .db (.command (.insertStr [98, 99] [121])))] (.new ()) = some s ∧
      join leb128 [firstTurn byLength.makeShardId] (oneInstance s) (oneInstance (.new ())) =
        some (a', b') ∧
      JoinKeepsData byLength.makeShardId 4 [1] (oneInstance s) a' b' := by
  obtain ⟨s, hs, hreached, howned, hlocks, hnone⟩ := reached_byLength
  have hintact : Intact {k | 0 ∉ k} byLength.makeShardId (oneInstance s) :=
    { db := fun _ => (hreached.invariant separated_nulFree fun k _ =>
        Nat.mod_lt k.length (by decide)).intact
      routed := fun i _ _ => Subsingleton.elim (α := Fin 1) _ i }
  have hturn : (firstTurn byLength.makeShardId).Shards byLength.makeShardId 4 :=
    ⟨⟨rfl, rfl, rfl⟩, ⟨rfl, rfl, rfl⟩⟩
  obtain ⟨a', b', hrun, hkeeps⟩ := (join_keepsData_iff separated_nulFree hintact
    (forall_mem_singleton.2 hturn) (nodup_singleton 1) (forall_mem_singleton.2 (by decide))
    (forall_mem_singleton.2 ⟨howned, hlocks ▸ not_mem_nil⟩) (oneInstance (.new ()))).2
    fun k hk => (hnone k ((Nat.mod_mod k.length 4).symm.trans (mem_singleton.1 hk))).1
  exact ⟨s, a', b', hs, hrun, hkeeps⟩

/-- The key `k` of the shard 1 is on both nodes afterwards. -/
theorem key_not_deleted :
    ∃ (s : DbState (fun _ => 0) Unit) (a' b' : single.Instances (fun _ => 0) Unit),
      manageAll [(.sharding (fun _ => 1) 0, .addShard 1),
        (.sharding (fun _ => 1) 0, .db (.command (.insertStr [107] [118])))] (.new ()) =
          some s ∧
      join leb128 [firstTurn fun _ => 1] (oneInstance s) (oneInstance (.new ())) =
        some (a', b') ∧
      lookup (fun _ => 1) b' [107] = some (.string [118]) ∧
      lookup (fun _ => 1) a' [107] = some (.string [118]) :=
  ⟨_, _, _, rfl, rfl, rfl, rfl⟩

/-! ## Leaving -/

variable {hash : Str → Nat} {C : Type} {m : DatabaseManager} {m' : Nat → DatabaseManager}
  {U : Set Str} {makeShardId : Str → Nat} {shardNum : Nat} {kvarint : VarintCode} {w : World C}
  {pushes : List (Push C)} {a a' : m.Instances hash C}
  {peers peers' : (j : Nat) → (m' j).Instances hash C} {answers : List (List ShardMessage)}

theorem onPushShard_answers {fresh : Request} {req : ShardMessage} {node node' : m.Instances hash C}
    {answer : List ShardMessage}
    (hrun : onPushShard kvarint w fresh req node = some (answer, node')) : answer = [] := by
  unfold onPushShard at hrun
  obtain ⟨⟨hasShard, node1⟩, -, hrun⟩ := bind_eq_some_iff.1 hrun
  dsimp only at hrun
  split at hrun
  next => cases hrun
  next =>
    obtain ⟨requests, -, hrun⟩ := bind_eq_some_iff.1 hrun
    obtain ⟨⟨_, node2⟩, -, hrun⟩ := bind_eq_some_iff.1 hrun
    obtain ⟨db, -, hrun⟩ := bind_eq_some_iff.1 hrun
    cases hrun
    rfl

theorem pushAll_answers {clients : Nat → SharderSession m}
    (hrun : pushAll kvarint pushes clients a peers = some (answers, a', peers')) :
    answers = pushes.map fun _ => [] := by
  induction pushes generalizing clients a peers answers with
  | nil =>
    cases hrun
    rfl
  | cons push pushes ih =>
    obtain ⟨⟨r, a1⟩, -, hrun⟩ := bind_eq_some_iff.1 hrun
    obtain ⟨⟨answer, peer⟩, hpush, hrun⟩ := bind_eq_some_iff.1 hrun
    obtain ⟨⟨answers', a2, peers2⟩, hrest, hrun⟩ := bind_eq_some_iff.1 hrun
    cases hrun
    rw [map_cons, ih hrest, onPushShard_answers hpush]

/-- `DeleteAll` deletes everything or, behind a locked shard, nothing. -/
theorem run_deleteAll (w : World C) (b : AbsDb hash C) :
    ∃ reply b', (Command.deleteAll.run w).run AbsDb.handler b = some (reply, b') ∧
      ∀ k, b.dict.get k = none → b'.dict.get k = none := by
  have hdelete : ∃ reply b', (deleteAll w).run AbsDb.handler b = some (reply, b') ∧
      ∀ k, b.dict.get k = none → b'.dict.get k = none :=
    ⟨_, _, rfl, fun _ _ => rfl⟩
  change ∃ reply b', (checkHasShardLockedKey w (deleteAll w)).run AbsDb.handler b =
    some (reply, b') ∧ _
  unfold checkHasShardLockedKey
  split
  next =>
    have hask : (ask fun σ => !σ.lockedShards.isEmpty && !σ.isIgnoreLockedShard).run
        AbsDb.handler b =
          some (!b.side.lockedShards.isEmpty && !b.side.isIgnoreLockedShard, b) := rfl
    rw [Program.run_bind_of_some hask]
    split
    next => exact ⟨_, b, rfl, fun _ h => h⟩
    next => exact hdelete
  next => exact hdelete

theorem handleLeaveConfChange_empty (w : World C) (hU : Separated U)
    (hkeys : ∀ i, (a i).db.KeysIn U) (hempty : ∀ i k, (a i).db.abs.dict.get k = none) :
    ∃ a', handleLeaveConfChange w a = some a' ∧
      ∀ i k, (a' i).db.abs.dict.get k = none := by
  unfold handleLeaveConfChange
  generalize List.finRange m.size = instances
  induction instances generalizing a with
  | nil => exact ⟨a, rfl, hempty⟩
  | cons i instances ih =>
    obtain ⟨reply, b, hrun, hget⟩ := run_deleteAll w (a i).db.abs
    have hsame := exec_abs (w := w) (c := .deleteAll) hU
      (fun k hk => absurd hk not_mem_nil) (hkeys i)
    rw [show (a i).db.abs.exec w .deleteAll = some (reply, b) from hrun] at hsame
    obtain ⟨s, hrun', hs, rfl⟩ := hsame.exists_of_right
    have hdelete : onInstance a i (Command.deleteAll.run w) = some (reply, setDb a i s) :=
      run_onInstance hrun'
    let s1 : DbState hash C := { s with side := { s.side with lockedShards := [] } }
    have hunlock : onInstance (setDb a i s) i unlockAllShard = some ((), setDb a i s1) :=
      run_onInstance_setDb rfl
    have hdb : ∀ j, (setDb a i s1 j).db = if j = i then s1 else (a j).db := by
      intro j
      split
      next hj =>
        subst hj
        exact db_setDb_self s1
      next hj => exact db_setDb_of_ne hj s1
    have hkeys1 : ∀ j, (setDb a i s1 j).db.KeysIn U := by
      intro j
      rw [hdb]
      split
      next => exact ⟨hs.dict, hs.expDict, hs.side⟩
      next => exact hkeys j
    have hempty1 : ∀ j k, (setDb a i s1 j).db.abs.dict.get k = none := by
      intro j k
      rw [hdb]
      split
      next => exact hget k (hempty i k)
      next => exact hempty j k
    obtain ⟨a', hrest, hempty'⟩ := ih hkeys1 hempty1
    refine ⟨a', ?_, hempty'⟩
    rw [foldlM_cons]
    grind

/-- A node that leaves keeps every key in the cluster exactly if it holds no shard at all. -/
theorem leave_keepsData_iff (hU : Separated U) (hkeys : ∀ i, (a i).db.KeysIn U)
    (hlinked : ∀ i, (a i).db.abs.Linked) (hindexed : ∀ i, (a i).db.side.Indexed makeShardId)
    (hpushes : ∀ id, id ∈ pushes.map (fun push => push.id) ↔ ∃ i, (a i).db.side.hasShard id = true)
    (indices : Nat → Nat) (peers : (j : Nat) → (m' j).Instances hash C) :
    (∃ answers a' peers', leave kvarint w pushes indices a peers = some (answers, a', peers') ∧
        LeaveKeepsData makeShardId shardNum pushes a a' peers' answers) ↔
      ∀ i id, (a i).db.side.hasShard id = false := by
  constructor
  · rintro ⟨answers, a', peers', hrun, hkeeps⟩ i id
    obtain ⟨⟨answers, a₁, peers₁⟩, hpush, hrun⟩ := bind_eq_some_iff.1 hrun
    obtain ⟨a₂, -, hrun⟩ := bind_eq_some_iff.1 hrun
    cases hrun
    rw [Bool.eq_false_iff]
    intro hshard
    obtain ⟨push, hmem, -⟩ := mem_map.1 ((hpushes id).2 ⟨i, hshard⟩)
    have hanswer : [] ∈ answers := by
      rw [pushAll_answers hpush]
      exact mem_map_of_mem hmem
    have hlength := hkeeps.answered [] hanswer
    cases hlength
  · intro hnone
    have hnil : pushes = [] := by
      rw [eq_nil_iff_forall_not_mem]
      intro push hmem
      obtain ⟨i, hshard⟩ := (hpushes push.id).1 (mem_map_of_mem hmem)
      grind
    -- A stored key would be filed in a shard.
    have hempty : ∀ i k, (a i).db.abs.dict.get k = none := by
      intro i k
      rw [eq_none_iff_forall_ne_some]
      intro data hget
      have hstored : ((a i).db.abs.dict.get k).isSome := by simp [hget]
      obtain ⟨addr, hmem, -⟩ :=
        (hlinked i).distinct.exists_addressOf ((hlinked i).mem_of_isSome hstored)
      have hfiled : addr ∈ (a i).db.side.shardSet (makeShardId k) :=
        ((hindexed i).mem_iff _ addr).2 ⟨k, hmem, rfl⟩
      have hfind : (a i).db.side.findShard (makeShardId k) = none := by
        rw [← not_isSome_iff_eq_none, ← hasShard_iff_findShard, hnone]
        exact Bool.false_ne_true
      rw [shardSet, hfind] at hfiled
      exact absurd hfiled not_mem_nil
    obtain ⟨a', hconf, hempty'⟩ := handleLeaveConfChange_empty w hU hkeys hempty
    subst hnil
    refine ⟨[], a', peers, ?_, ?_⟩
    · exact bind_eq_some_iff.2 ⟨_, hconf, rfl⟩
    · refine ⟨?_, ?_, ?_, hempty'⟩
      · intro k value hget
        rw [lookup, hempty] at hget
        cases hget
      · exact fun push hmem => absurd hmem not_mem_nil
      · exact fun answer hmem => absurd hmem not_mem_nil

def emptyPeers : Nat → single.Instances (fun _ => 0) Unit :=
  fun _ => oneInstance (.new ())

/-- A node without shards leaves. -/
theorem shardless_left :
    ∃ answers a' peers',
      leave leb128 (.sharding (fun _ => 1) 0) [] (fun _ => 0) (emptyPeers 0) emptyPeers =
        some (answers, a', peers') ∧
      LeaveKeepsData (fun _ => 1) 4 [] (emptyPeers 0) a' peers' answers := by
  have hlinked : ∀ i, (emptyPeers 0 i).db.abs.Linked := fun _ => linked_new ()
  refine (leave_keepsData_iff separated_nulFree (fun _ => keysIn_new _ ()) hlinked ?_ ?_
    (fun _ => 0) emptyPeers).2 fun _ _ => rfl
  · refine fun _ => ⟨fun _ => nodup_nil, fun id addr => ?_⟩
    constructor
    · exact fun h => absurd h not_mem_nil
    · rintro ⟨k, hk, -⟩
      exact absurd hk not_mem_nil
  · intro id
    constructor
    · exact fun h => absurd h not_mem_nil
    · rintro ⟨i, hi⟩
      cases hi

/-- The key `k` of the shard 1 is refused by the node that it is pushed to and stays on the
node that leaves; there is no answer. -/
theorem key_refused :
    ∃ (s : DbState (fun _ => 0) Unit) (a' : single.Instances (fun _ => 0) Unit)
      (peers' : Nat → single.Instances (fun _ => 0) Unit),
      manageAll [(.sharding (fun _ => 1) 0, .addShard 1),
        (.sharding (fun _ => 1) 0, .db (.command (.insertStr [107] [118])))] (.new ()) =
          some s ∧
      leave leb128 (.sharding (fun _ => 1) 0) [⟨firstTurn fun _ => 1, 0⟩] (fun _ => 0)
        (oneInstance s) emptyPeers = some ([[]], a', peers') ∧
      lookup (fun _ => 1) (peers' 0) [107] = none ∧
      (∀ i, (peers' 0 i).db.side.hasShard 1 = false) ∧
      lookup (fun _ => 1) a' [107] = some (.string [118]) :=
  ⟨_, _, _, rfl, rfl, rfl, by decide, rfl⟩

end DatabaseManager

end Mmkv
