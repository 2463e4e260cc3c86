import Mmkv.RequestKeys
import Mathlib.Algebra.Group.Nat.Defs
import Mathlib.Data.Fintype.Basic
import Mathlib.Data.List.FinRange

/-!
# The database manager

`DatabaseManager::Execute` picks the instance of a request by its key, locks it, and
hands the request over, except for the commands on all instances, which it carries out
itself.  A request without a key has no instance, and nothing but these commands can do
without one.

Here a fault says why an execution does not come back.
-/

namespace Mmkv

open EffectPrograms DatabaseInstance CommandCode Function Request

variable {hash : Str → Nat} {C : Type} {code : CommandCode}

/-! ## Instances and their locks -/

/-- Who holds a lock. -/
structure Holders where
  readers : Nat
  writing : Bool
  deriving Repr, DecidableEq

namespace Holders

def free : Holders := ⟨0, false⟩

variable (holders : Holders)

def rUnlock : Holders := { holders with readers := holders.readers - 1 }

def wUnlock : Holders := { holders with writing := false }

def release : CommandType → Holders
  | .read => holders.rUnlock
  | .write => holders.wUnlock
  | .invalid => holders

end Holders

inductive Fault where
  | nullInstance
  | nullResponse
  | valuesEnd
  | commandType
  | lockHeld
  /-- The database itself does not come back. -/
  | command
  deriving Repr, DecidableEq

/-- `kanon::RWLock`.  The library is not part of the sources, so whom a lock lets in is a
parameter.  Assumed is that a free lock lets in a reader and a writer, and that a lock
held by a writer does not let in another one. -/
structure RWLock where
  grants : Holders → CommandType → Bool
  grants_free : ∀ type, grants .free type = true
  no_second_writer : ∀ readers, grants ⟨readers, true⟩ .write = false

namespace RWLock

variable (lock : RWLock) (holders : Holders)

def rLock : Except Fault Holders :=
  if lock.grants holders .read then .ok { holders with readers := holders.readers + 1 }
  else .error .lockHeld

def wLock : Except Fault Holders :=
  if lock.grants holders .write then .ok { holders with writing := true }
  else .error .lockHeld

def acquire : CommandType → Except Fault Holders
  | .read => lock.rLock holders
  | .write => lock.wLock holders
  | .invalid => .error .commandType

/-- Many readers or one writer. -/
def shared : RWLock where
  grants holders type := !holders.writing && (holders.readers = 0 || type = .read)
  grants_free _ := rfl
  no_second_writer _ := rfl

end RWLock

structure DatabaseInstance (hash : Str → Nat) (C : Type) where
  db : DbState hash C
  lock : Holders

/-- `LOCAL`, `LOCAL_MULTI_THREAD` and `DISTRIBUTED`. -/
inductive ManagerType where
  | localSingle
  | localMultiThread
  | distributed
  deriving Repr, DecidableEq

structure DatabaseManager where
  type : ManagerType
  bits : Nat
  xxh32 : Str → UInt32
  rwlock : RWLock

namespace DatabaseManager

variable (m : DatabaseManager)

def size : Nat := 2 ^ m.bits

theorem size_pos : 0 < m.size := Nat.two_pow_pos m.bits

def lowBits (x : Nat) : Fin m.size :=
  ⟨if m.size = 1 then 0 else x &&& (m.size - 1), by
    have hpos := m.size_pos
    have hle : x &&& (m.size - 1) ≤ m.size - 1 := Nat.and_le_right
    split <;> omega⟩

def getDatabaseInstance (key : Str) : Fin m.size :=
  m.lowBits (m.xxh32 key).toNat

def getShardDatabaseInstance (id : Nat) : Fin m.size :=
  m.lowBits id

def instanceOf (w : World C) (key : Str) : Fin m.size :=
  match m.type with
  | .distributed => m.getShardDatabaseInstance (w.makeShardId key)
  | _ => m.getDatabaseInstance key

abbrev Instances (hash : Str → Nat) (C : Type) : Type :=
  Fin m.size → DatabaseInstance hash C

variable {m}

def setDb (s : m.Instances hash C) (i : Fin m.size) (db : DbState hash C) : m.Instances hash C :=
  update s i { s i with db := db }

def setLock (s : m.Instances hash C) (i : Fin m.size) (lock : Holders) : m.Instances hash C :=
  update s i { s i with lock := lock }

/-- `RLOCK_ALL` and `WLOCK_ALL`, which are undone at the end of the case. -/
def lockAll (type : CommandType) (s : m.Instances hash C) : Except Fault Unit :=
  (List.finRange m.size).forM fun i =>
    m.rwlock.acquire (s i).lock type >>= fun _ => .ok ()

end DatabaseManager

open DatabaseManager

/-! ## Execution -/

def Output.toNat : Output → Nat
  | .number n => n
  | _ => 0

namespace Response

/-- `SET_OK_VALUE`. -/
def okValue (value : Str) (response : Response) : Response :=
  { response with
    status := StatusCode.ok.toByte
    hasBits := response.hasBits.set ResponseField.value.bit
    value := value }

/-- All keys behind the values that are there, with `SetValues` and `SetOk`. -/
def okKeys (keys : List Str) (response : Response) : Response :=
  { response with
    status := StatusCode.ok.toByte
    hasBits := response.hasBits.set ResponseField.values.bit
    values := response.values ++ keys }

def okCount (count : Nat) (response : Response) : Response :=
  { response with
    status := StatusCode.ok.toByte
    hasBits := response.hasBits.set ResponseField.count.bit
    count := UInt64.ofNat count }

end Response

namespace DatabaseInstance

def perform (w : World C) (calls : List DbCall) (response : Option Response)
    (db : DbState hash C) : Except Fault (Option Response × DbState hash C) :=
  match (runCalls w calls response).run DbState.handler db with
  | none => .error .command
  | some r => .ok r

/-- `DatabaseInstance::Execute` with its faults. -/
def executeOn (w : World C) (recvTime : UInt64) (request : Request)
    (response : Option Response) (db : DbState hash C) :
    Except Fault (Option Response × DbState hash C) :=
  match request.selected recvTime with
  | none => .ok (response, db)
  | some c =>
    match response, c.valid with
    | some response, false => .ok (some (response.invalid c.message), db)
    | response, _ =>
      if c.needsResponse && response.isNone then .error .nullResponse
      else
        match c.calls with
        | none => .error .valuesEnd
        | some calls => perform w calls response db

theorem toOption_perform (w : World C) (calls : List DbCall) (response : Option Response)
    (db : DbState hash C) :
    (perform w calls response db).toOption =
      (runCalls w calls response).run DbState.handler db := by
  unfold perform
  cases (runCalls w calls response).run DbState.handler db <;> rfl

theorem toOption_executeOn (w : World C) (recvTime : UInt64) (request : Request)
    (response : Option Response) (db : DbState hash C) :
    (executeOn w recvTime request response db).toOption =
      db.execute w recvTime request response := by
  unfold executeOn DbState.execute execute
  cases request.selected recvTime with
  | none => rfl
  | some c =>
    rcases c with ⟨valid, message, needsResponse, calls⟩
    cases response <;> cases valid <;> cases needsResponse <;> cases calls <;>
      first
        | rfl
        | exact toOption_perform w _ _ db

end DatabaseInstance

namespace DatabaseManager

variable {m : DatabaseManager}

/-- `case DELS`.  `Delete` returns a status code, which is taken for a truth value. -/
def deleteKeys (w : World C) :
    List Str → m.Instances hash C → Except Fault (Nat × m.Instances hash C)
  | [], s => .ok (0, s)
  | key :: keys, s =>
    let i := m.getDatabaseInstance key
    match (s i).db.exec w (.delete key) with
    | none => .error .command
    | some (reply, db) => do
      let (count, s) ← deleteKeys w keys (setDb s i db)
      return (count + (if reply.status ≠ .ok then 1 else 0), s)

/-- `case DELALL`. -/
def deleteAllFrom (w : World C) :
    List (Fin m.size) → m.Instances hash C → Except Fault (Nat × m.Instances hash C)
  | [], s => .ok (0, s)
  | i :: is, s =>
    match (s i).db.exec w .deleteAll with
    | none => .error .command
    | some (reply, db) =>
      if reply.status = .shardLocked then .ok (0, setDb s i db)
      else do
        let (count, s) ← deleteAllFrom w is (setDb s i db)
        return (reply.out.toNat + count, s)

/-- `case KEYALL`. -/
def getAllKeys (s : m.Instances hash C) : List Str :=
  (List.finRange m.size).flatMap fun i => (s i).db.dict.entries.map KeyValue.key

/-- The switch.  The last component tells that it is left by `return`. -/
def switch (w : World C) (memoryStat : Str) (recvTime : UInt64) (request : Request)
    (response : Option Response) (selected : Option (Fin m.size)) (s : m.Instances hash C) :
    Except Fault (Option Response × m.Instances hash C × Bool) :=
  match request.code with
  | some .memStat =>
    match response with
    | none => .error .nullResponse
    | some response =>
      if request.hasNone then .ok (some (response.okValue memoryStat), s, false)
      else .ok (some (response.invalid "memorystat"), s, true)
  | some .keyall =>
    match response with
    | none => .error .nullResponse
    | some response => do
      lockAll .read s
      return (some (response.okKeys (getAllKeys s)), s, false)
  | some .dels => do
    let (count, s) ← deleteKeys w request.values s
    return (response.map (Response.okCount count), s, false)
  | some .delall => do
    lockAll .write s
    let (count, s) ← deleteAllFrom w (List.finRange m.size) s
    return (response.map (Response.okCount count), s, false)
  | _ =>
    match selected with
    | none => .error .nullInstance
    | some i => do
      let (response, db) ←
        executeOn w recvTime request response (s i).db
      return (response, setDb s i db, false)

variable (m)

def execute (w : World C) (memoryStat : Str) (recvTime : UInt64) (request : Request)
    (response : Option Response) (s : m.Instances hash C) :
    Except Fault (Option Response × m.Instances hash C) :=
  let type := getCommandType request.command
  if request.hasKey then do
    let i := m.instanceOf w request.key
    let lock ← m.rwlock.acquire (s i).lock type
    let (response, s, returned) ←
      switch w memoryStat recvTime request response (some i) (setLock s i lock)
    return (response, if returned then s else setLock s i ((s i).lock.release type))
  else do
    let (response, s, _) ← switch w memoryStat recvTime request response none s
    return (response, s)

end DatabaseManager

/-! ## Requests that find what they need -/

namespace CommandCode

def isManaged : CommandCode → Bool
  | .memStat | .keyall | .dels | .delall => true
  | _ => false

def isShardCommand : CommandCode → Bool
  | .shardJoin | .shardLeave => true
  | _ => false

def lockType (code : CommandCode) : CommandType :=
  if code.isWrite then .write else .read

/-- How many values the case of a command reads by their position. -/
def indexedValues : CommandCode → Nat
  | .mset | .mgets => 2
  | .sandto | .sorto | .ssubto => 3
  | _ => 0

end CommandCode

/-- What a request needs to be dispatched.  `KEYALL` with a key takes the lock of its
instance a second time. -/
def Request.Dispatchable (m : DatabaseManager) (r : Request) : Prop :=
  match r.code with
  | none => False
  | some .memStat | some .delall => r.hasKey = false
  | some .keyall => r.hasKey = true → m.rwlock.grants ⟨1, false⟩ .read = true
  | some .dels => True
  | some code =>
    code.isShardCommand = false ∧ r.hasKey = true ∧
      (r.hasValues = true → code.indexedValues ≤ r.values.length)

instance (m : DatabaseManager) (r : Request) : Decidable (r.Dispatchable m) := by
  unfold Request.Dispatchable
  split <;> infer_instance

theorem Request.exists_case (r : Request) (recvTime : UInt64)
    (hmanaged : code.isManaged = false) (hshard : code.isShardCommand = false) :
    ∃ c, r.case recvTime code = some c := by
  cases code <;>
    first
      | exact ⟨_, rfl⟩
      | exact absurd hmanaged (by decide)
      | exact absurd hshard (by decide)

theorem Request.exists_calls_iff {r : Request} {recvTime : UInt64}
    {c : RequestCase} (hkey : r.hasKey = true) (hcase : r.case recvTime code = some c) :
    (c.valid = true → ∃ calls, c.calls = some calls) ↔
      (r.hasValues = true → code.indexedValues ≤ r.values.length) := by
  cases code <;> cases hcase
  case mset | mgets =>
    simp only [hkey, Bool.true_and, indexedValues]
    refine imp_congr_right fun _ => ?_
    rcases r.values with _ | ⟨x, _ | ⟨y, l⟩⟩ <;> simp
  case sandto | sorto | ssubto =>
    simp only [toCase, indexedValues]
    refine imp_congr_right fun _ => ?_
    rcases r.values with _ | ⟨x, _ | ⟨y, _ | ⟨z, l⟩⟩⟩ <;> simp
  all_goals
    exact iff_of_true (fun _ => ⟨_, rfl⟩) (fun _ => Nat.zero_le _)

namespace DatabaseManager

variable {m : DatabaseManager}

def Idle (s : m.Instances hash C) : Prop :=
  ∀ i, (s i).lock = .free

section Locks

variable {s : m.Instances hash C} {i : Fin m.size} (lock : Holders) {type : CommandType}
  {ε α β : Type} {f : α → β}

@[simp] theorem db_setLock (j : Fin m.size) : (setLock s i lock j).db = (s j).db := by
  by_cases h : j = i
  · subst h
    simp [setLock]
  · simp [setLock, h]

@[simp] theorem lock_setDb (db : DbState hash C) (j : Fin m.size) :
    (setDb s i db j).lock = (s j).lock := by
  by_cases h : j = i
  · subst h
    simp [setDb]
  · simp [setDb, h]

@[simp] theorem db_setDb_self (db : DbState hash C) : (setDb s i db i).db = db := by
  simp [setDb]

@[simp] theorem setDb_setDb (db db' : DbState hash C) :
    setDb (setDb s i db) i db' = setDb s i db' := by
  simp [setDb]

theorem db_setDb_of_ne {j : Fin m.size} (hj : j ≠ i) (db : DbState hash C) :
    (setDb s i db j).db = (s j).db := by
  simp [setDb, hj]

@[simp] theorem lock_setLock_self : (setLock s i lock i).lock = lock := by
  simp [setLock]

@[simp] theorem setLock_setLock (lock lock' : Holders) :
    setLock (setLock s i lock) i lock' = setLock s i lock' := by
  simp [setLock]

theorem setLock_self {lock : Holders} (h : (s i).lock = lock) : setLock s i lock = s := by
  subst h
  exact update_eq_self i s

theorem setDb_setLock (j : Fin m.size) (db : DbState hash C) :
    setDb (setLock s i lock) j db = setLock (setDb s j db) i lock := by
  by_cases h : j = i
  · subst h
    simp [setDb, setLock]
  · have h' : i ≠ j := fun hij => h hij.symm
    simp only [setDb, setLock, update_of_ne h, update_of_ne h']
    exact update_comm h' _ _ s

theorem Idle.setDb (h : Idle s) (db : DbState hash C) : Idle (setDb s i db) :=
  fun j => (lock_setDb db j).trans (h j)

@[simp] theorem getAllKeys_setLock : getAllKeys (setLock s i lock) = getAllKeys s := by
  simp [getAllKeys]

theorem forM_ok {α : Type} {f : α → Except Fault Unit} (l : List α)
    (h : ∀ x ∈ l, f x = .ok ()) : l.forM f = .ok () := by
  induction l with
  | nil => rfl
  | cons x l ih =>
    change (f x >>= fun _ => l.forM f) = .ok ()
    rw [h x List.mem_cons_self]
    exact ih fun y hy => h y (List.mem_cons_of_mem _ hy)

theorem lockAll_of_acquire
    (h : ∀ j, ∃ lock, m.rwlock.acquire (s j).lock type = .ok lock) : lockAll type s = .ok () := by
  refine forM_ok _ fun j _ => ?_
  obtain ⟨lock, hlock⟩ := h j
  rw [hlock]
  rfl

theorem lockAll_of_held (h : ∀ j, (∃ lock, m.rwlock.acquire (s j).lock type = .ok lock) ∨
      m.rwlock.acquire (s j).lock type = .error .lockHeld)
    (hheld : m.rwlock.acquire (s i).lock type = .error .lockHeld) :
    lockAll type s = .error .lockHeld := by
  have hloop : ∀ l : List (Fin m.size), i ∈ l →
      (l.forM fun j => m.rwlock.acquire (s j).lock type >>= fun _ => .ok ()) =
        .error .lockHeld := by
    intro l hmem
    induction l with
    | nil => cases hmem
    | cons j l ih =>
      change ((m.rwlock.acquire (s j).lock type >>= fun _ => .ok ()) >>= fun _ => _) = _
      rcases h j with ⟨lock, hlock⟩ | herror
      · have hne : i ≠ j := by grind
        rw [hlock]
        exact ih ((List.mem_cons.1 hmem).resolve_left hne)
      · rw [herror]
        rfl
  exact hloop _ (List.mem_finRange i)

theorem Except.map_eq_error {x : Except ε α} {e : ε} (h : x.map f = .error e) : x = .error e := by
  cases x <;> cases h
  rfl

theorem Except.map_eq_ok {x : Except ε α} {b : β}
    (h : x.map f = .ok b) : ∃ a, x = .ok a ∧ f a = b := by
  cases x <;> cases h
  exact ⟨_, rfl, rfl⟩

theorem deleteKeys_cons (w : World C) (key : Str) (keys : List Str) : deleteKeys w (key :: keys) s =
      match (s (m.getDatabaseInstance key)).db.exec w (.delete key) with
      | none => .error .command
      | some r => (deleteKeys w keys (setDb s (m.getDatabaseInstance key) r.2)).map fun rest =>
          (rest.1 + (if r.1.status ≠ .ok then 1 else 0), rest.2) := by
  rw [deleteKeys]
  cases (s (m.getDatabaseInstance key)).db.exec w (.delete key) with
  | none => rfl
  | some r =>
    dsimp only
    cases deleteKeys w keys (setDb s (m.getDatabaseInstance key) r.2) <;> rfl

theorem deleteKeys_setLock (w : World C) (keys : List Str) (lock : Holders) :
    deleteKeys w keys (setLock s i lock) =
      (deleteKeys w keys s).map fun r => (r.1, setLock r.2 i lock) := by
  induction keys generalizing s with
  | nil => rfl
  | cons key keys ih =>
    rw [deleteKeys_cons, deleteKeys_cons, db_setLock]
    cases (s (m.getDatabaseInstance key)).db.exec w (.delete key) with
    | none => rfl
    | some r =>
      simp only [setDb_setLock, ih]
      cases deleteKeys w keys (setDb s (m.getDatabaseInstance key) r.2) <;> rfl

theorem lock_of_deleteKeys {w : World C} (keys : List Str) {count : Nat}
    {s' : m.Instances hash C} (h : deleteKeys w keys s = .ok (count, s')) (j : Fin m.size) :
    (s' j).lock = (s j).lock := by
  induction keys generalizing s count with
  | nil =>
    cases h
    rfl
  | cons key keys ih =>
    rw [deleteKeys_cons] at h
    split at h
    next => cases h
    next r _ =>
      obtain ⟨rest, hrest, heq⟩ := Except.map_eq_ok h
      cases heq
      rw [ih hrest, lock_setDb]

end Locks

/-! ## What a request comes to -/

/-- A request has carried out its command: the calls of its case on one instance, or
the manager's own part. -/
inductive Performs (w : World C) (memoryStat : Str) (recvTime : UInt64) (request : Request)
    (response : Response) (s : m.Instances hash C) :
    Except Fault (Option Response × m.Instances hash C) → Prop
  | calls (i : Fin m.size) {c : RequestCase} {calls : List DbCall}
      (hselected : request.selected recvTime = some c) (hcalls : c.calls = some calls) :
      Performs w memoryStat recvTime request response s
        ((perform w calls (some response) (s i).db).map fun r =>
          (r.1, setDb s i r.2))
  | memStat (hcode : request.code = some .memStat) :
      Performs w memoryStat recvTime request response s
        (.ok (some (response.okValue memoryStat), s))
  | keyall (hcode : request.code = some .keyall) :
      Performs w memoryStat recvTime request response s
        (.ok (some (response.okKeys (getAllKeys s)), s))
  | dels (hcode : request.code = some .dels) :
      Performs w memoryStat recvTime request response s
        ((deleteKeys w request.values s).map fun r => (some (response.okCount r.1), r.2))
  | delall (hcode : request.code = some .delall) :
      Performs w memoryStat recvTime request response s
        ((deleteAllFrom w (List.finRange m.size) s).map fun r =>
          (some (response.okCount r.1), r.2))

/-- The request is carried out, or refused with all instances unchanged. -/
def Served (w : World C) (memoryStat : Str) (recvTime : UInt64) (request : Request)
    (response : Response) (s : m.Instances hash C) : Prop :=
  Performs w memoryStat recvTime request response s
      (m.execute w memoryStat recvTime request (some response) s) ∨
    ∃ message, m.execute w memoryStat recvTime request (some response) s =
      .ok (some (response.invalid message), s)

section Dispatch

variable {w : World C} {memoryStat : Str} {recvTime : UInt64} {request : Request}
  {response : Response} {s : m.Instances hash C}

theorem execute_of_no_key (hkey : request.hasKey = false) (response : Option Response) :
    m.execute w memoryStat recvTime request response s =
      (switch w memoryStat recvTime request response none s).map fun r => (r.1, r.2.1) := by
  unfold execute
  simp only [hkey, Bool.false_eq_true, ↓reduceIte]
  cases switch w memoryStat recvTime request response none s <;> rfl

variable {code : CommandCode}

theorem type_of_code (hcode : request.code = some code) :
    getCommandType request.command = code.lockType := by
  rw [getCommandType, show commandCode request.command = some code from hcode]
  rfl

/-- What a command makes of a free lock. -/
def held (code : CommandCode) : Holders :=
  if code.isWrite then ⟨0, true⟩ else ⟨1, false⟩

theorem acquire_free (lock : RWLock) (code : CommandCode) :
    lock.acquire .free code.lockType = .ok (held code) := by
  have hgrants := lock.grants_free
  unfold held lockType
  cases code.isWrite <;> grind [RWLock.acquire, RWLock.rLock, RWLock.wLock, Holders.free]

theorem release_held (code : CommandCode) : (held code).release code.lockType = .free := by
  unfold held lockType
  cases code.isWrite <;> rfl

theorem lockAll_idle (hidle : Idle s) (code : CommandCode) : lockAll code.lockType s = .ok () :=
  lockAll_of_acquire fun j => ⟨held code, by rw [hidle j, acquire_free]⟩

theorem exists_acquire (lock : RWLock) (holders : Holders) (code : CommandCode) :
    ∃ taken, lock.acquire holders code.lockType =
      if lock.grants holders code.lockType then .ok taken else .error .lockHeld := by
  unfold lockType
  cases code.isWrite <;> exact ⟨_, rfl⟩

/-- A command that already holds one of the locks takes them all. -/
theorem lockAll_held (hidle : Idle s) (i : Fin m.size) (code : CommandCode) :
    lockAll code.lockType (setLock s i (held code)) =
      if m.rwlock.grants (held code) code.lockType then .ok () else .error .lockHeld := by
  have hother : ∀ j, j ≠ i → ∃ lock,
      m.rwlock.acquire (setLock s i (held code) j).lock code.lockType = .ok lock := by
    intro j hj
    rw [setLock, update_of_ne hj, hidle j, acquire_free]
    exact ⟨_, rfl⟩
  obtain ⟨taken, htaken⟩ := exists_acquire m.rwlock (held code) code
  split
  next hgrants =>
    rw [if_pos hgrants] at htaken
    refine lockAll_of_acquire fun j => ?_
    by_cases hj : j = i
    · exact ⟨taken, by rw [hj, lock_setLock_self, htaken]⟩
    · exact hother j hj
  next hgrants =>
    rw [if_neg hgrants] at htaken
    refine lockAll_of_held (i := i) (fun j => ?_) (by rwa [lock_setLock_self])
    by_cases hj : j = i
    · exact .inr (by rw [hj, lock_setLock_self, htaken])
    · exact .inl (hother j hj)

section Keyed

variable (hidle : Idle s) (hcode : request.code = some code) (hkey : request.hasKey = true)

include hidle hcode hkey

theorem execute_of_key (response : Option Response) :
    m.execute w memoryStat recvTime request response s =
      (switch w memoryStat recvTime request response (some (m.instanceOf w request.key))
        (setLock s (m.instanceOf w request.key) (held code))).map fun r =>
          (r.1, if r.2.2 then r.2.1 else setLock r.2.1 (m.instanceOf w request.key)
              ((r.2.1 (m.instanceOf w request.key)).lock.release code.lockType)) := by
  have hlock : m.rwlock.acquire (s (m.instanceOf w request.key)).lock code.lockType =
      .ok (held code) := by
    rw [hidle, acquire_free]
  unfold execute
  simp only [hkey, ↓reduceIte, type_of_code hcode, hlock]
  change (switch w memoryStat recvTime request response (some (m.instanceOf w request.key))
    (setLock s (m.instanceOf w request.key) (held code)) >>= _) = _
  cases switch w memoryStat recvTime request response (some (m.instanceOf w request.key))
    (setLock s (m.instanceOf w request.key) (held code)) <;> rfl

variable {response : Option Response}

/-- The lock is released again behind a switch that leaves the locks alone. -/
theorem execute_of_switch {x : Except Fault (Option Response × m.Instances hash C)}
    (hswitch : switch w memoryStat recvTime request response (some (m.instanceOf w request.key))
        (setLock s (m.instanceOf w request.key) (held code)) =
      x.map fun r => (r.1, setLock r.2 (m.instanceOf w request.key) (held code), false))
    (hfree : ∀ r, x = .ok r → (r.2 (m.instanceOf w request.key)).lock = .free) :
    m.execute w memoryStat recvTime request response s = x := by
  rw [execute_of_key hidle hcode hkey, hswitch]
  cases x with
  | error fault => rfl
  | ok r =>
    refine congrArg Except.ok (Prod.ext rfl ?_)
    change setLock (setLock r.2 _ _) _ ((setLock r.2 _ _ _).lock.release _) = r.2
    rw [setLock_setLock, lock_setLock_self, release_held]
    exact setLock_self (hfree r rfl)

end Keyed

theorem switch_other (hcode : request.code = some code) (hmanaged : code.isManaged = false)
    (response : Option Response) (selected : Option (Fin m.size)) :
    switch w memoryStat recvTime request response selected s =
      match selected with
      | none => .error .nullInstance
      | some i =>
        (executeOn w recvTime request response (s i).db).map fun r =>
          (r.1, setDb s i r.2, false) := by
  unfold switch
  rw [hcode]
  cases code <;> first | (exact absurd hmanaged (by decide)) | skip
  all_goals
    cases selected with
    | none => rfl
    | some i =>
      dsimp only
      cases executeOn w recvTime request response (s i).db <;> rfl

/-! ### Faults -/

theorem fault_of_deleteKeys {keys : List Str} {fault : Fault}
    (h : deleteKeys w keys s = .error fault) : fault = .command := by
  induction keys generalizing s with
  | nil => cases h
  | cons key keys ih =>
    rw [deleteKeys_cons] at h
    split at h
    next => cases h; rfl
    next => exact ih (Except.map_eq_error h)

theorem fault_of_deleteAllFrom {is : List (Fin m.size)} {fault : Fault}
    (h : deleteAllFrom w is s = .error fault) : fault = .command := by
  induction is generalizing s with
  | nil => cases h
  | cons i is ih =>
    simp only [deleteAllFrom] at h
    cases hexec : (s i).db.exec w .deleteAll with
    | none => grind
    | some r =>
      rw [hexec] at h
      dsimp only at h
      split at h
      next => cases h
      next =>
        cases hrest : deleteAllFrom w is (setDb s i r.2) with
        | error fault' =>
          rw [hrest] at h
          cases h
          exact ih hrest
        | ok rest =>
          rw [hrest] at h
          cases h

theorem fault_of_perform {calls : List DbCall} {db : DbState hash C} {fault : Fault}
    (h : perform w calls response db = .error fault) : fault = .command := by
  unfold perform at h
  split at h <;> cases h
  rfl

theorem Performs.fault {result : Except Fault (Option Response × m.Instances hash C)}
    (h : Performs w memoryStat recvTime request response s result) {fault : Fault}
    (hresult : result = .error fault) : fault = .command := by
  cases h with
  | calls i hselected hcalls => exact fault_of_perform (Except.map_eq_error hresult)
  | memStat hcode => cases hresult
  | keyall hcode => cases hresult
  | dels hcode => exact fault_of_deleteKeys (Except.map_eq_error hresult)
  | delall hcode => exact fault_of_deleteAllFrom (Except.map_eq_error hresult)

theorem not_served_of_fault (fault : Fault) (hfault : fault ≠ .command)
    (h : m.execute w memoryStat recvTime request (some response) s = .error fault) :
    ¬ Served w memoryStat recvTime request response s := by
  rintro (hperforms | ⟨message, hinvalid⟩)
  · exact hfault (hperforms.fault h)
  · grind

theorem execute_of_no_code (hcode : request.code = none) (response : Option Response) :
    m.execute w memoryStat recvTime request response s =
      .error (if request.hasKey then .commandType else .nullInstance) := by
  cases hkey : request.hasKey with
  | false =>
    rw [execute_of_no_key hkey, switch.eq_def, hcode]
    rfl
  | true =>
    have htype : getCommandType request.command = .invalid := by
      rw [getCommandType, show commandCode request.command = none from hcode]
    unfold execute
    simp only [hkey, ↓reduceIte, htype]
    rfl

theorem not_served_of_no_code (hcode : request.code = none) :
    ¬ Served w memoryStat recvTime request response s := by
  refine not_served_of_fault _ ?_ (execute_of_no_code hcode (some response))
  split <;> decide

/-! ### The manager's own commands -/

theorem not_hasNone_of_key (hkey : request.hasKey = true) : request.hasNone = false := by
  cases hnone : request.hasNone with
  | false => rfl
  | true =>
    have hbits : request.hasBits = 0 := by simpa [hasNone] using hnone
    rw [hasKey, hbits] at hkey
    exact absurd hkey (by decide)

theorem execute_memStat (hcode : request.code = some .memStat) (hkey : request.hasKey = false) :
    m.execute w memoryStat recvTime request (some response) s =
      .ok (some (if request.hasNone then response.okValue memoryStat
        else response.invalid "memorystat"), s) := by
  rw [execute_of_no_key hkey, switch, hcode]
  dsimp only
  cases request.hasNone <;> rfl

section

variable (hidle : Idle s)

include hidle

theorem execute_memStat_of_key (hcode : request.code = some .memStat)
    (hkey : request.hasKey = true) :
    m.execute w memoryStat recvTime request (some response) s =
      .ok (some (response.invalid "memorystat"),
        setLock s (m.instanceOf w request.key) ⟨1, false⟩) := by
  rw [execute_of_key hidle hcode hkey, switch, hcode]
  simp only [not_hasNone_of_key hkey]
  rfl

theorem served_memStat_iff (hcode : request.code = some .memStat) :
    Served w memoryStat recvTime request response s ↔ request.hasKey = false := by
  cases hkey : request.hasKey with
  | false =>
    refine iff_of_true ?_ rfl
    rw [Served, execute_memStat hcode hkey]
    cases request.hasNone with
    | true => exact .inl (.memStat hcode)
    | false => exact .inr ⟨_, rfl⟩
  | true =>
    refine iff_of_false ?_ (by decide)
    have hexecute : m.execute w memoryStat recvTime request (some response) s = _ :=
      execute_memStat_of_key hidle hcode hkey
    have hchanged : setLock s (m.instanceOf w request.key) ⟨1, false⟩ ≠ s := by
      intro heq
      have hfree := hidle (m.instanceOf w request.key)
      rw [← heq, lock_setLock_self] at hfree
      cases hfree
    rintro (hperforms | ⟨message, hinvalid⟩)
    · rw [hexecute] at hperforms
      generalize hresult : (Except.ok (some (response.invalid "memorystat"),
        setLock s (m.instanceOf w request.key) ⟨1, false⟩) :
          Except Fault (Option Response × m.Instances hash C)) = result at hperforms
      cases hperforms with
      | calls i hselected hcalls =>
        rw [selected, hcode] at hselected
        cases hselected
      | memStat _ => grind
      | keyall hcode' => cases hcode.symm.trans hcode'
      | dels hcode' => cases hcode.symm.trans hcode'
      | delall hcode' => cases hcode.symm.trans hcode'
    · grind

theorem execute_keyall (hcode : request.code = some .keyall) :
    m.execute w memoryStat recvTime request (some response) s =
      if request.hasKey ∧ m.rwlock.grants ⟨1, false⟩ .read = false then .error .lockHeld
      else .ok (some (response.okKeys (getAllKeys s)), s) := by
  cases hkey : request.hasKey with
  | false =>
    rw [execute_of_no_key hkey, switch, hcode]
    simp only [show lockAll .read s = _ from lockAll_idle hidle .keyall]
    rfl
  | true =>
    have hlocks : lockAll .read (setLock s (m.instanceOf w request.key) (held .keyall)) =
        if m.rwlock.grants ⟨1, false⟩ .read then .ok () else .error .lockHeld :=
      lockAll_held hidle _ .keyall
    cases hgrants : m.rwlock.grants ⟨1, false⟩ .read with
    | false =>
      rw [hgrants] at hlocks
      rw [execute_of_key hidle hcode hkey, switch, hcode]
      simp only [hlocks]
      rfl
    | true =>
      rw [hgrants] at hlocks
      refine execute_of_switch hidle hcode hkey ?_ ?_
      · rw [switch, hcode]
        simp only [hlocks, getAllKeys_setLock]
        rfl
      · rintro _ ⟨⟩
        exact hidle _

theorem served_keyall_iff (hcode : request.code = some .keyall) :
    Served w memoryStat recvTime request response s ↔
      (request.hasKey = true → m.rwlock.grants ⟨1, false⟩ .read = true) := by
  have hexecute : m.execute w memoryStat recvTime request (some response) s = _ :=
    execute_keyall hidle hcode
  by_cases hheld : request.hasKey ∧ m.rwlock.grants ⟨1, false⟩ .read = false
  · rw [if_pos hheld] at hexecute
    refine iff_of_false (not_served_of_fault .lockHeld (by decide) hexecute) ?_
    simp [hheld]
  · rw [if_neg hheld] at hexecute
    refine iff_of_true (.inl ?_) (by simpa using hheld)
    rw [hexecute]
    exact .keyall hcode

theorem execute_dels (hcode : request.code = some .dels) :
    m.execute w memoryStat recvTime request (some response) s =
      (deleteKeys w request.values s).map fun r => (some (response.okCount r.1), r.2) := by
  cases hkey : request.hasKey with
  | false =>
    rw [execute_of_no_key hkey, switch, hcode]
    dsimp only
    cases deleteKeys w request.values s <;> rfl
  | true =>
    refine execute_of_switch hidle hcode hkey ?_ ?_
    · rw [switch, hcode]
      dsimp only
      rw [deleteKeys_setLock]
      cases deleteKeys w request.values s <;> rfl
    · intro r hr
      obtain ⟨r', hdelete, rfl⟩ := Except.map_eq_ok hr
      exact (lock_of_deleteKeys _ hdelete _).trans (hidle _)

theorem served_dels (hcode : request.code = some .dels) :
    Served w memoryStat recvTime request response s := by
  refine .inl ?_
  rw [execute_dels hidle hcode]
  exact .dels hcode

/-- The lock that is taken for the key is in the way of `WLOCK_ALL`. -/
theorem execute_delall (hcode : request.code = some .delall) :
    m.execute w memoryStat recvTime request (some response) s =
      if request.hasKey then .error .lockHeld
      else (deleteAllFrom w (List.finRange m.size) s).map fun r =>
        (some (response.okCount r.1), r.2) := by
  cases hkey : request.hasKey with
  | false =>
    rw [execute_of_no_key hkey, switch, hcode]
    simp only [show lockAll .write s = _ from lockAll_idle hidle .delall]
    cases deleteAllFrom w (List.finRange m.size) s <;> rfl
  | true =>
    have hlocks : lockAll .write (setLock s (m.instanceOf w request.key) (held .delall)) = _ :=
      lockAll_held hidle _ .delall
    rw [if_neg (by simp [held, lockType, isWrite,
      m.rwlock.no_second_writer])] at hlocks
    rw [execute_of_key hidle hcode hkey, switch, hcode]
    simp only [hlocks]
    rfl

theorem served_delall_iff (hcode : request.code = some .delall) :
    Served w memoryStat recvTime request response s ↔ request.hasKey = false := by
  have hexecute : m.execute w memoryStat recvTime request (some response) s = _ :=
    execute_delall hidle hcode
  cases hkey : request.hasKey with
  | false =>
    rw [hkey] at hexecute
    refine iff_of_true (.inl ?_) rfl
    rw [hexecute]
    exact .delall hcode
  | true =>
    rw [hkey] at hexecute
    exact iff_of_false (not_served_of_fault .lockHeld (by decide) hexecute) (by decide)

end

/-! ### Commands of an instance -/

theorem execute_other (hidle : Idle s) (hcode : request.code = some code)
    (hmanaged : code.isManaged = false) (hkey : request.hasKey = true)
    (response : Option Response) :
    m.execute w memoryStat recvTime request response s =
      (executeOn w recvTime request response
        (s (m.instanceOf w request.key)).db).map fun r =>
          (r.1, setDb s (m.instanceOf w request.key) r.2) := by
  refine execute_of_switch hidle hcode hkey ?_ ?_
  · rw [switch_other hcode hmanaged]
    dsimp only
    rw [db_setLock]
    cases executeOn w recvTime request response
      (s (m.instanceOf w request.key)).db with
    | error fault => rfl
    | ok r =>
      refine congrArg Except.ok (Prod.ext rfl (Prod.ext ?_ rfl))
      exact setDb_setLock _ _ _
  · intro r hr
    obtain ⟨r', _, rfl⟩ := Except.map_eq_ok hr
    exact hidle.setDb _ _

theorem setDb_self (i : Fin m.size) : setDb s i (s i).db = s := update_eq_self i s

theorem new_ne_invalid (count : UInt64) (message : String) :
    Response.new count ≠ (Response.new count).invalid message := by
  intro heq
  have hstatus : (255 : UInt8) = 9 := congrArg Response.status heq
  exact absurd hstatus (by decide)

theorem not_served_shardCommand {count : UInt64} (hidle : Idle s) (hcode : request.code = some code)
    (hshard : code.isShardCommand = true) :
    ¬ Served w memoryStat recvTime request (.new count) s := by
  have hselected : request.selected recvTime = none := by
    rw [selected, hcode]
    cases code <;> first | rfl | exact absurd hshard (by decide)
  have hmanaged : code.isManaged = false := by
    cases code <;> first | rfl | exact absurd hshard (by decide)
  cases hkey : request.hasKey with
  | false =>
    refine not_served_of_fault .nullInstance (by decide) ?_
    rw [execute_of_no_key hkey, switch_other hcode hmanaged]
    rfl
  | true =>
    rintro (hperforms | ⟨message, hinvalid⟩)
    · generalize m.execute w memoryStat recvTime request (some (.new count)) s = result
        at hperforms
      cases hperforms with
      | calls i hselected' hcalls => cases hselected.symm.trans hselected'
      | memStat hcode' | keyall hcode' | dels hcode' | delall hcode' =>
        cases hcode.symm.trans hcode'
        cases hmanaged
    · rw [execute_other hidle hcode hmanaged hkey, executeOn, hselected]
        at hinvalid
      injection hinvalid with hpair
      have hresponse := Option.some.inj (congrArg Prod.fst hpair)
      exact new_ne_invalid count message hresponse

theorem served_other_iff (hidle : Idle s) (hcode : request.code = some code)
    (hmanaged : code.isManaged = false) (hshard : code.isShardCommand = false) :
    Served w memoryStat recvTime request response s ↔
      request.hasKey = true ∧
        (request.hasValues = true → code.indexedValues ≤ request.values.length) := by
  obtain ⟨c, hcase⟩ := request.exists_case recvTime hmanaged hshard
  have hselected : request.selected recvTime = some c := by
    rw [selected, hcode]
    exact hcase
  cases hkey : request.hasKey with
  | false =>
    refine iff_of_false (not_served_of_fault .nullInstance (by decide) ?_) (by simp)
    rw [execute_of_no_key hkey, switch_other hcode hmanaged]
    rfl
  | true =>
    have hexecute : m.execute w memoryStat recvTime request (some response) s = _ :=
      execute_other hidle hcode hmanaged hkey (some response)
    rw [← exists_calls_iff hkey hcase, eq_self_iff_true, true_and]
    rw [executeOn, hselected] at hexecute
    rcases c with ⟨valid, message, needsResponse, calls⟩
    cases valid with
    | false =>
      refine iff_of_true (.inr ⟨message, ?_⟩) (by simp)
      rw [hexecute]
      exact congrArg Except.ok (Prod.ext rfl (setDb_self _))
    | true =>
      cases calls with
      | none =>
        refine iff_of_false (not_served_of_fault .valuesEnd (by decide) ?_) (by simp)
        rw [hexecute]
        simp [Except.map]
      | some calls =>
        refine iff_of_true (.inl ?_) (by simp)
        rw [hexecute]
        simp only [Option.isNone_some, Bool.and_false, Bool.false_eq_true, ↓reduceIte]
        exact .calls _ hselected rfl

end Dispatch

end DatabaseManager

/-- A request is carried out, or refused with nothing changed, exactly if it has what
its command takes without a check. -/
theorem dispatch_iff (m : DatabaseManager) (w : World C) (memoryStat : Str)
    (recvTime : UInt64) (request : Request) (count : UInt64) (s : m.Instances hash C)
    (hidle : DatabaseManager.Idle s) :
    DatabaseManager.Served w memoryStat recvTime request (.new count) s ↔
      request.Dispatchable m := by
  cases hcode : request.code with
  | none =>
    refine iff_of_false (not_served_of_no_code hcode) ?_
    simp [Request.Dispatchable, hcode]
  | some code =>
    by_cases hmanaged : code.isManaged = true
    · cases code <;> first | (exact absurd hmanaged (by decide)) | skip
      case memStat =>
        rw [served_memStat_iff hidle hcode, Request.Dispatchable, hcode]
      case keyall =>
        rw [served_keyall_iff hidle hcode, Request.Dispatchable, hcode]
      case dels =>
        rw [Request.Dispatchable, hcode]
        exact iff_of_true (served_dels hidle hcode) trivial
      case delall =>
        rw [served_delall_iff hidle hcode, Request.Dispatchable, hcode]
    · have hother : request.Dispatchable m ↔ code.isShardCommand = false ∧
          request.hasKey = true ∧
            (request.hasValues = true → code.indexedValues ≤ request.values.length) := by
        rw [Request.Dispatchable, hcode]
        cases code <;> first | rfl | exact absurd rfl hmanaged
      rw [hother]
      by_cases hshard : code.isShardCommand = true
      · refine iff_of_false (not_served_shardCommand hidle hcode hshard) ?_
        simp [hshard]
      · rw [served_other_iff hidle hcode (by simpa using hmanaged) (by simpa using hshard)]
        simp [hshard]

/-- A request that reads a string, on two instances. -/
theorem strGet_served :
    Request.Dispatchable ⟨.localMultiThread, 1, fun _ => 0, .shared⟩
        ⟨2, 1, [107], [], [], [], [], 0, 0, 0⟩ ∧
      DatabaseManager.Served (m := ⟨.localMultiThread, 1, fun _ => 0, .shared⟩)
        (.standalone true 0) [] 0 ⟨2, 1, [107], [], [], [], [], 0, 0, 0⟩ (.new 0)
        fun _ => ⟨(DbState.new () : DbState (fun _ => 0) Unit), .free⟩ :=
  ⟨by decide, (dispatch_iff ⟨.localMultiThread, 1, fun _ => 0, .shared⟩ (.standalone true 0) [] 0
    ⟨2, 1, [107], [], [], [], [], 0, 0, 0⟩ 0 _ (fun _ => rfl)).2 (by decide)⟩

/-- `SANDTO`, as the client sends it, has no key; `MSET` with a single value reads a
second one. -/
theorem sandto_without_instance :
    execute ⟨.localMultiThread, 1, fun _ => 0, .shared⟩ (.standalone true 0) [] 0
        ⟨46, 8, [], [], [[97], [98], [99]], [], [], 0, 0, 0⟩ (some (.new 0))
        (fun _ => ⟨(DbState.new () : DbState (fun _ => 0) Unit), .free⟩) =
      .error .nullInstance ∧
    execute ⟨.localMultiThread, 1, fun _ => 0, .shared⟩ (.standalone true 0) [] 0
        ⟨31, 9, [107], [], [[97]], [], [], 0, 0, 0⟩ (some (.new 0))
        (fun _ => ⟨(DbState.new () : DbState (fun _ => 0) Unit), .free⟩) =
      .error .valuesEnd :=
  ⟨rfl, rfl⟩

end Mmkv
