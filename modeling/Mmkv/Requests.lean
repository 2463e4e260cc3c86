import Mmkv.Commands

/-!
# Requests and their execution

`DatabaseInstance::Execute` is a switch over the command of a request.  Each case
checks which fields the request has, calls the database and writes the outcome
into the response.  `Request.case` lists the cases; `DatabaseInstance.execute`
runs them.

A response may be missing: a replayed request has none.  Then nothing is checked,
and a case that writes into the response all the same crashes.
-/

namespace Mmkv

open EffectPrograms

/-! ## Command codes -/

inductive CommandCode where
  | strAdd | strDel | strGet | strSet | strlen | strappend | strpopback
  | ladd | lappend | lprepend | lgetsize | lgetall | lgetrange | lpopfront | lpopback
  | ldel
  | vadd | vdelm | vdelmrange | vdelmrangebyweight | vsize | vsizebyweight | vweight
  | vorder | vrorder | vrange | vall | vrangebyweight | vrrange | vrrangebyweight
  | madd | mset | mget | mgets | mdel | mall | mfields | mvalues | msize | mexists
  | sadd | sdelm | ssize | sall | sexists | sand | sandto | ssub | ssubto | sor | sorto
  | sandsize | ssubsize | sorsize | sranddelm
  | memStat | expireAt | expireAfter | expiremAt | expiremAfter | persist | expiration
  | ttl | del | rename | type | keyall | dels | delall | shardJoin | shardLeave
  deriving Repr, DecidableEq

namespace CommandCode

def all : List CommandCode :=
  [.strAdd, .strDel, .strGet, .strSet, .strlen, .strappend, .strpopback,
    .ladd, .lappend, .lprepend, .lgetsize, .lgetall, .lgetrange, .lpopfront, .lpopback,
    .ldel,
    .vadd, .vdelm, .vdelmrange, .vdelmrangebyweight, .vsize, .vsizebyweight, .vweight,
    .vorder, .vrorder, .vrange, .vall, .vrangebyweight, .vrrange, .vrrangebyweight,
    .madd, .mset, .mget, .mgets, .mdel, .mall, .mfields, .mvalues, .msize, .mexists,
    .sadd, .sdelm, .ssize, .sall, .sexists, .sand, .sandto, .ssub, .ssubto, .sor, .sorto,
    .sandsize, .ssubsize, .sorsize, .sranddelm,
    .memStat, .expireAt, .expireAfter, .expiremAt, .expiremAfter, .persist, .expiration,
    .ttl, .del, .rename, .type, .keyall, .dels, .delall, .shardJoin, .shardLeave]

/-- The codes that `InitCommandType` registers as `CT_WRITE`. -/
def isWrite : CommandCode → Bool
  | .strAdd | .strDel | .strSet | .strappend | .strpopback | .ladd | .lappend | .lprepend
  | .lpopfront | .lpopback | .ldel | .vadd | .vdelm | .vdelmrange | .vdelmrangebyweight
  | .madd | .mset | .mdel | .sadd | .sdelm | .ssubto | .sorto | .sandto | .del | .rename
  | .dels | .delall | .expireAt | .expiremAt | .expireAfter | .expiremAfter | .sranddelm
  | .persist => true
  | _ => false

end CommandCode

inductive CommandType where
  | read
  | write
  | invalid
  deriving Repr, DecidableEq

/-- The code of a command word, if it is below `COMMAND_NUM`. -/
def commandCode (word : UInt16) : Option CommandCode :=
  CommandCode.all[word.toNat]?

def getCommandType (word : UInt16) : CommandType :=
  match commandCode word with
  | none => .invalid
  | some code => if code.isWrite then .write else .read

/-! ## Requests and responses -/

abbrev HasBits : Type :=
  UInt8

def HasBits.test (bits : HasBits) (i : UInt8) : Bool :=
  bits &&& (1 <<< i) != 0

def HasBits.set (bits : HasBits) (i : UInt8) : HasBits :=
  bits ||| (1 <<< i)

/-- `left` and `right` are the two words of the union; `count` overlays the lower
half of the first. -/
structure Request where
  command : UInt16
  hasBits : HasBits
  key : Str
  value : Str
  values : List Str
  kvs : List (KeyValue Str)
  vmembers : List WeightValue
  expireTime : UInt64
  left : UInt64
  right : UInt64
  deriving Repr, DecidableEq

namespace Request

/-- The constructor leaves the numbers as it finds them; `COMMAND_NUM` is no
command. -/
def new (expireTime left right : UInt64) : Request :=
  ⟨71, 0, [], [], [], [], [], expireTime, left, right⟩

variable (r : Request)

def hasKey : Bool := r.hasBits.test 0
def hasValue : Bool := r.hasBits.test 1
def hasExpireTime : Bool := r.hasBits.test 2
def hasValues : Bool := r.hasBits.test 3
def hasKvs : Bool := r.hasBits.test 4
def hasCount : Bool := r.hasBits.test 5
def hasRange : Bool := r.hasBits.test 6
def hasVmembers : Bool := r.hasBits.test 7

def hasNone : Bool :=
  r.hasBits == 0

def code : Option CommandCode :=
  commandCode r.command

def count : UInt32 :=
  r.left.toUInt32

def rangeLeft : Int :=
  toInt64 r.left.toNat

def rangeRight : Int :=
  toInt64 r.right.toNat

/-- The bounds of `GetWeightRange`. -/
def weightLeft : Weight :=
  ⟨r.left⟩

def weightRight : Weight :=
  ⟨r.right⟩

end Request

def StatusCode.toByte : StatusCode → UInt8
  | .ok => 0
  | .exists => 1
  | .nonexists => 2
  | .invalidMessage => 3
  | .invalidRange => 4
  | .vmemberNonexists => 5
  | .existsDiffType => 6
  | .fieldNonexists => 7
  | .setMemberNonexists => 8
  | .invalidRequest => 9
  | .setNoMember => 10
  | .destExists => 11
  | .expireDisable => 12
  | .shardLocked => 13
  | .shardProcessing => 14
  | .shardNonexists => 15

structure Response where
  status : UInt8
  hasBits : HasBits
  count : UInt64
  value : Str
  values : List Str
  kvs : List (KeyValue Str)
  vmembers : List WeightValue
  deriving Repr, DecidableEq

def DataType.name : DataType → Str
  | .string => "string".toUTF8.toList
  | .strList => "list".toUTF8.toList
  | .sortedSet => "vset".toUTF8.toList
  | .map => "map".toUTF8.toList
  | .set => "hash set".toUTF8.toList

namespace Response

/-- The constructor sets the status to -1 and leaves `count` as it finds it. -/
def new (count : UInt64) : Response :=
  ⟨255, 0, count, [], [], [], []⟩

variable (response : Response)

def hasValue : Bool := response.hasBits.test 0
def hasValues : Bool := response.hasBits.test 1
def hasKvs : Bool := response.hasBits.test 2
def hasCount : Bool := response.hasBits.test 3
def hasVmembers : Bool := response.hasBits.test 4

/-- `SetValue` and its siblings, by the number of the bit. -/
def mark (i : UInt8) : Response :=
  { response with hasBits := response.hasBits.set i }

end Response

inductive ResponseField where
  | value
  | values
  | kvs
  | count
  | vmembers
  deriving Repr, DecidableEq

def ResponseField.bit : ResponseField → UInt8
  | .value => 0
  | .values => 1
  | .kvs => 2
  | .count => 3
  | .vmembers => 4

namespace Response

def setStatus (reply : Reply) (response : Response) : Response :=
  { response with status := reply.status.toByte }

def fill (out : Output) (response : Response) : Response :=
  match out with
  | .none => response
  | .str s => { response with value := s }
  | .strs l => { response with values := response.values ++ l }
  | .kvs l => { response with kvs := response.kvs ++ l }
  | .number n => { response with count := UInt64.ofNat n }
  | .weight w => { response with count := w.bits }
  | .weights l => { response with vmembers := response.vmembers ++ l }
  | .type t => { response with value := t.name }

/-- The status, and for `S_OK` the bit of the field that has been filled in. -/
def answer (field : ResponseField) (reply : Reply) (response : Response) : Response :=
  let response := (response.fill reply.out).setStatus reply
  if reply.status = .ok then response.mark field.bit else response

def answerLength (reply : Reply) (response : Response) : Response :=
  match reply.out with
  | .str s => answer .count { reply with out := .number s.length } response
  | _ => answer .count reply response

def answerDeadline (reply : Reply) (response : Response) : Response :=
  ((response.fill reply.out).mark ResponseField.count.bit).setStatus reply

/-- `Delete` returns a status code, which is taken for a truth value. -/
def answerDelete (reply : Reply) (response : Response) : Response :=
  { response with
    status := (if reply.status ≠ .ok then StatusCode.ok else .nonexists).toByte }

/-- `CHECK_INVALID_REQUEST` for a request that lacks a field. -/
def invalid (message : String) (response : Response) : Response :=
  { response with
    status := StatusCode.invalidRequest.toByte
    value := message.toUTF8.toList
    hasBits := response.hasBits.set ResponseField.value.bit }

end Response

/-! ## The cases of the switch -/

structure DbCall where
  command : Command
  answer : Reply → Response → Response

/-- `valid` is the condition of `CHECK_INVALID_REQUEST` and `message` its text.
There are no calls if the case reads past the end of `values`. -/
structure RequestCase where
  valid : Bool
  message : String
  needsResponse : Bool
  calls : Option (List DbCall)

def RequestCase.write (valid : Bool) (message : String) (command : Command)
    (answer : Reply → Response → Response) : RequestCase :=
  ⟨valid, message, false, some [⟨command, answer⟩]⟩

def RequestCase.read (valid : Bool) (message : String) (command : Command)
    (answer : Reply → Response → Response) : RequestCase :=
  ⟨valid, message, true, some [⟨command, answer⟩]⟩

namespace Request

variable (r : Request)

/-- `case SANDTO` and its siblings. -/
def toCase (message : String) (command : Str → Str → Str → Command) : RequestCase :=
  ⟨r.hasValues, message, false, match r.values with
    | dest :: k₁ :: k₂ :: _ => some [⟨command k₁ k₂ dest, Response.setStatus⟩]
    | _ => none⟩

def case (recvTime : UInt64) : CommandCode → Option RequestCase
  | .strAdd => some <| .write (r.hasKey && r.hasValue) "stradd"
      (.insertStr r.key r.value) .setStatus
  | .strGet => some <| .read r.hasKey "strget" (.getStr r.key) (.answer .value)
  | .strDel => some <| .write r.hasKey "strdel" (.eraseStr r.key) .setStatus
  | .strSet => some <| .write (r.hasKey && r.hasValue) "strset"
      (.setStr r.key r.value) .setStatus
  | .strlen => some <| .read r.hasKey "strlen" (.getStr r.key) .answerLength
  | .strappend => some <| .write (r.hasKey && r.hasValue) "strappend"
      (.strAppend r.key r.value) .setStatus
  | .strpopback => some <| .write (r.hasKey && r.hasCount) "strpopback"
      (.strPopBack r.key r.count.toNat) .setStatus
  | .ladd => some <| .write (r.hasKey && r.hasValues) "ladd"
      (.listAdd r.key r.values) .setStatus
  | .lappend => some <| .write (r.hasKey && r.hasValues) "lappend/lprepend"
      (.listAppend r.key r.values) .setStatus
  | .lprepend => some <| .write (r.hasKey && r.hasValues) "lappend/lprepend"
      (.listPrepend r.key r.values) .setStatus
  | .lpopfront => some <| .write (r.hasKey && r.hasCount) "lpopback/popfront"
      (.listPopFront r.key r.count.toNat) (.answer .count)
  | .lpopback => some <| .write (r.hasKey && r.hasCount) "lpopback/popfront"
      (.listPopBack r.key r.count.toNat) (.answer .count)
  | .lgetsize => some <| .read r.hasKey "lgetsize" (.listGetSize r.key) (.answer .count)
  | .lgetrange => some <| .read r.hasRange "lgetrange"
      (.listGetRange r.key r.rangeLeft r.rangeRight) (.answer .values)
  | .lgetall => some <| .read r.hasKey "lgetrange/getall"
      (.listGetAll r.key) (.answer .values)
  | .ldel => some <| .write r.hasKey "ldel" (.listDel r.key) .setStatus
  | .vadd => some <| .write (r.hasKey && r.hasVmembers) "vadd"
      (.vsetAdd r.key r.vmembers) (.answer .count)
  | .vall => some <| .read r.hasKey "vall" (.vsetAll r.key) (.answer .vmembers)
  | .vdelm => some <| .write r.hasKey "vdelm" (.vsetDel r.key r.value) .setStatus
  | .vdelmrange => some <| .write (r.hasKey && r.hasRange) "vdelmrange"
      (.vsetDelRange r.key r.rangeLeft r.rangeRight) (.answer .count)
  | .vdelmrangebyweight => some <| .write (r.hasKey && r.hasRange) "vdelmrangebyweight"
      (.vsetDelRangeByWeight r.key r.weightLeft r.weightRight) (.answer .count)
  | .vsize => some <| .read r.hasKey "vsize" (.vsetSize r.key) (.answer .count)
  | .vsizebyweight => some <| .read (r.hasKey && r.hasRange) "vsizebyweight"
      (.vsetSizeByWeight r.key r.weightLeft r.weightRight) (.answer .count)
  | .vweight => some <| .read (r.hasKey && r.hasValue) "vweight"
      (.vsetWeight r.key r.value) (.answer .count)
  | .vorder => some <| .read (r.hasKey && r.hasValue) "vorder"
      (.vsetOrder r.key r.value) (.answer .count)
  | .vrorder => some <| .read (r.hasKey && r.hasValue) "vrorder"
      (.vsetROrder r.key r.value) (.answer .count)
  | .vrange => some <| .read (r.hasKey && r.hasRange) "vrange"
      (.vsetRange r.key r.rangeLeft r.rangeRight) (.answer .vmembers)
  | .vrrange => some <| .read (r.hasKey && r.hasRange) "vrrange"
      (.vsetRRange r.key r.rangeLeft r.rangeRight) (.answer .vmembers)
  | .vrangebyweight => some <| .read (r.hasKey && r.hasRange) "vrangebyweight"
      (.vsetRangeByWeight r.key r.weightLeft r.weightRight) (.answer .vmembers)
  | .vrrangebyweight => some <| .read (r.hasKey && r.hasRange) "vrrangebyweight"
      (.vsetRRangeByWeight r.key r.weightLeft r.weightRight) (.answer .vmembers)
  | .madd => some <| .write (r.hasKey && r.hasKvs) "madd"
      (.mapAdd r.key r.kvs) (.answer .count)
  | .mget => some <| .read (r.hasKey && r.hasValue) "mget"
      (.mapGet r.key r.value) (.answer .value)
  -- there is no `break`: the next case follows
  | .mgets => some ⟨r.hasKey && r.hasValues, "mgets", true,
      match r.values with
      | field :: value :: _ => some
          [⟨.mapGets r.key r.values, .answer .values⟩, ⟨.mapSet r.key field value, .setStatus⟩]
      | _ => none⟩
  | .mset => some ⟨r.hasKey && r.hasValues, "mset", false,
      match r.values with
      | field :: value :: _ => some [⟨.mapSet r.key field value, .setStatus⟩]
      | _ => none⟩
  | .mdel => some <| .write (r.hasKey && r.hasValue) "mdel"
      (.mapDel r.key r.value) .setStatus
  | .mall => some <| .read r.hasKey "mall" (.mapAll r.key) (.answer .kvs)
  | .mfields => some <| .read r.hasKey "mfields" (.mapFields r.key) (.answer .values)
  | .mvalues => some <| .read r.hasKey "mvalues" (.mapValues r.key) (.answer .values)
  | .msize => some <| .read r.hasKey "msize" (.mapSize r.key) (.answer .count)
  | .mexists => some <| .read (r.hasKey && r.hasValue) "mexists"
      (.mapExists r.key r.value) .setStatus
  | .sadd => some <| .write (r.hasKey && r.hasValues) "sadd"
      (.setAdd r.key r.values) (.answer .count)
  | .sdelm => some <| .write (r.hasKey && r.hasValue) "sdelm"
      (.setDelm r.key r.value) .setStatus
  | .sexists => some <| .read (r.hasKey && r.hasValue) "sexists"
      (.setExists r.key r.value) .setStatus
  | .ssize => some <| .read r.hasKey "ssize" (.setSize r.key) (.answer .count)
  | .sall => some <| .read r.hasKey "sall" (.setAll r.key) (.answer .values)
  | .sand => some <| .read (r.hasKey && r.hasValue) "sand"
      (.setAnd r.key r.value) (.answer .values)
  | .sor => some <| .read (r.hasKey && r.hasValue) "sor"
      (.setOr r.key r.value) (.answer .values)
  | .ssub => some <| .read (r.hasKey && r.hasValue) "ssub"
      (.setSub r.key r.value) (.answer .values)
  | .sandto => some <| r.toCase "sandto" .setAndTo
  | .sorto => some <| r.toCase "sorto" .setOrTo
  | .ssubto => some <| r.toCase "ssubto" .setSubTo
  | .sandsize => some <| .read (r.hasKey && r.hasValue) "sandsize"
      (.setAndSize r.key r.value) (.answer .count)
  | .sorsize => some <| .read (r.hasKey && r.hasValue) "sorsize"
      (.setOrSize r.key r.value) (.answer .count)
  | .ssubsize => some <| .read (r.hasKey && r.hasValue) "ssubsize"
      (.setSubSize r.key r.value) (.answer .count)
  | .sranddelm => some <| .write r.hasKey "sranddelm" (.setRandDelm r.key) .setStatus
  | .expireAt => some <| .write (r.hasKey && r.hasExpireTime) "expireat"
      (.expireAt r.key r.expireTime) .setStatus
  | .expireAfter => some <| .write (r.hasKey && r.hasExpireTime) "expireafter"
      (.expireAfter r.key recvTime r.expireTime) .setStatus
  | .expiremAt => some <| .write (r.hasKey && r.hasExpireTime) "expiremat"
      (.expireAtMs r.key r.expireTime) .setStatus
  | .expiremAfter => some <| .write (r.hasKey && r.hasExpireTime) "expiremafter"
      (.expireAfterMs r.key recvTime r.expireTime) .setStatus
  | .persist => some <| .write r.hasKey "persist" (.persist r.key) .setStatus
  | .expiration => some <| .read r.hasKey "expiration" (.getExpiration r.key) .answerDeadline
  | .ttl => some <| .read r.hasKey "TTL" (.getTimeToLive r.key) .answerDeadline
  | .type => some <| .read r.hasKey "type" (.type r.key) (.answer .value)
  | .del => some <| .write r.hasKey "del" (.delete r.key) .answerDelete
  | .rename => some <| .write (r.hasKey && r.hasValue) "rename"
      (.rename r.key r.value) .setStatus
  | _ => none

def selected (recvTime : UInt64) : Option RequestCase :=
  r.code.bind (r.case recvTime)

def calls (recvTime : UInt64) : List DbCall :=
  ((r.selected recvTime).bind RequestCase.calls).getD []

end Request

namespace DatabaseInstance

variable {hash : Str → Nat} {C : Type} (w : World C)

def runCalls : List DbCall → Option Response → Db hash C (Option Response)
  | [], response => return response
  | call :: calls, response => do
    let reply ← call.command.run w
    runCalls calls (response.map (call.answer reply))

def execute (recvTime : UInt64) (request : Request) (response : Option Response) :
    Db hash C (Option Response) :=
  match request.selected recvTime with
  | none => return response
  | some c =>
    match response, c.valid with
    | some response, false => return some (response.invalid c.message)
    | response, _ =>
      if c.needsResponse && response.isNone then .abort
      else
        match c.calls with
        | none => .abort
        | some calls => runCalls w calls response

end DatabaseInstance

end Mmkv
