import Mmkv.RequestCodec
import Mmkv.ResponseCodec
import Mmkv.Framing

/-!
# The message callback of the server

The callback logs a write request, with absolute deadlines, parses the request, executes
it and sends the response in a frame.  The error callback sends its response without one.
`execute` stands for `DatabaseManager::Execute` and the two shard commands.

Reading goes by the request and not by the length of the payload, so that a payload that
is no request moves the read position away from the frames.
-/

namespace Mmkv

open Reader FrameStreams List MmbpCodec Option

/-! ## Logging -/

/-- `memcpy` into a buffer. -/
def overwrite (i : Nat) (bs mem : Bytes) : Bytes :=
  mem.take i ++ bs ++ mem.drop (i + bs.length)

/-- `GetReadBegin16`. -/
def peekCommand (buffer : Bytes) : UInt16 :=
  UInt16.ofNat (ofBigEndian (buffer.take 2))

def absoluteDeadline (recvTime exp : UInt64) (word : UInt16) : Option UInt64 :=
  match commandCode word with
  | some .expireAt => some (1000 * exp)
  | some .expireAfter => some (1000 * exp + recvTime)
  | some .expiremAfter => some (exp + recvTime)
  | _ => none

/-- The bytes for the log, the buffer after the changes in place, and the parts of the
buffer that have been read, counted from the payload on. -/
structure Logged where
  log : Bytes
  buffer : Bytes
  reads : List (Int × Int)
  deriving Repr, DecidableEq

/-- `LogRequestToFile`.  `stale` are the eight bytes in front of the payload; 58 is
`EXPIREM_AT`. -/
def logRequestToFile (expirationDisabled : Bool) (recvTime : UInt64) (stale : Bytes)
    (length : Nat) (buffer : Bytes) : Option Logged :=
  if expirationDisabled then some ⟨[], buffer, []⟩
  else if buffer.length < 2 then none
  else if getCommandType (peekCommand buffer) ≠ .write then some ⟨[], buffer, [(0, 2)]⟩
  else if buffer.length < 8 then none
  else
    let reads : List (Int × Int) := [(0, 2), (length - 8, length), (0, length)]
    let exp := UInt64.ofNat (ofBigEndian (((stale ++ buffer).drop length).take 8))
    match absoluteDeadline recvTime exp (peekCommand buffer) with
    | none => some ⟨bigEndian 4 length ++ buffer.take length, buffer, reads⟩
    | some deadline =>
      let mem := overwrite length (bigEndian 8 deadline.toNat)
        (overwrite 8 (bigEndian 2 58) (stale ++ buffer))
      let buffer := mem.drop 8
      some ⟨bigEndian 4 length ++ buffer.take length, buffer, reads⟩

/-! ## Handling a message -/

structure ServerConfig where
  logsRequests : Bool
  expirationDisabled : Bool
  deriving Repr, DecidableEq

structure Handled (A : Type) where
  response : Response
  app : A
  log : Bytes
  buffer : Bytes
  reads : List (Int × Int)

structure ServerState (A : Type) where
  app : A
  log : Bytes
  sent : Bytes
  replies : List Response
  errors : List MmbpCodec.ErrorCode

namespace MmkvServer

variable {A : Type} (kvarint : VarintCode) (xxh32 : Bytes → UInt32) (config : ServerConfig)
  (fresh : Request) (execute : UInt64 → Request → A → Option (Response × A))

/-- With `LM_REQUEST` the request is logged before it is parsed. -/
def logStep (recvTime : UInt64) (stale : Bytes) (length : Nat) (buffer : Bytes) : Option Logged :=
  if config.logsRequests then
    logRequestToFile config.expirationDisabled recvTime stale length buffer
  else some ⟨[], buffer, []⟩

/-- The message callback.  It prints `GetCommandString(request.command)`, an unchecked
index into a table of `COMMAND_NUM` strings, before it executes the request. -/
def handle (recvTime : UInt64) (stale : Bytes) (length : Nat) (buffer : Bytes) (app : A) :
    Option (Handled A) := do
  let logged ← logStep config recvTime stale length buffer
  let (request, rest) ← Request.parseFrom kvarint fresh logged.buffer
  let _ ← commandCode request.command
  let (response, app) ← execute recvTime request app
  return ⟨response, app, logged.log, rest,
    logged.reads ++ [(0, (logged.buffer.length : Int) - rest.length)]⟩

def reply (handled : Handled A) (s : ServerState A) : ServerState A :=
  { s with
    app := handled.app
    log := s.log ++ handled.log
    sent := s.sent ++ frame kvarint xxh32 (handled.response.serialize kvarint)
    replies := s.replies ++ [handled.response] }

/-- The response of the default error callback, with `S_INVALID_MESSAGE`. -/
def errorResponse : Response :=
  { Response.new 0 with status := StatusCode.invalidMessage.toByte }

def callbacks (recvTime : UInt64) (stale : Bytes) : MmbpCodec.Callbacks (ServerState A) where
  message length buffer s :=
    (handle kvarint config fresh execute recvTime stale length buffer s.app).map
      fun handled => (handled.buffer, reply kvarint xxh32 handled s)
  error code s :=
    { s with
      sent := s.sent ++ errorResponse.serialize kvarint
      errors := s.errors ++ [code] }

end MmkvServer

open MmkvServer

/-! ## Rewriting in place -/

variable (rest : Bytes) {bs mem : Bytes} {i : Nat}

variable {payload : Bytes} (recvTime : UInt64)

variable {stale : Bytes}

def Within (payload : Bytes) (reads : List (Int × Int)) : Prop :=
  ∀ span ∈ reads, 0 ≤ span.1 ∧ span.2 ≤ payload.length

namespace MmkvServer

section Log

variable {config : ServerConfig} {stale payload : Bytes}

variable {logged : Logged}

end Log

section Handle

variable {A : Type} {kvarint : VarintCode} {config : ServerConfig} {fresh : Request}
  {execute : UInt64 → Request → A → Option (Response × A)} {recvTime : UInt64}
  {stale payload : Bytes} {length : Nat} {buffer : Bytes} {handled : Handled A} {rest : Bytes}

variable {xxh32 : Bytes → UInt32}

end Handle

end MmkvServer

end Mmkv
