import Mmkv.CNumbers
import Mmkv.RequestCodec
import Mmkv.Tokenizer

/-!
# The translator of the client

The client turns a line into a request.  The table of `information.cc` gives each
command a format, and `Translator::Parse` reads the tokens of the line by it.

`denoted` says what a list of tokens stands for in a format, and `Trusted` where the
translator finds that request, or rejects what stands for none.
-/

namespace Mmkv

open List Option

open TokenizerIterator (Reads)

/-! ## Formats -/

inductive CommandFormat where
  | onlyKey
  | value
  | values
  | count
  | range
  | drange
  | vsetMembers
  | mapValues
  | fieldValue
  | setOp
  | setOpTo
  | expire
  | none
  | mulKeys
  | invalid
  deriving Repr, DecidableEq

/-- The formats that `GenCommandMetadata` registers. -/
def getCommandFormat : CommandCode → CommandFormat
  | .memStat | .keyall | .delall | .shardLeave => .none
  | .strAdd | .strSet | .strappend => .value
  | .mexists | .mdel | .mget => .value
  | .mgets => .values
  | .mset => .fieldValue
  | .sand | .sor | .ssub | .sandsize | .sorsize | .ssubsize => .setOp
  | .sandto | .sorto | .ssubto => .setOpTo
  | .sadd => .values
  | .strGet | .strDel | .strlen | .lgetall | .lgetsize | .ldel | .vsize | .vall | .del | .type
  | .mall | .msize | .mfields | .mvalues | .sall | .ssize | .sranddelm | .persist
  | .expiration | .ttl => .onlyKey
  | .ladd | .lappend | .lprepend => .values
  | .strpopback | .lpopback | .lpopfront => .count
  | .shardJoin => .count
  | .lgetrange => .range
  | .vadd => .vsetMembers
  | .madd => .mapValues
  | .vdelm | .vweight | .vorder | .vrorder | .sdelm | .sexists => .value
  | .vdelmrange | .vrange | .vrrange => .range
  | .vdelmrangebyweight | .vrangebyweight | .vrrangebyweight | .vsizebyweight => .drange
  | .rename => .value
  | .expireAt | .expiremAt => .expire
  | .expireAfter | .expiremAfter => .expire
  | .dels => .mulKeys

def CommandCode.word (code : CommandCode) : UInt16 :=
  UInt16.ofNat (CommandCode.all.idxOf code)

/-! ## The macros -/

/-- Why `Parse` does not come back with `E_OK`. -/
inductive ParseStop where
  /-- `E_SYNTAX_ERROR`, with the message that has been printed. -/
  | syntaxError (printed : Option String)
  /-- A token does not fit in the buffer that it is copied to. -/
  | overrun
  /-- The iterator is read behind the last token. -/
  | pastEnd
  | assertion
  /-- A loop runs on. -/
  | unfinished
  deriving Repr, DecidableEq

def Request.mark (i : UInt8) (r : Request) : Request :=
  { r with hasBits := r.hasBits.set i }

namespace Translator

/-- `SYNTAX_ERROR_ROUTINE`. -/
def syntaxErrorRoutine (it : TokenizerIterator) : Except ParseStop Unit :=
  if it.atEnd then throw (.syntaxError none) else return

/-- `SYNTAX_ERROR_ROUTINE_END`. -/
def syntaxErrorRoutineEnd (it : TokenizerIterator) : Except ParseStop Unit :=
  if it.atEnd then return else throw (.syntaxError none)

def token (it : TokenizerIterator) : Except ParseStop Str :=
  match it.value with
  | some t => return t
  | none => throw .pastEnd

/-- `SET_KEY`. -/
def setKey (it : TokenizerIterator) (r : Request) :
    Except ParseStop (TokenizerIterator × Request) := do
  syntaxErrorRoutine it
  let key ← token it
  return (it.increment, { r.mark 0 with key })

/-- `SET_VALUE`. -/
def setValue (it : TokenizerIterator) (r : Request) :
    Except ParseStop (TokenizerIterator × Request) := do
  syntaxErrorRoutine it
  let value ← token it
  return (it.increment, { r.mark 1 with value })

/-- The loop of `SET_VALUES`. -/
def collect : Nat → TokenizerIterator → List Str →
    Except ParseStop (TokenizerIterator × List Str)
  | 0, _, _ => throw .unfinished
  | fuel + 1, it, values => do
    let t ← token it
    let it := it.increment
    if it.atEnd then return (it, values ++ [t])
    else collect fuel it (values ++ [t])

/-- A token has at least one byte, so no loop has more rounds than the text has
bytes. -/
def rounds (it : TokenizerIterator) : Nat :=
  it.tokenizer.text.length + 1

/-- `SET_VALUES`. -/
def setValues (it : TokenizerIterator) (r : Request) :
    Except ParseStop (TokenizerIterator × Request) := do
  syntaxErrorRoutine it
  let (it, values) ← collect (rounds it) it []
  return (it.increment, { r.mark 3 with values })

/-- A token is copied to a buffer of `size` bytes and converted there.  The conversion
also tells how far it has read. -/
structure Conversion (α : Type) where
  size : Nat
  convert : Str → α × Nat
  isZero : α → Bool

namespace Conversion

variable {α : Type} (c : Conversion α)

def result (t : Str) : α :=
  (c.convert (cString t)).1

def rejects (t : Str) : Bool :=
  c.isZero (c.result t) && (c.convert (cString t)).2 == 0

def read (message : String) (t : Str) : Except ParseStop α :=
  if c.size ≤ t.length then throw .overrun
  else if c.rejects t then throw (.syntaxError (some message))
  else return c.result t

end Conversion

open Conversion

/-- `SET_INTEGER` with a `uint32_t`. -/
def toCount : Conversion UInt32 :=
  ⟨64, fun s => ((strtoull s).1.toUInt32, (strtoull s).2), (· == 0)⟩

/-- `SET_INTEGER` with a `uint64_t`. -/
def toExpireTime : Conversion UInt64 :=
  ⟨64, strtoull, (· == 0)⟩

/-- `SET_SIGN_INTEGER`. -/
def toBound : Conversion Int :=
  ⟨64, strtol, (· == 0)⟩

/-- `SET_DOUBLE`. -/
def toWeight (strtod : Str → Weight × Nat) : Conversion Weight :=
  ⟨128, strtod, (·.eq ⟨0⟩)⟩

def setNumber {α : Type} (c : Conversion α) (message : String) (it : TokenizerIterator) :
    Except ParseStop (TokenizerIterator × α) := do
  syntaxErrorRoutine it
  let t ← token it
  let n ← c.read message t
  return (it.increment, n)

/-! ## Parse -/

/-- The loop of `F_VSET_MEMBERS`, which goes on to the next token before it reads. -/
def vsetMembers (strtod : Str → Weight × Nat) : Nat → TokenizerIterator → List WeightValue →
    Except ParseStop (List WeightValue)
  | 0, _, _ => throw .unfinished
  | fuel + 1, it, vms => do
    let it := it.increment
    if it.atEnd then return vms
    else
      let t ← token it
      let weight ← (toWeight strtod).read "ERROR: invalid weight" t
      let it := it.increment
      syntaxErrorRoutine it
      let member ← token it
      vsetMembers strtod fuel it (vms ++ [⟨weight, member⟩])

/-- The loop of `F_MAP_VALUES`, which reads one token for the field and the value. -/
def mapValues : Nat → TokenizerIterator → List (KeyValue Str) →
    Except ParseStop (List (KeyValue Str))
  | 0, _, _ => throw .unfinished
  | fuel + 1, it, kvs => do
    let it := it.increment
    if it.atEnd then return kvs
    else
      let field ← token it
      syntaxErrorRoutine it
      let value ← token it
      mapValues fuel it (kvs ++ [⟨field, value⟩])

def parseFormat (strtod : Str → Weight × Nat) (it : TokenizerIterator) (r : Request) :
    CommandFormat → Except ParseStop Request
  | .none => do
    syntaxErrorRoutineEnd it
    return r
  | .value => do
    let (it, r) ← setKey it r
    let (it, r) ← setValue it r
    syntaxErrorRoutineEnd it
    return r
  | .onlyKey => do
    let (it, r) ← setKey it r
    syntaxErrorRoutineEnd it
    return r
  | .values => do
    let (it, r) ← setKey it r
    let (_, r) ← setValues it r
    return r
  | .setOp => do
    let (it, r) ← setKey it r
    let (it, r) ← setValue it r
    syntaxErrorRoutineEnd it
    return r
  | .setOpTo => do
    let (_, r) ← setValues it r
    if r.values.length > 3 then throw (.syntaxError none) else return r
  | .fieldValue => do
    let (it, r) ← setKey it r
    syntaxErrorRoutine it
    let field ← token it
    -- the iterator stays where it is
    syntaxErrorRoutine it
    let value ← token it
    syntaxErrorRoutineEnd it
    return { r.mark 3 with values := r.values ++ [field, value] }
  | .range => do
    let (it, r) ← setKey it r
    let (it, left) ← setNumber toBound "ERROR: left bound of range is invalid" it
    let (it, right) ← setNumber toBound "ERROR: right bound of range is invalid" it
    syntaxErrorRoutineEnd it
    return { r.mark 6 with left := Request.signedWord left, right := Request.signedWord right }
  | .count => do
    let (it, r) ← setKey it r
    let (it, count) ← setNumber toCount "ERROR: count is invalid" it
    syntaxErrorRoutineEnd it
    return (r.mark 5).setCount count.toNat
  | .vsetMembers => do
    let (it, r) ← setKey it r
    let vmembers ← vsetMembers strtod (rounds it) it r.vmembers
    return { r.mark 7 with vmembers }
  | .drange => do
    let (it, r) ← setKey it r
    let (it, left) ← setNumber (toWeight strtod) "ERROR: left weight of range is invalid" it
    let (it, right) ← setNumber (toWeight strtod) "ERROR: right weight of range is invalid" it
    syntaxErrorRoutineEnd it
    return { r.mark 6 with left := left.bits, right := right.bits }
  | .mapValues => do
    let (it, r) ← setKey it r
    let kvs ← mapValues (rounds it) it r.kvs
    return { r.mark 4 with kvs }
  | .expire => do
    let (it, r) ← setKey it r
    let (it, expireTime) ← setNumber toExpireTime "ERROR: expiration time is invalid" it
    syntaxErrorRoutineEnd it
    return { r.mark 2 with expireTime }
  | .mulKeys => do
    let (_, r) ← setValues it r
    return r
  | .invalid => throw .assertion

def parse (strtod : Str → Weight × Nat) (r : Request) (cmd : CommandCode) (statement : Str) :
    Except ParseStop Request :=
  parseFormat strtod (Tokenizer.begin ⟨statement, 32⟩) { r with command := cmd.word }
    (getCommandFormat cmd)

/-! ## What the tokens stand for -/

def countOf (t : Str) : Option UInt32 :=
  (numeral t).bind fun n =>
    if 0 ≤ n ∧ n < 2 ^ 32 then some (UInt32.ofNat n.toNat) else none

def expireTimeOf (t : Str) : Option UInt64 :=
  (numeral t).bind fun n =>
    if 0 ≤ n ∧ n < 2 ^ 64 then some (UInt64.ofNat n.toNat) else none

def boundOf (t : Str) : Option Int :=
  (numeral t).bind fun n => if -2 ^ 63 ≤ n ∧ n < 2 ^ 63 then some n else none

/-- A token spells a weight if `strtod` reads all of it. -/
def weightOf (strtod : Str → Weight × Nat) (t : Str) : Option Weight :=
  if t ≠ [] ∧ (strtod (cString t)).2 = t.length then some (strtod (cString t)).1 else none

def numberOf {α : Type} (denotes : Str → Option α) (build : α → Request) :
    List Str → Option Request
  | [t] => (denotes t).map build
  | _ => none

def numbersOf {α : Type} (denotes : Str → Option α) (build : α → α → Request) :
    List Str → Option Request
  | [t₁, t₂] =>
    match denotes t₁, denotes t₂ with
    | some n₁, some n₂ => some (build n₁ n₂)
    | _, _ => none
  | _ => none

def membersOf (strtod : Str → Weight × Nat) : List Str → Option (List WeightValue)
  | [] => some []
  | [_] => none
  | t :: member :: ts =>
    match weightOf strtod t, membersOf strtod ts with
    | some weight, some vms => some (⟨weight, member⟩ :: vms)
    | _, _ => none

def fieldsOf : List Str → Option (List (KeyValue Str))
  | [] => some []
  | [_] => none
  | field :: value :: ts => (fieldsOf ts).map (⟨field, value⟩ :: ·)

/-- The request that the tokens stand for.  Where a format has dots, there is at least
one value or pair. -/
def denoted (strtod : Str → Weight × Nat) (r : Request) : CommandFormat → List Str →
    Option Request
  | .none, [] => some r
  | .onlyKey, [key] => some { r.mark 0 with key }
  | .value, [key, value] => some { (r.mark 0).mark 1 with key, value }
  | .setOp, [key, value] => some { (r.mark 0).mark 1 with key, value }
  | .values, key :: value :: values =>
    some { (r.mark 0).mark 3 with key, values := value :: values }
  | .mulKeys, value :: values => some { r.mark 3 with values := value :: values }
  | .setOpTo, [dest, key₁, key₂] => some { r.mark 3 with values := [dest, key₁, key₂] }
  | .fieldValue, [key, field, value] =>
    some { (r.mark 0).mark 3 with key, values := [field, value] }
  | .range, key :: ts =>
    numbersOf boundOf (fun left right =>
      { (r.mark 0).mark 6 with
        key, left := Request.signedWord left, right := Request.signedWord right }) ts
  | .drange, key :: ts =>
    numbersOf (weightOf strtod) (fun left right =>
      { (r.mark 0).mark 6 with key, left := left.bits, right := right.bits }) ts
  | .count, key :: ts =>
    numberOf countOf (fun count =>
      ({ (r.mark 0).mark 5 with key }).setCount count.toNat) ts
  | .expire, key :: ts =>
    numberOf expireTimeOf (fun expireTime =>
      { (r.mark 0).mark 2 with key, expireTime }) ts
  | .vsetMembers, key :: t :: ts =>
    (membersOf strtod (t :: ts)).map fun vmembers => { (r.mark 0).mark 7 with key, vmembers }
  | .mapValues, key :: t :: ts =>
    (fieldsOf (t :: ts)).map fun kvs => { (r.mark 0).mark 4 with key, kvs }
  | _, _ => none

/-- The request is found, or the tokens are rejected as a syntax error. -/
def Translates (outcome : Except ParseStop Request) : Option Request → Prop
  | some r => outcome = .ok r
  | none => ∃ printed, outcome = .error (.syntaxError printed)

variable {expected : Option Request}

theorem translates_ok_iff {r : Request} :
    Translates (.ok r) expected ↔ expected = some r := by
  cases expected <;> simp [Translates, eq_comm]

theorem translates_syntaxError_iff {printed : Option String} :
    Translates (.error (.syntaxError printed)) expected ↔ expected = none := by
  cases expected <;> simp [Translates]

theorem not_translates_overrun (expected : Option Request) :
    ¬Translates (.error .overrun) expected := by
  cases expected <;> simp [Translates]

/-! ## The steps in terms of the tokens -/

open Nat

variable {strtod : Str → Weight × Nat} {it : TokenizerIterator} {t : Str} {ts : List Str}
  {r : Request} {α : Type} {c : Conversion α} {message : String} {fuel : Nat}

section

variable (h : it.Reads [])

include h

theorem syntaxErrorRoutine_nil : syntaxErrorRoutine it = .error (.syntaxError none) := by
  rw [syntaxErrorRoutine, h.atEnd]
  rfl

theorem syntaxErrorRoutineEnd_nil : syntaxErrorRoutineEnd it = .ok () := by
  rw [syntaxErrorRoutineEnd, h.atEnd]
  rfl

theorem setKey_nil : setKey it r = .error (.syntaxError none) := by
  rw [setKey, syntaxErrorRoutine_nil h]
  rfl

theorem setValue_nil : setValue it r = .error (.syntaxError none) := by
  rw [setValue, syntaxErrorRoutine_nil h]
  rfl

theorem setValues_nil : setValues it r = .error (.syntaxError none) := by
  rw [setValues, syntaxErrorRoutine_nil h]
  rfl

theorem setNumber_nil : setNumber c message it = .error (.syntaxError none) := by
  rw [setNumber, syntaxErrorRoutine_nil h]
  rfl

end

theorem Conversion.read_overrun (hsize : ¬t.length < c.size) :
    c.read message t = .error .overrun := by
  rw [read, if_pos (not_lt.mp hsize)]
  rfl

theorem Conversion.read_rejects (hsize : t.length < c.size) (hrej : c.rejects t = true) :
    c.read message t = .error (.syntaxError (some message)) := by
  rw [read, if_neg (not_le.mpr hsize), if_pos hrej]
  rfl

theorem Conversion.read_ok (hsize : t.length < c.size) (hrej : c.rejects t = false) :
    c.read message t = .ok (c.result t) := by
  rw [read, if_neg (not_le.mpr hsize), hrej]
  rfl

section

variable (h : it.Reads (t :: ts))

include h

theorem syntaxErrorRoutine_cons : syntaxErrorRoutine it = .ok () := by
  rw [syntaxErrorRoutine, h.atEnd]
  rfl

theorem syntaxErrorRoutineEnd_cons : syntaxErrorRoutineEnd it = .error (.syntaxError none) := by
  rw [syntaxErrorRoutineEnd, h.atEnd]
  rfl

theorem token_cons : token it = .ok t := by
  rw [token, h.value]
  rfl

theorem setKey_cons : setKey it r = .ok (it.increment, { r.mark 0 with key := t }) := by
  rw [setKey, syntaxErrorRoutine_cons h, token_cons h]
  rfl

theorem setValue_cons : setValue it r = .ok (it.increment, { r.mark 1 with value := t }) := by
  rw [setValue, syntaxErrorRoutine_cons h, token_cons h]
  rfl

theorem collect_cons (hfuel : ts.length < fuel)
    (values : List Str) :
    ∃ it', collect fuel it values = .ok (it', values ++ t :: ts) := by
  induction ts generalizing it t fuel values with
  | nil =>
    obtain ⟨fuel, rfl⟩ := exists_eq_add_one_of_ne_zero (by omega : fuel ≠ 0)
    have hend : it.increment.atEnd = true := h.increment.atEnd
    refine ⟨it.increment, ?_⟩
    simp only [collect, token_cons h, hend]
    rfl
  | cons t' ts ih =>
    obtain ⟨fuel, rfl⟩ := exists_eq_add_one_of_ne_zero (by omega : fuel ≠ 0)
    have hmore : it.increment.atEnd = false := h.increment.atEnd
    obtain ⟨it', hrest⟩ := ih h.increment (by simpa using hfuel) (values ++ [t])
    refine ⟨it', ?_⟩
    rw [append_assoc] at hrest
    simp only [collect, token_cons h, hmore]
    exact hrest

theorem setValues_cons (hfuel : ts.length < rounds it) (r : Request) :
    ∃ it', setValues it r = .ok (it', { r.mark 3 with values := t :: ts }) := by
  obtain ⟨it', hcollect⟩ := collect_cons h hfuel []
  refine ⟨it'.increment, ?_⟩
  rw [setValues, syntaxErrorRoutine_cons h, hcollect]
  rfl

theorem setNumber_cons :
    setNumber c message it = (c.read message t).map (Prod.mk it.increment) := by
  rw [setNumber, syntaxErrorRoutine_cons h, token_cons h]
  cases hread : c.read message t with
  | error stop =>
    simp only [bind, Except.bind, hread]
    rfl
  | ok n =>
    simp only [bind, Except.bind, hread]
    rfl

theorem setNumber_overrun (hsize : ¬t.length < c.size) :
    setNumber c message it = .error .overrun := by
  rw [setNumber_cons h, read_overrun hsize]
  rfl

theorem setNumber_rejects (hsize : t.length < c.size)
    (hrej : c.rejects t = true) :
    setNumber c message it = .error (.syntaxError (some message)) := by
  rw [setNumber_cons h, read_rejects hsize hrej]
  rfl

theorem setNumber_ok (hsize : t.length < c.size)
    (hrej : c.rejects t = false) :
    setNumber c message it = .ok (it.increment, c.result t) := by
  rw [setNumber_cons h, read_ok hsize hrej]
  rfl

/-! ## Formats that are read right -/

theorem translates_none :
    Translates (parseFormat strtod it r .none) (denoted strtod r .none (t :: ts)) := by
  refine ⟨none, ?_⟩
  simp only [parseFormat, syntaxErrorRoutineEnd_cons h]
  rfl

theorem translates_onlyKey :
    Translates (parseFormat strtod it r .onlyKey) (denoted strtod r .onlyKey (t :: ts)) := by
  cases ts with
  | nil =>
    simp only [denoted, Translates, parseFormat, setKey_cons h, bind, Except.bind,
      syntaxErrorRoutineEnd_nil h.increment]
    rfl
  | cons t' ts =>
    refine ⟨none, ?_⟩
    simp only [parseFormat, setKey_cons h, bind, Except.bind,
      syntaxErrorRoutineEnd_cons h.increment]

theorem translates_value :
    Translates (parseFormat strtod it r .value) (denoted strtod r .value (t :: ts)) := by
  match ts with
  | [] =>
    refine ⟨none, ?_⟩
    simp only [parseFormat, setKey_cons h, bind, Except.bind, setValue_nil h.increment]
  | [value] =>
    simp only [denoted, Translates, parseFormat, setKey_cons h, bind, Except.bind,
      setValue_cons h.increment, syntaxErrorRoutineEnd_nil h.increment.increment]
    rfl
  | value :: t' :: ts =>
    refine ⟨none, ?_⟩
    simp only [parseFormat, setKey_cons h, bind, Except.bind, setValue_cons h.increment,
      syntaxErrorRoutineEnd_cons h.increment.increment]

/-- `F_SET_OP` is `F_VALUE` under another name. -/
theorem translates_setOp :
    Translates (parseFormat strtod it r .setOp) (denoted strtod r .setOp (t :: ts)) := by
  have hvalue : Translates (parseFormat strtod it r .value) _ := translates_value h
  match ts with
  | [] => exact hvalue
  | [_] => exact hvalue
  | _ :: _ :: _ => exact hvalue

theorem translates_values (hfuel : ts.length < rounds it) :
    Translates (parseFormat strtod it r .values) (denoted strtod r .values (t :: ts)) := by
  cases ts with
  | nil =>
    refine ⟨none, ?_⟩
    simp only [parseFormat, setKey_cons h, bind, Except.bind, setValues_nil h.increment]
  | cons value values =>
    have hrounds : values.length < rounds it.increment := lt_of_succ_lt hfuel
    obtain ⟨it', hvalues⟩ := setValues_cons h.increment hrounds { r.mark 0 with key := t }
    simp only [denoted, Translates, parseFormat, setKey_cons h, bind, Except.bind, hvalues]
    rfl

theorem translates_mulKeys (hfuel : ts.length < rounds it) :
    Translates (parseFormat strtod it r .mulKeys) (denoted strtod r .mulKeys (t :: ts)) := by
  obtain ⟨it', hvalues⟩ := setValues_cons h hfuel r
  simp only [denoted, Translates, parseFormat, bind, Except.bind, hvalues]
  rfl

/-! ## The set operations with a destination, and `MSET` -/

theorem translates_setOpTo_iff (hfuel : ts.length < rounds it) :
    Translates (parseFormat strtod it r .setOpTo) (denoted strtod r .setOpTo (t :: ts)) ↔
      (t :: ts).length ≠ 1 ∧ (t :: ts).length ≠ 2 := by
  obtain ⟨it', hvalues⟩ := setValues_cons h hfuel r
  simp only [parseFormat, bind, Except.bind, hvalues]
  match ts with
  | [] => exact iff_of_false (fun ⟨_, hok⟩ => by cases hok) (by simp)
  | [_] => exact iff_of_false (fun ⟨_, hok⟩ => by cases hok) (by simp)
  | [_, _] => exact iff_of_true rfl (by simp)
  | _ :: _ :: _ :: _ => exact iff_of_true ⟨none, rfl⟩ (by simp)

theorem translates_fieldValue_iff :
    Translates (parseFormat strtod it r .fieldValue) (denoted strtod r .fieldValue (t :: ts)) ↔
      (t :: ts).length ≠ 3 := by
  have herror : parseFormat strtod it r .fieldValue = .error (.syntaxError none) := by
    cases ts with
    | nil =>
      simp only [parseFormat, setKey_cons h, bind, Except.bind, syntaxErrorRoutine_nil h.increment]
    | cons field ts =>
      simp only [parseFormat, setKey_cons h, bind, Except.bind,
        syntaxErrorRoutine_cons h.increment, token_cons h.increment,
        syntaxErrorRoutineEnd_cons h.increment]
  rw [herror]
  match ts with
  | [] => exact iff_of_true ⟨none, rfl⟩ (by simp)
  | [_] => exact iff_of_true ⟨none, rfl⟩ (by simp)
  | [_, _] => exact iff_of_false (fun hok => by cases hok) (by simp)
  | _ :: _ :: _ :: _ => exact iff_of_true ⟨none, rfl⟩ (by simp)

end

/-! ## Formats with numbers -/

def Conversion.Sound {α : Type} (c : Conversion α) (denotes : Str → Option α) : Prop :=
  ∀ t n, denotes t = some n → c.rejects t = false ∧ c.result t = n

theorem natural_of_numeral {t : Str} {n : Int} {bound : Nat} (h : numeral t = some n)
    (hn : 0 ≤ n ∧ n < bound) : n.toNat < bound ∧ Numeral t n.toNat := by
  refine ⟨by omega, ?_⟩
  rw [Int.toNat_of_nonneg hn.1]
  exact numeral_of_some h

theorem sound_toExpireTime : toExpireTime.Sound expireTimeOf := by
  intro t time h
  obtain ⟨n, hnumeral, hn⟩ := bind_eq_some_iff.mp h
  simp only [ite_none_right_eq_some, Option.some.injEq] at hn
  obtain ⟨hlt, hnum⟩ := natural_of_numeral hnumeral hn.1
  have hread : strtoull (cString t) = (time, t.length) := by
    rw [hnum.nulFree, strtoull_of_numeral hnum hlt, hn.2]
  have hlen : t.length ≠ 0 := ne_of_gt hnum.length_pos
  simp [rejects, result, toExpireTime, hread, hlen]

theorem sound_toCount : toCount.Sound countOf := by
  intro t count h
  obtain ⟨n, hnumeral, hn⟩ := bind_eq_some_iff.mp h
  simp only [ite_none_right_eq_some, Option.some.injEq] at hn
  obtain ⟨hlt, hnum⟩ := natural_of_numeral hnumeral hn.1
  have hread : strtoull (cString t) = (UInt64.ofNat n.toNat, t.length) := by
    rw [hnum.nulFree, strtoull_of_numeral hnum (by omega)]
  have hcount : (UInt64.ofNat n.toNat).toUInt32 = count := by
    rw [← hn.2]
    apply UInt32.toNat_inj.mp
    rw [UInt64.toNat_toUInt32, UInt64.toNat_ofNat', UInt32.toNat_ofNat']
    omega
  have hlen : t.length ≠ 0 := ne_of_gt hnum.length_pos
  simp [rejects, result, toCount, hread, hlen, hcount]

theorem sound_toBound : toBound.Sound boundOf := by
  intro t bound h
  obtain ⟨n, hnumeral, hn⟩ := bind_eq_some_iff.mp h
  simp only [ite_none_right_eq_some, Option.some.injEq] at hn
  obtain ⟨hrange, rfl⟩ := hn
  have hnum := numeral_of_some hnumeral
  have hread : strtol (cString t) = (n, t.length) := by
    rw [hnum.nulFree, strtol_of_numeral hnum hrange]
  have hlen : t.length ≠ 0 := ne_of_gt hnum.length_pos
  simp [rejects, result, toBound, hread, hlen]

theorem sound_toWeight (strtod : Str → Weight × Nat) :
    (toWeight strtod).Sound (weightOf strtod) := by
  intro t weight h
  simp only [weightOf, ite_none_right_eq_some, Option.some.injEq] at h
  obtain ⟨⟨hne, hall⟩, hweight⟩ := h
  have hlen : t.length ≠ 0 := by simpa using hne
  simp [rejects, result, toWeight, hall, hlen, hweight]

variable {denotes : Str → Option α}

/-- A number that is the last token and is taken is spelled by the whole token. -/
def OneNumber (c : Conversion α) (denotes : Str → Option α) : List Str → Prop
  | [] => True
  | t :: ts => t.length < c.size ∧ (ts = [] → c.rejects t = true ∨ (denotes t).isSome)

def TwoNumbers (c : Conversion α) (denotes : Str → Option α) : List Str → Prop
  | [] => True
  | t₁ :: ts => t₁.length < c.size ∧ (c.rejects t₁ = true ∨ match ts with
      | [] => True
      | t₂ :: ts => t₂.length < c.size ∧
          (ts = [] → c.rejects t₂ = true ∨ (denotes t₁).isSome ∧ (denotes t₂).isSome))

theorem Conversion.Sound.none_of_rejects (hc : c.Sound denotes) (h : c.rejects t = true) :
    denotes t = none := by
  cases hd : denotes t with
  | none => rfl
  | some n =>
    rw [(hc t n hd).1] at h
    cases h

theorem Conversion.Sound.map_eq_iff (hc : c.Sound denotes) (build : α → Request) (t : Str) :
    (denotes t).map build = some (build (c.result t)) ↔ (denotes t).isSome := by
  cases hd : denotes t with
  | none => simp
  | some n => simp [(hc t n hd).2]

def parseNumber (c : Conversion α) (message : String) (build : α → Request)
    (it : TokenizerIterator) : Except ParseStop Request := do
  let (it, n) ← setNumber c message it
  syntaxErrorRoutineEnd it
  return build n

def parseNumbers (c : Conversion α) (message₁ message₂ : String) (build : α → α → Request)
    (it : TokenizerIterator) : Except ParseStop Request := do
  let (it, n₁) ← setNumber c message₁ it
  parseNumber c message₂ (build n₁) it

theorem parseNumber_nil (h : it.Reads []) (message : String) (build : α → Request) :
    parseNumber c message build it = .error (.syntaxError none) := by
  simp only [parseNumber, setNumber_nil h]
  rfl

theorem parseNumber_cases (h : it.Reads (t :: ts)) (message : String) (build : α → Request) :
    (¬t.length < c.size ∧ parseNumber c message build it = .error .overrun) ∨
    (t.length < c.size ∧ (c.rejects t = true ∨ ts ≠ []) ∧
      ∃ printed, parseNumber c message build it = .error (.syntaxError printed)) ∨
    (t.length < c.size ∧ c.rejects t = false ∧ ts = [] ∧
      parseNumber c message build it = .ok (build (c.result t))) := by
  by_cases hsize : t.length < c.size
  · right
    cases hrej : c.rejects t with
    | true =>
      refine .inl ⟨hsize, .inl rfl, some message, ?_⟩
      simp only [parseNumber, setNumber_rejects h hsize hrej]
      rfl
    | false =>
      cases ts with
      | nil =>
        refine .inr ⟨hsize, rfl, rfl, ?_⟩
        simp only [parseNumber, setNumber_ok h hsize hrej, bind, Except.bind,
          syntaxErrorRoutineEnd_nil h.increment]
        rfl
      | cons t' ts =>
        refine .inl ⟨hsize, .inr (by simp), none, ?_⟩
        simp only [parseNumber, setNumber_ok h hsize hrej, bind, Except.bind,
          syntaxErrorRoutineEnd_cons h.increment]
  · refine .inl ⟨hsize, ?_⟩
    simp only [parseNumber, setNumber_overrun h hsize]
    rfl

theorem translates_number_iff (hc : c.Sound denotes) (h : it.Reads ts) (message : String)
    (build : α → Request) :
    Translates (parseNumber c message build it) (numberOf denotes build ts) ↔
      OneNumber c denotes ts := by
  cases ts with
  | nil =>
    rw [parseNumber_nil h]
    exact iff_of_true ⟨none, rfl⟩ trivial
  | cons t ts =>
    obtain ⟨hsize, hout⟩ | ⟨hsize, hwhy, printed, hout⟩ | ⟨hsize, hrej, rfl, hout⟩ :=
      parseNumber_cases (c := c) h message build
    · rw [hout]
      exact iff_of_false (not_translates_overrun _) fun hone => hsize hone.1
    · rw [hout, translates_syntaxError_iff]
      refine iff_of_true ?_ ⟨hsize, fun hts => .inl (hwhy.resolve_right (· hts))⟩
      cases ts with
      | nil => simp [numberOf, hc.none_of_rejects (hwhy.resolve_right (· rfl))]
      | cons t' ts => rfl
    · rw [hout]
      refine translates_ok_iff.trans ((hc.map_eq_iff build t).trans ?_)
      simp [OneNumber, hsize, hrej]

theorem numbersOf_none {build : α → α → Request} {t1 : Str} (h : denotes t1 = none)
    (ts : List Str) : numbersOf denotes build (t1 :: ts) = none := by
  match ts with
  | [] => rfl
  | [_] => simp [numbersOf, h]
  | _ :: _ :: _ => rfl

theorem translates_numbers_iff (hc : c.Sound denotes) (h : it.Reads ts)
    (message1 message2 : String) (build : α → α → Request) :
    Translates (parseNumbers c message1 message2 build it) (numbersOf denotes build ts) ↔
      TwoNumbers c denotes ts := by
  cases ts with
  | nil =>
    simp only [parseNumbers, setNumber_nil h]
    exact iff_of_true ⟨none, rfl⟩ trivial
  | cons t1 ts =>
    by_cases hsize1 : t1.length < c.size
    · cases hrej1 : c.rejects t1 with
      | true =>
        simp only [parseNumbers, setNumber_rejects h hsize1 hrej1, bind, Except.bind,
          translates_syntaxError_iff]
        exact iff_of_true (numbersOf_none (hc.none_of_rejects hrej1) ts) ⟨hsize1, .inl hrej1⟩
      | false =>
        simp only [parseNumbers, setNumber_ok h hsize1 hrej1, bind, Except.bind]
        cases ts with
        | nil =>
          rw [parseNumber_nil h.increment]
          exact iff_of_true ⟨none, rfl⟩ ⟨hsize1, .inr trivial⟩
        | cons t2 ts =>
          have hsecond : TwoNumbers c denotes (t1 :: t2 :: ts) ↔ t2.length < c.size ∧
              (ts = [] → c.rejects t2 = true ∨ (denotes t1).isSome ∧ (denotes t2).isSome) := by
            simp [TwoNumbers, hsize1, hrej1]
          rw [hsecond]
          obtain ⟨hsize, hout⟩ | ⟨hsize, hwhy, printed, hout⟩ | ⟨hsize, hrej, rfl, hout⟩ :=
            parseNumber_cases (c := c) h.increment message2 (build (c.result t1))
          · rw [hout]
            exact iff_of_false (not_translates_overrun _) fun htwo => hsize htwo.1
          · rw [hout, translates_syntaxError_iff]
            refine iff_of_true ?_ ⟨hsize, fun hts => .inl (hwhy.resolve_right (· hts))⟩
            cases ts with
            | nil =>
              have hnone := hc.none_of_rejects (hwhy.resolve_right (· rfl))
              cases hd : denotes t1 <;> simp [numbersOf, hd, hnone]
            | cons t ts => rfl
          · rw [hout, translates_ok_iff]
            cases hd1 : denotes t1 with
            | none => simp [numbersOf, hd1, hrej]
            | some n1 =>
              cases hd2 : denotes t2 with
              | none => simp [numbersOf, hd1, hd2, hrej]
              | some n2 =>
                simp [numbersOf, hd1, hd2, hsize, (hc t1 n1 hd1).2, (hc t2 n2 hd2).2]
    · simp only [parseNumbers, setNumber_overrun h hsize1, bind, Except.bind]
      exact iff_of_false (not_translates_overrun _) fun htwo => hsize1 htwo.1

/-! ## Formats with pairs -/

/-- The tokens behind the one that is passed over are rejected: a weight is no number, or
the last weight has no member. -/
def MembersRefused (strtod : Str → Weight × Nat) : List Str → Prop
  | [] => False
  | [t] => t.length < (toWeight strtod).size
  | t :: _ :: ts => t.length < (toWeight strtod).size ∧
      ((toWeight strtod).rejects t = true ∨ MembersRefused strtod ts)

/-- The loop passes over the token that the iterator is at.  It comes back with the
members if the tokens behind that one are pairs. -/
theorem vsetMembers_cases (strtod : Str → Weight × Nat) (h : it.increment.Reads ts)
    (hfuel : ts.length < fuel) (vms : List WeightValue) :
    (¬MembersRefused strtod ts ∧ vsetMembers strtod fuel it vms = .error .overrun) ∨
    (MembersRefused strtod ts ∧
      ∃ printed, vsetMembers strtod fuel it vms = .error (.syntaxError printed)) ∨
    (¬MembersRefused strtod ts ∧ ts.length % 2 = 0 ∧
      ∃ vms', vsetMembers strtod fuel it vms = .ok vms') := by
  induction fuel generalizing it ts vms with
  | zero => omega
  | succ fuel ih =>
    match ts with
    | [] =>
      have hend : it.increment.atEnd = true := h.atEnd
      refine .inr (.inr ⟨fun hrefused => hrefused, rfl, vms, ?_⟩)
      simp only [vsetMembers, hend]
      rfl
    | t :: ts =>
      have hmore : it.increment.atEnd = false := h.atEnd
      simp only [vsetMembers, hmore, token_cons h, bind, Except.bind]
      by_cases hsize : t.length < (toWeight strtod).size
      · cases hrej : (toWeight strtod).rejects t with
        | true =>
          simp only [read_rejects hsize hrej]
          refine .inr (.inl ⟨?_, _, rfl⟩)
          cases ts with
          | nil => exact hsize
          | cons member ts => exact ⟨hsize, .inl hrej⟩
        | false =>
          simp only [read_ok hsize hrej]
          cases ts with
          | nil =>
            simp only [syntaxErrorRoutine_nil h.increment]
            exact .inr (.inl ⟨hsize, _, rfl⟩)
          | cons member ts =>
            simp only [syntaxErrorRoutine_cons h.increment, token_cons h.increment]
            have hiff : MembersRefused strtod (t :: member :: ts) ↔
                MembersRefused strtod ts := by
              simp [MembersRefused, hsize, hrej]
            have hparity : (t :: member :: ts).length % 2 = ts.length % 2 := by grind
            have hreads : it.increment.increment.increment.Reads ts := h.increment.increment
            grind
      · simp only [read_overrun hsize]
        refine .inl ⟨fun hrefused => ?_, rfl⟩
        cases ts with
        | nil => exact hsize hrefused
        | cons member ts => exact hsize hrefused.1

theorem even_of_membersOf : ∀ {ts : List Str} {vms : List WeightValue},
    membersOf strtod ts = some vms → ts.length % 2 = 0
  | [], _, _ => rfl
  | [_], _, h => by cases h
  | t :: member :: ts, _, h => by
    unfold membersOf at h
    split at h
    next _ hrest =>
      have heven := even_of_membersOf hrest
      grind
    next => cases h

theorem length_of_fieldsOf : ∀ {ts : List Str} {kvs : List (KeyValue Str)},
    fieldsOf ts = some kvs → ts.length = 2 * kvs.length
  | [], _, h => by cases h; rfl
  | [_], _, h => by cases h
  | field :: value :: ts, _, h => by
    obtain ⟨kvs, hrest, rfl⟩ := map_eq_some_iff.mp h
    have hlen := length_of_fieldsOf hrest
    grind

theorem length_tail_lt (hfuel : ts.length < rounds it) : ts.tail.length < rounds it.increment := by
  rw [length_tail]
  exact lt_of_le_of_lt (sub_le _ _) hfuel

/-- No pair is ever read as one: of the tokens that stand for pairs, one is passed over
and one is left over. -/
theorem translates_vsetMembers_iff (h : it.Reads (t :: ts)) (hfuel : ts.length < rounds it) :
    Translates (parseFormat strtod it r .vsetMembers) (denoted strtod r .vsetMembers (t :: ts)) ↔
      MembersRefused strtod ts.tail ∧ membersOf strtod ts = none := by
  simp only [parseFormat, setKey_cons h, bind, Except.bind]
  obtain ⟨hnot, hout⟩ | ⟨hrefused, printed, hout⟩ | ⟨hnot, heven, vms, hout⟩ :=
    vsetMembers_cases strtod h.increment.increment (length_tail_lt hfuel) r.vmembers
  · simp only [Request.mark, hout]
    exact iff_of_false (not_translates_overrun _) fun hand => hnot hand.1
  · simp only [Request.mark, hout]
    rw [translates_syntaxError_iff]
    cases ts with
    | nil => exact absurd hrefused fun hrefused => hrefused
    | cons t ts => simpa [denoted] using fun _ => hrefused
  · simp only [Request.mark, hout]
    refine iff_of_false (fun hok => ?_) fun hand => hnot hand.1
    have hsome := translates_ok_iff.mp hok
    cases ts with
    | nil => cases hsome
    | cons t ts =>
      obtain ⟨vms', hmembers, _⟩ := map_eq_some_iff.mp hsome
      have heven' := even_of_membersOf hmembers
      grind

/-- The loop passes over the token that the iterator is at, and takes every other one
for a field and its value. -/
theorem mapValues_eq (h : it.increment.Reads ts) (hfuel : ts.length < fuel)
    (kvs : List (KeyValue Str)) :
    mapValues fuel it kvs = .ok (kvs ++ ts.map fun t => ⟨t, t⟩) := by
  induction ts generalizing it fuel kvs with
  | nil =>
    obtain ⟨fuel, rfl⟩ := exists_eq_add_one_of_ne_zero (by omega : fuel ≠ 0)
    have hend : it.increment.atEnd = true := h.atEnd
    simp only [mapValues, hend, map_nil, append_nil]
    rfl
  | cons t ts ih =>
    obtain ⟨fuel, rfl⟩ := exists_eq_add_one_of_ne_zero (by omega : fuel ≠ 0)
    have hmore : it.increment.atEnd = false := h.atEnd
    simp only [mapValues, hmore, token_cons h, syntaxErrorRoutine_cons h, bind, Except.bind]
    refine (ih h.increment (by simpa using hfuel) _).trans ?_
    rw [append_assoc]
    rfl

theorem translates_mapValues_iff (h : it.Reads (t :: ts)) (hfuel : ts.length < rounds it)
    (hr : r.kvs = []) :
    Translates (parseFormat strtod it r .mapValues) (denoted strtod r .mapValues (t :: ts)) ↔
      ∃ value, ts = [value, value] := by
  simp only [parseFormat, setKey_cons h, bind, Except.bind, Request.mark, hr,
    mapValues_eq h.increment.increment (length_tail_lt hfuel), nil_append]
  refine translates_ok_iff.trans ⟨fun hsome => ?_, ?_⟩
  · cases ts with
    | nil => cases hsome
    | cons t ts =>
      obtain ⟨kvs, hfields, hkvs⟩ := map_eq_some_iff.mp hsome
      have hkvs : kvs = ts.map fun t => ⟨t, t⟩ := congrArg Request.kvs hkvs
      have hlen := length_of_fieldsOf hfields
      rw [hkvs, length_map, length_cons] at hlen
      obtain ⟨value, rfl⟩ := length_eq_one_iff.mp (by omega : ts.length = 1)
      rw [hkvs] at hfields
      simp only [fieldsOf, map_some, map_cons, map_nil,
        Option.some.injEq, List.cons.injEq, KeyValue.mk.injEq, and_true] at hfields
      exact ⟨value, by rw [hfields]⟩
  · rintro ⟨value, rfl⟩
    rfl

/-! ## Every command -/

/-- Where the translator is right about the tokens.  It takes one or two keys for the
three of a set operation, never takes a field with its value, and passes over a token
of the pairs.  A number has to fit in its buffer, and the token has to spell all of it. -/
def Trusted (strtod : Str → Weight × Nat) : CommandFormat → List Str → Prop
  | .none, _ | .onlyKey, _ | .value, _ | .setOp, _ | .values, _ | .mulKeys, _ => True
  | .setOpTo, ts => ts.length ≠ 1 ∧ ts.length ≠ 2
  | .fieldValue, ts => ts.length ≠ 3
  | .range, ts => TwoNumbers toBound boundOf ts.tail
  | .drange, ts => TwoNumbers (toWeight strtod) (weightOf strtod) ts.tail
  | .count, ts => OneNumber toCount countOf ts.tail
  | .expire, ts => OneNumber toExpireTime expireTimeOf ts.tail
  | .vsetMembers, ts =>
    ts = [] ∨ MembersRefused strtod ts.tail.tail ∧ membersOf strtod ts.tail = none
  | .mapValues, ts => ts = [] ∨ ∃ key value, ts = [key, value, value]
  | .invalid, _ => False

theorem translates_nil_iff (h : it.Reads []) (format : CommandFormat) :
    Translates (parseFormat strtod it r format) (denoted strtod r format []) ↔
      Trusted strtod format [] := by
  cases format with
  | none =>
    simp only [parseFormat, syntaxErrorRoutineEnd_nil h]
    exact iff_of_true rfl trivial
  | invalid =>
    refine iff_of_false ?_ fun hfalse => hfalse
    rintro ⟨_, herror⟩
    cases herror
  | setOpTo | mulKeys =>
    simp only [parseFormat, setValues_nil h]
    exact iff_of_true ⟨none, rfl⟩ (by simp [Trusted])
  | _ =>
    simp only [parseFormat, setKey_nil h]
    exact iff_of_true ⟨none, rfl⟩ (by simp [Trusted, OneNumber, TwoNumbers])

theorem translates_cons_iff (h : it.Reads (t :: ts)) (hfuel : ts.length < rounds it)
    (hr : r.kvs = []) (format : CommandFormat) :
    Translates (parseFormat strtod it r format) (denoted strtod r format (t :: ts)) ↔
      Trusted strtod format (t :: ts) := by
  cases format with
  | none => exact iff_of_true (translates_none h) trivial
  | onlyKey => exact iff_of_true (translates_onlyKey h) trivial
  | value => exact iff_of_true (translates_value h) trivial
  | setOp => exact iff_of_true (translates_setOp h) trivial
  | values => exact iff_of_true (translates_values h hfuel) trivial
  | mulKeys => exact iff_of_true (translates_mulKeys h hfuel) trivial
  | setOpTo => exact translates_setOpTo_iff h hfuel
  | fieldValue => exact translates_fieldValue_iff h
  | range =>
    simp only [parseFormat, setKey_cons h]
    exact translates_numbers_iff sound_toBound h.increment
      "ERROR: left bound of range is invalid" "ERROR: right bound of range is invalid" _
  | drange =>
    simp only [parseFormat, setKey_cons h]
    exact translates_numbers_iff (sound_toWeight strtod) h.increment
      "ERROR: left weight of range is invalid" "ERROR: right weight of range is invalid" _
  | count =>
    simp only [parseFormat, setKey_cons h]
    exact translates_number_iff sound_toCount h.increment "ERROR: count is invalid" _
  | expire =>
    simp only [parseFormat, setKey_cons h]
    exact translates_number_iff sound_toExpireTime h.increment
      "ERROR: expiration time is invalid" _
  | vsetMembers => simpa [Trusted] using translates_vsetMembers_iff h hfuel
  | mapValues => simpa [Trusted] using translates_mapValues_iff h hfuel hr
  | invalid =>
    refine iff_of_false ?_ fun hfalse => hfalse
    rintro ⟨_, herror⟩
    cases herror

theorem translates_format_iff (h : it.Reads ts) (hfuel : ts.length < rounds it)
    (hr : r.kvs = []) (format : CommandFormat) :
    Translates (parseFormat strtod it r format) (denoted strtod r format ts) ↔
      Trusted strtod format ts := by
  cases ts with
  | nil => exact translates_nil_iff h format
  | cons t ts => exact translates_cons_iff h (lt_of_succ_lt hfuel) hr format

/-- For every command and every line, the translator comes back with the request that the
words of the line stand for, or with a syntax error if they stand for none, if and only
if it is to be trusted about them.  `strtod` is any function. -/
theorem parse_translates_iff (strtod : Str → Weight × Nat) (expireTime left right : UInt64)
    (cmd : CommandCode) (statement : Str) :
    Translates (parse strtod (Request.new expireTime left right) cmd statement)
        (denoted strtod { Request.new expireTime left right with command := cmd.word }
          (getCommandFormat cmd) (words 32 statement)) ↔
      Trusted strtod (getCommandFormat cmd) (words 32 statement) :=
  translates_format_iff (Tokenizer.begin_reads statement)
    (lt_succ_of_le (length_words_le 32 statement)) rfl (getCommandFormat cmd)

/-- `MSET k f v` is rejected, `MADD k f v` sets the field `v`, and `VADD k 1 m` is rejected
for the weight `m`. -/
theorem parse_mset_rejected :
    let strtod : Str → Weight × Nat := fun s =>
      if s = [49] then (⟨0x3ff0000000000000⟩, 1) else (⟨0⟩, 0)
    let run (cmd : CommandCode) (statement : Str) : Except ParseStop Request × Option Request :=
      (parse strtod (Request.new 0 0 0) cmd statement,
        denoted strtod { Request.new 0 0 0 with command := cmd.word } (getCommandFormat cmd)
          (words 32 statement))
    run .mset [107, 32, 102, 32, 118] =
        (.error (.syntaxError none), some { Request.new 0 0 0 with
            command := 31, hasBits := 9, key := [107], values := [[102], [118]] }) ∧
      run .madd [107, 32, 102, 32, 118] =
        (.ok { Request.new 0 0 0 with
            command := 30, hasBits := 17, key := [107], kvs := [⟨[118], [118]⟩] },
          some { Request.new 0 0 0 with
            command := 30, hasBits := 17, key := [107], kvs := [⟨[102], [118]⟩] }) ∧
      run .vadd [107, 32, 49, 32, 109] =
        (.error (.syntaxError (some "ERROR: invalid weight")),
          some { Request.new 0 0 0 with
            command := 16, hasBits := 129, key := [107],
            vmembers := [⟨⟨0x3ff0000000000000⟩, [109]⟩] }) := by
  refine ⟨rfl, rfl, rfl⟩

end Translator

end Mmkv
