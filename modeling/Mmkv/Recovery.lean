import Mmkv.RequestCodec
import Mmkv.FrameStreams
import Mmkv.DatabaseManager

/-!
# Recovery from the request log

`Recover::ParseFromRequest`.  The loop takes the length word off the buffer before it
knows that the record is complete, compares the length less four with the bytes that are
left, and parses all records into one request, whose lists keep what `Execute` did not
take.
-/

namespace Mmkv

open FrameStreams List Nat Request

namespace Recover

/-- `BUFFER_SIZE`. -/
def bufferSize : Nat := 65536

/-- A record as `AppendDel` and `LogRequestToFile` write it. -/
def record (kvarint : VarintCode) (r : Request) : Bytes :=
  bigEndian 4 (r.serialize kvarint).length ++ r.serialize kvarint

structure State (A : Type) where
  request : Request
  app : A
  executed : List Request

section Source

variable {A : Type} (kvarint : VarintCode)
  -- `Execute`, which also tells what it leaves of the request.
  (execute : Request → A → Option (Request × A))

def step (buffer : Bytes) (s : State A) : Step (State A) :=
  if buffer.length < 4 then .stop buffer s
  else
    let size := ofBigEndian (buffer.take 4)
    let buffer := buffer.drop 4
    -- `size - sizeof(size)` is computed as a `size_t`.
    if toSize (size - 4) ≤ buffer.length then
      match parseFrom kvarint s.request buffer with
      | none => .fail
      | some (request, buffer) =>
        match execute request s.app with
        | none => .fail
        | some (left, app) =>
          if getCommandType left.command = .write then
            .next buffer ⟨left, app, s.executed ++ [request]⟩
          else .fail
    else .stop buffer s

def receiver : Receiver (State A) where
  limit := 0
  overflow := id
  step := step kvarint execute

/-- The outer loop, with what each `Read` returns. -/
def parseFromRequest : List Bytes → Bytes → State A → Option (State A)
  | [], _, s => some s
  | chunk :: chunks, buffer, s => do
    let buffer := buffer ++ chunk
    let (buffer, s) ← (receiver kvarint execute).loop (buffer.length + 1) buffer s
    if chunk.length < bufferSize then some s else parseFromRequest chunks buffer s

end Source

/-- The reads of a file: only the last returns less than was asked for. -/
def FileReads : List Bytes → Prop
  | [] => False
  | [chunk] => chunk.length < bufferSize
  | chunk :: chunks => bufferSize ≤ chunk.length ∧ FileReads chunks

structure Loggable (kvarint : VarintCode) (r : Request) : Prop where
  shortStrings : r.ShortStrings
  singleContent : r.SingleContent
  list : r.listLength r.content < 2 ^ 32
  lower : 4 ≤ (r.serialize kvarint).length
  upper : (r.serialize kvarint).length < 2 ^ 32

/-- `Execute` takes every record, read into what it has left of the last request. -/
inductive Replays {A : Type} (execute : Request → A → Option (Request × A)) :
    List Request → State A → State A → Prop
  | nil (s : State A) : Replays execute [] s s
  | cons {r left : Request} {rs : List Request} {app : A} {s t : State A}
      (executed : execute (r.received s.request) s.app = some (left, app))
      (write : getCommandType left.command = .write)
      (rest : Replays execute rs ⟨left, app, s.executed ++ [r.received s.request]⟩ t) :
      Replays execute (r :: rs) s t

/-- A record is received as it was logged: its range is zero, and no element that it is read into
has been left over by the requests before. -/
def Fits (r q : Request) : Prop :=
  (r.hasRange → r.left = 0 ∧ r.right = 0) ∧ q.Spent r r.content

/-- No read ends between the length word of a record and the end of the record. -/
def WordsWhole (kvarint : VarintCode) (records : List Request) (buffer : Bytes)
    (chunks : List Bytes) : Prop :=
  ∀ before after, chunks = before ++ after → after ≠ [] →
    ∃ done rest part, records = done ++ rest ∧ part.length < 4 ∧
      buffer ++ before.flatten = done.flatMap (record kvarint) ++ part

/-- What is written of the last record is noticed to be incomplete. -/
def Truncated (kvarint : VarintCode) (tail : Bytes) : Prop :=
  tail.length < 4 ∨
    ∃ r k, Loggable kvarint r ∧ k + 4 < (record kvarint r).length ∧
      tail = (record kvarint r).take k

section Proofs

variable {A : Type} {kvarint : VarintCode} {execute : Request → A → Option (Request × A)}
  {s t : State A}

theorem Replays.append {done rest : List Request} (h : Replays execute (done ++ rest) s t) :
    ∃ mid, Replays execute done s mid ∧ Replays execute rest mid t := by
  induction done generalizing s with
  | nil => exact ⟨s, .nil s, h⟩
  | cons r done ih =>
    cases h with
    | cons executed write hrest =>
      obtain ⟨mid, hdone, hrest⟩ := ih hrest
      exact ⟨mid, .cons executed write hdone, hrest⟩

variable {records : List Request} {size : Nat}

theorem Replays.executed_eq (h : Replays execute records s t)
    (hgood : ∀ r ∈ records, Loggable kvarint r) :
    ∃ requests, t.executed = s.executed ++ requests ∧
      (List.Forall₂ Request.SetFieldsEq records requests ↔
        ∀ done r rest mid, records = done ++ r :: rest → Replays execute done s mid →
          Fits r mid.request) := by
  induction h with
  | nil s =>
    refine ⟨[], by simp, iff_of_true .nil fun done r rest mid hsplit => ?_⟩
    simp at hsplit
  | @cons r left rs app s t executed write hrest ih =>
    obtain ⟨requests, ht, hrequests⟩ := ih fun r' hr' => hgood r' (.tail _ hr')
    refine ⟨r.received s.request :: requests, by simp [ht], ?_⟩
    have hfirst : r.SetFieldsEq (r.received s.request) ↔ Fits r s.request :=
      received_setFieldsEq_iff (hgood r (.head _)).singleContent _
    rw [forall₂_cons, hrequests, hfirst]
    constructor
    · rintro ⟨hfits, hlater⟩ done r' rest mid hsplit hdone
      cases hdone with
      | nil => grind
      | cons executed' write' hdone =>
        obtain ⟨rfl, hrs⟩ := List.cons.inj hsplit
        cases executed.symm.trans executed'
        exact hlater _ r' rest mid hrs hdone
    · intro h
      refine ⟨h [] r rs s rfl (.nil s), fun done r' rest mid hsplit hdone => ?_⟩
      exact h (r :: done) r' rest mid (by rw [hsplit, cons_append]) (.cons executed write hdone)

/-! ## One turn of the loop -/

theorem length_record (r : Request) :
    (record kvarint r).length = (r.serialize kvarint).length + 4 := by
  simp [record, add_comm]

theorem toSize_sub_four (hlower : 4 ≤ size) (hupper : size < 2 ^ 32) :
    toSize ((size : Int) - 4) = size - 4 := by
  unfold toSize
  omega

variable {buffer : Bytes}

theorem step_short (h : buffer.length < 4) (s : State A) :
    step kvarint execute buffer s = .stop buffer s :=
  if_pos h

theorem step_word (hsize : size < 2 ^ 32) (rest : Bytes) (s : State A)
    (h : rest.length < toSize ((size : Int) - 4)) :
    step kvarint execute (bigEndian 4 size ++ rest) s = .stop rest s := by
  have hlong : ¬ (bigEndian 4 size ++ rest).length < 4 := by simp
  have htake : (bigEndian 4 size ++ rest).take 4 = bigEndian 4 size :=
    take_left' (length_bigEndian 4 size)
  have hdrop : (bigEndian 4 size ++ rest).drop 4 = rest := drop_left' (length_bigEndian 4 size)
  rw [step, if_neg hlong]
  simp only [htake, hdrop, ofBigEndian_bigEndian (n := 4) hsize]
  exact if_neg (not_le.2 h)

variable {r : Request} {tail : Bytes} {k : Nat}

theorem step_record (hkv : kvarint.Lawful) {left : Request} {app : A} (hr : Loggable kvarint r)
    (hexecuted : execute (r.received s.request) s.app = some (left, app))
    (hwrite : getCommandType left.command = .write) (rest : Bytes) :
    step kvarint execute (record kvarint r ++ rest) s =
      .next rest ⟨left, app, s.executed ++ [r.received s.request]⟩ := by
  have hlong : ¬ (record kvarint r ++ rest).length < 4 := by
    rw [length_append, length_record]
    omega
  have htake : (record kvarint r ++ rest).take 4 =
      bigEndian 4 (r.serialize kvarint).length := take_left' (length_bigEndian 4 _)
  have hdrop : (record kvarint r ++ rest).drop 4 = r.serialize kvarint ++ rest :=
    drop_left' (length_bigEndian 4 _)
  have hparse := reads_parseFrom hkv s.request hr.shortStrings hr.list rest
  have hsize : toSize (((r.serialize kvarint).length : Int) - 4) ≤
      (r.serialize kvarint ++ rest).length := by
    rw [toSize_sub_four hr.lower hr.upper, length_append]
    omega
  rw [step, if_neg hlong]
  simp only [htake, hdrop, ofBigEndian_bigEndian (n := 4) hr.upper, if_pos hsize, hparse,
    hexecuted, if_pos hwrite]

theorem step_part (hlower : 4 ≤ (r.serialize kvarint).length)
    (hupper : (r.serialize kvarint).length < 2 ^ 32) (hword : 4 ≤ k)
    (hk : k + 4 < (record kvarint r).length) (s : State A) :
    step kvarint execute ((record kvarint r).take k) s =
      .stop ((r.serialize kvarint).take (k - 4)) s := by
  have htake : (record kvarint r).take k =
      bigEndian 4 (r.serialize kvarint).length ++ (r.serialize kvarint).take (k - 4) := by
    rw [record, take_append, length_bigEndian, take_of_length_le (by rw [length_bigEndian]; omega)]
  rw [htake]
  apply step_word hupper
  rw [toSize_sub_four hlower hupper, length_take]
  rw [length_record] at hk
  omega

theorem step_truncated (h : Truncated kvarint tail) (s : State A) :
    ∃ buffer, step kvarint execute tail s = .stop buffer s := by
  obtain hshort | ⟨r, k, hr, hk, rfl⟩ := h
  · exact ⟨tail, step_short hshort s⟩
  · by_cases hword : k < 4
    · refine ⟨_, step_short ?_ s⟩
      exact lt_of_le_of_lt (length_take_le k _) hword
    · exact ⟨_, step_part hr.lower hr.upper (not_lt.1 hword) hk s⟩

/-! ## The loops -/

theorem loop_records (hkv : kvarint.Lawful) (hgood : ∀ r ∈ records, Loggable kvarint r)
    (hreplays : Replays execute records s t) {part : Bytes}
    (hstop : step kvarint execute part t = .stop buffer t) {fuel : Nat}
    (hfuel : (records.flatMap (record kvarint) ++ part).length < fuel) :
    (receiver kvarint execute).loop fuel (records.flatMap (record kvarint) ++ part) s =
      some (buffer, t) := by
  induction hreplays generalizing fuel with
  | nil s =>
    obtain ⟨fuel, rfl⟩ := Nat.exists_eq_add_of_lt hfuel
    have hstep : (receiver kvarint execute).step part s = .stop buffer s := hstop
    rw [Receiver.loop, flatMap_nil, nil_append, hstep]
  | @cons r left rs app s t executed write hrest ih =>
    obtain ⟨fuel, rfl⟩ : ∃ n, fuel = n + 1 := ⟨fuel - 1, by omega⟩
    have hr := hgood r (.head _)
    rw [flatMap_cons, append_assoc] at hfuel ⊢
    have hstep : (receiver kvarint execute).step
        (record kvarint r ++ (rs.flatMap (record kvarint) ++ part)) s =
          .next (rs.flatMap (record kvarint) ++ part)
            ⟨left, app, s.executed ++ [r.received s.request]⟩ :=
      step_record hkv hr executed write _
    rw [Receiver.loop, hstep]
    refine ih (fun r' hr' => hgood r' (.tail _ hr')) hstop ?_
    rw [length_append, length_record] at hfuel
    omega

variable {chunks : List Bytes}

theorem WordsWhole.rest {done rest : List Request} {part chunk : Bytes}
    (h : WordsWhole kvarint (done ++ rest) buffer (chunk :: chunks))
    (hpart : buffer ++ chunk = done.flatMap (record kvarint) ++ part) :
    WordsWhole kvarint rest part chunks := by
  intro before after hchunks hafter
  obtain ⟨done', rest', part', hrecords, hshort, hbytes⟩ :=
    h (chunk :: before) after (by rw [hchunks, cons_append]) hafter
  rw [flatten_cons, ← append_assoc, hpart] at hbytes
  -- Of the two lists of records taken, the later one is the longer one: another record
  -- would not fit into what is left over.
  obtain ⟨more, hdone', hrest⟩ | ⟨more, hdone, -⟩ := append_eq_append_iff.1 hrecords
  · refine ⟨more, rest', part', hrest, hshort, ?_⟩
    rw [hdone', flatMap_append, append_assoc, append_assoc] at hbytes
    exact append_cancel_left hbytes
  · cases more with
    | nil =>
      rw [append_nil] at hdone
      subst hdone
      rw [append_assoc] at hbytes
      have hrest : rest = rest' := append_cancel_left hrecords
      exact ⟨[], rest', part', hrest, hshort, append_cancel_left hbytes⟩
    | cons r more =>
      rw [hdone, flatMap_append, append_assoc, append_assoc] at hbytes
      have hlength := congrArg List.length (append_cancel_left hbytes)
      simp only [flatMap_cons, length_append, length_record] at hlength
      omega

theorem parseFromRequest_records (hkv : kvarint.Lawful)
    (hreads : FileReads chunks) (hgood : ∀ r ∈ records, Loggable kvarint r)
    (htail : Truncated kvarint tail)
    (hbytes : buffer ++ chunks.flatten = records.flatMap (record kvarint) ++ tail)
    (hwhole : WordsWhole kvarint records buffer chunks) (hreplays : Replays execute records s t) :
    parseFromRequest kvarint execute chunks buffer s = some t := by
  induction chunks generalizing buffer records s with
  | nil => exact hreads.elim
  | cons chunk chunks ih =>
    cases chunks with
    | nil =>
      have hlast : chunk.length < bufferSize := hreads
      obtain ⟨left, hstop⟩ : ∃ left, step kvarint execute tail t = .stop left t :=
        step_truncated htail t
      rw [flatten_cons, flatten_nil, append_nil] at hbytes
      rw [parseFromRequest, hbytes, loop_records hkv hgood hreplays hstop (lt_succ_self _)]
      exact if_pos hlast
    | cons chunk' chunks =>
      obtain ⟨hfull, hreads⟩ : bufferSize ≤ chunk.length ∧ FileReads (chunk' :: chunks) := hreads
      obtain ⟨done, rest, part, rfl, hshort, hpart⟩ :=
        hwhole [chunk] (chunk' :: chunks) rfl (cons_ne_nil _ _)
      rw [flatten_cons, flatten_nil, append_nil] at hpart
      obtain ⟨mid, hdone, hrest⟩ := hreplays.append
      rw [parseFromRequest, hpart,
        loop_records hkv (fun r hr => hgood r (mem_append_left _ hr)) hdone
          (step_short hshort mid) (lt_succ_self _)]
      refine (if_neg (not_lt.2 hfull)).trans ?_
      refine ih hreads (fun r hr => hgood r (mem_append_right _ hr)) ?_ (hwhole.rest hpart) hrest
      rw [flatten_cons, ← append_assoc, hpart, flatMap_append, append_assoc, append_assoc] at hbytes
      exact append_cancel_left hbytes

theorem parseFromRequest_last {chunk bytes left : Bytes} (hlast : chunk.length < bufferSize)
    (hbytes : buffer ++ chunk = bytes) (hstop : step kvarint execute bytes s = .stop left s) :
    parseFromRequest kvarint execute [chunk] buffer s = some s := by
  have hstep : (receiver kvarint execute).step bytes s = .stop left s := hstop
  rw [parseFromRequest, hbytes, Receiver.loop, hstep]
  exact if_pos hlast

theorem parseFromRequest_cut (hlower : 4 ≤ (r.serialize kvarint).length)
    (hupper : (r.serialize kvarint).length < 2 ^ 32) (hfull : bufferSize ≤ k)
    (hk : k + 4 < (record kvarint r).length) (chunks : List Bytes) (s : State A) :
    parseFromRequest kvarint execute ((record kvarint r).take k :: chunks) [] s =
      parseFromRequest kvarint execute chunks ((r.serialize kvarint).take (k - 4)) s := by
  have hword : 4 ≤ k := le_trans (by decide) hfull
  have hstep : (receiver kvarint execute).step ((record kvarint r).take k) s =
      .stop ((r.serialize kvarint).take (k - 4)) s :=
    step_part hlower hupper hword hk s
  have hlength : ((record kvarint r).take k).length = k := by
    rw [length_take]
    omega
  rw [parseFromRequest, nil_append, Receiver.loop, hstep]
  exact if_neg (by rw [hlength]; omega)

end Proofs

variable {kvarint : VarintCode} {A : Type}

/-- The logged requests are executed in order and each once if the reads end where the loop
notices it, and with the fields that were logged exactly if none is read into elements that the
requests before have left over, and all ranges are zero. -/
theorem recovers_logged {A : Type} {kvarint : VarintCode} (hkv : kvarint.Lawful)
    {execute : Request → A → Option (Request × A)} {chunks : List Bytes}
    {records : List Request} {tail : Bytes} {s t : State A} (hstart : s.executed = [])
    (hreads : FileReads chunks)
    (hbytes : chunks.flatten = records.flatMap (record kvarint) ++ tail)
    (htail : Truncated kvarint tail)
    (hgood : ∀ r ∈ records, Loggable kvarint r)
    (hwhole : WordsWhole kvarint records [] chunks)
    (hreplays : Replays execute records s t) :
    parseFromRequest kvarint execute chunks [] s = some t ∧
      (List.Forall₂ Request.SetFieldsEq records t.executed ↔
        ∀ done r rest mid, records = done ++ r :: rest → Replays execute done s mid →
          Fits r mid.request) := by
  refine ⟨parseFromRequest_records hkv hreads hgood htail hbytes hwhole hreplays, ?_⟩
  obtain ⟨requests, ht, hrequests⟩ := hreplays.executed_eq hgood
  rwa [ht, hstart, nil_append]

/-- The request of `AppendDel`. -/
def deletion (key : Str) : Request :=
  ⟨63, 1, key, [], [], [], [], 0, 0, 0⟩

theorem has_deletion (key : Str) (c : RequestContent) : (deletion key).has c = false := by
  have hkey : (deletion key).has c = (deletion []).has c := by cases c <;> rfl
  rw [hkey]
  cases c <;> decide

theorem loggable_deletion {key : Str} (hkey : key.length < 2 ^ 16)
    (hlower : 4 ≤ ((deletion key).serialize kvarint).length)
    (hupper : ((deletion key).serialize kvarint).length < 2 ^ 32) :
    Loggable kvarint (deletion key) where
  shortStrings :=
    { key := fun _ => hkey
      value := fun _ => by simp [deletion]
      values := fun _ => by simp [deletion]
      kvs := fun _ => by simp [deletion]
      vmembers := fun _ => by simp [deletion] }
  singleContent := fun c _ hc => by simp [has_deletion] at hc
  list := by
    cases (deletion key).content with
    | none => exact Nat.two_pow_pos 32
    | some c => cases c <;> exact Nat.two_pow_pos 32
  lower := hlower
  upper := hupper

/-- The request of `STR_ADD k`. -/
def addition (value : Str) : Request :=
  ⟨0, 3, [107], value, [], [], [], 0, 0, 0⟩

theorem content_addition (value : Str) : (addition value).content = some .value :=
  if_pos (show HasBits.test 3 1 = true by decide)

theorem serialize_addition (value : Str) : (addition value).serialize leb128 =
      [0, 3, 1, 107] ++ (leb128.encode .w32 (value.length % 2 ^ 32) ++ value) := by
  have hkey : (addition value).hasKey = true := show HasBits.test 3 0 = true by decide
  have hexpire : (addition value).hasExpireTime = false := show HasBits.test 3 2 = false by decide
  rw [serialize, serializeTo, serializeFields,
    serializeSelected, content_addition, if_pos hkey, hexpire]
  have hcommand : leb128.encode .w16 0 = [0] := by decide
  have hbits : leb128.encode .w8 3 = [3] := by decide
  have hlength : leb128.encode .w16 1 = [1] := by decide
  simp [serializeContent, addition, serializeStr, serializeNumber, hcommand, hbits,
    hlength, Width.bits]

variable {value : Str}

theorem length_addition (hlength : (leb128.encode .w32 (value.length % 2 ^ 32)).length = 3) :
    (record leb128 (addition value)).length = value.length + 11 := by
  rw [length_record, serialize_addition, length_append, length_append, hlength]
  simp
  omega

theorem has_addition {c : RequestContent} (h : (addition value).has c) :
    c = .value := by
  have hvalue : (addition value).has c = (addition []).has c := by cases c <;> rfl
  rw [hvalue] at h
  cases c <;> first | rfl | exact absurd h (by decide)

theorem loggable_addition (hvalue : value.length < 2 ^ 32)
    (hupper : ((addition value).serialize leb128).length < 2 ^ 32) :
    Loggable leb128 (addition value) where
  shortStrings :=
    { key := fun _ => by simp [addition]
      value := fun _ => hvalue
      values := fun h => by cases has_addition (c := .values) h
      kvs := fun h => by cases has_addition (c := .kvs) h
      vmembers := fun h => by cases has_addition (c := .vmembers) h }
  singleContent := fun c d hc hd => (has_addition hc).trans (has_addition hd).symm
  list := by
    rw [content_addition]
    exact Nat.two_pow_pos 32
  lower := by
    rw [serialize_addition, length_append]
    exact le_add_right 4 _
  upper := hupper

/-- A first read ends within the length word of the second record, the second one with five
bytes of a third record. -/
theorem twoReads_recovered :
    let records := [addition (List.replicate 65523 97), deletion [107]]
    ∃ (chunk chunk' : Bytes) (t : State Unit), chunk.length = bufferSize ∧
      chunk ++ chunk' = records.flatMap (record leb128) ++
        (record leb128 (deletion [97, 98, 99])).take 5 ∧
      parseFromRequest leb128 (fun r app => some (r, app)) [chunk, chunk'] []
        ⟨.new 0 0 0, (), []⟩ = some t ∧
      List.Forall₂ Request.SetFieldsEq records t.executed := by
  have hvalue : (List.replicate 65523 97 : Str).length = 65523 := length_replicate
  generalize (List.replicate 65523 97 : Str) = value at hvalue ⊢
  have hlength : (record leb128 (addition value)).length = 65534 := by
    rw [length_addition (by rw [hvalue]; decide), hvalue]
  have hadded : Loggable leb128 (addition value) :=
    loggable_addition (by omega) (by rw [length_record] at hlength; omega)
  have hdeleted : Loggable leb128 (deletion [107]) :=
    loggable_deletion (by decide) (by decide) (by decide)
  have htail : Loggable leb128 (deletion [97, 98, 99]) :=
    loggable_deletion (by decide) (by decide) (by decide)
  let chunk : Bytes := record leb128 (addition value) ++ (record leb128 (deletion [107])).take 2
  let chunk' : Bytes := (record leb128 (deletion [107])).drop 2 ++
    (record leb128 (deletion [97, 98, 99])).take 5
  have hchunk : chunk.length = bufferSize := by
    rw [length_append, hlength]
    rfl
  have hreads : FileReads [chunk, chunk'] :=
    ⟨le_of_eq hchunk.symm, show chunk'.length < bufferSize by decide⟩
  have hbytes : chunk ++ chunk' = [addition value, deletion [107]].flatMap (record leb128) ++
      (record leb128 (deletion [97, 98, 99])).take 5 := by
    simp only [chunk, chunk', flatMap_cons, flatMap_nil, append_nil, append_assoc]
    rw [← append_assoc (take 2 _), take_append_drop]
  have hwhole : WordsWhole leb128 [addition value, deletion [107]] [] [chunk, chunk'] := by
    intro before after hchunks hafter
    match before, hchunks with
    | [], _ => exact ⟨[], _, [], rfl, by decide, rfl⟩
    | [_], hchunks =>
      obtain ⟨rfl, -⟩ := List.cons.inj hchunks
      exact ⟨[addition value], [deletion [107]], (record leb128 (deletion [107])).take 2, rfl,
        by decide, by simp [chunk]⟩
    | _ :: _ :: _, hchunks =>
      obtain ⟨-, hrest⟩ := List.cons.inj hchunks
      obtain ⟨-, hnil⟩ := List.cons.inj hrest
      exact absurd (append_eq_nil_iff.1 hnil.symm).2 hafter
  have hwrite : ∀ q, ∀ r ∈ [addition value, deletion [107]],
      getCommandType (r.received q).command = .write := by
    intro q r hr
    rw [command_received]
    rcases mem_cons.1 hr with rfl | hr
    · exact (by decide : getCommandType 0 = .write)
    · rw [mem_singleton.1 hr]
      decide
  have hreplays : Replays (fun r (app : Unit) => some (r, app)) [addition value, deletion [107]]
      ⟨.new 0 0 0, (), []⟩ _ :=
    .cons rfl (hwrite _ _ (.head _)) (.cons rfl (hwrite _ _ (.tail _ (.head _))) (.nil _))
  have hrecovers := recovers_logged leb128_lawful rfl hreads (by simpa using hbytes)
    (.inr ⟨_, 5, htail, by decide, rfl⟩) (by simp [hadded, hdeleted]) hwhole hreplays
  refine ⟨chunk, chunk', _, hchunk, hbytes, hrecovers.1, hrecovers.2.2 ?_⟩
  -- Neither record has a list or a range.
  intro done r rest mid hsplit _
  have hmem : r ∈ [addition value, deletion [107]] := by simp [hsplit]
  rcases mem_cons.1 hmem with rfl | hmem
  · rw [Fits, content_addition]
    exact ⟨fun h => (by cases has_addition (c := .range) h), trivial⟩
  · obtain rfl := mem_singleton.1 hmem
    exact ⟨fun _ => ⟨rfl, rfl⟩, trivial⟩

theorem parseFromRequest_addition (hvalue : value.length = 70000)
    (execute : Request → A → Option (Request × A)) (s : State A) :
    ∃ chunks, FileReads chunks ∧ chunks.flatten = record leb128 (addition value) ∧
      parseFromRequest leb128 execute chunks [] s = some s := by
  have hserialize : (addition value).serialize leb128 =
      bigEndian 4 196971 ++ ([240, 162, 4] ++ value) := by
    have hword : bigEndian 4 196971 = [0, 3, 1, 107] := by decide
    have hencode : leb128.encode .w32 (70000 % 2 ^ 32) = [240, 162, 4] := by decide
    rw [serialize_addition, hvalue, hword, hencode]
  have hlength : ((addition value).serialize leb128).length = 70007 := by
    simp [hserialize, hvalue]
  have hlast : ((record leb128 (addition value)).drop bufferSize).length < bufferSize := by
    rw [length_drop, length_record, hlength]
    decide
  refine ⟨[(record leb128 (addition value)).take bufferSize,
    (record leb128 (addition value)).drop bufferSize], ⟨?_, hlast⟩, ?_, ?_⟩
  · rw [length_take, length_record, hlength]
    decide
  · simp only [flatten_cons, flatten_nil, append_nil, take_append_drop]
  · have hdrop : (record leb128 (addition value)).drop bufferSize =
        ((addition value).serialize leb128).drop (bufferSize - 4) := by
      rw [record, drop_append, length_bigEndian,
        drop_of_length_le (by rw [length_bigEndian]; decide), nil_append]
    have hsize : ([240, 162, 4] ++ value).length < toSize (((196971 : Nat) : Int) - 4) := by
      rw [length_append, hvalue]
      decide
    have hstep : step leb128 execute ((addition value).serialize leb128) s =
        .stop ([240, 162, 4] ++ value) s := by
      rw [hserialize]
      exact step_word (by decide) _ s hsize
    rw [parseFromRequest_cut (by rw [hlength]; decide) (by rw [hlength]; decide)
      (le_refl bufferSize) (by rw [length_record, hlength]; decide)]
    refine parseFromRequest_last hlast ?_ hstep
    rw [hdrop, take_append_drop]

/-- A record that a read cuts after its length word is lost, as is one that is shorter
than a length word. -/
theorem cutRecord_lost :
    (∃ chunks, FileReads chunks ∧
      chunks.flatten = record leb128 (addition (List.replicate 70000 97)) ∧
      parseFromRequest leb128 (fun r app => some (r, app)) chunks []
        ⟨.new 0 0 0, (), []⟩ = some ⟨.new 0 0 0, (), []⟩) ∧
    (parseFromRequest leb128 (fun r app => some (r, app)) [record leb128 (deletion [])] []
      ⟨.new 0 0 0, (), []⟩).map State.executed = some [] :=
  ⟨parseFromRequest_addition length_replicate _ _, by decide⟩

end Recover

end Mmkv
