import Mmkv.DataViews
import Mmkv.Framing
import Mmkv.RequestCodec
import Mmkv.RequestKeys
import Mmkv.ResponseCodec
import Mmkv.StoredValues

/-!
# Reading a map back

`MSET` takes a field name from the values of a request, whose lengths have 32 bits.
`MALL` sends it as the key of a pair, whose length has 16 bits.  So a client gets a map
back as it is stored exactly if no field name is too long for a key, and if the fields
can be counted with 32 bits.
-/

namespace Mmkv

open EffectPrograms Reader List Option Program HashDict KeyedStore Response DbState

variable {hash : Str → Nat} {C : Type}

/-! ## The pairs of a message -/

section Pairs

variable {kvarint : VarintCode} (hkv : kvarint.Lawful)

include hkv

variable {w : Width}

theorem parseElement_serializeStr (hw : w = .w16 ∨ w = .w32) (s : Str) (tail : Bytes) :
    parseElement (.buffer kvarint) [] ((serializeStr kvarint w s).flatten ++ tail) =
      some (s.take (s.length % 2 ^ w.bits), s.drop (s.length % 2 ^ w.bits) ++ tail) := by
  have hlt : s.length % 2 ^ w.bits < 2 ^ w.bits := Nat.mod_lt _ (Nat.two_pow_pos _)
  have hlength : Reads (kvarint.read .w64) (kvarint.encode w (s.length % 2 ^ w.bits))
      (s.length % 2 ^ w.bits) := by
    rcases hw with rfl | rfl
    · exact hkv.reads_w16 hlt
    · exact hkv.reads_w32 hlt
  have hle : s.length % 2 ^ w.bits ≤ s.length := Nat.mod_le _ _
  have htake : takeBytes (s.length % 2 ^ w.bits) (s ++ tail) =
      some (s.take (s.length % 2 ^ w.bits), s.drop (s.length % 2 ^ w.bits) ++ tail) := by
    rw [takeBytes, if_pos (by rw [length_append]; omega), take_append_of_le_length hle,
      drop_append_of_le_length hle]
  rw [serializeStr, serializeNumber, flatten_append, flatten_singleton,
    flatten_singleton, append_assoc]
  exact (bind_of_some (hlength _)).trans (bind_of_some htake)

variable {tail rest : Bytes}

theorem short_of_parseElement (hw : w = .w16 ∨ w = .w32) {s : Str}
    (h : parseElement (.buffer kvarint) []
      ((serializeStr kvarint w s).flatten ++ tail) = some (s, rest)) :
    s.length < 2 ^ w.bits ∧ rest = tail := by
  rw [parseElement_serializeStr hkv hw, Option.some.injEq, Prod.mk.injEq] at h
  have hlength := congrArg List.length h.1
  have hlt : s.length % 2 ^ w.bits < 2 ^ w.bits := Nat.mod_lt _ (Nat.two_pow_pos _)
  grind

theorem short_of_parseKv {kv : KeyValue Str} (h : parseKv (.buffer kvarint) ⟨[], []⟩
      ((serializeKv kvarint kv).flatten ++ tail) = some (kv, rest)) :
    kv.key.length < 2 ^ 16 ∧ kv.value.length < 2 ^ 32 ∧ rest = tail := by
  rw [serializeKv, flatten_append, append_assoc] at h
  obtain ⟨key, bytes, hkey, h⟩ := bind_eq_some.1 h
  obtain ⟨value, bytes', hvalue, h⟩ := bind_eq_some.1 h
  cases h
  obtain ⟨hkey', rfl⟩ := short_of_parseElement hkv (.inl rfl) hkey
  obtain ⟨hvalue', hrest⟩ := short_of_parseElement hkv (.inr rfl) hvalue
  exact ⟨hkey', hvalue', hrest⟩

variable {kvs : List (KeyValue Str)}

theorem short_of_each (h : each (parseKv (.buffer kvarint)) (List.replicate kvs.length ⟨[], []⟩)
      ((kvs.flatMap (serializeKv kvarint)).flatten ++ tail) = some (kvs, rest)) :
    ∀ kv ∈ kvs, kv.key.length < 2 ^ 16 ∧ kv.value.length < 2 ^ 32 := by
  induction kvs with
  | nil => simp
  | cons kv kvs ih =>
    rw [length_cons, replicate_succ, flatMap_cons, flatten_append, append_assoc] at h
    obtain ⟨kv', bytes, hhead, h⟩ := bind_eq_some.1 h
    obtain ⟨kvs', bytes', hrest, h⟩ := bind_eq_some.1 h
    cases h
    obtain ⟨hkey, hvalue, rfl⟩ := short_of_parseKv hkv hhead
    grind

theorem short_of_parseKvs (h : parseKvs (.buffer kvarint) [] (serializeKvs kvarint kvs).flatten =
      some (kvs, rest)) :
    kvs.length < 2 ^ 32 ∧
      ∀ kv ∈ kvs, kv.key.length < 2 ^ 16 ∧ kv.value.length < 2 ^ 32 := by
  rw [serializeKvs, flatten_append] at h
  have hlength := length_of_list hkv h
  have hlt : kvs.length % 2 ^ 32 < 2 ^ 32 := Nat.mod_lt _ (Nat.two_pow_pos _)
  rw [← hlength] at hlt
  unfold parseKvs at h
  rw [bind_of_some (reads_number hkv .w32 hlt _), resize_nil, ← append_nil (List.flatten _)] at h
  exact ⟨hlt, short_of_each hkv h⟩

end Pairs

/-! ## The values of the stored maps -/

def MmkvData.ShortValues : MmkvData hash → Prop
  | .map m => ∀ fv ∈ m.entries, fv.value.length < 2 ^ 32
  | _ => True

theorem HashDict.mem_entries_iff {K V : Type} {key : V → K} {hash : K → Nat}
    [DecidableEq K] {t : HashDict key hash} {v : V} :
    v ∈ t.entries ↔ t.lookup (key v) = some v :=
  t.represents_lookup.mem_iff v

section Maps

variable {m m' : StrMap hash} {Q : KeyValue Str → Prop}

theorem HashDict.Same.entries_all (h : m.Same m') (hm : ∀ fv ∈ m.entries, Q fv) :
    ∀ fv ∈ m'.entries, Q fv := by
  intro fv hfv
  apply hm
  rwa [mem_entries_iff, h.lookup, ← mem_entries_iff] at hfv

variable {fv : KeyValue Str}

section

variable (hm : ∀ fv ∈ m.entries, Q fv)

include hm

theorem entries_all_set (hfv : Q fv)
    (h : m'.lookup = m.lookup.set KeyValue.key fv) : ∀ fv ∈ m'.entries, Q fv := by
  intro fv' hmem
  rw [mem_entries_iff, h] at hmem
  by_cases hkey : fv'.key = fv.key
  · rw [hkey, set_self] at hmem
    cases hmem
    exact hfv
  · rw [set_of_ne KeyValue.key _ hkey] at hmem
    exact hm fv' (mem_entries_iff.2 hmem)

theorem entries_all_insert (hfv : Q fv) : ∀ fv' ∈ (m.insert fv).2.entries, Q fv' := by
  cases hlookup : m.lookup fv.key with
  | none => exact entries_all_set hm hfv (insertWithDuplicate_none fv hlookup).2.2.1
  | some old => exact (insertWithDuplicate_some fv hlookup).2.2.entries_all hm

theorem entries_all_insertAll {fvs : List (KeyValue Str)} (hfvs : ∀ fv ∈ fvs, Q fv) (count : Nat) :
    ∀ fv ∈ (fvs.foldl (fun (p : Nat × StrMap hash) e =>
      (if (p.2.insert e).1 then p.1 + 1 else p.1, (p.2.insert e).2)) (count, m)).2.entries,
      Q fv := by
  induction fvs generalizing m count with
  | nil => exact hm
  | cons fv fvs ih =>
    exact ih (entries_all_insert hm (hfvs fv mem_cons_self))
      (fun fv' hmem => hfvs fv' (mem_cons_of_mem _ hmem)) _

end

variable {field : Str}

theorem entries_all_mapSet {value : Str} (hm : ∀ fv ∈ m.entries, Q fv) (hfv : Q ⟨field, value⟩) :
    ∀ fv ∈ (mapSet field value m).entries, Q fv :=
  entries_all_set hm hfv (mapSet_spec field value m).1

theorem entries_all_erase (hm : ∀ fv ∈ m.entries, Q fv) :
    ∀ fv ∈ (m.erase field).2.entries, Q fv := by
  intro fv hmem
  rw [mem_entries_iff] at hmem
  have hspec := (extract_spec field m).2.1
  change (m.extract field).2.lookup fv.key = some fv at hmem
  rw [hspec] at hmem
  by_cases hkey : fv.key = field
  · rw [hkey, remove_self] at hmem
    cases hmem
  · rw [remove_of_ne _ hkey] at hmem
    exact hm fv (mem_entries_iff.2 hmem)

end Maps

theorem MmkvData.Same.shortValues {x y : MmkvData hash} (h : x.Same y) (hx : x.ShortValues) :
    y.ShortValues := by
  cases h with
  | map h => exact h.entries_all hx
  | _ => trivial

def Command.MapValuesShort : Command → Prop
  | .mapAdd _ kvs => ∀ kv ∈ kvs, kv.value.length < 2 ^ 32
  | .mapSet _ _ value => value.length < 2 ^ 32
  | _ => True

theorem Action.Reads.keepsValues {P : MmkvData hash → Prop} {a : Action hash} (h : a.Reads)
    (hP : ∀ x y, x.Same y → P x → P y) : a.KeepsValues P := by
  cases a with
  | onValue access kind k body =>
    intro x reply x' hx hbody
    exact hP _ _ (h x reply x' hbody) hx
  | _ => exact h.elim

theorem Command.keepsValues {c : Command} (hc : c.MapValuesShort) (now : UInt64) :
    (c.action now : Action hash).KeepsValues MmkvData.ShortValues := by
  by_cases hread : c.IsRead
  · exact (reads_action hread now).keepsValues fun _ _ hsame => hsame.shortValues
  cases c
  case mapAdd k kvs =>
    refine ⟨?_, fun m hm => entries_all_insertAll hm hc 0⟩
    intro fv hfv
    cases hfv
  case mapSet k field value =>
    intro m reply m' hm hbody
    cases hbody
    exact entries_all_mapSet hm hc
  case mapDel k field =>
    intro m reply m' hm hbody
    cases hbody
    exact entries_all_erase hm
  all_goals first
    | exact absurd rfl hread
    | exact fun _ _ _ _ _ => trivial
    | exact ⟨trivial, fun _ _ => trivial⟩
    | exact fun _ => trivial
    | trivial

/-! ## Requests -/

/-- What a client can send: the format has room for the strings, and the frame is below
`MAX_SIZE`. -/
structure Request.Fits (kvarint : VarintCode) (r : Request) : Prop where
  short : r.ShortStrings
  frame : MmbpCodec.Accepted kvarint (r.serialize kvarint)

variable {r : Request} {recvTime : UInt64}

theorem Request.mapValuesShort (hr : r.ShortStrings) {c : RequestCase} {calls : List DbCall}
    (hselected : r.selected recvTime = some c) (hvalid : c.valid = true)
    (hcalls : c.calls = some calls) : ∀ call ∈ calls, call.command.MapValuesShort := by
  unfold selected at hselected
  cases hcode : r.code with
  | none => simp [hcode] at hselected
  | some code =>
    rw [hcode, bind_some] at hselected
    cases code
    case madd =>
      cases hselected
      cases hcalls
      simp only [mem_singleton, forall_eq]
      rw [RequestCase.write, Bool.and_eq_true] at hvalid
      exact fun kv hkv => (hr.kvs hvalid.2 kv hkv).2
    case mgets | mset =>
      cases hselected
      rw [Bool.and_eq_true] at hvalid
      have hvalues := hr.values hvalid.2
      split at hcalls
      · next field value rest hlist =>
          cases hcalls
          have hvalue : value.length < 2 ^ 32 := hvalues value (by simp [hlist])
          simpa [Command.MapValuesShort] using hvalue
      · cases hcalls
    case sandto | sorto | ssubto =>
      cases hselected
      simp only [toCase] at hcalls
      split at hcalls
      · cases hcalls
        simp [Command.MapValuesShort]
      · cases hcalls
    all_goals first
      | cases hselected; done
      | cases hselected
        cases hcalls
        intro call hcall
        rw [mem_singleton.1 hcall]
        trivial

inductive MapsReached (kvarint : VarintCode) (cache : C) : DbState hash C → Prop where
  | start : MapsReached kvarint cache (.new cache)
  | request {s s' : DbState hash C} {w : World C} {recvTime : UInt64} {r : Request}
      {response : Response} {answer : Option Response} (hs : MapsReached kvarint cache s)
      (hr : r.Fits kvarint)
      (hrun : s.execute w recvTime r (some response) = some (answer, s')) :
      MapsReached kvarint cache s'

variable {s : DbState hash C} {kvarint : VarintCode} {τ : Type} {cache : C}

theorem MapsReached.shortValues (h : MapsReached kvarint cache s) :
    s.dict.AllValues MmkvData.ShortValues := by
  induction h with
  | start => exact Dict.allValues_new
  | request hs hr hrun ih =>
    refine allValues_execute ?_ ih hrun
    intro c calls hselected hvalid hcalls call hcall
    exact Command.keepsValues (Request.mapValuesShort hr.short hselected hvalid hcalls call hcall) _

/-! ## The response to `MALL` -/

namespace Db

variable {w : World C} {k : Str} {s : DbState hash C}

theorem checkExpire_dict :
    Ensures handler (checkExpire w k) s fun r s' => r.1 = false → s'.dict = s.dict := by
  refine .ite (fun _ => ?_) fun _ => .pure fun _ => rfl
  have hfind : (expDict (.find k) : Db hash C _).run handler s =
      some ((s.expDict.find k).1, { s with expDict := (s.expDict.find k).2 }) := rfl
  refine Ensures.step hfind ?_
  split
  · exact .pure fun _ => rfl
  refine .ite (fun _ => ?_) fun _ => .pure fun _ => rfl
  intro r s' hrun hfalse
  simp only [run_bind, bind_eq_some_iff] at hrun
  obtain ⟨⟨_, s1⟩, -, ⟨node, s2⟩, -, hrun⟩ := hrun
  cases node with
  | none => cases hrun
  | some node =>
    simp only [run_bind, bind_eq_some_iff] at hrun
    obtain ⟨_, -, _, -, hrun⟩ := hrun
    cases hrun
    cases hfalse

theorem answer_onValue (kind : DataKind hash τ) {body : τ → Option (Reply × τ)} :
    Ensures handler (onValue w .read kind k body) s fun reply _ =>
      reply.status = .ok → ∃ kv x x', (s.dict.find k).1 = some kv ∧ kv.value = kind.put x ∧
        body x = some (reply, x') := by
  refine checkExpire_dict.bind ?_
  intro r s1 hr
  cases hexpired : r.1 with
  | true => exact .pure fun hok => by cases hok
  | false =>
    rw [← hr hexpired]
    have hfind : (find k : Db hash C _).run handler s1 =
        some ((s1.dict.find k).1, { s1 with dict := (s1.dict.find k).2 }) := rfl
    refine Ensures.step hfind ?_
    split
    · exact .pure fun hok => by cases hok
    · next kv hkv =>
        split
        · exact .pure fun hok => by cases hok
        · next x hx =>
            intro reply s' hrun _
            simp only [run_bind, bind_eq_some_iff] at hrun
            obtain ⟨_, -, ⟨⟨reply', x'⟩, _⟩, hbody, _, -, _, -, hrun⟩ := hrun
            cases hrun
            cases hresult : body x with
            | none => simp [hresult, Program.ofOption] at hbody
            | some result =>
              rw [hresult] at hbody
              cases hbody
              exact ⟨kv, x, _, hkv, kind.get_eq_some.1 hx, hresult⟩

end Db

def DbState.MapAt (s : DbState hash C) (k : Str) (m : StrMap hash) : Prop :=
  ∃ kv, (s.dict.find k).1 = some kv ∧ kv.value = .map m

def Response.ReadsBack (kvarint : VarintCode) (response : Response)
    (kvs : List (KeyValue Str)) : Prop :=
  ∀ count, ∃ response', Response.parseFrom kvarint (.new count) (response.serialize kvarint) =
    some (response', []) ∧ response'.kvs = kvs

def Response.pairs (count : UInt64) (kvs : List (KeyValue Str)) : Response :=
  ⟨0, 4, count, [], [], kvs, []⟩

variable {count : UInt64}

theorem Response.has_pairs_of_ne {kvs : List (KeyValue Str)} {c : ResponseField} (hc : c ≠ .kvs) :
    ¬ (pairs count kvs).has c := by
  change ¬ HasBits.test 4 c.bit
  revert hc
  cases c <;> decide

theorem Response.answer_kvs (count : UInt64) (kvs : List (KeyValue Str)) :
    answer .kvs (.ok (.kvs kvs)) (.new count) = pairs count kvs := by
  have hbits : HasBits.set 0 ResponseField.kvs.bit = 4 := by decide
  simp [answer, fill, setStatus, mark, new, pairs, Reply.ok, hbits, StatusCode.toByte]

theorem Response.status_answer (field : ResponseField) (reply : Reply) (response : Response) :
    (answer field reply response).status = reply.status.toByte := by
  unfold answer
  split <;> rfl

theorem Response.readsBack_pairs_iff (hkv : kvarint.Lawful) (count : UInt64)
    (kvs : List (KeyValue Str)) :
    (Response.pairs count kvs).ReadsBack kvarint kvs ↔
      kvs.length < 2 ^ 32 ∧
        ∀ kv ∈ kvs, kv.key.length < 2 ^ 16 ∧ kv.value.length < 2 ^ 32 := by
  have hselect : ∀ response : Response, response.hasBits = 4 →
      response.content = some .kvs := by
    intro response hbits
    change response.hasBits = (pairs 0 []).hasBits at hbits
    exact content_congr hbits
  have hcontent := hselect (pairs count kvs) rfl
  constructor
  · intro h
    obtain ⟨response', hparse, hkvs⟩ := h 0
    rw [← append_nil (serialize _ _)] at hparse
    simp only [serialize, serializePieces, flatten_append, append_assoc,
      serializeSelected, hcontent] at hparse
    unfold parseFrom at hparse
    rw [bind_of_some (reads_status hkv (.pairs count kvs) _ _),
      bind_of_some (reads_hasBits hkv (.pairs count kvs) _ _), append_nil,
      hselect _ rfl] at hparse
    obtain ⟨kvs', rest, hpairs, hparse⟩ := bind_eq_some.1 hparse
    cases hparse
    change kvs' = kvs at hkvs
    subst hkvs
    exact short_of_parseKvs hkv hpairs
  · rintro ⟨hlength, hshort⟩ count'
    have hstrings : (pairs count kvs).ShortStrings := by
      constructor
      · exact fun hset => absurd hset (has_pairs_of_ne (c := .value) (by decide))
      · exact fun hset => absurd hset (has_pairs_of_ne (c := .values) (by decide))
      · exact fun _ => hshort
      · exact fun hset => absurd hset (has_pairs_of_ne (c := .vmembers) (by decide))
    have hlist : (pairs count kvs).listLength (pairs count kvs).content < 2 ^ 32 := by
      rw [hcontent]
      exact hlength
    have hreads := reads_parseFrom hkv (.new count') hstrings hlist rfl rfl rfl
    refine ⟨_, by simpa using hreads [], ?_⟩
    rw [received, hcontent]
    rfl

theorem StatusCode.toByte_eq_ok {code : StatusCode} (h : code.toByte = StatusCode.ok.toByte) :
    code = .ok := by
  cases code <;> first | rfl | exact absurd h (by decide)

variable {w : World C} {response : Response}

/-- A `MALL` that succeeds answers with the pairs of the stored map. -/
theorem mall_pairs {s' : DbState hash C} (hcode : r.code = some .mall)
    (hrun : s.execute w recvTime r (some (.new count)) = some (some response, s'))
    (hok : response.status = StatusCode.ok.toByte) :
    ∃ m, s.MapAt r.key m ∧ response = .pairs count m.entries := by
  have hselected : r.selected recvTime =
      some (.read r.hasKey "mall" (.mapAll r.key) (.answer .kvs)) := by
    rw [Request.selected, hcode]
    rfl
  unfold execute DatabaseInstance.execute at hrun
  rw [hselected] at hrun
  cases hkey : r.hasKey with
  | false =>
    rw [hkey] at hrun
    cases hrun
    have hinvalid : StatusCode.invalidRequest.toByte = StatusCode.ok.toByte := hok
    exact absurd hinvalid (by decide)
  | true =>
    rw [hkey] at hrun
    obtain ⟨⟨reply, s1⟩, hcommand, hrun⟩ := bind_eq_some_iff.1 ((run_bind _ _ _ _).symm.trans hrun)
    cases hrun
    have hstatus : reply.status = .ok := by
      apply StatusCode.toByte_eq_ok
      rw [← hok]
      exact (status_answer .kvs reply (.new count)).symm
    obtain ⟨kv, m, m', hfind, hvalue, hbody⟩ :=
      Db.answer_onValue DataKind.map reply _ hcommand hstatus
    cases hbody
    exact ⟨m, ⟨kv, hfind, hvalue⟩, answer_kvs count m.entries⟩

/-- Whatever requests came before, a client gets the map of a key back as it is stored
exactly if it has fewer than `2 ^ 32` fields and their names have lengths of 16 bits. -/
theorem mall_readsBack_iff {kvarint : VarintCode} (hkv : kvarint.Lawful) {cache : C}
    {s s' : DbState hash C} (hs : MapsReached kvarint cache s) {w : World C}
    {recvTime : UInt64} {r : Request} (hcode : r.code = some .mall) {count : UInt64}
    {response : Response}
    (hrun : s.execute w recvTime r (some (.new count)) = some (some response, s'))
    (hok : response.status = StatusCode.ok.toByte) :
    ∃ m, s.MapAt r.key m ∧
      (response.ReadsBack kvarint m.entries ↔
        m.entries.length < 2 ^ 32 ∧ ∀ fv ∈ m.entries, fv.key.length < 2 ^ 16) := by
  obtain ⟨m, hmap, rfl⟩ := mall_pairs hcode hrun hok
  have hvalues : ∀ fv ∈ m.entries, fv.value.length < 2 ^ 32 := by
    obtain ⟨kv, hfind, hvalue⟩ := hmap
    have hshort := hs.shortValues kv ((s.dict.find_spec r.key).2 kv hfind)
    rw [hvalue] at hshort
    exact hshort
  refine ⟨m, hmap, (readsBack_pairs_iff hkv count m.entries).trans ?_⟩
  refine and_congr_right fun _ => forall₂_congr fun fv hfv => ?_
  exact and_iff_left (hvalues fv hfv)

/-! ## A map with one field -/

/-- `MADD a` without pairs, which makes an empty map. -/
def maddRequest : Request :=
  ⟨30, 17, [97], [], [], [], [], 0, 0, 0⟩

/-- `MSET a field v`. -/
def msetRequest (field : Str) : Request :=
  ⟨31, 9, [97], [], [field, [118]], [], [], 0, 0, 0⟩

def mallRequest : Request :=
  ⟨35, 1, [97], [], [], [], [], 0, 0, 0⟩

def emptyMapDb : DbState (fun _ => 0) Unit :=
  (((new ()).exec (.standalone true 0) (.mapAdd [97] [])).get rfl).2

def mapDb (m : StrMap (fun _ => 0)) : DbState (fun _ => 0) Unit where
  dict := (emptyMapDb.dict.find [97]).2.write [97] (.map m)
  expDict := (emptyMapDb.expDict.find [97]).2
  side := emptyMapDb.side

def oneFieldDb (field : Str) : DbState (fun _ => 0) Unit :=
  mapDb (mapSet field [118] new)

theorem maddRequest_fits : maddRequest.Fits leb128 where
  short := by
    constructor <;> simp [maddRequest]
  frame := by decide

variable {field : Str}

theorem msetRequest_fits (hfield : field.length = 1 ∨ field.length = 65536) :
    (msetRequest field).Fits leb128 where
  short := by
    constructor
    · simp [msetRequest]
    · exact fun _ => by simp [msetRequest]
    · intro _ s hs
      rcases mem_cons.1 hs with rfl | hs
      · omega
      · grind
    · simp [msetRequest]
    · simp [msetRequest]
  frame := by
    have hkey : (msetRequest field).hasKey = true := by
      change HasBits.test 9 0 = true
      decide
    have hexpire : (msetRequest field).hasExpireTime = false := by
      change HasBits.test 9 2 = false
      decide
    have hcontent : (msetRequest field).content = some .values :=
      Request.content_congr (r := msetRequest []) rfl
    have hserialize : (msetRequest field).serialize leb128 =
        [31, 9, 1, 97, 2] ++ (leb128.encode .w32 (field.length % 2 ^ 32) ++
          (field ++ [1, 118])) := by
      simp only [Request.serialize, Request.serializeTo, Request.serializeFields, hkey, hexpire,
        Request.serializeSelected, hcontent]
      rfl
    unfold MmbpCodec.Accepted
    rw [hserialize]
    simp only [length_append]
    rcases hfield with hfield | hfield <;> rw [hfield] <;> decide

theorem selected_msetRequest (field : Str) : (msetRequest field).selected 0 =
      some ⟨true, "mset", false, some [⟨.mapSet [97] field [118], .setStatus⟩]⟩ := by
  have hkey : (msetRequest field).hasKey = true := by
    change HasBits.test 9 0 = true
    decide
  have hvalues : (msetRequest field).hasValues = true := by
    change HasBits.test 9 3 = true
    decide
  have hcode : (msetRequest field).code = some .mset := by
    change commandCode 31 = _
    decide
  rw [Request.selected, hcode]
  simp only [bind_some, Request.case, hkey, hvalues]
  rfl

theorem execute_msetRequest (field : Str) :
    emptyMapDb.execute (.standalone true 0) 0 (msetRequest field) (some (.new 0)) =
      some (some (Response.setStatus (.ok .none) (.new 0)), oneFieldDb field) := by
  unfold execute DatabaseInstance.execute
  rw [selected_msetRequest]
  rfl

theorem oneFieldDb_reached (hfield : field.length = 1 ∨ field.length = 65536) :
    MapsReached leb128 () (oneFieldDb field) := by
  obtain ⟨answer, hrun⟩ : ∃ answer, (new ()).execute (.standalone true 0) 0 maddRequest
      (some (.new 0)) = some (answer, emptyMapDb) := ⟨_, rfl⟩
  have hempty : MapsReached leb128 () emptyMapDb := .request .start maddRequest_fits hrun
  exact .request hempty (msetRequest_fits hfield) (execute_msetRequest field)

theorem entries_mapSet_new (field value : Str) :
    (mapSet field value new : StrMap hash).entries = [⟨field, value⟩] := by
  have hrep := (mapSet field value (new : StrMap hash)).represents_lookup
  rw [(mapSet_spec field value new).1, lookup_new] at hrep
  have hone : KeyedStore.Represents KeyValue.key [(⟨field, value⟩ : KeyValue Str)]
      (KeyedStore.empty.set KeyValue.key ⟨field, value⟩) := KeyedStore.Represents.nil.cons rfl
  exact perm_singleton.1 (hrep.list_perm hone)

theorem mapDb_find (m : StrMap (fun _ => 0)) :
    ((mapDb m).dict.find [97]).1 = some ⟨[97], .map m⟩ := by
  have hkey : ([97] : Str) ∈ {k : Str | 0 ∉ k} := by simp
  have hentries : emptyMapDb.dict.entries = [⟨[97], .map new⟩] := rfl
  have hempty : Dict.Holds {k | 0 ∉ k} emptyMapDb.dict emptyMapDb.dict.abs :=
    Dict.holds_abs fun kv hkv => by grind
  have hget : emptyMapDb.dict.abs.get [97] = some (.map new) := rfl
  have hfound := (Dict.find_holds hempty (hempty.resolves separated_nulFree hkey)).2
  have hwritten := Dict.write_holds separated_nulFree hfound hkey (.map m)
  refine (Dict.find_holds hwritten (hwritten.resolves separated_nulFree hkey)).1.trans ?_
  simp [AbsDict.step, hget, AbsDict.set]

theorem Db.run_onValue_read {k : Str} {kind : DataKind hash τ}
    {body : τ → Option (Reply × τ)} {kv : KeyValue (MmkvData hash)} {x x' : τ} {reply : Reply}
    (hexp : (s.expDict.find k).1 = none) (hfind : (s.dict.find k).1 = some kv)
    (hkind : kind.get kv.value = some x) (hbody : body x = some (reply, x')) :
    ∃ s', (onValue w .read kind k body).run handler s = some (reply, s') := by
  have hcheck : ∃ s1, (checkExpire w k).run handler s = some ((false, k), s1) ∧
      s1.dict = s.dict := by
    unfold checkExpire
    cases w.config.lazyExpiration with
    | false => exact ⟨s, rfl, rfl⟩
    | true =>
      have hfound : (expDict (.find k) : Db hash C _).run handler s =
          some (none, { s with expDict := (s.expDict.find k).2 }) := by
        rw [← hexp]
        rfl
      exact ⟨_, run_bind_of_some hfound _, rfl⟩
  obtain ⟨s1, hcheck, hdict⟩ := hcheck
  unfold onValue checkExpireRoutine
  rw [run_bind_of_some hcheck, if_neg (by simp)]
  have hfound : (find k : Db hash C _).run handler s1 =
      some (some kv, { s1 with dict := (s1.dict.find k).2 }) := by
    rw [← hfind, ← hdict]
    rfl
  unfold findTyped
  rw [run_bind_of_some hfound]
  simp only [hkind, hbody]
  exact ⟨_, rfl⟩

theorem execute_mallRequest (m : StrMap (fun _ => 0)) :
    ∃ s', (mapDb m).execute (.standalone true 0) 0 mallRequest (some (.new 0)) =
      some (some (.pairs 0 m.entries), s') := by
  have hexp : ((emptyMapDb.expDict.find [97]).2.find [97]).1 = none := rfl
  obtain ⟨s', hrun⟩ : ∃ s', ((Command.mapAll [97]).run (.standalone true 0)).run
      handler (mapDb m) = some (.ok (.kvs m.entries), s') :=
    Db.run_onValue_read hexp (mapDb_find m) rfl rfl
  refine ⟨s', ?_⟩
  rw [← answer_kvs]
  exact run_bind_of_some hrun _

/-- A short field name comes back. -/
theorem shortField_readsBack :
    ∃ (s s' : DbState (fun _ => 0) Unit) (response : Response), MapsReached leb128 () s ∧
      s.execute (.standalone true 0) 0 mallRequest (some (.new 0)) = some (some response, s') ∧
      response.ReadsBack leb128 [⟨[102], [118]⟩] := by
  obtain ⟨s', hrun⟩ := execute_mallRequest (mapSet [102] [118] new)
  have hreached : MapsReached leb128 () (oneFieldDb [102]) := oneFieldDb_reached (.inl rfl)
  obtain ⟨m, ⟨kv, hfind, hvalue⟩, hiff⟩ :=
    mall_readsBack_iff leb128_lawful hreached rfl hrun rfl
  cases hfind.symm.trans (mapDb_find (mapSet [102] [118] new))
  cases hvalue
  rw [entries_mapSet_new] at hiff
  exact ⟨_, s', _, hreached, hrun, hiff.2 (by simp)⟩

/-- A field name of `2 ^ 16` bytes does not. -/
theorem longField_lost :
    ∃ (s s' : DbState (fun _ => 0) Unit) (response : Response) (m : StrMap (fun _ => 0)),
      MapsReached leb128 () s ∧
      s.execute (.standalone true 0) 0 mallRequest (some (.new 0)) = some (some response, s') ∧
      s.MapAt mallRequest.key m ∧ m.entries = [⟨List.replicate 65536 120, [118]⟩] ∧
      ¬ response.ReadsBack leb128 m.entries := by
  obtain ⟨s', hrun⟩ := execute_mallRequest (mapSet (List.replicate 65536 120) [118] new)
  have hlength : (List.replicate 65536 (120 : UInt8)).length = 65536 := length_replicate
  refine ⟨_, s', _, _, oneFieldDb_reached (.inr hlength), hrun, ⟨_, mapDb_find _, rfl⟩,
    entries_mapSet_new _ _, ?_⟩
  rw [entries_mapSet_new, readsBack_pairs_iff leb128_lawful]
  rintro ⟨-, hshort⟩
  have hkey := (hshort _ mem_cons_self).1
  grind

end Mmkv
