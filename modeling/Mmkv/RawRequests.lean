import Mmkv.RequestCodec

/-!
# The two parsers of requests

The raw parser follows the parser over a buffer through every component except the
weights of a sorted set.  On serialized requests without such weights both give the
same requests and stop at the same byte; with them the raw parser goes astray for
some code.
-/

namespace Mmkv

open Reader List Source Request

namespace Request

/-! ## Components -/

section Simulation

variable (kvarint : VarintCode) (into : Request)

theorem parseCommand_simulates : Simulates RawAt (parseCommand (buffer kvarint) into)
      (parseCommand (raw kvarint) into) :=
  (reader_simulates _).bind fun _ => Simulates.pure _

theorem parseHasBits_simulates : Simulates RawAt (parseHasBits (buffer kvarint) into)
      (parseHasBits (raw kvarint) into) :=
  (reader_simulates _).bind fun _ => Simulates.pure _

theorem parseKey_simulates : Simulates RawAt (parseKey (buffer kvarint) into)
      (parseKey (raw kvarint) into) := by
  unfold parseKey
  cases into.hasKey with
  | true => exact (parseStr_simulates kvarint .w16).bind fun _ => Simulates.pure _
  | false => exact Simulates.pure into

theorem parseExpireTime_simulates : Simulates RawAt (parseExpireTime (buffer kvarint) into)
      (parseExpireTime (raw kvarint) into) := by
  unfold parseExpireTime
  cases into.hasExpireTime with
  | true => exact (reader_simulates _).bind fun _ => Simulates.pure _
  | false => exact Simulates.pure into

theorem parseContent_simulates {c : Option RequestContent} (hc : c ≠ some .vmembers) :
    Simulates RawAt (parseContent (buffer kvarint) into c)
      (parseContent (raw kvarint) into c) := by
  cases c with
  | none => exact Simulates.pure into
  | some c =>
    cases c with
    | value => exact (parseStr_simulates kvarint .w32).bind fun _ => Simulates.pure _
    | values => exact (parseValues_simulates kvarint _).bind fun _ => Simulates.pure _
    | kvs => exact (parseKvs_simulates kvarint _).bind fun _ => Simulates.pure _
    | count => exact (reader_simulates _).bind fun _ => Simulates.pure _
    | range =>
      exact (reader_simulates _).bind fun _ =>
        (reader_simulates _).bind fun _ => Simulates.pure _
    | vmembers => exact absurd rfl hc

end Simulation

/-! ## Requests without weights -/

section Agreement

variable {kvarint : VarintCode} (hkv : kvarint.Lawful)

def Unweighted (r : Request) : Prop :=
  r.content = some .vmembers → r.vmembers = []

include hkv

variable {s : Source.RawState}

theorem parseVmembers_agree (tail : Bytes)
    (h : RawAt ((serializeVmembers kvarint []).flatten ++ tail) s) :
    Agree RawAt
      (parseVmembers (buffer kvarint) [] ((serializeVmembers kvarint []).flatten ++ tail))
      (parseVmembers (raw kvarint) [] s) := by
  refine Agree.bind (reader_simulates _ _ _ h) ?_
  intro count bs' s' hcount hat
  have hzero : Reads (kvarint.read .w32) (serializeVmembers kvarint []).flatten 0 :=
    reads_number hkv .w32 (n := 0) (by decide)
  have heq := hcount.symm.trans (hzero tail)
  cases heq
  exact Simulates.pure _ _ _ hat

variable {r : Request}

theorem parseSelected_agree {into : Request} (hbits : into.hasBits = r.hasBits)
    (hweights : r.Unweighted) (hvmembers : into.vmembers = []) (tail : Bytes)
    (h : RawAt ((r.serializeSelected kvarint).flatten ++ tail) s) :
    Agree RawAt
      (parseContent (buffer kvarint) into into.content
        ((r.serializeSelected kvarint).flatten ++ tail))
      (parseContent (raw kvarint) into into.content s) := by
  rw [content_congr hbits]
  by_cases hcontent : r.content = some .vmembers
  · have hempty : r.serializeSelected kvarint = serializeVmembers kvarint [] := by
      rw [serializeSelected, hcontent, ← hweights hcontent]
      rfl
    rw [hempty] at h ⊢
    rw [hcontent]
    refine Agree.bind ?_ fun vmembers _ _ _ hat => Simulates.pure _ _ _ hat
    rw [hvmembers]
    exact parseVmembers_agree hkv tail h
  · exact parseContent_simulates kvarint into hcontent _ _ h

theorem parseFields_agree (into : Request) (hbits : into.hasBits = r.hasBits)
    (hkey : r.hasKey → r.key.length < 2 ^ 16) (hweights : r.Unweighted)
    (hvmembers : into.vmembers = []) (tail : Bytes)
    (h : RawAt ((r.serializeFields kvarint).flatten ++ tail) s) :
    Agree RawAt
      (parseFields (buffer kvarint) into ((r.serializeFields kvarint).flatten ++ tail))
      (parseFields (raw kvarint) into s) := by
  simp only [serializeFields, flatten_append, append_assoc] at h ⊢
  refine (parseKey_simulates kvarint into _ _ h).bind ?_
  intro into' bs' s' hparsed hat
  have heq := hparsed.symm.trans (reads_key hkv hbits hkey _)
  cases heq
  refine Agree.bind ?_ fun into'' bs'' s'' _ hat =>
    parseExpireTime_simulates kvarint into'' _ _ hat
  refine parseSelected_agree hkv ?_ hweights ?_ _ hat
  · exact hbits
  · exact hvmembers

theorem parseRaw_of_fields (fresh : Request) {tail : Bytes}
    (h : RawAt (r.serialize kvarint ++ tail) s) :
    ∃ s', RawAt ((r.serializeFields kvarint).flatten ++ tail) s' ∧
      parseRaw kvarint fresh s = parseFields (raw kvarint)
        { fresh with command := r.command, hasBits := r.hasBits } s' := by
  have hcommand := length_serializeNumber_pos hkv .w16 r.command.toNat
  have hhasBits := length_serializeNumber_pos hkv .w8 r.hasBits.toNat
  simp only [serialize, serializeTo, flatten_append, append_assoc] at h
  have hlength : 2 ≤ s.2 := by
    have hle := h.2.1
    grind
  have hfirst := parseCommand_simulates kvarint fresh _ _ h
  obtain ⟨s1, hs1, hat1⟩ := hfirst.exists_eq_some (reads_command hkv r fresh _)
  have hleft : 1 ≤ s1.2 := by
    have hle := hat1.2.1
    grind
  have hsecond := parseHasBits_simulates kvarint { fresh with command := r.command } _ _ hat1
  obtain ⟨s2, hs2, hat2⟩ := hsecond.exists_eq_some (reads_hasBits hkv r _ _)
  refine ⟨s2, hat2, ?_⟩
  unfold parseRaw ifLeft
  rw [if_pos hlength, bind_of_some hs1, if_pos hleft, bind_of_some hs2]

variable {rest : Bytes} {size : Nat}

theorem parseFromRaw_eq (fresh : Request) (hshort : r.ShortStrings)
    (hlist : r.listLength r.content < 2 ^ 32) (hweights : r.Unweighted)
    (hvmembers : fresh.vmembers = [])
    (hle : (r.serialize kvarint ++ rest).length ≤ size)
    (hsize : size < 2 ^ 64) :
    parseFromRaw kvarint size fresh (r.serialize kvarint ++ rest) =
      some (r.received fresh, rest) := by
  obtain ⟨s', hat, heq⟩ := parseRaw_of_fields hkv fresh
    (s := (r.serialize kvarint ++ rest, size)) ⟨rfl, hle, hsize⟩
  have hfields := parseFields_agree hkv (r := r)
    ({ fresh with command := r.command, hasBits := r.hasBits }) rfl hshort.key
    hweights hvmembers rest hat
  have hread := reads_fields hkv (r := r)
    ({ fresh with command := r.command, hasBits := r.hasBits }) rfl hshort hlist
  obtain ⟨t, ht, hat'⟩ := hfields.exists_eq_some (hread rest)
  rw [parseFromRaw, heq, ht]
  exact congrArg (fun bs => some (_, bs)) hat'.1

end Agreement

/-! ## Requests with weights -/

section Weights

variable {mark : UInt8} {tail : Bytes} {s : Source.RawState}

theorem weight_marked_eq_none {w : Weight} (hmark : (bigEndian 8 w.bits.toNat).head? ≠ some mark)
    (h : RawAt (bigEndian 8 w.bits.toNat ++ tail) s) :
    (raw (marked mark)).weight s = none := by
  have hread : (marked mark).read .w64 (bigEndian 8 w.bits.toNat ++ tail) = none := by
    cases hbytes : bigEndian 8 w.bits.toNat with
    | nil =>
      have hlength := length_bigEndian 8 w.bits.toNat
      grind
    | cons b bs =>
      rw [hbytes] at hmark
      have hne : b ≠ mark := fun heq => hmark (by rw [heq]; rfl)
      simp [VarintCode.read, VarintCode.reader, marked, Marked.decode, hne]
  exact bind_of_none ((reader_simulates _ _ _ h).eq_none hread)

variable {wm : WeightValue} {wms : List WeightValue}

theorem parseVmembers_marked_eq_none {old : List WeightValue} (hlist : (wm :: wms).length < 2 ^ 32)
    (hmark : (bigEndian 8 wm.key.bits.toNat).head? ≠ some mark)
    (h : RawAt ((serializeVmembers (marked mark) (wm :: wms)).flatten ++ tail) s) :
    parseVmembers (raw (marked mark)) old s = none := by
  simp only [serializeVmembers, flatMap_cons, serializeVmember, flatten_append,
    flatten_cons, append_assoc, cons_append] at h
  have hcount := reader_simulates ((marked mark).decode .w32) _ _ h
  obtain ⟨s', hs', hat⟩ := hcount.exists_eq_some (reads_number (marked_lawful mark) .w32 hlist _)
  refine (bind_of_some hs').trans ?_
  cases hresize : resize (wm :: wms).length (⟨⟨0⟩, []⟩ : WeightValue) old with
  | nil =>
    have hlength := length_resize (wm :: wms).length (⟨⟨0⟩, []⟩ : WeightValue) old
    grind
  | cons first others =>
    refine bind_of_none ?_
    exact bind_of_none (weight_marked_eq_none hmark hat)

theorem parseFields_marked_eq_none {r : Request} (into : Request) (hbits : into.hasBits = r.hasBits)
    (hkey : r.hasKey → r.key.length < 2 ^ 16) (hcontent : r.content = some .vmembers)
    (hvmembers : r.vmembers = wm :: wms) (hlist : (wm :: wms).length < 2 ^ 32)
    (hmark : (bigEndian 8 wm.key.bits.toNat).head? ≠ some mark)
    (h : RawAt ((r.serializeFields (marked mark)).flatten ++ tail) s) :
    parseFields (raw (marked mark)) into s = none := by
  simp only [serializeFields, serializeSelected, hcontent, serializeContent, hvmembers,
    flatten_append, append_assoc] at h
  have hfirst := parseKey_simulates (marked mark) into _ _ h
  obtain ⟨s', hs', hat⟩ := hfirst.exists_eq_some (reads_key (marked_lawful mark) hbits hkey _)
  have hselected := content_congr (r := r)
    (q := { into with key := if r.hasKey then r.key else into.key }) hbits
  refine (bind_of_some hs').trans (bind_of_none ?_)
  rw [hselected, hcontent]
  exact bind_of_none (parseVmembers_marked_eq_none hlist hmark hat)

theorem parseFromRaw_marked_eq_none {r fresh : Request}
    (hshort : r.ShortStrings) (hlist : r.listLength r.content < 2 ^ 32)
    (hcontent : r.content = some .vmembers) (hvmembers : r.vmembers = wm :: wms)
    (hmark : (bigEndian 8 wm.key.bits.toNat).head? ≠ some mark)
    (hle : (r.serialize (marked mark) ++ rest).length ≤ size) (hsize : size < 2 ^ 64) :
    parseFromRaw (marked mark) size fresh (r.serialize (marked mark) ++ rest) = none := by
  obtain ⟨s', hat, heq⟩ := parseRaw_of_fields (marked_lawful mark) fresh
    (s := (r.serialize (marked mark) ++ rest, size)) ⟨rfl, hle, hsize⟩
  have hlength : (wm :: wms).length < 2 ^ 32 := by
    rw [hcontent] at hlist
    rwa [← hvmembers]
  have hfields := parseFields_marked_eq_none (r := r)
    ({ fresh with command := r.command, hasBits := r.hasBits }) rfl hshort.key
    hcontent hvmembers hlength hmark hat
  rw [parseFromRaw, heq, hfields]
  rfl

end Weights

/-! ## Several requests -/

def serializeAll (kvarint : VarintCode) (rs : List Request) : Bytes :=
  rs.flatMap (serialize · kvarint)

def parseAll (n : Nat) (parse : StateT Bytes Option Request) : StateT Bytes Option (List Request) :=
  each (fun _ => parse) (List.replicate n ())

theorem parseAll_succ {n : Nat} {parse : StateT Bytes Option Request} {bs bs' : Bytes}
    {r : Request} (h : parse bs = some (r, bs')) :
    parseAll (n + 1) parse bs = (parseAll n parse bs').map fun x => (r :: x.1, x.2) := by
  unfold parseAll
  refine (bind_of_some h).trans ?_
  cases hrest : each (fun _ => parse) (List.replicate n ()) bs' with
  | none => exact bind_of_none hrest
  | some x =>
    exact bind_of_some hrest

section Several

variable {rs : List Request} (hshort : ∀ r ∈ rs, r.ShortStrings)
  (hlist : ∀ r ∈ rs, r.listLength r.content < 2 ^ 32) (expireTime left right : UInt64)
  {kvarint : VarintCode}

include hshort hlist

theorem parseAll_eq (hkv : kvarint.Lawful) (rest : Bytes) :
    parseAll rs.length (parseFrom kvarint (.new expireTime left right))
      (serializeAll kvarint rs ++ rest) =
        some (rs.map (received · (.new expireTime left right)), rest) := by
  induction rs with
  | nil => rfl
  | cons r rs ih =>
    have hread := reads_parseFrom hkv (.new expireTime left right)
      (hshort r mem_cons_self) (hlist r mem_cons_self)
    have hrest := ih (fun r' hr' => hshort r' (mem_cons_of_mem _ hr'))
      fun r' hr' => hlist r' (mem_cons_of_mem _ hr')
    rw [serializeAll, flatMap_cons, append_assoc, length_cons, parseAll_succ (hread _)]
    rw [serializeAll] at hrest
    rw [hrest]
    rfl

theorem parseAll_raw_eq (hkv : kvarint.Lawful)
    (hweights : ∀ r ∈ rs, r.Unweighted)
    (hle : (serializeAll kvarint rs ++ rest).length ≤ size) (hsize : size < 2 ^ 64) :
    parseAll rs.length (parseFromRaw kvarint size (.new expireTime left right))
      (serializeAll kvarint rs ++ rest) =
        some (rs.map (received · (.new expireTime left right)), rest) := by
  induction rs with
  | nil => rfl
  | cons r rs ih =>
    rw [serializeAll, flatMap_cons, append_assoc] at hle
    have hread := parseFromRaw_eq hkv (.new expireTime left right)
      (hshort r mem_cons_self) (hlist r mem_cons_self)
      (hweights r mem_cons_self) rfl hle hsize
    rw [length_append] at hle
    have hrest := ih (fun r' hr' => hshort r' (mem_cons_of_mem _ hr'))
      (fun r' hr' => hlist r' (mem_cons_of_mem _ hr'))
      (fun r' hr' => hweights r' (mem_cons_of_mem _ hr')) (Nat.le_of_add_left_le hle)
    rw [serializeAll, flatMap_cons, append_assoc, length_cons, parseAll_succ hread]
    rw [serializeAll] at hrest
    rw [hrest]
    rfl

theorem parseAll_marked_eq_none (hweights : ∃ r ∈ rs, ¬ r.Unweighted) :
    ∃ mark, ∀ rest size, (serializeAll (marked mark) rs ++ rest).length ≤ size →
      size < 2 ^ 64 →
      parseAll rs.length (parseFromRaw (marked mark) size (.new expireTime left right))
        (serializeAll (marked mark) rs ++ rest) = none := by
  induction rs with
  | nil => simp at hweights
  | cons r rs ih =>
    have hshort' : ∀ r' ∈ rs, r'.ShortStrings := fun r' hr' => hshort r' (mem_cons_of_mem _ hr')
    have hlist' : ∀ r' ∈ rs, r'.listLength r'.content < 2 ^ 32 :=
      fun r' hr' => hlist r' (mem_cons_of_mem _ hr')
    by_cases hr : r.Unweighted
    · have htail : ∃ r' ∈ rs, ¬ r'.Unweighted := by grind
      obtain ⟨mark, hnone⟩ := ih hshort' hlist' htail
      refine ⟨mark, fun rest size hle hsize => ?_⟩
      rw [serializeAll, flatMap_cons, append_assoc] at hle ⊢
      have hread := parseFromRaw_eq (marked_lawful mark)
        (.new expireTime left right) (hshort r mem_cons_self) (hlist r mem_cons_self)
        hr rfl hle hsize
      rw [length_append] at hle
      have hrest := hnone rest size (Nat.le_of_add_left_le hle) hsize
      rw [serializeAll] at hrest
      rw [length_cons, parseAll_succ hread, hrest]
      rfl
    · obtain ⟨hcontent, hne⟩ := Classical.not_imp.1 hr
      obtain ⟨wm, wms, hvmembers⟩ := exists_cons_of_ne_nil hne
      obtain ⟨mark, hmark⟩ : ∃ mark, (bigEndian 8 wm.key.bits.toNat).head? ≠ some mark := by
        by_cases hzero : (bigEndian 8 wm.key.bits.toNat).head? = some 0
        · exact ⟨1, by rw [hzero]; decide⟩
        · exact ⟨0, hzero⟩
      refine ⟨mark, fun rest size hle hsize => ?_⟩
      rw [serializeAll, flatMap_cons, append_assoc] at hle ⊢
      exact bind_of_none (parseFromRaw_marked_eq_none (hshort r mem_cons_self)
        (hlist r mem_cons_self) hcontent hvmembers hmark hle hsize)

end Several

end Request

/-- Both parsers give the same requests and stop at the end of their bytes, whatever
lawful code is used, exactly if no request carries weights.  The requests have to fit
into memory. -/
theorem requestParsers_agree_iff (rs : List Request) (hshort : ∀ r ∈ rs, r.ShortStrings)
    (hlist : ∀ r ∈ rs, r.listLength r.content < 2 ^ 32)
    (hmemory : ∀ mark, (serializeAll (marked mark) rs).length < 2 ^ 64)
    (expireTime left right : UInt64) :
    (∀ kvarint : VarintCode, kvarint.Lawful → ∀ rest size,
      (serializeAll kvarint rs ++ rest).length ≤ size → size < 2 ^ 64 →
      ∃ out, parseAll rs.length (parseFrom kvarint (.new expireTime left right))
          (serializeAll kvarint rs ++ rest) = some (out, rest) ∧
        parseAll rs.length (parseFromRaw kvarint size (.new expireTime left right))
          (serializeAll kvarint rs ++ rest) = some (out, rest)) ↔
      ∀ r ∈ rs, r.Unweighted := by
  constructor
  · intro h
    by_contra hweights
    have hbad : ∃ r ∈ rs, ¬ r.Unweighted := by
      simpa only [not_forall, exists_prop] using hweights
    obtain ⟨mark, hnone⟩ :=
      parseAll_marked_eq_none hshort hlist expireTime left right hbad
    have hle : (serializeAll (marked mark) rs ++ []).length ≤
        (serializeAll (marked mark) rs).length := by
      rw [append_nil]
    obtain ⟨out, -, hraw⟩ := h _ (marked_lawful mark) [] _ hle (hmemory mark)
    grind
  · intro hweights kvarint hkv rest size hle hsize
    exact ⟨_, parseAll_eq hshort hlist expireTime left right hkv rest,
      parseAll_raw_eq hshort hlist expireTime left right hkv hweights hle hsize⟩

/-- `STRADD k v` and `SADD s m`, one after the other. -/
theorem twoRequests_parsed_alike :
    ∃ out,
      parseAll 2 (parseFrom leb128 (.new 0 0 0))
        (serializeAll leb128 [⟨0, 3, [107], [118], [], [], [], 0, 0, 0⟩,
          ⟨40, 9, [115], [], [[109]], [], [], 0, 0, 0⟩] ++ []) = some (out, []) ∧
      parseAll 2 (parseFromRaw leb128 64 (.new 0 0 0))
        (serializeAll leb128 [⟨0, 3, [107], [118], [], [], [], 0, 0, 0⟩,
          ⟨40, 9, [115], [], [[109]], [], [], 0, 0, 0⟩] ++ []) = some (out, []) := by
  refine (requestParsers_agree_iff [⟨0, 3, [107], [118], [], [], [], 0, 0, 0⟩,
    ⟨40, 9, [115], [], [[109]], [], [], 0, 0, 0⟩] ?_ ?_ ?_ 0 0 0).2 ?_ leb128 leb128_lawful
    [] 64 (by decide) (by decide)
  · intro r hr
    rcases mem_pair.1 hr with rfl | rfl <;> constructor <;> decide
  · decide
  · intro mark
    exact Nat.lt_of_le_of_lt (Nat.le_of_eq (rfl : _ = 85)) (by decide)
  · intro r hr
    rcases mem_pair.1 hr with rfl | rfl <;>
      exact fun hcontent => absurd hcontent (by decide)

/-- `VADD k 0 m`: the raw parser reads another member and stops before the end. -/
theorem vadd_parsed_differently :
    (parseFrom leb128 (.new 0 0 0)
      (serialize ⟨16, 129, [107], [], [], [], [⟨⟨0⟩, [109]⟩], 0, 0, 0⟩ leb128)).map
        (fun x => (x.1.vmembers, x.2)) = some ([⟨⟨0⟩, [109]⟩], []) ∧
    (parseFromRaw leb128 16 (.new 0 0 0)
      (serialize ⟨16, 129, [107], [], [], [], [⟨⟨0⟩, [109]⟩], 0, 0, 0⟩ leb128)).map
        (fun x => (x.1.vmembers, x.2)) =
      some ([⟨⟨0⟩, []⟩], [0, 0, 0, 0, 0, 0, 1, 109]) := by
  decide +kernel

end Mmkv
