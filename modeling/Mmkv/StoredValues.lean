import Mmkv.RequestKeys

/-!
# What holds of every stored value

A property of values holds of all that `dict_` stores if every command only stores
values that have it.  What a command stores is read off its body: it may rely on the
values it finds.
-/

namespace Mmkv

open EffectPrograms TreeHashTable

variable {hash : Str → Nat} {C : Type}

/-! ## The calls on a dictionary -/

section Calls

variable {V : Type} {P : V → Prop}

def Dict.AllValues (P : V → Prop) (d : Dict hash V) : Prop :=
  ∀ kv ∈ d.entries, P kv.value

namespace Dict

variable {d d' : Dict hash V} {kv : KeyValue V} {rest : List (KeyValue V)}

section

variable (h : d.AllValues P)
include h

theorem AllValues.of_perm (hperm : d'.entries.Perm d.entries) : d'.AllValues P :=
  fun kv hkv => h kv (hperm.mem_iff.1 hkv)

theorem AllValues.added (kv : KeyValue V) (hkv : P kv.value)
    (hperm : d'.entries.Perm (kv :: d.entries)) : d'.AllValues P := by
  intro kv' hmem
  rcases List.mem_cons.1 (hperm.mem_iff.1 hmem) with rfl | hmem
  · exact hkv
  · exact h kv' hmem

theorem AllValues.removed (hperm : d.entries.Perm (kv :: d'.entries)) : d'.AllValues P :=
  fun kv' hmem => h kv' (hperm.mem_iff.2 (List.mem_cons_of_mem _ hmem))

variable (k : Str) {v : V}

theorem allValues_find : (d.find k).2.AllValues P ∧ ∀ kv ∈ (d.find k).1, P kv.value := by
  have hspec := d.find_spec k
  exact ⟨h.of_perm hspec.1, fun kv hkv => h kv (hspec.2 kv hkv)⟩

theorem allValues_insertKvWithDuplicate (hv : P v) :
    (d.insertKvWithDuplicate k v).2.AllValues P ∧
      P (d.insertKvWithDuplicate k v).1.2.value := by
  rcases d.insertKvWithDuplicate_spec k v with ⟨hans, hperm⟩ | ⟨-, hmem, hperm⟩
  · rw [hans]
    exact ⟨h.added ⟨k, v⟩ hv hperm, hv⟩
  · exact ⟨h.of_perm hperm, h _ hmem⟩

theorem allValues_push (hv : P v) : (d.push k v).2.AllValues P := by
  rcases d.inserted_spec (pushWithDuplicate_outcome d.wf
    (⟨⟨k, v⟩, d.extracted.headD 1⟩ : AvlNode (KeyValue V))) with ⟨-, -, hperm⟩ | ⟨-, -, hperm⟩
  · exact h.added ⟨k, v⟩ hv hperm
  · exact h.of_perm hperm

theorem allValues_write (hv : P v) : (d.write k v).AllValues P := by
  rcases (modify_spec d.wf (k := k) (f := KeyValue.assign v) fun _ => rfl).2.2 with
    ⟨kv, rest, -, hold, hnew⟩ | ⟨heq, -⟩
  · intro kv' hmem
    rcases List.mem_cons.1 (hnew.mem_iff.1 hmem) with rfl | hmem
    · exact hv
    · exact h kv' (hold.mem_iff.2 (List.mem_cons_of_mem _ hmem))
  · have hentries : (d.write k v).entries = d.entries :=
      congrArg (TreeHashTable.entries strcmp KeyValue.key) heq
    exact h.of_perm (.of_eq hentries)

theorem allValues_extract : (d.extract k).2.AllValues P ∧ ∀ kv ∈ (d.extract k).1, P kv.value := by
  rcases d.extract_spec k with ⟨hnone, hperm⟩ | ⟨kv, hsome, hperm⟩
  · rw [hnone]
    exact ⟨h.of_perm hperm, by simp⟩
  · rw [hsome]
    refine ⟨h.removed hperm, ?_⟩
    rintro _ ⟨⟩
    exact h _ (hperm.mem_iff.2 List.mem_cons_self)

theorem allValues_eraseNode : (d.eraseNode k).AllValues P := by
  rcases (eraseNode_spec (k := k) d.wf).2.2 with ⟨kv, -, hperm⟩ | ⟨heq, -⟩
  · exact h.removed hperm
  · have hentries : (d.eraseNode k).entries = d.entries :=
      congrArg (TreeHashTable.entries strcmp KeyValue.key) heq
    exact h.of_perm (.of_eq hentries)

end

theorem allValues_step (op : DictOp V) (hop : op.Stores P) (h : d.AllValues P) :
    (d.step op).2.AllValues P ∧ op.Yields P (d.step op).1 := by
  cases op with
  | find k => exact allValues_find h k
  | insertKvWithDuplicate k v => exact allValues_insertKvWithDuplicate h k hop
  | write k v => exact ⟨allValues_write h k hop, trivial⟩
  | extract k => exact allValues_extract h k
  | dropNode => exact ⟨h, trivial⟩
  | push k v => exact ⟨allValues_push h k hop, trivial⟩
  | eraseNode k => exact ⟨allValues_eraseNode h k, trivial⟩
  | erase k =>
    refine ⟨(allValues_extract h k).1.of_perm (.of_eq ?_), trivial⟩
    exact congrArg (TreeHashTable.entries strcmp KeyValue.key) (d.erase_eq k).2
  | size => exact ⟨h, trivial⟩
  | clear =>
    refine ⟨?_, trivial⟩
    intro kv hmem
    have hempty : d.clear.entries = [] := (clear_spec d.wf).2.1
    have hmem' : kv ∈ d.clear.entries := hmem
    rw [hempty] at hmem'
    cases hmem'

theorem allValues_new : (new : Dict hash V).AllValues P := by
  have hentries : (new : Dict hash V).entries = [] := entries_new
  simp [AllValues, hentries]

end Dict

end Calls

/-! ## The requests -/

theorem DictOp.ansIn_univ {V : Type} (op : DictOp V) (a : op.Ans) : op.AnsIn Set.univ a := by
  cases op <;> simp [AnsIn]

variable {P : MmkvData hash → Prop} {s s' : DbState hash C}

theorem Db.Obeys.allValues {α : Type} {p : Db hash C α} {R : α → Prop}
    (hp : Db.Obeys Set.univ True (.keys Set.univ) P p R) {a : α}
    (hs : s.dict.AllValues P) (hrun : p.run DbState.handler s = some (a, s')) :
    s'.dict.AllValues P := by
  have hspec := Meets.run_spec DbState.handler
    (fun (s : DbState hash C) (_ : Unit) => s.dict.AllValues P) ?_ hp hs hrun
  · grind
  · intro op s _ hs hpre
    cases op with
    | dict op =>
      have hstep := Dict.allValues_step op hpre.2 hs
      exact ⟨(), ⟨op.ansIn_univ _, hstep.2⟩, hstep.1⟩
    | expDict op => exact ⟨(), op.ansIn_univ _, hs⟩
    | side α f => exact ⟨(), ⟨s.side, fun _ _ => trivial, rfl⟩, hs⟩

/-- A request that stores only values with `P` keeps `P` for all stored values. -/
theorem DbState.allValues_execute {w : World C} {recvTime : UInt64} {request : Request}
    {response : Response} {answer : Option Response}
    (hvalues : ∀ c calls, request.selected recvTime = some c → c.valid = true →
      c.calls = some calls →
        ∀ call ∈ calls, (call.command.action w.now : Action hash).KeepsValues P)
    (hs : s.dict.AllValues P)
    (hrun : s.execute w recvTime request (some response) = some (answer, s')) :
    s'.dict.AllValues P := by
  have hobeys : Db.Obeys Set.univ True (.keys Set.univ) P
      (DatabaseInstance.execute w recvTime request (some response) : Db hash C _)
      fun _ => True :=
    DatabaseInstance.execute_obeys (SideRule.keys_allows Set.univ w) (fun _ _ => trivial)
      fun c calls hselected hvalid => hvalues c calls hselected (hvalid rfl)
  exact hobeys.allValues hs hrun

end Mmkv
