import Mmkv.CommandKeys
import Mmkv.Requests

/-!
# The keys that a request uses

A request keeps to the keys of the commands it calls.  So it runs on the tables as
on the partial functions that they represent.
-/

namespace Mmkv

open EffectPrograms

variable {hash : Str → Nat} {C : Type} {recvTime : UInt64} {request : Request} {calls : List DbCall}
  {r : Request}

def DbState.execute (w : World C) (recvTime : UInt64) (request : Request)
    (response : Option Response) (s : DbState hash C) :
    Option (Option Response × DbState hash C) :=
  (DatabaseInstance.execute w recvTime request response).run DbState.handler s

def AbsDb.execute (w : World C) (recvTime : UInt64) (request : Request)
    (response : Option Response) (a : AbsDb hash C) :
    Option (Option Response × AbsDb hash C) :=
  (DatabaseInstance.execute w recvTime request response).run AbsDb.handler a

namespace Request

def keys (w : World C) (recvTime : UInt64) (r : Request) : List Str :=
  (r.calls recvTime).flatMap fun call => call.command.keys w

theorem calls_eq {c : RequestCase}
    (hselected : r.selected recvTime = some c) (hcalls : c.calls = some calls) :
    r.calls recvTime = calls := by
  simp [Request.calls, hselected, hcalls]

theorem ne_deleteAll {call : DbCall}
    (hcall : call ∈ r.calls recvTime) : call.command ≠ .deleteAll := by
  unfold Request.calls selected at hcall
  cases hcode : r.code with
  | none => simp [hcode] at hcall
  | some code =>
    rw [hcode, Option.bind_some] at hcall
    cases code
    case mgets | mset =>
      simp only [case, Option.bind_some] at hcall
      grind
    case sandto | sorto | ssubto =>
      simp only [case, toCase, Option.bind_some] at hcall
      grind
    all_goals first
      | cases hcall; done
      | rw [List.mem_singleton.mp hcall]
        simp

end Request

namespace DatabaseInstance

variable {U : Set Str} {whole : Prop} {rule : SideRule C} {P : MmkvData hash → Prop}
  {w : World C}

theorem runCalls_obeys (hrule : rule.Allows U w)
    (hkeys : ∀ call ∈ calls, ∀ k ∈ call.command.keys w, k ∈ U)
    (hwhole : ∀ call ∈ calls, call.command = .deleteAll → whole)
    (hvalues : ∀ call ∈ calls, (call.command.action w.now : Action hash).KeepsValues P)
    (response : Option Response) :
    Db.Obeys U whole rule P (runCalls w calls response : Db hash C _) fun _ => True := by
  induction calls generalizing response with
  | nil => exact .pure trivial
  | cons call calls ih =>
    have hrun : Db.Obeys U whole rule P (call.command.run w : Db hash C Reply)
        fun _ => True := by
      refine Action.run_obeys hrule ?_ ?_ (hvalues call List.mem_cons_self)
      · rw [Command.keys_action]
        exact hkeys call List.mem_cons_self
      · intro hall
        apply hwhole call List.mem_cons_self
        by_contra hne
        exact Command.not_isWhole hne _ hall
    apply hrun.bind
    grind

theorem execute_obeys (hrule : rule.Allows U w)
    {response : Option Response} (hkeys : ∀ k ∈ request.keys w recvTime, k ∈ U)
    (hvalues : ∀ c calls, request.selected recvTime = some c →
      (response.isSome → c.valid = true) → c.calls = some calls →
        ∀ call ∈ calls, (call.command.action w.now : Action hash).KeepsValues P) :
    Db.Obeys U whole rule P (execute w recvTime request response : Db hash C _)
      fun _ => True := by
  unfold execute
  cases hselected : request.selected recvTime with
  | none => exact .pure trivial
  | some c =>
    dsimp only
    split
    · exact .pure trivial
    · rename_i response _ _ hchecked
      have hvalid : response.isSome → c.valid = true := by
        intro hsome
        obtain ⟨r, hr⟩ := Option.isSome_iff_exists.1 hsome
        exact Bool.eq_true_of_not_eq_false (hchecked r hr)
      apply Db.Obeys.ite
      · exact fun _ => trivial
      · intro _
        cases hcalls : c.calls with
        | none => trivial
        | some calls =>
          have heq := Request.calls_eq hselected hcalls
          refine runCalls_obeys hrule ?_ ?_ (hvalues c calls hselected hvalid hcalls) _
          · intro call hcall k hk
            apply hkeys k
            rw [Request.keys, heq]
            exact List.mem_flatMap.mpr ⟨call, hcall, hk⟩
          · intro call hcall hall
            rw [← heq] at hcall
            exact absurd hall (Request.ne_deleteAll hcall)

theorem execute_keeps (hrule : rule.Allows U w)
    (hkeys : ∀ k ∈ request.keys w recvTime, k ∈ U) (response : Option Response) :
    Db.Keeps U whole rule (execute w recvTime request response : Db hash C _)
      fun _ => True :=
  (execute_obeys hrule hkeys fun _ _ _ _ _ _ _ => Action.keepsValues_true _).keeps

end DatabaseInstance

end Mmkv
