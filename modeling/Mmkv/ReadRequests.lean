import Mmkv.DatabaseChanges
import Mmkv.RequestKeys

/-!
# Requests that are registered as reads

A request whose command is not registered as a write runs under a read lock and is
not logged.  It should leave every value and every deadline as it is, apart from
keys whose deadline has passed.  One case of the switch has no `break` and goes on
with the case of a write; all others keep to the rule.
-/

namespace Mmkv

open EffectPrograms Option Function Db DatabaseInstance

variable {hash : Str → Nat} {C : Type} {w : World C} {α : Type} {calls : List DbCall}
  {recvTime : UInt64} {r : Request} {c : Command}

/-! ## What has to stay -/

/-- Every key whose deadline has not passed has the same value and the same deadline
as before. -/
structure AbsDb.Kept (w : World C) (a b : AbsDb hash C) : Prop where
  dict : ∀ k, a.lapsed w k = false →
    Option.Rel MmkvData.Same (a.dict.get k) (b.dict.get k)
  expDict : ∀ k, a.lapsed w k = false → b.expDict.get k = a.expDict.get k

namespace AbsDb.Kept

variable {a b c : AbsDb hash C} {k : Str} {data data' : MmkvData hash}

theorem of_eq (hdict : b.dict.get = a.dict.get) (hexp : b.expDict.get = a.expDict.get) :
    a.Kept w b where
  dict := by
    intro k _
    rw [hdict]
    exact MmkvData.Same.option_refl _
  expDict := by
    intro k _
    rw [hexp]

theorem refl (a : AbsDb hash C) : a.Kept w a := of_eq rfl rfl

theorem lapsed (h : a.Kept w b) (hk : a.lapsed w k = false) : b.lapsed w k = false := by
  simpa [AbsDb.lapsed, AbsDb.expired, h.expDict k hk] using hk

theorem trans (h : a.Kept w b) (h' : b.Kept w c) : a.Kept w c where
  dict := by
    intro k hk
    have hab := h.dict k hk
    have hbc := h'.dict k (h.lapsed hk)
    generalize a.dict.get k = x at hab ⊢
    generalize b.dict.get k = y at hab hbc
    generalize c.dict.get k = z at hbc ⊢
    cases hab with
    | none => grind
    | some hxy =>
      cases hbc with
      | some hyz => exact .some (hxy.trans hyz)
  expDict := fun k hk => (h'.expDict k (h.lapsed hk)).trans (h.expDict k hk)

theorem of_expired (hlapsed : a.lapsed w k = true)
    (hdict : b.dict.get = Function.update a.dict.get k none)
    (hexp : b.expDict.get = Function.update a.expDict.get k none) : a.Kept w b := by
  have hne : ∀ k', a.lapsed w k' = false → k' ≠ k := by grind
  constructor
  · intro k' hcurrent
    rw [hdict, update_of_ne (hne k' hcurrent)]
    exact MmkvData.Same.option_refl _
  · intro k' hcurrent
    rw [hexp, update_of_ne (hne k' hcurrent)]

theorem of_written (hget : a.dict.get k = some data)
    (hsame : data.Same data') (hdict : b.dict.get = Function.update a.dict.get k (some data'))
    (hexp : b.expDict.get = a.expDict.get) : a.Kept w b := by
  constructor
  · intro k' _
    rw [hdict]
    by_cases hk : k' = k
    · subst hk
      rw [hget, update_self]
      exact .some hsame
    · rw [update_of_ne hk]
      exact MmkvData.Same.option_refl _
  · intro k' _
    rw [hexp]

theorem put (h : a.Kept w b) (hget : b.dict.get k = some data)
    (hsame : data.Same data') : a.Kept w (b.put k data') :=
  h.trans (.of_written hget hsame rfl rfl)

end AbsDb.Kept

/-- A read touches keys, writes values that are the same and drops what has expired. -/
def Change.Reads : Change hash → Prop
  | .touched _ | .expired _ => True
  | .written _ old data => old.Same data
  | _ => False

theorem AbsDb.Path.kept {a b : AbsDb hash C} (h : a.Path w (fun _ c => c.Reads) b) :
    a.Kept w b := by
  refine h.keeps (I := fun b => a.Kept w b) ?_ (.refl a)
  rintro b b' c hreads ⟨hallowed, hvalues, hdeadlines, -⟩ hkept
  refine hkept.trans ?_
  cases c with
  | touched k => exact .of_eq hvalues hdeadlines
  | written k old data => exact .of_written hallowed hreads hvalues hdeadlines
  | expired k => exact .of_expired hallowed.2 hvalues hdeadlines
  | _ => exact hreads.elim

/-! ## The commands of the reads -/

def Command.IsQuery : Command → Bool
  | .setAnd _ _ | .setOr _ _ | .setSub _ _ | .setAndSize _ _ | .setOrSize _ _
  | .setSubSize _ _ | .getExpiration _ | .getTimeToLive _ => true
  | c => c.IsRead

theorem Action.changes_of_reads {x : Action hash} (hreads : x.Reads) (a : AbsDb hash C) :
    Db.Changes w (fun _ c => c.Reads) (x.run w) a := by
  apply changes_run
  cases x with
  | onValue access kind k body =>
    apply changes_checkExpireRoutine fun _ => trivial
    intro _
    exact changes_onFound access kind trivial fun _ => hreads
  | _ => exact hreads.elim

theorem Command.changes_of_query (hc : c.IsQuery) (a : AbsDb hash C) :
    Db.Changes w (fun _ c => c.Reads) (c.run w) a := by
  by_cases hread : c.IsRead
  · exact Action.changes_of_reads (reads_action hread w.now) a
  · cases c
    case setAnd k1 k2 | setOr k1 k2 | setSub k1 k2 | setAndSize k1 k2 | setOrSize k1 k2
        | setSubSize k1 k2 =>
      simp only [run, action, MmkvDb.setAnd, MmkvDb.setOr, MmkvDb.setSub, MmkvDb.setAndSize,
        MmkvDb.setOrSize, MmkvDb.setSubSize, Action.run]
      exact changes_setOp _ _ (fun _ _ => trivial) fun _ _ _ _ hsame => hsame
    case getExpiration k | getTimeToLive k =>
      simp only [run, action, MmkvDb.getExpiration, MmkvDb.getTimeToLive, Action.run]
      exact changes_getExpiration _
    all_goals exact absurd hc hread

theorem Command.kept (hc : c.IsQuery) (a : AbsDb hash C) :
    Ensures AbsDb.handler (c.run w) a fun _ b => a.Kept w b :=
  (changes_of_query hc a).mono fun _ _ h => h.kept

namespace Db

variable {a : AbsDb hash C} {k : Str}

end Db

section Mgets

variable {a : AbsDb hash C} {k field value : Str} (fields : List Str)
  (response : Option Response)

end Mgets

/-! ## Requests -/

section Requests

variable {a : AbsDb hash C} {recvTime : UInt64} {r : Request} {response : Response}

end Requests

end Mmkv
