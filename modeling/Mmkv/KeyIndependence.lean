import Mmkv.PlainRuns

/-!
# Independence of keys

A key is looked up by the hash of all its bytes and then by `strcmp`, which stops
at the first NUL byte.  The keys of a database are independent exactly if `strcmp` tells
any two of them apart; others meet whenever they hash to the same bucket.
-/

namespace Mmkv

open EffectPrograms DbState Command

variable {hash : Str → Nat} {C : Type} {U : Set Str} {a a' : AbsDb hash C} {w : World C}

/-! ## Keys that are told apart -/

theorem AbsDb.AgreeOn.subset {U U' : Set Str} (h : a.AgreeOn U' a')
    (hsub : U ⊆ U') : a.AgreeOn U a' :=
  ⟨fun k hk => h.dict k (hsub hk), fun k hk => h.expDict k (hsub hk)⟩

end Mmkv
