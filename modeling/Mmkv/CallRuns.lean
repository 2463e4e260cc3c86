import Mathlib.Data.List.Basic

/-!
# Runs of a machine that answers calls

A machine is a function from a call and a state to a reply and the next state.
Two machines are compared by a relation on their states: if every single call
answers alike and keeps the relation, then so does every run.
-/

namespace CallRuns

variable {C R S T : Type}

def run (step : C → S → R × S) : List C → S → List R × S
  | [], s => ([], s)
  | c :: cs, s =>
    let (reply, s) := step c s
    let (replies, s) := run step cs s
    (reply :: replies, s)

/-- What a single call has to satisfy for two machines to run alike. -/
def Simulates (step : C → S → R × S) (step' : C → T → R × T) (rel : S → T → Prop) : Prop :=
  ∀ c s t, rel s t →
    (step c s).1 = (step' c t).1 ∧ rel (step c s).2 (step' c t).2

theorem Simulates.run {step : C → S → R × S} {step' : C → T → R × T} {rel : S → T → Prop}
    (hstep : Simulates step step' rel) (cs : List C) {s : S} {t : T}
    (hrel : rel s t) :
    (CallRuns.run step cs s).1 = (CallRuns.run step' cs t).1 ∧
      rel (CallRuns.run step cs s).2 (CallRuns.run step' cs t).2 := by
  induction cs generalizing s t with
  | nil => exact ⟨rfl, hrel⟩
  | cons c cs ih =>
    obtain ⟨hreply, hnext⟩ := hstep c s t hrel
    obtain ⟨hreplies, hlast⟩ := ih hnext
    refine ⟨?_, hlast⟩
    simp only [CallRuns.run, hreply, hreplies]

end CallRuns
