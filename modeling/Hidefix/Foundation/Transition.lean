/-!
# Reachable states

States reached from an initial predicate by steps of a relation, and the rule
that an invariant of the steps holds in all of them.
-/

namespace Transition

variable {S : Type}

inductive Reach (init : S → Prop) (step : S → S → Prop) : S → Prop
  | start {s : S} : init s → Reach init step s
  | step {s s' : S} : Reach init step s → step s s' → Reach init step s'

/-- What holds initially and is kept by every step holds in every reached state. -/
theorem Reach.invariant {init : S → Prop} {step : S → S → Prop} {P : S → Prop}
    (hinit : ∀ s, init s → P s) (hstep : ∀ s s', P s → step s s' → P s')
    {s : S} (h : Reach init step s) : P s := by
  induction h with
  | start hs => exact hinit _ hs
  | step _ hs ih => exact hstep _ _ ih hs

end Transition
