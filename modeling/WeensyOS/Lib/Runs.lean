import Mathlib.Logic.Relation

namespace Runs

/-- A system that takes one step for each event, with the events that may happen in a state. -/
structure System (S E : Type*) where
  step : S → E → Option S
  Allowed : S → E → Prop

namespace System

variable {S E : Type*} (M : System S E)

def Next (s s' : S) : Prop := ∃ e, M.Allowed s e ∧ M.step s e = some s'

def Reachable : S → S → Prop := Relation.ReflTransGen M.Next

/-- A run of the given events, or `none` when one of them is not allowed. -/
def run [∀ s e, Decidable (M.Allowed s e)] : List E → S → Option S
  | [], s => some s
  | e :: es, s => if M.Allowed s e then (M.step s e).bind (run es) else none

variable {M}

/-- What every step keeps holds in every state reached. -/
theorem Reachable.keeps {P : S → Prop} (hstep : ∀ s e s', P s → M.Allowed s e → M.step s e = some s' → P s')
    {s s' : S} (hs : P s) (h : M.Reachable s s') : P s' := by
  induction h with
  | refl => exact hs
  | tail _ hnext ih =>
      obtain ⟨e, hok, he⟩ := hnext
      exact hstep _ e _ ih hok he

theorem reachable_of_run [∀ s e, Decidable (M.Allowed s e)] {es : List E} {s s' : S} (h : M.run es s = some s') :
    M.Reachable s s' := by
  induction es generalizing s with
  | nil =>
      simp only [run, Option.some.injEq] at h
      subst h
      exact .refl
  | cons e es ih =>
      rw [run] at h
      split at h
      next hok =>
        obtain ⟨t, ht, hrest⟩ := Option.bind_eq_some_iff.mp h
        exact .head ⟨e, hok, ht⟩ (ih hrest)
      next => cases h

theorem reachable_of_any [∀ s e, Decidable (M.Allowed s e)] (s : S) (es : List E) {P : S → Prop} [DecidablePred P]
    (h : (M.run es s).any (fun s => P s) = true) : ∃ s', M.Reachable s s' ∧ P s' := by
  cases hrun : M.run es s with
  | none => rw [hrun] at h; cases h
  | some s' => exact ⟨s', reachable_of_run hrun, by simpa [hrun] using h⟩

end System

end Runs
