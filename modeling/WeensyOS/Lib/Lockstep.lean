import Mathlib.Data.Option.Basic
import WeensyOS.Lib.Runs

namespace Runs.System

variable {S T E : Type*} {M : System S E} {N : System T E} {R : S → T → Prop} {s s' : S} {t t' : T} {es : List E}

/-- A run of the given events. -/
inductive Ran (M : System S E) : List E → S → S → Prop
  | nil (s : S) : Ran M [] s s
  | cons {e : E} {es : List E} {s s' s'' : S} (hallowed : M.Allowed s e) (hstep : M.step s e = some s')
      (rest : Ran M es s' s'') : Ran M (e :: es) s s''

/-- Related states allow the same events, and an event leads to related states in both systems, or in neither. -/
structure Lockstep (M : System S E) (N : System T E) (R : S → T → Prop) : Prop where
  allowed : ∀ {s t e}, R s t → (M.Allowed s e ↔ N.Allowed t e)
  step : ∀ {s t e}, R s t → M.Allowed s e → Option.Rel R (M.step s e) (N.step t e)

namespace Lockstep

theorem symm (h : Lockstep M N R) : Lockstep N M fun t s => R s t where
  allowed hr := (h.allowed hr).symm
  step {t s e} hr hallowed := by
    have hrel := h.step hr ((h.allowed hr).mpr hallowed)
    revert hrel
    generalize M.step s e = a
    generalize N.step t e = b
    rintro (hab | _)
    · exact .some hab
    · exact .none

/-- A run of one system is a run of the other. -/
theorem ran (h : Lockstep M N R) (hrun : M.Ran es s s') (hr : R s t) : ∃ t', N.Ran es t t' ∧ R s' t' := by
  induction hrun generalizing t with
  | nil => exact ⟨t, .nil t, hr⟩
  | @cons e es s₀ s₁ s₂ hallowed hstep _ ih =>
      have hrel := h.step hr hallowed
      rw [hstep] at hrel
      cases hnext : N.step t e with
      | none => rw [hnext] at hrel; cases hrel
      | some t₁ =>
          rw [hnext] at hrel
          cases hrel with
          | some hr₁ =>
              obtain ⟨t', hran, hr'⟩ := ih hr₁
              exact ⟨t', .cons ((h.allowed hr).mp hallowed) hnext hran, hr'⟩

end Lockstep

end Runs.System
