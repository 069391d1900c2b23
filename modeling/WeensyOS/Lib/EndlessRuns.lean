import WeensyOS.Lib.Runs

namespace Runs.System

variable {S E W : Type*} {M : System S E} {run : Nat → S} {events : Nat → E}

/-- A run without end, with the event of each of its steps. -/
structure Endless (M : System S E) (run : Nat → S) (events : Nat → E) : Prop where
  allowed : ∀ n, M.Allowed (run n) (events n)
  step : ∀ n, M.step (run n) (events n) = some (run (n + 1))

namespace Endless

variable (h : M.Endless run events)
include h

theorem reachable {n m : Nat} (hnm : n ≤ m) : M.Reachable (run n) (run m) := by
  induction hnm with
  | refl => exact .refl
  | step _ ih => exact ih.tail ⟨_, h.allowed _, h.step _⟩

end Endless

end Runs.System
