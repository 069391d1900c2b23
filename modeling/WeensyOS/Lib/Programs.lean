import Mathlib.Logic.Function.Basic

namespace Programs

variable {α β γ : Type*}

/-- A program of one thread: what it does next depends on the bytes that it loads and on the answers to its calls. -/
inductive Program (α : Type*) where
  | ret (v : α)
  | load (a : Nat) (next : UInt8 → Program α)
  | store (a : Nat) (b : UInt8) (next : Program α)
  | call (arg : Nat) (next : Nat → Program α)

/-- The access that the program makes next, and whether it writes. -/
def Program.access : Program α → Option (Nat × Bool)
  | ret _ => none
  | load a _ => some (a, false)
  | store a _ _ => some (a, true)
  | call _ _ => none

def Program.result : Program α → Option α
  | ret v => some v
  | load _ _ => none
  | store _ _ _ => none
  | call _ _ => none

theorem Program.eq_ret {p : Program α} {v : α} (h : p.result = some v) : p = .ret v := by
  cases p with
  | ret w => exact congrArg ret (Option.some.inj h)
  | load a next => cases h
  | store a b next => cases h
  | call n next => cases h

/-- The program is what the other one does after its first step. -/
inductive Program.Next : Program α → Program α → Prop
  | load {a : Nat} {next : UInt8 → Program α} (b : UInt8) : Next (next b) (.load a next)
  | store {a : Nat} {b : UInt8} {next : Program α} : Next next (.store a b next)
  | call {arg : Nat} {next : Nat → Program α} (r : Nat) : Next (next r) (.call arg next)

/-- What is known of the bytes of a private memory. -/
abbrev View := Nat → Option UInt8

/-- A private memory whose extent a call changes: the addresses in it, the addresses whose bytes
are given up, and the answer to a call. -/
structure Region (β : Type*) where
  Owns : β → Nat → Prop
  Gone : β → Nat → Prop
  decidableGone : ∀ r, DecidablePred (Gone r)
  call : β → Nat → Nat × β

namespace Region

variable (R : Region β)

instance (r : β) : DecidablePred (R.Gone r) := R.decidableGone r

def after (r : β) (c : View) : View := fun a => if R.Gone r a then none else c a

/-- The program, alone with its memory, accesses nothing else and finishes with `Q`. A byte that it
has not stored may be any, but stays the same. -/
def Ensures : Program α → β → View → (α → β → View → Prop) → Prop
  | .ret v, r, c, Q => Q v r c
  | .load a next, r, c, Q => R.Owns r a ∧
      ∀ b, (∀ known, c a = some known → b = known) → Ensures (next b) r (Function.update c a (some b)) Q
  | .store a b next, r, c, Q => R.Owns r a ∧ Ensures next r (Function.update c a (some b)) Q
  | .call n next, r, c, Q => Ensures (next (R.call r n).1) (R.call r n).2 (R.after (R.call r n).2 c) Q

variable {R} {p : Program α} {r : β} {c : View} {Q Q' : α → β → View → Prop}

theorem Ensures.owns (h : R.Ensures p r c Q) {a : Nat} {write : Bool} (ha : p.access = some (a, write)) : R.Owns r a := by
  cases p with
  | ret v => cases ha
  | load x next =>
      cases ha
      exact h.1
  | store x b next =>
      cases ha
      exact h.1
  | call n next => cases ha

end Region

end Programs
