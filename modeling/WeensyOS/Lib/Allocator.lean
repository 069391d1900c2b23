import WeensyOS.Lib.ByteMemory
import Mathlib.Logic.Relation

namespace Allocator

open ByteMemory

inductive Kind
  | user
  | library
  deriving DecidableEq

/-- A live allocation: its pointer and the number of bytes that were requested. -/
structure Alloc where
  ptr : Nat
  req : Nat
  kind : Kind
  deriving DecidableEq

/-- The calls of the library interface; the null pointer is `0`. -/
inductive Call
  | malloc (n : Nat)
  | calloc (num sz : Nat)
  | realloc (p n : Nat)
  | free (p : Nat)
  | defrag
  | heapInfo
  deriving DecidableEq

inductive Reply (I : Type*)
  | done
  | pointer (p : Nat)
  | info (i : I)

/-- An allocator with heap states `H`, whose reports of type `I` hand out arrays. -/
structure Interface (H I : Type*) where
  exec : Call → H → Option (Reply I × H)
  mem : H → Memory
  store : Nat → UInt8 → H → H
  arrays : I → List Alloc

/-- The number of bytes that a call asks for, if it is an allocation. -/
def Call.request : Call → Option Nat
  | .malloc n => some n
  | .calloc num sz => some (num * sz)
  | .realloc _ n => some n
  | _ => none

/-- A `calloc` whose product is not a 64-bit number. -/
def Call.Overflows : Call → Prop
  | .calloc num sz => 2 ^ 64 ≤ num * sz
  | _ => False

instance (c : Call) : Decidable c.Overflows :=
  match c with
  | .calloc num sz => inferInstanceAs (Decidable (2 ^ 64 ≤ num * sz))
  | .malloc _ | .realloc .. | .free _ | .defrag | .heapInfo => isFalse id

/-- The pointer that is handed to a call. -/
def Call.argument : Call → Nat
  | .realloc p _ => p
  | .free p => p
  | _ => 0

/-- Whether a call ends the life of the allocation it was handed. -/
def ends {I : Type*} : Call → Reply I → Bool
  | .free _, _ => true
  | .realloc _ n, .pointer q => n = 0 || q ≠ 0
  | _, _ => false

def released {I : Type*} (c : Call) (r : Reply I) (l : Alloc) : Bool := ends c r && l.ptr = c.argument

structure Sys (H : Type*) where
  heap : H
  live : List Alloc

/-- A step of the program: a call of the library, or a store of one byte. -/
inductive Event
  | call (c : Call)
  | store (a : Nat) (v : UInt8)

namespace Interface

variable {H I : Type*} (A : Interface H I)

/-- The allocations that a call has made. -/
def made : Call → Reply I → List Alloc
  | c, .pointer q => if q = 0 then [] else [⟨q, c.request.getD 0, .user⟩]
  | _, .info i => A.arrays i
  | _, .done => []

def settle (live : List Alloc) (c : Call) (r : Reply I) : List Alloc :=
  A.made c r ++ live.filter fun l => !released c r l

def call (c : Call) (s : Sys H) : Option (Reply I × Sys H) :=
  (A.exec c s.heap).bind fun (r, h) => some (r, ⟨h, A.settle s.live c r⟩)

def step (s : Sys H) : Event → Option (Sys H)
  | .call c => (A.call c s).bind fun (_, s') => some s'
  | .store a v => some ⟨A.store a v s.heap, s.live⟩

/-- The pointers that a program may hand to the library: null and its live ones. -/
def Passable (s : Sys H) (p : Nat) : Prop := p = 0 ∨ ∃ l ∈ s.live, l.ptr = p

/-- What a well-behaved program does: its calls meet `Admits` and hand back only
live pointers, and it stores only inside the requested bytes of its live allocations. -/
def Allowed (Admits : H → Call → Prop) (s : Sys H) : Event → Prop
  | .call c => Passable s c.argument ∧ Admits s.heap c
  | .store a _ => ∃ l ∈ s.live, l.ptr ≤ a ∧ a < l.ptr + l.req

def Next (Admits : H → Call → Prop) (s s' : Sys H) : Prop := ∃ e, Allowed Admits s e ∧ A.step s e = some s'

def Reachable (Admits : H → Call → Prop) : Sys H → Sys H → Prop :=
  Relation.ReflTransGen (A.Next Admits)

instance (Admits : H → Call → Prop) [∀ h c, Decidable (Admits h c)] (s : Sys H) (e : Event) :
    Decidable (Allowed Admits s e) :=
  match e with
  | .call c => inferInstanceAs (Decidable ((c.argument = 0 ∨ ∃ l ∈ s.live, l.ptr = c.argument) ∧ Admits s.heap c))
  | .store a _ => inferInstanceAs (Decidable (∃ l ∈ s.live, l.ptr ≤ a ∧ a < l.ptr + l.req))

/-- A run of the given events, or `none` when one of them is not allowed. -/
def run (Admits : H → Call → Prop) [∀ h c, Decidable (Admits h c)] : List Event → Sys H → Option (Sys H)
  | [], s => some s
  | e :: es, s => if Allowed Admits s e then (A.step s e).bind (run Admits es) else none

variable {A}

theorem reachable_of_run {Admits : H → Call → Prop} [∀ h c, Decidable (Admits h c)] {es : List Event}
    {s s' : Sys H} (h : A.run Admits es s = some s') : A.Reachable Admits s s' := by
  induction es generalizing s with
  | nil =>
      simp only [run, Option.some.injEq] at h
      subst h
      exact .refl
  | cons e es ih =>
      rw [run] at h
      split at h
      next hok =>
        obtain ⟨t, ht, hrest⟩ := Option.bind_eq_some_iff.mp h
        exact .head ⟨e, hok, ht⟩ (ih hrest)
      next => cases h

theorem reachable_of_any (Admits : H → Call → Prop) [∀ h c, Decidable (Admits h c)] (s : Sys H) (es : List Event)
    {P : Sys H → Prop} [DecidablePred P] (h : (A.run Admits es s).any (fun s => P s) = true) :
    ∃ s', A.Reachable Admits s s' ∧ P s' := by
  cases hrun : A.run Admits es s with
  | none => rw [hrun] at h; cases h
  | some s' => exact ⟨s', reachable_of_run hrun, by simpa [hrun] using h⟩

theorem Reachable.mono {Admits Admits' : H → Call → Prop} (hsub : ∀ h c, Admits h c → Admits' h c) {s s' : Sys H}
    (h : A.Reachable Admits s s') : A.Reachable Admits' s s' := by
  induction h with
  | refl => exact .refl
  | tail _ hnext ih =>
      obtain ⟨e, hok, hstep⟩ := hnext
      refine ih.tail ⟨e, ?_, hstep⟩
      cases e with
      | call c => exact ⟨hok.1, hsub _ _ hok.2⟩
      | store a v => exact hok

variable (A)

/-- The requested bytes of `l` are the same in both heaps. -/
def SameBytes (l : Alloc) (h h' : H) : Prop := ∀ i, i < l.req → A.mem h' (l.ptr + i) = A.mem h (l.ptr + i)

/-- What the new allocation of a call holds. -/
def Contents (Owns : H → Alloc → Prop) (c : Call) (r : Reply I) (h h' : H) : Prop :=
  match c, r with
  | .calloc num sz, .pointer q => q ≠ 0 → ∀ i, i < num * sz → A.mem h' (q + i) = 0
  | .realloc p n, .pointer q => p ≠ 0 → q ≠ 0 → ∀ l, Owns h l → l.ptr = p →
      ∀ i, i < min l.req n → A.mem h' (q + i) = A.mem h (p + i)
  | _, _ => True

/-- What a call does to a heap with invariant `WF` that holds the allocations `Owns`. -/
structure Meets (WF : H → Prop) (Owns : H → Alloc → Prop) (c : Call) (h : H) (r : Reply I) (h' : H) : Prop where
  wf : WF h'
  made_owned : ∀ l ∈ A.made c r, Owns h' l ∧ ∀ l', Owns h l' → l'.ptr ≠ l.ptr
  made_distinct : (A.made c r).Pairwise fun l l' => l.ptr ≠ l'.ptr
  kept : ∀ l, Owns h l → released c r l = false → Owns h' l ∧ A.SameBytes l h h'
  contents : A.Contents Owns c r h h'

end Interface

/-- What it takes to be an allocator: an invariant of its heap, and when a heap
holds an allocation. -/
structure Contract {H I : Type*} (A : Interface H I) where
  Admits : H → Call → Prop
  WF : H → Prop
  Owns : H → Alloc → Prop
  ptr_ne_zero : ∀ {h l}, WF h → Owns h l → l.ptr ≠ 0
  apart : ∀ {h l l'}, WF h → Owns h l → Owns h l' → l.ptr ≠ l'.ptr →
    l.ptr + l.req ≤ l'.ptr ∨ l'.ptr + l'.req ≤ l.ptr
  exec_ok : ∀ {h c}, WF h → (c.argument = 0 ∨ ∃ l, Owns h l ∧ l.ptr = c.argument) → Admits h c →
    ∃ r h', A.exec c h = some (r, h') ∧ A.Meets WF Owns c h r h'
  store_ok : ∀ {h l a v}, WF h → Owns h l → l.ptr ≤ a → a < l.ptr + l.req →
    WF (A.store a v h) ∧ ∀ l', Owns h l' → Owns (A.store a v h) l'

namespace Contract

variable {H I : Type*} {A : Interface H I} (K : Contract A) {s s' : Sys H}

/-- The invariant of a run. -/
structure Inv (s : Sys H) : Prop where
  wf : K.WF s.heap
  owns : ∀ l ∈ s.live, K.Owns s.heap l
  distinct : s.live.Pairwise fun l l' => l.ptr ≠ l'.ptr

variable {K}

theorem Inv.argument {c : Call} (hs : K.Inv s) (h : Interface.Passable s c.argument) :
    c.argument = 0 ∨ ∃ l, K.Owns s.heap l ∧ l.ptr = c.argument := by
  rcases h with h | ⟨l, hl, hp⟩
  · exact .inl h
  · exact .inr ⟨l, hs.owns l hl, hp⟩

/-- Every admitted call of a well-behaved program returns, keeps the invariant,
and leaves the bytes of the other live allocations alone. -/
theorem Inv.call {c : Call} (hs : K.Inv s) (hp : Interface.Passable s c.argument) (ha : K.Admits s.heap c) :
    ∃ r s', A.call c s = some (r, s') ∧ K.Inv s' ∧
      (∀ l ∈ s.live, released c r l = false → l ∈ s'.live ∧ A.SameBytes l s.heap s'.heap) ∧
      A.Contents K.Owns c r s.heap s'.heap := by
  obtain ⟨r, h', hrun, hm⟩ := K.exec_ok hs.wf (hs.argument hp) ha
  refine ⟨r, ⟨h', A.settle s.live c r⟩, by rw [Interface.call, hrun]; rfl, ⟨hm.wf, ?_, ?_⟩, ?_, hm.contents⟩
  · intro l hl
    rcases List.mem_append.mp hl with hl | hl
    · exact (hm.made_owned l hl).1
    · obtain ⟨hl, hkept⟩ := List.mem_filter.mp hl
      rw [Bool.not_eq_true'] at hkept
      exact (hm.kept l (hs.owns l hl) hkept).1
  · refine List.pairwise_append.mpr ⟨hm.made_distinct, hs.distinct.filter _, fun l hl l' hl' => ?_⟩
    exact Ne.symm ((hm.made_owned l hl).2 l' (hs.owns l' (List.mem_filter.mp hl').1))
  · intro l hl hkept
    refine ⟨List.mem_append_right _ (List.mem_filter.mpr ⟨hl, by rw [hkept]; rfl⟩), ?_⟩
    exact (hm.kept l (hs.owns l hl) hkept).2

theorem Inv.next (hs : K.Inv s) (h : A.Next K.Admits s s') : K.Inv s' := by
  obtain ⟨e, hok, hstep⟩ := h
  cases e with
  | call c =>
      obtain ⟨r, t, hrun, ht, -⟩ := hs.call hok.1 hok.2
      simp only [Interface.step, hrun, Option.bind_some, Option.some.injEq] at hstep
      exact hstep ▸ ht
  | store a v =>
      obtain ⟨l, hl, hlo, hhi⟩ := hok
      obtain ⟨hwf, howns⟩ := K.store_ok (v := v) hs.wf (hs.owns l hl) hlo hhi
      simp only [Interface.step, Option.some.injEq] at hstep
      subst hstep
      exact ⟨hwf, fun l' hl' => howns l' (hs.owns l' hl'), hs.distinct⟩

theorem Inv.run (hs : K.Inv s) (h : A.Reachable K.Admits s s') : K.Inv s' := by
  induction h with
  | refl => exact hs
  | tail _ hnext ih => exact ih.next hnext

/-- Distinct live allocations do not share a byte. -/
theorem Inv.disjoint (hs : K.Inv s) :
    s.live.Pairwise fun l l' => l.ptr + l.req ≤ l'.ptr ∨ l'.ptr + l'.req ≤ l.ptr :=
  hs.distinct.imp_of_mem fun hl hl' hne => K.apart hs.wf (hs.owns _ hl) (hs.owns _ hl') hne

end Contract

end Allocator
