import WeensyOS.Lib.Allocator
import WeensyOS.Lib.Runs

namespace BreakSharing

open ByteMemory Allocator Runs

/-- A range of bytes that the program got from `sbrk`. -/
structure Range where
  start : Nat
  size : Nat
  deriving DecidableEq

def Range.Contains (r : Range) (x : Nat) : Prop := r.start ≤ x ∧ x < r.start + r.size

/-- How a call uses `malloc`, given the memory before it. -/
inductive Plan (I : Type*)
  | reply (r : Reply I) (m : Memory)
  | allocate (n : Nat) (after : Nat → Memory → Memory)

def Plan.run {H I : Type*} (memOf : H → Memory) (setMem : Memory → H → H) (malloc : Nat → H → Option (Nat × H)) :
    Plan I → H → Option (Reply I × H)
  | .reply r m, h => some (r, setMem m h)
  | .allocate n after, h =>
      (malloc n h).bind fun (p, h') => some (.pointer p, if p = 0 then h' else setMem (after p (memOf h')) h')

/-- The calls that allocate and free. -/
def Basic : Call → Prop
  | .malloc _ | .calloc .. | .realloc .. | .free _ => True
  | .defrag | .heapInfo => False

instance (c : Call) : Decidable (Basic c) :=
  match c with
  | .malloc _ | .calloc .. | .realloc .. | .free _ => isTrue trivial
  | .defrag | .heapInfo => isFalse id

/-- A process with its library, whose program can move the break itself. -/
structure Process {H I : Type*} (A : Interface H I) where
  start : H → Nat
  stop : H → Nat
  programBreak : H → Nat
  sbrk : Nat → H → Nat × H
  malloc : Nat → H → Option (Nat × H)
  setMem : Memory → H → H
  plan : Call → Memory → Plan I
  exec_plan : ∀ {c}, Basic c → ∀ h, A.exec c h = (plan c (A.mem h)).run A.mem setMem malloc h
  plan_request : ∀ {c m n after}, plan c m = .allocate n after → c.request = some n ∧ n ≠ 0 ∧ ¬c.Overflows
  mem_setMem : ∀ m h, A.mem (setMem m h) = m
  setMem_setMem : ∀ m m' h, setMem m (setMem m' h) = setMem m h
  store_eq : ∀ a v h, A.store a v h = setMem (Function.update (A.mem h) a v) h
  start_setMem : ∀ m h, start (setMem m h) = start h
  stop_setMem : ∀ m h, stop (setMem m h) = stop h
  programBreak_setMem : ∀ m h, programBreak (setMem m h) = programBreak h

structure Sys (H : Type*) where
  heap : H
  live : List Alloc
  own : List Range

abbrev Sys.library {H : Type*} (s : Sys H) : Allocator.Sys H := ⟨s.heap, s.live⟩

/-- A step of the program: a call of the library, a store of one byte, or its own `sbrk`. -/
inductive Event
  | call (c : Call)
  | store (a : Nat) (v : UInt8)
  | sbrk (n : Nat)

namespace Process

variable {H I : Type*} {A : Interface H I} (P : Process A)

def step (s : Sys H) : Event → Option (Sys H)
  | .call c => (A.call c s.library).bind fun (_, t) => some ⟨t.heap, t.live, s.own⟩
  | .store a v => some { s with heap := A.store a v s.heap }
  | .sbrk n => some ⟨(P.sbrk n s.heap).2, s.live, ⟨(P.sbrk n s.heap).1, n⟩ :: s.own⟩

/-- The program hands back only live pointers, stores only into its allocations
and its own ranges, and its `sbrk` calls do not shrink the heap and succeed. -/
def Allowed (Calm : H → Call → Prop) (s : Sys H) : Event → Prop
  | .call c => Basic c ∧ Interface.Passable s.library c.argument ∧ Calm s.heap c
  | .store a _ => (∃ l ∈ s.live, l.ptr ≤ a ∧ a < l.ptr + l.req) ∨ ∃ r ∈ s.own, r.Contains a
  | .sbrk n => n < 2 ^ 63 ∧ (P.sbrk n s.heap).1 ≠ 2 ^ 64 - 1

def system (Calm : H → Call → Prop) : System (Sys H) Event := ⟨P.step, P.Allowed Calm⟩

instance (Calm : H → Call → Prop) [∀ h c, Decidable (Calm h c)] (s : Sys H) (e : Event) :
    Decidable ((P.system Calm).Allowed s e) :=
  match e with
  | .call c => inferInstanceAs (Decidable (Basic c ∧ (c.argument = 0 ∨ ∃ l ∈ s.live, l.ptr = c.argument) ∧ Calm s.heap c))
  | .store a _ => inferInstanceAs (Decidable ((∃ l ∈ s.live, l.ptr ≤ a ∧ a < l.ptr + l.req) ∨
      ∃ r ∈ s.own, r.start ≤ a ∧ a < r.start + r.size))
  | .sbrk n => inferInstanceAs (Decidable (n < 2 ^ 63 ∧ (P.sbrk n s.heap).1 ≠ 2 ^ 64 - 1))

/-- The break has not shrunk, and what is new in the heap was above it. -/
structure Grown (h h' : H) : Prop where
  break_le : P.programBreak h ≤ P.programBreak h'
  above : ∀ x, P.start h' ≤ x → x < P.stop h' → (P.start h ≤ x ∧ x < P.stop h) ∨ P.programBreak h ≤ x

/-- What `malloc` does on a heap `s` that looks like the heap `t` of a program
that never moves the break. -/
inductive Followed (Shadow : H → H → Prop) (K : Contract A) (n : Nat) (t s : H) : Prop
  | refused (s' : H) (hrun : P.malloc n s = some (0, s')) (hshadow : Shadow t s') (hgrown : P.Grown s s')
  | inPlace (p : Nat) (m : Memory) (ht : P.malloc n t = some (p, P.setMem m t))
      (hs : P.malloc n s = some (p, P.setMem m s))
  | grown (t' : H) (p : Nat) (s' : H) (hshadow : Shadow t' s) (hwf : K.WF t') (howns : ∀ l, K.Owns t l → K.Owns t' l)
      (ht : P.malloc n t' = some (p, s')) (hs : P.malloc n s = some (p, s')) (hshadow' : Shadow s' s')
      (hgrown : P.Grown s s')

/-- `Shadow t s`: the heap `t` of a program that never moves the break explains
`s`; calls that meet `Calm` keep it so. -/
structure Simulation (K : Contract A) where
  Calm : H → Call → Prop
  Shadow : H → H → Prop
  mem_eq : ∀ {t s}, Shadow t s → A.mem t = A.mem s
  region : ∀ {t s x}, Shadow t s → K.WF t → P.start t ≤ x → x < P.stop t → P.start s ≤ x ∧ x < P.stop s
  stop_le : ∀ {t s}, Shadow t s → P.stop s ≤ P.programBreak s
  shadow_setMem : ∀ {t s} m, Shadow t s → Shadow (P.setMem m t) (P.setMem m s)
  admits : ∀ {t s c}, Shadow t s → K.WF t → Calm s c → K.Admits t c
  malloc_ok : ∀ {t s c n}, Shadow t s → K.WF t → Calm s c → c.request = some n → n ≠ 0 → ¬c.Overflows →
    P.Followed Shadow K n t s
  store_out : ∀ {t a v}, K.WF t → ¬(P.start t ≤ a ∧ a < P.stop t) →
    K.WF (A.store a v t) ∧ ∀ l, K.Owns t l → K.Owns (A.store a v t) l
  sbrk_ok : ∀ {t s n}, Shadow t s → n < 2 ^ 63 → (P.sbrk n s).1 ≠ 2 ^ 64 - 1 →
    (P.sbrk n s).1 = P.programBreak s ∧ Shadow t (P.sbrk n s).2 ∧
    P.programBreak (P.sbrk n s).2 = P.programBreak s + n ∧
    P.start (P.sbrk n s).2 = P.start s ∧ P.stop (P.sbrk n s).2 = P.stop s

theorem ends_null {c : Call} {n : Nat} (hc : c.request = some n) (hn : n ≠ 0) : ends c (.pointer 0 : Reply I) = false := by
  cases c with
  | malloc | calloc | defrag | heapInfo => rfl
  | free p => cases hc
  | realloc p k =>
      obtain rfl : k = n := by simpa [Call.request] using hc
      simp [ends, hn]

variable {P}

theorem Grown.refl (h : H) : P.Grown h h := ⟨Nat.le_refl _, fun _ hlo hhi => .inl ⟨hlo, hhi⟩⟩

theorem Grown.trans {h h' h'' : H} (hg : P.Grown h h') (hg' : P.Grown h' h'') : P.Grown h h'' := by
  refine ⟨Nat.le_trans hg.break_le hg'.break_le, fun x hlo hhi => ?_⟩
  rcases hg'.above x hlo hhi with ⟨hlo, hhi⟩ | hx
  · exact hg.above x hlo hhi
  · exact .inr (Nat.le_trans hg.break_le hx)

theorem Grown.setMem {h h' : H} (hg : P.Grown h h') (m : Memory) : P.Grown h (P.setMem m h') := by
  constructor
  · rw [P.programBreak_setMem]
    exact hg.break_le
  · intro x hlo hhi
    rw [P.start_setMem] at hlo
    rw [P.stop_setMem] at hhi
    exact hg.above x hlo hhi

namespace Simulation

variable {K : Contract A} (M : P.Simulation K) {s s' : Sys H} {t : H}

/-- What holds in every state of the process. -/
structure Inv (s : Sys H) : Prop where
  shadow : ∃ t, M.Shadow t s.heap ∧ K.Inv ⟨t, s.live⟩
  below : ∀ r ∈ s.own, r.start + r.size ≤ P.programBreak s.heap
  apart : ∀ r ∈ s.own, ∀ x, P.start s.heap ≤ x → x < P.stop s.heap → ¬r.Contains x

variable {M}

theorem follow_call {c : Call} (hbasic : Basic c) (hshadow : M.Shadow t s.heap) (hinv : K.Inv ⟨t, s.live⟩)
    (hpass : Interface.Passable s.library c.argument) (hcalm : M.Calm s.heap c) :
    ∃ r h' t', A.exec c s.heap = some (r, h') ∧ M.Shadow t' h' ∧ K.Inv ⟨t', A.settle s.live c r⟩ ∧
      P.Grown s.heap h' := by
  have hmem := M.mem_eq hshadow
  have hexec := P.exec_plan hbasic s.heap
  -- the same call of the shadow keeps the invariant of the allocator
  have hshadowed {t' t'' : H} {r : Reply I} (h : K.Inv ⟨t', s.live⟩) (ha : K.Admits t' c) (hrun : A.exec c t' = some (r, t'')) :
      K.Inv ⟨t'', A.settle s.live c r⟩ := by
    obtain ⟨r', s'', hcall, hres, -⟩ := h.call hpass ha
    rw [Interface.call, hrun, Option.bind_some, Option.some.injEq, Prod.mk.injEq] at hcall
    obtain ⟨rfl, rfl⟩ := hcall
    exact hres
  cases hplan : P.plan c (A.mem s.heap) with
  | reply r m =>
      have ht : A.exec c t = some (r, P.setMem m t) := by rw [P.exec_plan hbasic, hmem, hplan, Plan.run]
      rw [hplan] at hexec
      exact ⟨r, _, _, hexec, M.shadow_setMem m hshadow, hshadowed hinv (M.admits hshadow hinv.wf hcalm) ht,
        (Grown.refl _).setMem m⟩
  | allocate n after =>
      obtain ⟨hreq, hn, hover⟩ := P.plan_request hplan
      simp only [hplan, Plan.run] at hexec
      rcases M.malloc_ok hshadow hinv.wf hcalm hreq hn hover with
        ⟨h', hrun, hsh, hgrown⟩ | ⟨p, m, ht, hs⟩ | ⟨t', p, h', hsh, hwf, howns, ht, hs, hsh', hgrown⟩
      · rw [hrun, Option.bind_some, if_pos rfl] at hexec
        refine ⟨.pointer 0, h', t, hexec, hsh, ?_, hgrown⟩
        have hsettle : A.settle s.live c (.pointer 0) = s.live := by
          simp [Interface.settle, Interface.made, released, ends_null hreq hn]
        rwa [hsettle]
      · have hexec' : A.exec c t = some (.pointer p, if p = 0 then P.setMem m t else P.setMem (after p m) t) := by
          rw [P.exec_plan hbasic, hmem, hplan, Plan.run]
          simp only [ht, Option.bind_some, P.mem_setMem, P.setMem_setMem]
        rw [hs, Option.bind_some] at hexec
        simp only [P.mem_setMem, P.setMem_setMem] at hexec
        have hres := hshadowed hinv (M.admits hshadow hinv.wf hcalm) hexec'
        refine ⟨_, _, _, hexec, ?_, hres, ?_⟩
        · split
          · exact M.shadow_setMem m hshadow
          · exact M.shadow_setMem _ hshadow
        · split
          · exact (Grown.refl _).setMem m
          · exact (Grown.refl _).setMem _
      · have hexec' : A.exec c t' = A.exec c s.heap := by
          rw [P.exec_plan hbasic, M.mem_eq hsh, hexec, hplan, Plan.run]
          simp only [ht, hs]
        rw [hs, Option.bind_some] at hexec
        have hinv' : K.Inv ⟨t', s.live⟩ := ⟨hwf, fun l hl => howns l (hinv.owns l hl), hinv.distinct⟩
        have hres := hshadowed hinv' (M.admits hsh hwf hcalm) (hexec'.trans hexec)
        refine ⟨_, _, _, hexec, ?_, hres, ?_⟩
        · split
          · exact hsh'
          · exact M.shadow_setMem _ hsh'
        · split
          · exact hgrown
          · exact hgrown.setMem _

theorem Inv.call {c : Call} (hs : M.Inv s) (hok : P.Allowed M.Calm s (.call c)) (hstep : P.step s (.call c) = some s') :
    M.Inv s' := by
  obtain ⟨hbasic, hpass, hcalm⟩ := hok
  obtain ⟨t, hshadow, hinv⟩ := hs.shadow
  obtain ⟨r, h', t', hrun, hshadow', hinv', hgrown⟩ := follow_call hbasic hshadow hinv hpass hcalm
  simp only [step, Interface.call, hrun, Option.bind_some, Option.some.injEq] at hstep
  subst hstep
  refine ⟨⟨t', hshadow', hinv'⟩, fun r hr => Nat.le_trans (hs.below r hr) hgrown.break_le, fun r hr x hlo hhi hx => ?_⟩
  rcases hgrown.above x hlo hhi with ⟨hlo, hhi⟩ | hx'
  · exact hs.apart r hr x hlo hhi hx
  · have hbelow := hs.below r hr
    have hlt := hx.2
    omega

theorem Inv.store {a : Nat} {v : UInt8} (hs : M.Inv s) (hok : P.Allowed M.Calm s (.store a v)) :
    M.Inv { s with heap := A.store a v s.heap } := by
  obtain ⟨t, hshadow, hinv⟩ := hs.shadow
  have hshadow' : M.Shadow (A.store a v t) (A.store a v s.heap) := by
    rw [P.store_eq, P.store_eq, M.mem_eq hshadow]
    exact M.shadow_setMem _ hshadow
  have hkept : K.WF (A.store a v t) ∧ ∀ l, K.Owns t l → K.Owns (A.store a v t) l := by
    rcases hok with ⟨l, hl, hlo, hhi⟩ | ⟨r, hr, ha⟩
    · exact K.store_ok hinv.wf (hinv.owns l hl) hlo hhi
    · refine M.store_out hinv.wf fun hin => ?_
      obtain ⟨hlo, hhi⟩ := M.region hshadow hinv.wf hin.1 hin.2
      exact hs.apart r hr a hlo hhi ha
  refine ⟨⟨_, hshadow', hkept.1, fun l hl => hkept.2 l (hinv.owns l hl), hinv.distinct⟩, fun r hr => ?_,
    fun r hr x hlo hhi => ?_⟩
  · simp only [P.store_eq, P.programBreak_setMem]
    exact hs.below r hr
  · simp only [P.store_eq, P.start_setMem, P.stop_setMem] at hlo hhi
    exact hs.apart r hr x hlo hhi

theorem Inv.sbrk {n : Nat} (hs : M.Inv s) (hok : P.Allowed M.Calm s (.sbrk n)) :
    M.Inv ⟨(P.sbrk n s.heap).2, s.live, ⟨(P.sbrk n s.heap).1, n⟩ :: s.own⟩ := by
  obtain ⟨t, hshadow, hinv⟩ := hs.shadow
  obtain ⟨hret, hshadow', hbreak, hstart, hstop⟩ := M.sbrk_ok hshadow hok.1 hok.2
  refine ⟨⟨t, hshadow', hinv⟩, fun r hr => ?_, fun r hr x hlo hhi hx => ?_⟩
  · rw [hbreak]
    rcases List.mem_cons.mp hr with rfl | hr
    · exact Nat.le_of_eq (by rw [hret])
    · exact Nat.le_add_right_of_le (hs.below r hr)
  · simp only [hstart, hstop] at hlo hhi
    rcases List.mem_cons.mp hr with rfl | hr
    · have hle := M.stop_le hshadow
      have hlt := hx.1
      simp only [hret] at hlt
      omega
    · exact hs.apart r hr x hlo hhi hx

theorem Inv.next {e : Event} (hs : M.Inv s) (hok : P.Allowed M.Calm s e) (hstep : P.step s e = some s') : M.Inv s' := by
  cases e with
  | call c => exact hs.call hok hstep
  | store a v =>
      obtain rfl := Option.some.inj hstep
      exact hs.store hok
  | sbrk n =>
      obtain rfl := Option.some.inj hstep
      exact hs.sbrk hok

theorem Inv.run (hs : M.Inv s) (h : (P.system M.Calm).Reachable s s') : M.Inv s' :=
  h.keeps (P := M.Inv) (fun _ _ _ hs hok hstep => hs.next hok hstep) hs

/-- In a state of the process every call that meets `Calm` returns. -/
theorem Inv.returns {c : Call} (hs : M.Inv s) (hok : P.Allowed M.Calm s (.call c)) :
    ∃ s', P.step s (.call c) = some s' := by
  obtain ⟨hbasic, hpass, hcalm⟩ := hok
  obtain ⟨t, hshadow, hinv⟩ := hs.shadow
  obtain ⟨r, h', t', hrun, -⟩ := follow_call hbasic hshadow hinv hpass hcalm
  refine ⟨⟨h', A.settle s.live c r, s.own⟩, ?_⟩
  simp only [step, Interface.call, hrun, Option.bind_some]

end Simulation

end Process

end BreakSharing
