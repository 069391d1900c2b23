import WeensyOS.Kernel.KernelTables

namespace WeensyOS.Kernel

open ByteMemory LibC ProgramBreak

variable {s s' : Machine} {p : Nat}

/-- A process that has not used its heap yet. -/
structure Start (s : Machine) (p : Nat) : Prop where
  aligned : (s.processes p).originalBreak % pageSize = 0
  breaks : (s.processes p).originalBreak = (s.processes p).programBreak
  lt : (s.processes p).programBreak < memsizeVirtual - pageSize
  shape : Shape s.mem (s.processes p).pPagetable memsizeVirtual
  tables : ∀ pn, IsTable s p pn → pn < npages ∧ s.pageinfo pn = ⟨p, 1⟩
  user : ∀ a pn, UserMaps s p a pn → (pn < npages ∧ s.pageinfo pn = ⟨p, 1⟩) ∨ SystemPage s pn
  empty : ∀ a, (s.processes p).originalBreak ≤ a → a < memsizeVirtual - pageSize →
    mappedPage s.mem (s.processes p).pPagetable a = none

/-- The heap pages of `p` are its own: they lie below the break, nobody else owns or
maps them, and no page table is among them. -/
structure Isolated (s : Machine) (p : Nat) : Prop where
  le : (s.processes p).originalBreak ≤ (s.processes p).programBreak
  lt : (s.processes p).programBreak < memsizeVirtual - pageSize
  below : ∀ a pn, HeapMaps s p a pn → a < roundUp (s.processes p).programBreak pageSize
  owned : ∀ a pn, HeapMaps s p a pn → s.pageinfo pn = ⟨p, 1⟩
  noTable : ∀ a pn, HeapMaps s p a pn → ∀ q < nproc, Live s q → ¬IsTable s q pn
  alone : ∀ a pn, HeapMaps s p a pn → ∀ q < nproc, Live s q → ∀ a', UserMaps s q a' pn → q = p ∧ a' / 4096 = a / 4096

/-- Page 0 is reserved, and the memory of every process is in order. -/
structure KernelOk (s : Machine) : Prop where
  reserved : SystemPage s 0
  procs : ∀ p < nproc, Live s p → ProcOk s p

theorem keeps_of_info {pn : Nat} (h : pn < npages ∧ s.pageinfo pn = ⟨p, 1⟩) : Keeps s p pn where
  lt := h.1
  owner := by rw [h.2]
  refcount := by rw [h.2]

theorem Start.ok (h : Start s p) : ProcOk s p where
  aligned := h.aligned
  le := Nat.le_of_eq h.breaks
  lt := h.lt
  shape := h.shape
  tables pn ht := keeps_of_info (h.tables pn ht)
  user a pn hu := (h.user a pn hu).imp_left keeps_of_info
  heap a pn hm := by
    have hnone := h.empty a hm.le hm.lt
    rw [hm.page] at hnone
    cases hnone

theorem KernelOk.isolated (h : KernelOk s) (hp : p < nproc) (hlive : Live s p) : Isolated s p := by
  have hok := h.procs p hp hlive
  refine ⟨hok.le, hok.lt, fun a pn hm => (hok.heap a pn hm).below, fun a pn hm => (hok.heap a pn hm).info, ?_, ?_⟩
  · intro a pn hm q hq hql ht
    have hpage := hok.heap a pn hm
    obtain rfl : q = p := ((h.procs q hq hql).tables pn ht).inj hpage.keeps
    exact hpage.noTable ht
  · intro a pn hm q hq hql a' hu
    have hpage := hok.heap a pn hm
    rcases (h.procs q hq hql).user a' pn hu with hk | hs
    · obtain rfl : q = p := hk.inj hpage.keeps
      exact ⟨rfl, hpage.once a' hu⟩
    · exact absurd hs hpage.keeps.not_system

section Steps

theorem sysBrk_stepped {rdi r : Nat} (hok : ProcOk s p) (h0 : SystemPage s 0) (hrdi : rdi < 2 ^ 64)
    (h : sysBrk s p rdi = some (s', r)) : Stepped s s' p := by
  rcases sysBrk_cases hok h0 hrdi h with rfl | ⟨hle, hlt, hmoved⟩
  · exact Stepped.refl hok
  · exact moved_stepped hok hle hlt hmoved

theorem sysSbrk_stepped {rdi r : Nat} (hok : ProcOk s p) (h0 : SystemPage s 0) (h : sysSbrk s p rdi = some (s', r)) :
    Stepped s s' p := by
  rw [sysSbrk_eq] at h
  obtain ⟨⟨t, r'⟩, hrun, ht⟩ := Option.map_eq_some_iff.mp h
  cases ht
  exact sysBrk_stepped hok h0 (Nat.mod_lt _ (by decide)) hrun

theorem HeapEvent.step_stepped {e : HeapEvent} (h : KernelOk s) (hallowed : e.Allowed s) (he : e.step s = some s') :
    Stepped s s' e.pid := by
  obtain ⟨hpid, hrun, hargs⟩ := hallowed
  have hlive : Live s e.pid := by
    rw [Live, hrun]
    decide
  have hok := h.procs e.pid hpid hlive
  cases e with
  | brk pid rdi =>
      obtain ⟨⟨t, r⟩, hcall, ht⟩ := Option.map_eq_some_iff.mp he
      cases ht
      exact sysBrk_stepped hok h.reserved hargs hcall
  | sbrk pid rdi =>
      obtain ⟨⟨t, r⟩, hcall, ht⟩ := Option.map_eq_some_iff.mp he
      cases ht
      exact sysSbrk_stepped hok h.reserved hcall
  | pageFault pid addr missing page => exact pageFault_stepped hok hargs.2 he

theorem KernelOk.step (h : KernelOk s) (hstep : Stepped s s' p) : KernelOk s' where
  reserved := h.reserved.congr (hstep.system 0 h.reserved)
  procs q hq hlive := by
    by_cases hqp : q = p
    · subst hqp
      exact hstep.self hlive
    · have hother := hstep.others q hqp
      rw [Live, hother.proc] at hlive
      have hok := h.procs q hq hlive
      exact hok.kept (hother.tables hok) hstep.system

end Steps

/-- Every heap is isolated, after any sequence of events of any processes. -/
theorem heaps_isolated (s s' : Machine) (h0 : SystemPage s 0) (hstart : ∀ p < nproc, Live s p → Start s p)
    (hreach : heapSystem.Reachable s s') (p : Nat) (hp : p < nproc) (hlive : Live s' p) : Isolated s' p := by
  have hinit : KernelOk s := ⟨h0, fun p hp hlive => (hstart p hp hlive).ok⟩
  have hok : KernelOk s' := Runs.System.Reachable.keeps (P := KernelOk)
    (fun t e t' ht hallowed he => ht.step (HeapEvent.step_stepped ht hallowed he)) hinit hreach
  exact hok.isolated hp hlive

/-- The entries of five tables from `root` on, which map nothing. -/
def bareTables (root : Nat) : List (Nat × Nat) :=
  [(root, root + 0x1007), (root + 0x1000, root + 0x2007), (root + 0x2000, root + 0x3007), (root + 0x2008, root + 0x4007)]

/-- Processes 1 and 2 with empty heaps. Their page tables are on pages 1 to 10. -/
def twoProcesses : Machine where
  mem := tableMemory (bareTables 0x1000 ++ bareTables 0x6000)
  pageinfo pn :=
    if pn = 0 then ⟨poReserved, 1⟩ else if pn < 6 then ⟨1, 1⟩ else if pn < 11 then ⟨2, 1⟩ else ⟨poFree, 0⟩
  processes p := ⟨0x100000, 0x100000, if p = 1 ∨ p = 2 then .runnable else .free, if p = 2 then 0x6000 else 0x1000⟩

section TwoProcesses

theorem twoProcesses_explored (hp : p = 1 ∨ p = 2) : Explored (bareTables 0x1000 ++ bareTables 0x6000)
    (twoProcesses.processes p).pPagetable (twoTables (twoProcesses.processes p).pPagetable []) := by
  rcases hp with rfl | rfl
  · exact ⟨by decide, by decide, by decide +kernel⟩
  · exact ⟨by decide, by decide, by decide +kernel⟩

theorem twoProcesses_tables (hp : p = 1 ∨ p = 2) :
    KernelTables twoProcesses.mem (twoProcesses.processes p).pPagetable := by
  rcases hp with rfl | rfl
  · exact .of_entries (by decide) (by decide) (by decide) (by decide +kernel) (by decide +kernel)
  · exact .of_entries (by decide) (by decide) (by decide) (by decide +kernel) (by decide +kernel)

theorem twoProcesses_live (hlive : Live twoProcesses p) : p = 1 ∨ p = 2 := by
  by_contra hne
  exact hlive (if_neg hne)

theorem twoProcesses_unmapped (hp : p = 1 ∨ p = 2) (a : Nat) :
    mappedPage twoProcesses.mem (twoProcesses.processes p).pPagetable a = none := by
  by_contra hmapped
  obtain ⟨x, hx, -⟩ := (twoProcesses_explored hp).mapped hmapped
  cases hx

theorem twoProcesses_table {pn : Nat} (hp : p = 1 ∨ p = 2) (ht : IsTable twoProcesses p pn) :
    pn < npages ∧ twoProcesses.pageinfo pn = ⟨p, 1⟩ := by
  obtain ⟨a, -, i, hi, hr, htable⟩ := ht
  have hfound := (twoProcesses_explored hp).visits (reaches_visits hr) (by rw [indices_length]; exact Nat.le_of_lt hi)
  have htable' : tableAt (tableMemory (bareTables 0x1000 ++ bareTables 0x6000)) (twoProcesses.processes p).pPagetable a i =
      pn * pageSize := htable
  rw [indices_length, htable'] at hfound
  have hall : ∀ p ∈ [1, 2], ∀ i < 4, ∀ x ∈ twoTables (twoProcesses.processes p).pPagetable [] i,
      x.2 / 4096 < npages ∧ twoProcesses.pageinfo (x.2 / 4096) = ⟨p, 1⟩ := by decide
  have hpn := hall p (by simpa using hp) i hi _ hfound
  rwa [show pn * pageSize / 4096 = pn from Nat.mul_div_cancel pn (by decide)] at hpn

theorem twoProcesses_start (p : Nat) (hlive : Live twoProcesses p) : Start twoProcesses p where
  aligned := (by decide : 0x100000 % pageSize = 0)
  breaks := rfl
  lt := (by decide : 0x100000 < memsizeVirtual - pageSize)
  shape := (twoProcesses_tables (twoProcesses_live hlive)).tree_low.toShape
  tables _ ht := twoProcesses_table (twoProcesses_live hlive) ht
  user a pn hu := by cases (twoProcesses_unmapped (twoProcesses_live hlive) a).symm.trans hu.page
  empty a _ _ := twoProcesses_unmapped (twoProcesses_live hlive) a

/-- Both processes grow their heaps and touch a page, and the second one gives its page back; then the first one
gets it. -/
theorem twoProcesses_grow : ∃ s', heapSystem.Reachable twoProcesses s' ∧
    mappedPage s'.mem 0x1000 0x100005 = some 11 ∧ mappedPage s'.mem 0x1000 0x101005 = some 12 ∧
      mappedPage s'.mem 0x6000 0x100005 = none ∧ Isolated s' 1 ∧ Isolated s' 2 := by
  obtain ⟨s', hreach, ⟨hrun₁, hrun₂⟩, hpages⟩ := Runs.System.reachable_of_any (M := heapSystem) twoProcesses
    [.sbrk 1 8192, .sbrk 2 4096, .pageFault 1 0x100005 true (some ⟨11, fun _ => 0xCC⟩),
      .pageFault 2 0x100005 true (some ⟨12, fun _ => 0xCC⟩), .brk 2 0x100000,
      .pageFault 1 0x101005 true (some ⟨12, fun _ => 0xCC⟩)]
    (P := fun s => ((s.processes 1).pState = .runnable ∧ (s.processes 2).pState = .runnable) ∧
      mappedPage s.mem 0x1000 0x100005 = some 11 ∧ mappedPage s.mem 0x1000 0x101005 = some 12 ∧
        mappedPage s.mem 0x6000 0x100005 = none) (by decide +kernel)
  have hisolated (p : Nat) (hp : p < nproc) (hrun : (s'.processes p).pState = .runnable) : Isolated s' p :=
    heaps_isolated twoProcesses s' ⟨by decide, by decide, by decide⟩ (fun p _ => twoProcesses_start p) hreach p hp
      (by rw [Live, hrun]; decide)
  exact ⟨s', hreach, hpages.1, hpages.2.1, hpages.2.2, hisolated 1 (by decide) hrun₁, hisolated 2 (by decide) hrun₂⟩

end TwoProcesses

end WeensyOS.Kernel
