import WeensyOS.Kernel.Programs
import WeensyOS.Kernel.Soundness

namespace WeensyOS.Kernel

open ByteMemory LibC ProgramBreak

variable {V : KernelVm} {I : KernelImage} {k k' : Os} {t : Trap} {s s' : Machine} {p pt a : Nat} {screen : Nat → UInt8}

/-- What the hardware and `palloc` promise when a process traps. The two calls of precompiled functions are left
out, and so is an `INT_SYS_MAPPING` that writes over the end of a page, where it may overwrite anything. -/
structure Trap.Allowed (t : Trap) (k : Os) : Prop where
  call : exceptionCase t.registers.intno ≠ .fork ∧ exceptionCase t.registers.intno ≠ .pageAlloc
  page : ∀ new ∈ t.page, new.Free k.machine
  buffer : exceptionCase t.registers.intno = .mapping →
    MayMap k.machine.mem (k.machine.processes k.current).pPagetable (t.registers.regs .rdi).toNat (t.registers.regs .rsi).toNat →
      pageOffset (t.registers.regs .rdi).toNat + vamappingSize ≤ pageSize
  user : exceptionCase t.registers.intno = .pagefault → t.registers.err &&& pferrUser ≠ 0
  missing : exceptionCase t.registers.intno = .pagefault → (t.registers.err &&& pferrPresent = 0 ↔
    ¬Reaches k.machine.mem (k.machine.processes k.current).pPagetable t.cr2.toNat 4)

/-- What the running process does: it writes to its memory, or it traps. -/
inductive UserStep where
  | store (a : Nat) (b : UInt8)
  | trap (t : Trap)

/-- The state in which a process runs. -/
def Outcome.running : Outcome → Option Os
  | runs k => some k
  | spins _ => none
  | panics _ => none

/-- The kernel with its processes, as long as one of them is running. -/
def userSystem (V : KernelVm) (I : KernelImage) : Runs.System Os UserStep where
  step k
    | .store a b => some (k.withMachine (storeByte k.machine k.current a b))
    | .trap t => (exception V I k t).bind Outcome.running
  Allowed k
    | .store a _ => Granted k.machine k.current a true
    | .trap t => t.Allowed k

/-- A process is running, and its page table is loaded. -/
structure UserMode (I : KernelImage) (k : Os) : Prop where
  sound : Sound I k.machine
  current_lt : k.current < nproc
  runnable : (k.machine.processes k.current).pState = .runnable
  loaded : k.cr3 = (k.machine.processes k.current).pPagetable

/-- The state in which process `p` goes on. -/
def Os.resumed (k : Os) (screen : Nat → UInt8) (p : Nat) : Os :=
  { k with
    current := p, cr3 := (k.machine.processes p).pPagetable, machine := k.machine.withScreen screen }

/-- The two variables of the memory viewer have other values. -/
def Os.withViewer (k : Os) (v : BitVec 32 × Nat) : Os := { k with lastTicks := v.1, showing := v.2 }

section Fields

variable (k : Os) (v : BitVec 32 × Nat)

@[simp] theorem Os.withViewer_machine : (k.withViewer v).machine = k.machine := rfl

end Fields

section Viewer

theorem mapM_defined {α β : Type*} {f : α → Option β} {l : List α} (h : ∀ x ∈ l, ∃ y, f x = some y) : ∃ ys, l.mapM f = some ys := by
  induction l with
  | nil => exact ⟨[], rfl⟩
  | cons x l ih =>
      obtain ⟨y, hy⟩ := h x List.mem_cons_self
      obtain ⟨ys, hys⟩ := ih fun x hx => h x (List.mem_cons_of_mem _ hx)
      exact ⟨y :: ys, by rw [List.mapM_cons, hy, hys]; rfl⟩

theorem memstateColor_defined {owner : Int} (hlo : poKernel ≤ owner) (hhi : owner < nproc) :
    ∃ color, memstateColor owner = some color := by
  have hkernel : poKernel = -2 := rfl
  have hprocs : nproc = 16 := rfl
  have hlen : memstateColors.length = 19 := rfl
  have hlt : (owner - poKernel).toNat < memstateColors.length := by omega
  exact ⟨_, (if_pos (by omega)).trans (List.getElem?_eq_getElem hlt)⟩

theorem Sound.color_defined (h : Sound I s) {pn : Nat} (hpn : pn < npages) :
    ∃ color, memstateColor (s.pageinfo pn).shownOwner = some color := by
  obtain ⟨hlo, hhi⟩ := h.owners pn hpn
  rw [PageInfo.shownOwner]
  split
  · exact memstateColor_defined (by decide) (by decide)
  · exact memstateColor_defined hlo hhi

theorem Sound.memshowPhysical_defined (h : Sound I s) : ∃ cells, memshowPhysical s = some cells := by
  refine mapM_defined fun pn hpn => ?_
  obtain ⟨color, hcolor⟩ := h.color_defined (List.mem_range.mp hpn)
  exact ⟨_, by rw [physicalCell, hcolor]; rfl⟩

/-- What is mapped for a process is physical memory. -/
theorem Sound.mapped_physical (h : Sound I s) (hp : p < nproc) (hlive : Live s p) (ha : a < memsizeVirtual)
    (hr : Reaches s.mem (s.processes p).pPagetable a 4) :
    (virtualMemoryLookup s.mem (s.processes p).pPagetable a).pa < memsizePhysical ∧
      (virtualMemoryLookup s.mem (s.processes p).pPagetable a).pn < npages := by
  have hV : memsizeVirtual = 3145728 := rfl
  have hphys : memsizePhysical = 2097152 := rfl
  have hsize : npages = 512 := rfl
  have hpage : pageSize = 4096 := rfl
  have hoffset : pageOffset a < 4096 := Nat.mod_lt _ (by decide)
  have hpa : (virtualMemoryLookup s.mem (s.processes p).pPagetable a).pa =
      tableAt s.mem (s.processes p).pPagetable a 4 + pageOffset a := by rw [lookup_present hr]
  obtain ⟨i, hi⟩ : 4096 ∣ tableAt s.mem (s.processes p).pPagetable a 4 := pteAddr_dvd _
  have hmapped : mappedPage s.mem (s.processes p).pPagetable a = some i := by
    refine mappedPage_eq_some.mpr ⟨hr, ?_⟩
    rw [hi, hpage]
    omega
  have hlt : i < npages := by
    by_cases hlow : a < procStartAddr
    · have hbound := (h.within p hp hlive a (by omega) (.inl hlow) (lookup_mapped hr)).2
      rw [hpa, hi] at hbound
      omega
    · rcases (h.kernel.procs p hp hlive).user a i ⟨ha, hmapped, .inl (Nat.le_of_not_lt hlow)⟩ with hk | hs
      · exact hk.lt
      · exact hs.lt
  rw [hpa, lookup_pn_some hmapped hlt, hi]
  omega

theorem Sound.memshowVirtual_defined (h : Sound I s) (hp : p < nproc) (hlive : Live s p) :
    ∃ cells, memshowVirtual s (s.processes p).pPagetable = some cells := by
  have haligned := (h.consistent.identity (Root.process hp hlive)).aligned
  rw [memshowVirtual, if_pos haligned.symm]
  refine mapM_defined fun i hi => ?_
  have ha : pageSize * i < memsizeVirtual := by
    have hV : memsizeVirtual = 3145728 := rfl
    have hpage : pageSize = 4096 := rfl
    have hlt := List.mem_range.mp hi
    rw [hV, hpage] at hlt
    rw [hpage]
    omega
  rw [virtualCell]
  by_cases hneg : (virtualMemoryLookup s.mem (s.processes p).pPagetable (pageSize * i)).pn < 0
  · exact ⟨_, if_pos hneg⟩
  · have hr : Reaches s.mem (s.processes p).pPagetable (pageSize * i) 4 := by
      by_contra habsent
      rw [lookup_absent habsent] at hneg
      exact hneg (by decide)
    have hphys := h.mapped_physical hp hlive ha hr
    have hpn : (virtualMemoryLookup s.mem (s.processes p).pPagetable (pageSize * i)).pn.toNat < npages := by omega
    obtain ⟨color, hcolor⟩ := h.color_defined hpn
    simp only [if_neg hneg, if_pos hphys, hcolor, Option.map_some]
    exact ⟨_, rfl⟩

/-- The loop of `memshow_virtual_animate` has ended after the rounds that the model gives it. -/
theorem nextShowing_ends (s : Machine) (rounds showing : Nat) (h : 2 * nproc + 1 ≤ rounds + showing) :
    ¬(nextShowing s rounds showing ≤ 2 * nproc ∧ (s.processes (nextShowing s rounds showing % nproc)).pState = .free) := by
  induction rounds generalizing showing with
  | zero =>
      rw [nextShowing]
      omega
  | succ rounds ih =>
      rw [nextShowing]
      split
      next => exact ih (showing + 1) (by omega)
      next hstop => exact hstop

end Viewer

section Going

/-- The kernel goes on with a process that can run, or there is none. -/
def GoesTo (k : Os) (screen : Nat → UInt8) (o : Option Outcome) : Prop :=
  (∃ p < nproc, (k.machine.processes p).pState = .runnable ∧ o = some (.runs (k.resumed screen p))) ∨
    ((∀ p < nproc, (k.machine.processes p).pState ≠ .runnable) ∧ o = some (.spins k))

theorem live_of_runnable (h : (s.processes p).pState = .runnable) : Live s p := by
  rw [Live, h]
  decide

variable (h : Sound I k.machine)
include h

theorem Sound.run_eq (hp : p < nproc) (hrun : (k.machine.processes p).pState = .runnable) :
    k.run I screen p = some (.runs (k.resumed screen p)) := by
  have hlo : poKernel ≤ p := Int.le_trans (by decide) (Int.natCast_nonneg p)
  obtain ⟨color, hcolor⟩ := memstateColor_defined hlo (Int.ofNat_lt.mpr hp)
  have hok := (h.roots _ _ (Root.process hp (live_of_runnable hrun))).2
  have hload : ({ k with current := p } : Os).setPagetable I (k.machine.processes p).pPagetable =
      some { k with current := p, cr3 := (k.machine.processes p).pPagetable } := if_pos hok
  rw [Os.run, if_pos hrun, hcolor, Option.bind_some, hload]
  rfl

theorem Sound.schedule_goes (hp : k.current < nproc) : GoesTo k screen (k.schedule I screen) := by
  have hnumbered : k.scheduler.Numbered := ⟨fun _ _ => rfl, hp⟩
  rw [Os.schedule]
  cases hsched : Scheduler.schedule nproc k.scheduler with
  | some t =>
      obtain ⟨j, rfl, hpick⟩ := Scheduler.schedule_picks hnumbered hsched
      exact .inl ⟨j, hpick.lt (by decide), hpick.1, h.run_eq (hpick.lt (by decide)) hpick.1⟩
  | none =>
      refine .inr ⟨fun q hq hrun => ?_, rfl⟩
      obtain ⟨t, ht⟩ := Scheduler.schedule_finds hnumbered hq hrun
      rw [hsched] at ht
      cases ht

/-- The process that the search picks is run. -/
theorem Sound.schedule_runs (hp : k.current < nproc) (hpick : RoundRobin.Picks nproc k.scheduler.Runnable k.current p) :
    k.schedule I screen = some (.runs (k.resumed screen p)) := by
  have hnumbered : k.scheduler.Numbered := ⟨fun _ _ => rfl, hp⟩
  have hlt : p < nproc := hpick.lt (by decide)
  obtain ⟨t, ht⟩ := Scheduler.schedule_finds hnumbered hlt hpick.1
  obtain ⟨j, rfl, hpick'⟩ := Scheduler.schedule_picks hnumbered ht
  obtain rfl := hpick'.unique hpick
  rw [Os.schedule, ht]
  exact h.run_eq hlt hpick.1

theorem Sound.finish_runs (hp : k.current < nproc) (hrun : (k.machine.processes k.current).pState = .runnable) :
    k.finish I screen = some (.runs (k.resumed screen k.current)) := by
  rw [Os.finish, if_pos hrun]
  exact h.run_eq hp hrun

theorem Sound.finish_goes (hp : k.current < nproc) : GoesTo k screen (k.finish I screen) := by
  rw [Os.finish]
  split
  next hrun => exact .inl ⟨k.current, hp, hrun, h.run_eq hp hrun⟩
  next => exact h.schedule_goes hp

end Going

section Calls

theorem Granted.page {b : Nat} {write : Bool} (hg : Granted s p a write) (hsame : b / 4096 = a / 4096) : Granted s p b write := by
  have hV : memsizeVirtual = 3145728 := rfl
  have hlt := hg.1
  refine ⟨by omega, fun i hi => ?_⟩
  have hentry : levelEntry s.mem (s.processes p).pPagetable b i = levelEntry s.mem (s.processes p).pPagetable a i := by
    rw [levelEntry, levelEntry, tableAt_page hsame (Nat.le_of_lt hi), pageIndex_page hsame]
  rw [hentry]
  exact hg.2 i hi

theorem lookupLevels_indices {m : Memory} {b : Nat} {is : List Nat} (h : ∀ i ∈ is, pageIndex b i = pageIndex a i) (c : Nat × PageEntry) :
    lookupLevels m b is c = lookupLevels m a is c := by
  induction is generalizing c with
  | nil => rfl
  | cons i is ih =>
      rw [lookupLevels, lookupLevels, h i List.mem_cons_self]
      simp only [ih fun j hj => h j (List.mem_cons_of_mem _ hj)]

/-- A walk does not look at the upper bits of the address. -/
theorem lookup_mod (m : Memory) (pt a : Nat) : virtualMemoryLookup m pt a = virtualMemoryLookup m pt (a % 2 ^ 48) := by
  have hindex (i : Nat) (hi : i ∈ [0, 1, 2, 3]) : pageIndex (a % 2 ^ 48) i = pageIndex a i := by
    simp only [List.mem_cons, List.not_mem_nil, or_false] at hi
    simp only [pageIndex]
    rcases hi with rfl | rfl | rfl | rfl <;> omega
  have hpage : pageSize = 4096 := rfl
  have hoffset : pageOffset (a % 2 ^ 48) = pageOffset a := by
    rw [pageOffset, pageOffset, hpage]
    omega
  rw [virtualMemoryLookup, virtualMemoryLookup, lookupLevels_indices hindex, hoffset]

variable (h : Sound I s) (hp : p < nproc) (hlive : Live s p)
include h hp hlive

theorem Sound.brk_defined {rdi : Nat} (hrdi : rdi < 2 ^ 64) : ∃ x, sysBrk s p rdi = some x := by
  obtain ⟨hok, -⟩ := h.proc hp hlive
  by_cases hin : (s.processes p).originalBreak ≤ rdi ∧ rdi < memsizeVirtual - pageSize
  · obtain ⟨t, ht, -⟩ := sysBrk_moved (hok.heapTables h.kernel.reserved) hok.lt hin.1 hin.2
    exact ⟨_, ht⟩
  · exact ⟨_, sysBrk_fail hrdi (by omega)⟩

theorem Sound.sbrk_defined (rdi : Nat) : ∃ x, sysSbrk s p rdi = some x := by
  rw [sysSbrk_eq]
  obtain ⟨x, hx⟩ := h.brk_defined hp hlive (Nat.mod_lt ((s.processes p).programBreak + rdi) (by decide : 0 < 2 ^ 64))
  exact ⟨_, by rw [hx]; rfl⟩

theorem Sound.fault_defined (addr : Nat) (missing : Bool) {page : Option NewPage} (hfree : ∀ new ∈ page, new.Free s) :
    ∃ s', pageFault s p addr missing page = some s' := by
  obtain ⟨hok, hmem⟩ := h.proc hp hlive
  by_cases hheap : missing = true ∧ (s.processes p).originalBreak ≤ addr ∧ addr < (s.processes p).programBreak
  · obtain ⟨rfl, hle, hlt⟩ := hheap
    cases page with
    | none => exact ⟨_, if_pos ⟨rfl, hle, hlt⟩⟩
    | some new =>
        have hlimit := hok.lt
        have hround := roundDown_le addr pageSize
        have hV : memsizeVirtual = 3145728 := rfl
        rw [limit_eq] at hlimit
        exact ⟨_, pageFault_heap hok h.kernel.reserved (hfree new rfl) (hmem.tree.allows heapPerm) (hmem.full _ (by omega)) hle hlt⟩
  · exact ⟨_, if_neg hheap⟩

/-- `syscall_mapping` writes into a buffer on one page where the process itself might write. -/
theorem Sound.mapping {mappingPtr ptr : Nat} (pad : Nat → UInt8)
    (hbuffer : MayMap s.mem (s.processes p).pPagetable mappingPtr ptr → pageOffset mappingPtr + vamappingSize ≤ pageSize) :
    Sound I { s with mem := syscallMapping s.mem (s.processes p).pPagetable mappingPtr ptr pad } := by
  by_cases hmay : MayMap s.mem (s.processes p).pPagetable mappingPtr ptr
  case neg =>
    rw [syscallMapping, if_neg hmay]
    exact h
  have hbuffer := hbuffer hmay
  have hsize : vamappingSize = 24 := rfl
  have hpage : pageSize = 4096 := rfl
  have hV : memsizeVirtual = 3145728 := rfl
  have hoffer : Offered s.mem (s.processes p).pPagetable (mappingPtr % 2 ^ 48) := by
    rw [Offered, ← lookup_mod]
    exact hmay.1
  have hr := hoffer.reaches
  have hlt : mappingPtr % 2 ^ 48 < memsizeVirtual := by
    by_contra hge
    exact hge (h.within p hp hlive _ (Nat.mod_lt _ (by decide)) (.inr (Nat.le_of_not_lt hge)) (lookup_mapped hr)).1
  have hg := ((h.heaps p hp hlive).offered_iff hlt).mp hoffer
  have hpa : (virtualMemoryLookup s.mem (s.processes p).pPagetable mappingPtr).pa = physicalAddress s p (mappingPtr % 2 ^ 48) := by
    rw [lookup_mod, lookup_present hr]
    rfl
  rw [syscallMapping, if_pos hmay, hpa]
  refine h.storeBytes hp hlive (a := mappingPtr % 2 ^ 48) _ fun i hi => ?_
  rw [VaMapping.length_bytes] at hi
  rw [pageOffset, hpage] at hbuffer
  have hsame : (mappingPtr % 2 ^ 48 + i) / 4096 = mappingPtr % 2 ^ 48 / 4096 := by omega
  refine ⟨hg.page hsame, ?_⟩
  rw [physicalAddress, physicalAddress, tableAt_page hsame (Nat.le_refl 4), pageOffset, pageOffset, hpage]
  omega

end Calls

/-- What a call of `exception` has done to the kernel's variables when it looks for a process to run. -/
structure Handled (I : KernelImage) (k : Os) (t : Trap) (k' : Os) : Prop where
  sound : Sound I k'.machine
  current : k'.current = k.current
  others : ∀ q, q ≠ k.current → k'.pRegisters q = k.pRegisters q
  own : ∃ rax, k'.pRegisters k.current = { t.registers with regs := Function.update t.registers.regs .rax rax } ∧
    (exceptionCase t.registers.intno ∉ [.getpid, .brk, .sbrk] → rax = t.registers.regs .rax)
  states : exceptionCase t.registers.intno ∉ [.exit, .pagefault] →
    ∀ q, (k'.machine.processes q).pState = (k.machine.processes q).pState

section Handling

theorem registers_rax (r : Registers) : { r with regs := Function.update r.regs .rax (r.regs .rax) } = r := by
  rw [Function.update_eq_self]

theorem sbrk_states {difference z : Int} (h : sbrk s p difference = some (s', z)) (q : Nat) :
    (s'.processes q).pState = (s.processes q).pState := by
  obtain ⟨b, hb⟩ := sbrk_processes h
  rw [hb]
  by_cases hq : q = p
  · rw [hq, Function.update_self]
  · rw [Function.update_of_ne hq]

theorem brk_states {rdi : Nat} {x : Machine × Nat} (h : sysBrk s p rdi = some x ∨ sysSbrk s p rdi = some x) (q : Nat) :
    (x.1.processes q).pState = (s.processes q).pState := by
  rcases h with h | h
  · obtain ⟨c, hc, rfl⟩ := Option.map_eq_some_iff.mp h
    exact sbrk_states hc q
  · obtain ⟨c, hc, rfl⟩ := Option.map_eq_some_iff.mp h
    exact sbrk_states hc q

variable (hk : k.registers = t.registers)
include hk

theorem Handled.same (hcurrent : k'.current = k.current) (hregs : k'.pRegisters = k.pRegisters) (hs : Sound I k'.machine)
    (hstates : exceptionCase t.registers.intno ∉ [.exit, .pagefault] →
      ∀ q, (k'.machine.processes q).pState = (k.machine.processes q).pState) : Handled I k t k' where
  sound := hs
  current := hcurrent
  others q _ := by rw [hregs]
  own := ⟨t.registers.regs .rax, by rw [hregs, registers_rax]; exact hk, fun _ => rfl⟩
  states := hstates

theorem Handled.machine {s : Machine} (hs : Sound I s) (hstates : exceptionCase t.registers.intno ∉ [.exit, .pagefault] →
    ∀ q, (s.processes q).pState = (k.machine.processes q).pState) : Handled I k t (k.withMachine s) :=
  .same hk rfl rfl hs hstates

theorem Handled.rax (s : Machine) (hs : Sound I s) (rax : BitVec 64) (hc : exceptionCase t.registers.intno ∈ [.getpid, .brk, .sbrk])
    (hstates : ∀ q, (s.processes q).pState = (k.machine.processes q).pState) :
    Handled I k t ((k.withMachine s).setRax rax) where
  sound := hs
  current := rfl
  others q hq := Function.update_of_ne hq _ _
  own := by
    refine ⟨rax, ?_, fun hno => absurd hc hno⟩
    have hregs : (k.withMachine s).registers = t.registers := hk
    rw [Os.setRax, Os.setRegisters, hregs]
    exact Function.update_self _ _ _
  states _ := hstates

variable (h : Sound I k.machine) (hp : k.current < nproc) (hrun : (k.machine.processes k.current).pState = .runnable)
  (ht : t.Allowed k)
include h hp hrun ht

/-- No case of the switch fails an assertion. -/
theorem Sound.handle_goes (V : KernelVm) :
    (k.handle V I t = some (.panics k) ∧ exceptionCase t.registers.intno ∈ [.panic, .other]) ∨
      ∃ k', Handled I k t k' ∧ GoesTo k' t.screen (k.handle V I t) := by
  have hlive : Live k.machine k.current := live_of_runnable hrun
  have hfinish {k' : Os} (hh : Handled I k t k') : GoesTo k' t.screen (k'.finish I t.screen) :=
    hh.sound.finish_goes (hh.current ▸ hp)
  have hschedule {k' : Os} (hh : Handled I k t k') : GoesTo k' t.screen (k'.schedule I t.screen) :=
    hh.sound.schedule_goes (hh.current ▸ hp)
  cases hc : exceptionCase t.registers.intno with
  | panic => exact .inl ⟨by simp only [Os.handle, hc], by simp⟩
  | other => exact .inl ⟨by simp only [Os.handle, hc], by simp⟩
  | fork => exact absurd hc ht.call.1
  | pageAlloc => exact absurd hc ht.call.2
  | getpid =>
      have hh := Handled.rax hk k.machine h (BitVec.ofNat 64 k.current) (by simp [hc]) fun _ => rfl
      exact .inr ⟨_, hh, by simp only [Os.handle, hc]; exact hfinish hh⟩
  | mapping =>
      have hbuffer := ht.buffer hc
      rw [← hk] at hbuffer
      have hmapped := h.mapping hp hlive t.pad hbuffer
      have hh := Handled.machine hk hmapped fun _ _ => rfl
      exact .inr ⟨_, hh, by simp only [Os.handle, hc]; exact hfinish hh⟩
  | exit =>
      have hexit := h.exit hp hlive
      rw [← processFree_eq_exit] at hexit
      have hh := Handled.machine hk hexit fun hno => absurd hc (by simp at hno; exact hno.1)
      exact .inr ⟨_, hh, by simp only [Os.handle, hc, h.processFree_eq hp hlive, Option.bind_some]; exact hschedule hh⟩
  | yield =>
      have hh : Handled I k t k := Handled.same hk rfl rfl h fun _ _ => rfl
      exact .inr ⟨_, hh, by simp only [Os.handle, hc]; exact hschedule hh⟩
  | timer =>
      have hh : Handled I k t { k with ticks := k.ticks + 1 } := Handled.same hk rfl rfl h fun _ _ => rfl
      exact .inr ⟨_, hh, by simp only [Os.handle, hc]; exact hschedule hh⟩
  | memTog =>
      have hh : Handled I k t k.syscallMemTog := by
        rw [Os.syscallMemTog]
        split_ifs
        · exact Handled.same hk rfl rfl h fun _ _ => rfl
        · exact Handled.same hk rfl rfl h fun _ _ => rfl
        · exact Handled.same hk rfl rfl h fun _ _ => rfl
      exact .inr ⟨_, hh, by simp only [Os.handle, hc]; exact hfinish hh⟩
  | brk =>
      have hrdi := (k.registers.regs .rdi).isLt
      obtain ⟨⟨s, rax⟩, hcall⟩ := h.brk_defined hp hlive hrdi
      have hh := Handled.rax hk s (h.brk hp hlive hrdi hcall) (BitVec.ofNat 64 rax) (by simp [hc])
        (brk_states (.inl hcall))
      exact .inr ⟨_, hh, by simp only [Os.handle, hc, hcall, Option.bind_some]; exact hfinish hh⟩
  | sbrk =>
      obtain ⟨⟨s, rax⟩, hcall⟩ := h.sbrk_defined hp hlive (k.registers.regs .rdi).toNat
      have hh := Handled.rax hk s (h.sbrk hp hlive hcall) (BitVec.ofNat 64 rax) (by simp [hc])
        (brk_states (.inr hcall))
      exact .inr ⟨_, hh, by simp only [Os.handle, hc, hcall, Option.bind_some]; exact hfinish hh⟩
  | pagefault =>
      have hmissing : decide (t.registers.err &&& pferrPresent = 0) =
          decide ¬Reaches k.machine.mem (k.machine.processes k.current).pPagetable t.cr2.toNat 4 :=
        decide_eq_decide.mpr (ht.missing hc)
      obtain ⟨s, hcall⟩ := h.fault_defined hp hlive t.cr2.toNat (decide (t.registers.err &&& pferrPresent = 0)) ht.page
      have hsound := hcall
      rw [hmissing] at hsound
      have hh := Handled.machine hk (h.fault hp hlive ht.page hsound) fun hno => absurd hc (by simp at hno; exact hno.2)
      have hobject := (h.handlePagefault_eq hp hlive t.cr2.toNat (decide (t.registers.err &&& pferrPresent = 0)) ht.page).trans hcall
      exact .inr ⟨_, hh, by simp only [Os.handle, hc, if_neg (ht.user hc), hobject, Option.bind_some]; exact hfinish hh⟩

end Handling

section Exceptions

theorem shown_defined (h : Sound I k.machine) (v : BitVec 32 × Nat) (c : Prop) [Decidable c]
    (hc : c → (k.machine.processes (v.2 % nproc)).pState ≠ .free) :
    (if c then (memshowVirtual k.machine (k.machine.processes (v.2 % nproc)).pPagetable).map fun _ => k.withViewer (v.1, v.2 % nproc)
      else some (k.withViewer (v.1, v.2 % nproc))) = some (k.withViewer (v.1, v.2 % nproc)) := by
  split
  next hshow =>
    obtain ⟨cells, hcells⟩ := h.memshowVirtual_defined (Nat.mod_lt v.2 (by decide : 0 < nproc)) (hc hshow)
    rw [hcells, Option.map_some]
  next => rfl

theorem animate_goes (h : Sound I k.machine) : ∃ v, k.memshowVirtualAnimate = some (k.withViewer v) := by
  rw [Os.memshowVirtualAnimate]
  split
  · exact ⟨_, shown_defined h (k.ticks, nextShowing k.machine (2 * nproc + 1) (k.showing + 1)) _ fun hshow => hshow.1⟩
  · exact ⟨_, shown_defined h (k.lastTicks, nextShowing k.machine (2 * nproc + 1) k.showing) _ fun hshow => hshow.1⟩

theorem show_goes (h : Sound I k.machine) : ∃ v, k.checkAndShow I = some (k.withViewer v) := by
  rw [Os.checkAndShow, if_pos (checkVirtualMemory_iff.mpr h.consistent.checked)]
  split
  · obtain ⟨cells, hcells⟩ := h.memshowPhysical_defined
    rw [hcells, Option.bind_some]
    exact animate_goes h
  · exact ⟨(k.lastTicks, k.showing), rfl⟩

/-- The state when a call of `exception` comes to the switch. -/
def Os.entered (k : Os) (I : KernelImage) (t : Trap) (v : BitVec 32 × Nat) : Os :=
  ({ k.setRegisters t.registers with cr3 := I.kernelPagetable } : Os).withViewer v

theorem Os.entered_registers (k : Os) (I : KernelImage) (t : Trap) (v : BitVec 32 × Nat) :
    (k.entered I t v).registers = t.registers := Function.update_self _ _ _

theorem exception_eq (h : Sound I k.machine) (V : KernelVm) (t : Trap) :
    ∃ v, exception V I k t = (k.entered I t v).handle V I t := by
  have hload : (k.setRegisters t.registers).setPagetable I I.kernelPagetable = some (k.entered I t (k.lastTicks, k.showing)) :=
    if_pos (h.roots _ _ (.inl ⟨rfl, rfl⟩)).2
  obtain ⟨v, hshow⟩ := @show_goes I (k.entered I t (k.lastTicks, k.showing)) h
  rw [exception, hload, Option.bind_some]
  split
  · exact ⟨v, by rw [hshow, Option.bind_some]; rfl⟩
  · exact ⟨(k.lastTicks, k.showing), by rw [Option.bind_some]⟩

/-- What a call of `exception` comes to. -/
theorem UserMode.exception_goes (h : UserMode I k) (ht : t.Allowed k) (V : KernelVm) : ∃ v,
    (exception V I k t = some (.panics (k.entered I t v)) ∧ exceptionCase t.registers.intno ∈ [.panic, .other]) ∨
      ∃ k', Handled I (k.entered I t v) t k' ∧ GoesTo k' t.screen (exception V I k t) := by
  obtain ⟨v, hv⟩ := exception_eq h.sound V t
  refine ⟨v, ?_⟩
  rw [hv]
  exact Sound.handle_goes (k.entered_registers I t v) h.sound h.current_lt h.runnable
    ⟨ht.call, ht.page, ht.buffer, ht.user, ht.missing⟩ V

theorem UserMode.resumed (hs : Sound I k.machine) (hp : p < nproc) (hrun : (k.machine.processes p).pState = .runnable) :
    UserMode I (k.resumed screen p) :=
  ⟨hs.withScreen hp (live_of_runnable hrun) screen, hp, hrun, rfl⟩

/-- A process that is run again is ready, and no registers have been lost. -/
theorem UserMode.runs (h : UserMode I k) (ht : t.Allowed k) (hrun : exception V I k t = some (.runs k')) : UserMode I k' ∧
    (∀ q, q ≠ k.current → k'.pRegisters q = k.pRegisters q) ∧
      ∃ rax, k'.pRegisters k.current = { t.registers with regs := Function.update t.registers.regs .rax rax } ∧
        (exceptionCase t.registers.intno ∉ [.getpid, .brk, .sbrk] → rax = t.registers.regs .rax) := by
  obtain ⟨v, ⟨hpanic, -⟩ | ⟨k₂, hh, hgo⟩⟩ := h.exception_goes ht V
  · rw [hpanic] at hrun
    cases hrun
  · rcases hgo with ⟨p, hp, hp', ho⟩ | ⟨-, ho⟩
    · rw [ho] at hrun
      cases hrun
      exact ⟨.resumed hh.sound hp hp', fun q hq => (hh.others q hq).trans (Function.update_of_ne hq _ _), hh.own⟩
    · rw [ho] at hrun
      cases hrun

theorem Outcome.running_eq_some {o : Outcome} (h : o.running = some k) : o = .runs k := by
  cases o with
  | runs k' => exact congrArg runs (Option.some.inj h)
  | spins k' => cases h
  | panics k' => cases h

theorem trap_runs (hstep : (userSystem V I).step k (.trap t) = some k') : exception V I k t = some (.runs k') := by
  obtain ⟨o, ho, hrun⟩ := Option.bind_eq_some_iff.mp hstep
  rw [ho, Outcome.running_eq_some hrun]

theorem runs_trap (hrun : exception V I k t = some (.runs k')) : (userSystem V I).step k (.trap t) = some k' :=
  congrArg (fun o => o.bind Outcome.running) hrun

theorem UserMode.step {e : UserStep} (h : UserMode I k) (hallowed : (userSystem V I).Allowed k e)
    (hstep : (userSystem V I).step k e = some k') : UserMode I k' := by
  have hlive : Live k.machine k.current := live_of_runnable h.runnable
  cases e with
  | store a b =>
      cases hstep
      exact ⟨h.sound.store h.current_lt hlive b hallowed, h.current_lt, h.runnable, h.loaded⟩
  | trap t =>
      exact (h.runs hallowed (trap_runs hstep)).1

/-- In no run of the kernel does an assertion fail. An exception makes it panic only where the code says so, it spins only
when no process can run, and otherwise it goes on with a process that can run, on the page table of that process. -/
theorem kernel_never_fails (V : KernelVm) (I : KernelImage) (k k' : Os) (t : Trap) (h : UserMode I k)
    (hreach : (userSystem V I).Reachable k k') (ht : t.Allowed k') : ∃ o, exception V I k' t = some o ∧
      match o with
      | .runs k'' => k''.current < nproc ∧ (k''.machine.processes k''.current).pState = .runnable ∧
          k''.cr3 = (k''.machine.processes k''.current).pPagetable ∧ PagetableOk I.symbols k''.machine.mem k''.cr3 ∧
            checkVirtualMemory I.toKernelLayout k''.machine = true
      | .spins k'' => (∀ q < nproc, (k''.machine.processes q).pState ≠ .runnable) ∧
          exceptionCase t.registers.intno ∈ [.exit, .pagefault]
      | .panics _ => exceptionCase t.registers.intno ∈ [.panic, .other] := by
  have hready : UserMode I k' := Runs.System.Reachable.keeps (P := UserMode I) (fun k e k' hk => hk.step) h hreach
  obtain ⟨v, ⟨hpanic, hcase⟩ | ⟨k₂, hh, hgo⟩⟩ := hready.exception_goes ht V
  · exact ⟨_, hpanic, hcase⟩
  · rcases hgo with ⟨p, hp, hrun, ho⟩ | ⟨hnone, ho⟩
    · have hnext : UserMode I (k₂.resumed t.screen p) := .resumed hh.sound hp hrun
      have hroot := hnext.sound.roots _ _ (Root.process hnext.current_lt (live_of_runnable hnext.runnable))
      exact ⟨_, ho, hp, hrun, rfl, hroot.2, checkVirtualMemory_iff.mpr hnext.sound.consistent.checked⟩
    · refine ⟨_, ho, hnone, ?_⟩
      by_contra hcase
      refine hnone k'.current hready.current_lt ?_
      rw [hh.states hcase]
      exact hready.runnable

/-- A process never notices that others have run. Whatever they do in the meantime, when it is run again its registers are
those with which it trapped, but for the result of a system call that has one. -/
theorem process_resumes (V : KernelVm) (I : KernelImage) (c : Cpu) (intno err : BitVec 64) (k k₁ k₂ : Os) (t : Trap) (h : UserMode I k)
    (ht : t.Allowed k) (hregs : t.registers = c.saved intno err) (hrun : exception V I k t = some (.runs k₁))
    (haway : Relation.ReflTransGen (fun u v => (userSystem V I).Next u v ∧ u.current ≠ k.current) k₁ k₂)
    (hback : k₂.current = k.current) : ∃ rax, (∀ cpu : Cpu, cpu.restore (k₂.pRegisters k₂.current) =
        { c with regs := Function.update c.regs .rax rax, mem := cpu.mem }) ∧
      (exceptionCase intno ∉ [.getpid, .brk, .sbrk] → rax = c.regs .rax) ∧
        k₂.cr3 = (k₂.machine.processes k.current).pPagetable := by
  obtain ⟨hready, -, rax, hown, hrax⟩ := h.runs ht hrun
  -- the others leave the saved registers alone
  have hkept : UserMode I k₂ ∧ k₂.pRegisters k.current = k₁.pRegisters k.current := by
    clear hback
    induction haway with
    | refl => exact ⟨hready, rfl⟩
    | @tail u v _ hstep ih =>
        obtain ⟨hu, hsame⟩ := ih
        obtain ⟨⟨e, hallowed, hnext⟩, hne⟩ := hstep
        refine ⟨hu.step hallowed hnext, Eq.trans ?_ hsame⟩
        cases e with
        | store a b =>
            cases hnext
            rfl
        | trap t' => exact (hu.runs hallowed (trap_runs hnext)).2.1 _ hne.symm
  rw [hregs] at hown hrax
  refine ⟨rax, fun cpu => ?_, hrax, ?_⟩
  · rw [hback, hkept.2, hown]
    exact Cpu.restore_saved { c with regs := Function.update c.regs .rax rax } cpu intno err
  · rw [hkept.1.loaded, hback]

end Exceptions

section Samples

/-- A kernel of six pages, five of which are its page tables. -/
def smallImage : KernelImage where
  startData := 0x41000
  end_ := 0x46000
  kernelPagetable := 0x41000
  end_le := by decide
  end_io := by decide
  defaultIntHandler := 0x40100
  virtualMemoryMap := 0x40200
  tables_aligned := by decide
  start_le := by decide
  tables_le := by decide
  handler_lt := by decide
  map_lt := by decide

/-- The pages of the kernel and its stack, where user code may not write. -/
def kernelPages : List Nat := [0x40, 0x41, 0x42, 0x43, 0x44, 0x45, 0x7F]

def leaves (table : Nat) (pages : List Nat) : List (Nat × Nat) := pages.map fun pn => (table + 8 * pn, pn * 0x1000 + 3)

/-- The kernel's tables on pages 0x41 to 0x45, those of process 1 on pages 6 to 10, and those of process 2 on pages 11 to 15. -/
def smallEntries : List (Nat × Nat) :=
  bareTables 0x41000 ++ leaves 0x44000 (6 :: 11 :: kernelPages) ++ bareTables 0x6000 ++ leaves 0x9000 kernelPages ++
    bareTables 0xB000 ++ leaves 0xE000 kernelPages

def smallRoot (p : Nat) : Nat := if p = 2 then 0xB000 else 0x6000

/-- Processes 1 and 2 can run. -/
def smallMachine : Machine where
  mem := tableMemory smallEntries
  pageinfo pn :=
    if pn = 0 ∨ pn = consolePage then ⟨poReserved, 1⟩
    else if pn ∈ kernelPages then ⟨poKernel, 1⟩
    else if 6 ≤ pn ∧ pn < 11 then ⟨1, 1⟩
    else if 11 ≤ pn ∧ pn < 16 then ⟨2, 1⟩
    else ⟨poFree, 0⟩
  processes p := ⟨0x100000, 0x100000, if p = 1 ∨ p = 2 then .runnable else .free, smallRoot p⟩

def smallOs : Os where
  machine := smallMachine
  pRegisters _ := sampleCpu.saved 0 0
  displayStatus _ := true
  current := 1
  ticks := 0
  dispGlobal := true
  lastTicks := 0
  showing := 1
  cr3 := 0x6000

theorem smallRoot_mem (p : Nat) : smallRoot p ∈ [0x6000, 0xB000] := by
  rw [smallRoot]
  split <;> decide

theorem kernel_explored : Explored smallEntries 0x41000 (twoTables 0x41000 (6 :: 11 :: kernelPages)) :=
  ⟨by decide, by decide, by decide +kernel⟩

theorem small_explored (p : Nat) : Explored smallEntries (smallRoot p) (twoTables (smallRoot p) kernelPages) := by
  have hroot := smallRoot_mem p
  simp only [List.mem_cons, List.not_mem_nil, or_false] at hroot
  rcases hroot with h | h
  · rw [h]
    exact ⟨by decide, by decide, by decide +kernel⟩
  · rw [h]
    exact ⟨by decide, by decide, by decide +kernel⟩

theorem small_tables (p : Nat) : KernelTables (tableMemory smallEntries) (smallRoot p) := by
  have hroot := smallRoot_mem p
  simp only [List.mem_cons, List.not_mem_nil, or_false] at hroot
  rcases hroot with h | h
  · rw [h]
    exact .of_entries (by decide) (by decide) (by decide) (by decide +kernel) (by decide +kernel)
  · rw [h]
    exact .of_entries (by decide) (by decide) (by decide) (by decide +kernel) (by decide +kernel)

theorem small_live (h : Live smallMachine p) : p = 1 ∨ p = 2 := by
  by_contra hne
  exact h (if_neg hne)

theorem small_mapped (hr : Reaches (tableMemory smallEntries) (smallRoot p) a 4) : ∃ pn ∈ kernelPages, a % 2 ^ 48 / 4096 = pn ∧
    tableAt (tableMemory smallEntries) (smallRoot p) a 4 = pn * 0x1000 ∧
      (levelEntry (tableMemory smallEntries) (smallRoot p) a 3).getLsbD 2 = false := by
  have h4 := (small_explored p).visits (reaches_visits hr) (by rw [indices_length])
  have h3 := (small_explored p).visits (reaches_visits (hr.mono (by decide : 3 ≤ 4))) (by rw [indices_length]; decide)
  rw [indices_length] at h3 h4
  simp only [twoTables, List.mem_map, Prod.mk.injEq] at h4
  obtain ⟨pn, hpn, hpath, htable⟩ := h4
  have hpath' : [0, 0, 0, pn] = [pageIndex a 0, pageIndex a 1, pageIndex a 2, pageIndex a 3] := hpath
  simp only [List.cons.injEq, and_true] at hpath'
  obtain ⟨h0, h1, h2, hindex⟩ := hpath'
  have htable3 : tableAt (tableMemory smallEntries) (smallRoot p) a 3 = smallRoot p + 0x3000 := by
    simp only [twoTables, List.mem_cons, Prod.mk.injEq, List.not_mem_nil, or_false] at h3
    rcases h3 with ⟨-, h3⟩ | ⟨h3, -⟩
    · exact h3
    · have hlist : [pageIndex a 0, pageIndex a 1, pageIndex a 2] = [0, 0, 1] := h3
      simp only [List.cons.injEq, and_true] at hlist
      omega
  have hleaf : ∀ root ∈ [0x6000, 0xB000], 4096 ∣ root + 0x3000 ∧ ∀ pn ∈ kernelPages,
      (BitVec.ofNat 64 ((smallEntries.lookup (root + 0x3000 + 8 * pn)).getD 0)).getLsbD 2 = false := by
    decide +kernel
  obtain ⟨hdvd, hleaf⟩ := hleaf (smallRoot p) (smallRoot_mem p)
  refine ⟨pn, hpn, ?_, htable.symm, ?_⟩
  · simp only [pageIndex] at h0 h1 h2 hindex
    omega
  · rw [levelEntry, htable3, ← hindex, entry_tableMemory smallEntries hdvd]
    exact hleaf pn hpn

theorem small_page {pn : Nat} (h : pn ∈ kernelPages) : 0x40 ≤ pn ∧ pn < 0x80 := by
  have hall : ∀ pn ∈ kernelPages, 0x40 ≤ pn ∧ pn < 0x80 := by decide
  exact hall pn h

theorem small_none (p : Nat) (hlo : 0x100000 ≤ a) (hhi : a < memsizeVirtual) :
    mappedPage (tableMemory smallEntries) (smallRoot p) a = none := by
  refine mappedPage_eq_none.mpr fun hr => ?_
  obtain ⟨pn, hpn, ha, -⟩ := small_mapped hr
  have hpage := small_page hpn
  have hV : memsizeVirtual = 3145728 := rfl
  omega

theorem small_user {pn : Nat} (h : UserMaps smallMachine p a pn) : False := by
  have hr := (mappedPage_eq_some.mp h.page).1
  obtain ⟨pn, hpn, ha, -, hu⟩ := small_mapped hr
  have hpage := small_page hpn
  have hlt := h.lt
  have hV : memsizeVirtual = 3145728 := rfl
  have hstart : procStartAddr = 0x100000 := rfl
  have hbreak : (smallMachine.processes p).originalBreak = 0x100000 := rfl
  rcases h.user with hlow | hheap | huser
  · omega
  · omega
  · exact huser ((and_pteU _).mpr hu)

theorem small_table {pn : Nat} (hp : p = 1 ∨ p = 2) (ht : IsTable smallMachine p pn) :
    pn < npages ∧ smallMachine.pageinfo pn = ⟨p, 1⟩ := by
  obtain ⟨a, -, i, hi, hr, htable⟩ := ht
  have hfound := (small_explored p).visits (reaches_visits hr) (by rw [indices_length]; exact Nat.le_of_lt hi)
  have htable' : tableAt (tableMemory smallEntries) (smallRoot p) a i = pn * pageSize := htable
  rw [indices_length, htable'] at hfound
  have hall : ∀ p ∈ [1, 2], ∀ i < 4, ∀ x ∈ twoTables (smallRoot p) kernelPages i,
      x.2 / 4096 < npages ∧ smallMachine.pageinfo (x.2 / 4096) = ⟨p, 1⟩ := by decide
  have hpn := hall p (by simpa using hp) i hi _ hfound
  rwa [show pn * pageSize / 4096 = pn from Nat.mul_div_cancel pn (by decide)] at hpn

theorem small_start (p : Nat) (hlive : Live smallMachine p) : MemStart smallMachine p where
  aligned := (by decide : 0x100000 % pageSize = 0)
  breaks := rfl
  lt := (by decide : 0x100000 < memsizeVirtual - pageSize)
  tree := (small_tables p).tree_low
  full a ha := (small_tables p).reaches_low (Nat.lt_trans ha (by decide)) (Nat.le_refl 3)
  tables pn ht := by
    obtain ⟨hlt, hinfo⟩ := small_table (small_live hlive) ht
    exact ⟨hlt, by rw [hinfo], by rw [hinfo]⟩
  user a pn hu := (small_user hu).elim
  safe a pn hu _ := small_user hu
  empty a hle hlt := small_none p hle (Nat.lt_of_lt_of_le hlt (Nat.sub_le _ _))

theorem small_own (q : Nat) : (smallMachine.processes q).pPagetable ≠ smallImage.kernelPagetable := by
  have hall : ∀ root ∈ [0x6000, 0xB000], root ≠ 0x41000 := by decide
  exact hall _ (smallRoot_mem q)

theorem small_owner (pn : Nat) : (0 < (smallMachine.pageinfo pn).refcount → 0 ≤ (smallMachine.pageinfo pn).owner →
    smallMachine.pageinfo pn = ⟨1, 1⟩ ∨ smallMachine.pageinfo pn = ⟨2, 1⟩) ∧
      poKernel ≤ (smallMachine.pageinfo pn).owner ∧ (smallMachine.pageinfo pn).owner < nproc := by
  simp only [smallMachine]
  split_ifs <;> decide

/-- The processes have their tables only. -/
theorem small_owns (hp : p = 1 ∨ p = 2) : OwnsMapped smallMachine p where
  info a pn hlo hhi hpage := by
    have hnone : mappedPage smallMachine.mem (smallMachine.processes p).pPagetable a = none := small_none p hlo hhi
    rw [hnone] at hpage
    cases hpage
  once a b pn hlo hhi _ _ hpage _ := by
    have hnone : mappedPage smallMachine.mem (smallMachine.processes p).pPagetable a = none := small_none p hlo hhi
    rw [hnone] at hpage
    cases hpage
  owned pn howner := by
    have hpn : smallRoot p / pageSize ≤ pn ∧ pn < smallRoot p / pageSize + 5 := by
      have hroots : smallRoot 1 / pageSize = 6 ∧ smallRoot 2 / pageSize = 11 := by decide
      simp only [smallMachine] at howner
      rcases hp with rfl | rfl
      · split_ifs at howner <;> first | omega | cases howner
      · split_ifs at howner <;> first | omega | cases howner
    have hreach (a : Nat) (ha : a < memsizeVirtual) (i : Nat) (hi : i < 4) : Reaches (tableMemory smallEntries) (smallRoot p) a i :=
      ((small_tables p).reaches_low (Nat.lt_trans ha (by decide)) (Nat.le_refl 3)).mono (Nat.le_of_lt_succ hi)
    have hplaces : ∀ place ∈ tablePlaces, place.1 < memsizeVirtual ∧ place.2 < 4 := by decide
    have htables : ∀ root ∈ [0x6000, 0xB000], ∀ pn < root / pageSize + 5, root / pageSize ≤ pn → ∃ place ∈ tablePlaces,
        tableAt (tableMemory smallEntries) root place.1 place.2 = pn * pageSize := by decide +kernel
    obtain ⟨place, hin, htable⟩ := htables _ (smallRoot_mem p) pn hpn.2 hpn.1
    exact .inl ⟨place.1, (hplaces place hin).1, place.2, (hplaces place hin).2,
      hreach _ (hplaces place hin).1 _ (hplaces place hin).2, htable⟩

theorem small_checked : Checked smallImage.toKernelLayout smallMachine where
  zero := rfl
  kernelMapped := checkPageTableMappings_iff.mp (by decide +kernel)
  kernelOwned := by
    rw [kernelUsers_eq_zero fun q _ _ => small_own q]
    exact kernel_explored.owned rfl (by decide +kernel)
  mapped q _ _ _ := checkPageTableMappings_iff.mp (by
    have hcheck : ∀ root ∈ [0x6000, 0xB000], checkPageTableMappings smallImage.toKernelLayout smallMachine root = true := by
      decide +kernel
    exact hcheck _ (smallRoot_mem q))
  owned q _ hlive _ := by
    rcases small_live hlive with rfl | rfl
    · exact (small_explored 1).owned rfl (by decide +kernel)
    · exact (small_explored 2).owned rfl (by decide +kernel)
  owners pn _ hrc howner := by
    rcases (small_owner pn).1 hrc howner with h | h
    · rw [h]
      exact ⟨by decide, live_of_runnable rfl⟩
    · rw [h]
      exact ⟨by decide, live_of_runnable rfl⟩

theorem small_sound : Sound smallImage smallMachine where
  kernel := ⟨⟨by decide, by decide, by decide⟩, fun p _ hlive => (small_start p hlive).ok⟩
  heaps p _ hlive := (small_start p hlive).mem
  consistent :=
    { checked := small_checked
      ready := fun q _ _ =>
        { own := small_own q
          aligned := (by decide : 0x100000 % pageSize = 0)
          start := (by decide : procStartAddr ≤ 0x100000)
          le := Nat.le_refl _
          lt := (by decide : 0x100000 < memsizeVirtual - pageSize)
          apart := fun a hle hlt owner t ht => by
            have hnonneg := (small_checked.tableOk (fun q _ _ => small_own q) ht).nonneg
            have hnone : (virtualMemoryLookup (tableMemory smallEntries) (smallRoot q) a).pn = -1 :=
              lookup_pn_none (small_none q hle hlt)
            intro heq
            have hsame : (virtualMemoryLookup (tableMemory smallEntries) (smallRoot q) a).pn = pageNumber t := heq
            omega }
      once := fun q _ _ => (small_explored q).once (by
        have hall : ∀ root ∈ [0x6000, 0xB000], ∀ j < 4, ∀ x ∈ twoTables root kernelPages j, ∀ k < 4,
            ∀ y ∈ twoTables root kernelPages k, x.2 ≠ y.2 ∨ x.1 = y.1 := by decide
        exact hall _ (smallRoot_mem q)) }
  roots r owner hr := by
    have hall : ∀ root ∈ [0x41000, 0x6000, 0xB000], root < procStartAddr ∧ PagetableOk smallImage.symbols smallMachine.mem root := by
      decide +kernel
    rcases hr with ⟨rfl, -⟩ | ⟨q, -, -, rfl, -⟩
    · exact hall _ List.mem_cons_self
    · exact hall _ (List.mem_cons_of_mem _ (smallRoot_mem q))
  within p _ _ a ha _ hmapped := by
    have hr : Reaches (tableMemory smallEntries) (smallRoot p) a 4 := by
      by_contra habsent
      exact hmapped (lookup_absent habsent)
    obtain ⟨pn, hpn, hpage, htable, -⟩ := small_mapped hr
    have hrange := small_page hpn
    have hV : memsizeVirtual = 3145728 := rfl
    have hphys : memsizePhysical = 2097152 := rfl
    have hoffset : pageOffset a < 4096 := Nat.mod_lt _ (by decide)
    have hpa : (virtualMemoryLookup (tableMemory smallEntries) (smallRoot p) a).pa = pn * 0x1000 + pageOffset a := by
      rw [lookup_present hr, htable]
    refine ⟨by omega, ?_⟩
    have hlt : (virtualMemoryLookup (tableMemory smallEntries) (smallRoot p) a).pa < memsizePhysical := by omega
    exact hlt
  guarded p _ _ a _ hoffer := by
    have hr := hoffer.reaches
    obtain ⟨-, -, -, -, hu⟩ := small_mapped hr
    have hbit := ((and_open _).mp hoffer).2
    rw [lookup_bit hr (by decide) rfl] at hbit
    have hleaf : (levelEntry smallMachine.mem (smallMachine.processes p).pPagetable a 3).getLsbD 2 = false := hu
    rw [hleaf] at hbit
    cases hbit
  first := not_not_intro rfl
  mapped p _ hlive := small_owns (small_live hlive)
  owners pn _ := (small_owner pn).2
  console := by decide

theorem smallOs_ready : UserMode smallImage smallOs := ⟨small_sound, by decide, rfl, rfl⟩

/-- The process makes a system call. -/
def callTrap (c : Cpu) (intno : BitVec 64) : Trap where
  registers := c.saved intno 0
  cr2 := 0
  page := none
  pad _ := 0
  screen _ := 0

theorem callTrap_allowed {c : Cpu} {intno : BitVec 64} (h : exceptionCase intno ∉ [.fork, .pageAlloc, .mapping, .pagefault]) :
    (callTrap c intno).Allowed k := by
  simp only [List.mem_cons, List.not_mem_nil, or_false, not_or] at h
  exact ⟨⟨h.1, h.2.1⟩, fun new hnew => (by cases hnew), fun hc => absurd hc h.2.2.1, fun hc => absurd hc h.2.2.2,
    fun hc => absurd hc h.2.2.2⟩

def getpidTrap : Trap := callTrap sampleCpu 49

def exitTrap : Trap := callTrap sampleCpu 53

theorem getpidTrap_allowed : getpidTrap.Allowed k := callTrap_allowed (by decide)

theorem exitTrap_allowed : exitTrap.Allowed k := callTrap_allowed (by decide)

/-- The kernel without the precompiled calls. -/
def noVm : KernelVm := ⟨fun _ => none, fun _ _ => none⟩

/-- The kernel runs with the two processes. -/
def SmallRuns (k : Os) : Prop := UserMode smallImage k ∧ k.machine.processes = smallMachine.processes

theorem smallOs_runs : SmallRuns smallOs := ⟨smallOs_ready, rfl⟩

theorem getpid_runs (h : SmallRuns k) (c : Cpu) : ∃ k', exception noVm smallImage k (callTrap c 49) = some (.runs k') ∧
    SmallRuns k' ∧ k'.current = k.current := by
  obtain ⟨v, hv⟩ := exception_eq h.1.sound noVm (callTrap c 49)
  have hc : exceptionCase (callTrap c 49).registers.intno = .getpid := rfl
  simp only [Os.handle, hc] at hv
  have hrun := hv.trans (Sound.finish_runs h.1.sound h.1.current_lt h.1.runnable)
  exact ⟨_, hrun, ⟨(h.1.runs (callTrap_allowed (by decide)) hrun).1, h.2⟩, rfl⟩

/-- The timer hands the processor on. -/
theorem timer_runs (h : SmallRuns k) (c : Cpu)
    (hpick : RoundRobin.Picks nproc (fun q => (smallMachine.processes q).pState = .runnable) k.current p) :
    ∃ k', exception noVm smallImage k (callTrap c 32) = some (.runs k') ∧ SmallRuns k' ∧ k'.current = p := by
  obtain ⟨v, hv⟩ := exception_eq h.1.sound noVm (callTrap c 32)
  have hc : exceptionCase (callTrap c 32).registers.intno = .timer := rfl
  simp only [Os.handle, hc] at hv
  rw [← h.2] at hpick
  have hrun := hv.trans (Sound.schedule_runs h.1.sound h.1.current_lt hpick)
  exact ⟨_, hrun, ⟨(h.1.runs (callTrap_allowed (by decide)) hrun).1, h.2⟩, rfl⟩

/-- A process asks for its number; another one exits after the timer has let it run. -/
theorem small_never_fails : (∃ o, exception noVm smallImage smallOs getpidTrap = some o ∧ ∀ k, o ≠ .panics k) ∧
    ∃ k₁ o, exception noVm smallImage smallOs (callTrap sampleCpu 32) = some (.runs k₁) ∧ k₁.current = 2 ∧
      exception noVm smallImage k₁ exitTrap = some o ∧ ∀ k, o ≠ .panics k := by
  have hgoes (k : Os) (t : Trap) (hreach : (userSystem noVm smallImage).Reachable smallOs k) (ht : t.Allowed k)
      (hcase : exceptionCase t.registers.intno ∉ [.panic, .other]) :
      ∃ o, exception noVm smallImage k t = some o ∧ ∀ k', o ≠ .panics k' := by
    obtain ⟨o, ho, hspec⟩ := kernel_never_fails noVm smallImage smallOs k t smallOs_ready hreach ht
    refine ⟨o, ho, ?_⟩
    rintro k' rfl
    exact hcase hspec
  obtain ⟨k₁, hrun₁, -, hcur₁⟩ := timer_runs smallOs_runs sampleCpu (p := 2) ⟨rfl, 0, rfl, by decide⟩
  have hreach : (userSystem noVm smallImage).Reachable smallOs k₁ :=
    .single ⟨.trap (callTrap sampleCpu 32), callTrap_allowed (by decide), runs_trap hrun₁⟩
  obtain ⟨o, ho, hpanic⟩ := hgoes k₁ exitTrap hreach exitTrap_allowed (by decide)
  exact ⟨hgoes smallOs getpidTrap .refl getpidTrap_allowed (by decide), k₁, o, hrun₁, hcur₁, ho, hpanic⟩

/-- The processor when process 2 traps. -/
def otherCpu : Cpu := { sampleCpu with regs := fun _ => 7, rip := 0x100200 }

/-- The timer interrupts process 1; process 2 runs, asks for its number and is interrupted too; then process 1 goes on. -/
theorem timer_resumed : ∃ k₁ k₂ k₃, exception noVm smallImage smallOs (callTrap sampleCpu 32) = some (.runs k₁) ∧ k₁.current = 2 ∧
    exception noVm smallImage k₁ (callTrap otherCpu 49) = some (.runs k₂) ∧ k₂.current = 2 ∧
      exception noVm smallImage k₂ (callTrap otherCpu 32) = some (.runs k₃) ∧ k₃.current = 1 ∧
        otherCpu.restore (k₃.pRegisters 1) = sampleCpu := by
  obtain ⟨k₁, hrun₁, h₁, hcur₁⟩ := timer_runs smallOs_runs sampleCpu (p := 2) ⟨rfl, 0, rfl, by decide⟩
  obtain ⟨k₂, hrun₂, h₂, hcur₂⟩ := getpid_runs h₁ otherCpu
  rw [hcur₁] at hcur₂
  obtain ⟨k₃, hrun₃, h₃, hcur₃⟩ := timer_runs h₂ otherCpu (p := 1) (by rw [hcur₂]; exact ⟨rfl, 14, rfl, by decide⟩)
  have hstep {u v : Os} {intno : BitVec 64} (hallowed : (callTrap otherCpu intno).Allowed u) (hcur : u.current = 2)
      (hrun : exception noVm smallImage u (callTrap otherCpu intno) = some (.runs v)) :
      (userSystem noVm smallImage).Next u v ∧ u.current ≠ smallOs.current :=
    ⟨⟨.trap (callTrap otherCpu intno), hallowed, runs_trap hrun⟩, by rw [hcur]; decide⟩
  have haway : Relation.ReflTransGen (fun u v => (userSystem noVm smallImage).Next u v ∧ u.current ≠ smallOs.current) k₁ k₃ :=
    .tail (.single (hstep (callTrap_allowed (by decide)) hcur₁ hrun₂)) (hstep (callTrap_allowed (by decide)) hcur₂ hrun₃)
  obtain ⟨rax, hregs, hrax, -⟩ := process_resumes noVm smallImage sampleCpu 32 0 smallOs k₁ k₃ (callTrap sampleCpu 32) smallOs_ready
    (callTrap_allowed (by decide)) rfl hrun₁ haway hcur₃
  rw [hcur₃] at hregs
  refine ⟨k₁, k₂, k₃, hrun₁, hcur₁, hrun₂, hcur₂, hrun₃, hcur₃, ?_⟩
  rw [hregs otherCpu, hrax (by decide), Function.update_eq_self]
  rfl

end Samples

end WeensyOS.Kernel
