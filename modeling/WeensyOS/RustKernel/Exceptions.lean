import WeensyOS.Kernel.Screens
import WeensyOS.Lib.Lockstep

namespace WeensyOS.RustKernel

open LibC ProgramBreak Kernel

/-- The case `INT_PAGEFAULT` of `exception`, for a fault of a process. -/
def handlePagefault (s : Machine) (current addr : Nat) (missing : Bool) (page : Option NewPage) : Option Machine :=
  let proc := s.processes current
  if missing = true ∧ proc.originalBreak ≤ addr ∧ addr < proc.programBreak then
    let pageVa := roundDown addr pageSize
    match page with
    | none => processFree (s.setState current .broken) current
    | some page =>
        let s := s.palloc page current
        (virtualMemoryMap s.mem proc.pPagetable pageVa (page.number * pageSize) pageSize heapPerm).bind fun (r, mem) =>
          let s := { s with mem := mem }
          if 0 ≤ r then some s else processFree (s.setState current .broken) current
  else processFree (s.setState current .broken) current

section Exceptions

variable (k : Os)

/-- The loop of `memshow_virtual_animate`, for as many rounds as it can take. -/
def nextShowing : Nat → Nat → Nat
  | 0, showing => showing
  | rounds + 1, showing =>
      if showing ≤ 2 * nproc ∧
          ((k.machine.processes (showing % nproc)).pState = .free ∨ k.displayStatus (showing % nproc) = false) then
        nextShowing rounds (showing + 1)
      else showing

/-- Processes that do not want to be shown are left out by the loop here, and not after it. -/
def memshowVirtualAnimate : Option Os :=
  let k :=
    if k.lastTicks = 0 ∨ hz / 2 ≤ (k.ticks - k.lastTicks).toNat then
      { k with lastTicks := k.ticks, showing := k.showing + 1 }
    else k
  let k := { k with showing := nextShowing k (2 * nproc + 1) k.showing % nproc }
  if (k.machine.processes k.showing).pState ≠ .free then
    (memshowVirtual k.machine (k.machine.processes k.showing).pPagetable).map fun _ => k
  else some k

/-- The checks and the drawing are those of the C kernel. -/
def checkAndShow (I : KernelImage) : Option Os :=
  if checkVirtualMemory I.toKernelLayout k.machine then
    if k.dispGlobal then (memshowPhysical k.machine).bind fun _ => memshowVirtualAnimate k else some k
  else none

/-- The number of the process that runs is not printed in the corner of the screen, as it is by the C kernel. -/
def run (I : KernelImage) (screen : Nat → UInt8) (p : Nat) : Option Outcome :=
  if (k.machine.processes p).pState = .runnable then
    (({ k with current := p } : Os).setPagetable I (k.machine.processes p).pPagetable).map fun k =>
      .runs (k.withMachine (k.machine.withScreen screen))
  else none

def schedule (I : KernelImage) (screen : Nat → UInt8) : Option Outcome :=
  match Scheduler.schedule nproc k.scheduler with
  | some t => run k I screen t.current
  | none => some (.spins k)

/-- The end of `exception`. -/
def finish (I : KernelImage) (screen : Nat → UInt8) : Option Outcome :=
  if (k.machine.processes k.current).pState = .runnable then run k I screen k.current else schedule k I screen

/-- The `match` in `exception`, and what follows it. -/
def handle (V : KernelVm) (I : KernelImage) (t : Trap) : Option Outcome :=
  let rdi := k.registers.regs .rdi
  let rsi := k.registers.regs .rsi
  let proc := k.machine.processes k.current
  match exceptionCase t.registers.intno with
  | .panic => some (.panics k)
  | .getpid => finish (k.setRax (BitVec.ofNat 64 k.current)) I t.screen
  | .fork => (V.processFork k).bind fun (k, pid) => finish (k.setRax pid) I t.screen
  | .mapping =>
      let mem := syscallMapping k.machine.mem proc.pPagetable rdi.toNat rsi.toNat t.pad
      finish (k.withMachine { k.machine with mem := mem }) I t.screen
  | .exit => (processFree k.machine k.current).bind fun s => schedule (k.withMachine s) I t.screen
  | .yield => schedule k I t.screen
  | .brk => (sysBrk k.machine k.current rdi.toNat).bind fun (s, rax) =>
      finish ((k.withMachine s).setRax (BitVec.ofNat 64 rax)) I t.screen
  | .sbrk => (sysSbrk k.machine k.current rdi.toNat).bind fun (s, rax) =>
      finish ((k.withMachine s).setRax (BitVec.ofNat 64 rax)) I t.screen
  | .pageAlloc => (V.processPageAlloc k rdi).bind fun k => finish k I t.screen
  | .memTog => finish k.syscallMemTog I t.screen
  | .timer => schedule { k with ticks := k.ticks + 1 } I t.screen
  | .pagefault =>
      if t.registers.err &&& pferrUser = 0 then some (.panics k)
      else
        let missing := decide (t.registers.err &&& pferrPresent = 0)
        (handlePagefault k.machine k.current t.cr2.toNat missing t.page).bind fun s => finish (k.withMachine s) I t.screen
  | .other => some (.panics k)

/-- The function `exception`; `none` when an assertion fails. No key is pressed while it runs. -/
def exception (V : KernelVm) (I : KernelImage) (t : Trap) : Option Outcome :=
  ((k.setRegisters t.registers).setPagetable I I.kernelPagetable).bind fun k =>
  (if (t.registers.intno.toNat ≠ intPagefault ∧ t.registers.intno.toNat ≠ intGpf) ∨ t.registers.err &&& pferrUser ≠ 0 then
      checkAndShow k I
    else some k).bind fun k =>
  handle k V I t

end Exceptions

/-- The Rust kernel with the same processes. What it leaves on the console is its own. -/
def userSystem (V : KernelVm) (I : KernelImage) (draw : Os → Trap → Nat → UInt8) : Runs.System Os UserStep where
  step k
    | .store a b => some (k.withMachine (storeByte k.machine k.current a b))
    | .trap t => (exception k V I { t with screen := draw k t }).bind Outcome.running
  Allowed k
    | .store a _ => Granted k.machine k.current a true
    | .trap t => t.Allowed k

variable {V : KernelVm} {I : KernelImage} {k k' : Os} {t : Trap} {s : Machine} {p : Nat} {screen : Nat → UInt8}

/-- The loop of `memshow_virtual_animate` has ended after the rounds that the model gives it. -/
theorem nextShowing_ends (k : Os) (rounds showing : Nat) (h : 2 * nproc + 1 ≤ rounds + showing) :
    ¬(nextShowing k rounds showing ≤ 2 * nproc ∧ ((k.machine.processes (nextShowing k rounds showing % nproc)).pState = .free ∨
      k.displayStatus (nextShowing k rounds showing % nproc) = false)) := by
  induction rounds generalizing showing with
  | zero =>
      rw [nextShowing]
      omega
  | succ rounds ih =>
      rw [nextShowing]
      split
      next => exact ih (showing + 1) (by omega)
      next hstop => exact hstop

section Viewer

def Outcome.withViewer (v : BitVec 32 × Nat) : Outcome → Outcome
  | .runs k => .runs (k.withViewer v)
  | .spins k => .spins (k.withViewer v)
  | .panics k => .panics (k.withViewer v)

theorem animate_goes (h : Sound I k.machine) : ∃ v, memshowVirtualAnimate k = some (k.withViewer v) := by
  rw [memshowVirtualAnimate]
  split
  · exact ⟨_, shown_defined h (k.ticks, nextShowing { k with lastTicks := k.ticks, showing := k.showing + 1 } (2 * nproc + 1)
      (k.showing + 1)) _ fun hshow => hshow⟩
  · exact ⟨_, shown_defined h (k.lastTicks, nextShowing k (2 * nproc + 1) k.showing) _ fun hshow => hshow⟩

theorem show_goes (h : Sound I k.machine) : ∃ v, checkAndShow k I = some (k.withViewer v) := by
  rw [checkAndShow, if_pos (checkVirtualMemory_iff.mpr h.consistent.checked)]
  split
  · obtain ⟨cells, hcells⟩ := h.memshowPhysical_defined
    rw [hcells, Option.bind_some]
    exact animate_goes h
  · exact ⟨(k.lastTicks, k.showing), rfl⟩

theorem exception_eq (h : Sound I k.machine) (V : KernelVm) (t : Trap) :
    ∃ v, exception k V I t = handle (k.entered I t v) V I t := by
  have hload : (k.setRegisters t.registers).setPagetable I I.kernelPagetable = some (k.entered I t (k.lastTicks, k.showing)) :=
    if_pos (h.roots _ _ (.inl ⟨rfl, rfl⟩)).2
  obtain ⟨v, hshow⟩ := @show_goes I (k.entered I t (k.lastTicks, k.showing)) h
  rw [exception, hload, Option.bind_some]
  split
  · exact ⟨v, by rw [hshow, Option.bind_some]; rfl⟩
  · exact ⟨(k.lastTicks, k.showing), by rw [Option.bind_some]⟩

end Viewer

section Scheduling

variable (v : BitVec 32 × Nat)

theorem setPagetable_withViewer (pagetable : Nat) :
    (k.withViewer v).setPagetable I pagetable = (k.setPagetable I pagetable).map fun k => k.withViewer v := by
  rw [Os.setPagetable, Os.setPagetable, Os.withViewer_machine]
  split <;> rfl

theorem run_eq (hp : p < nproc) : run (k.withViewer v) I screen p = (k.run I screen p).map (Outcome.withViewer v) := by
  have hlo : poKernel ≤ p := Int.le_trans (by decide) (Int.natCast_nonneg p)
  obtain ⟨color, hcolor⟩ := memstateColor_defined hlo (Int.ofNat_lt.mpr hp)
  have hcurrent : ({ k.withViewer v with current := p } : Os) = ({ k with current := p } : Os).withViewer v := rfl
  rw [run, Os.run, hcolor, Option.bind_some, hcurrent, setPagetable_withViewer, Os.withViewer_machine, Option.map_map]
  split
  · rw [Option.map_map]
    rfl
  · rfl

end Scheduling

section Handling

theorem handlePagefault_eq (h : ProcOk s p) (addr : Nat) (missing : Bool) (page : Option NewPage) :
    handlePagefault s p addr missing page = Kernel.handlePagefault s p addr missing page := by
  rw [handlePagefault, Kernel.handlePagefault]
  by_cases hheap : missing = true ∧ (s.processes p).originalBreak ≤ addr ∧ addr < (s.processes p).programBreak
  · have hlimit := h.lt
    rw [limit_eq] at hlimit
    have hround := roundDown_le addr pageSize
    have hva : roundDown addr pageSize + 4096 ≤ 2 ^ 52 := by omega
    cases page with
    | none => rfl
    | some new => simp only [virtualMemoryMap_eq hva]
  · rw [if_neg hheap, if_neg hheap]

end Handling

section Agreement

/-- The console and what the memory viewer remembers are all that may differ. -/
def SameButConsole (k k' : Os) : Prop := ∃ s v, SameButScreen k.machine s ∧ k' = (k.withMachine s).withViewer v

variable (V : KernelVm) (I : KernelImage) (draw : Os → Trap → Nat → UInt8)

variable {V I draw}

/-- The console and the memory viewer apart the two states are the same, the same steps are allowed in them, and every exception
ends alike in them. -/
structure Alike (V : KernelVm) (I : KernelImage) (draw : Os → Trap → Nat → UInt8) (k k' : Os) : Prop where
  same : SameButConsole k k'
  allowed : ∀ e, (Kernel.userSystem V I).Allowed k e ↔ (userSystem V I draw).Allowed k' e
  exceptions : ∀ t : Trap, t.Allowed k → ∃ o o', Kernel.exception V I k t = some o ∧
    exception k' V I { t with screen := draw k' t } = some o' ∧ o.Alike SameButConsole o'

end Agreement

end WeensyOS.RustKernel
