import WeensyOS.Kernel.Boot
import WeensyOS.Kernel.MappingCall
import WeensyOS.Kernel.ProcessFree
import WeensyOS.Kernel.Scheduling
import WeensyOS.Kernel.TrapFrame

namespace WeensyOS.Kernel

open ByteMemory LibC ProgramBreak

/-- The variables of the kernel. `p_pid` is always the index of the descriptor. -/
structure Os where
  machine : Machine
  pRegisters : Nat → Registers
  displayStatus : Nat → Bool
  current : Nat
  ticks : BitVec 32
  dispGlobal : Bool
  lastTicks : BitVec 32
  showing : Nat
  cr3 : Nat

/-- What the hardware and the precompiled `palloc` bring to a call of `exception`, and what the console's page
holds when it goes back to a process. -/
structure Trap where
  registers : Registers
  cr2 : BitVec 64
  page : Option NewPage
  pad : Nat → UInt8
  screen : Nat → UInt8

/-- The precompiled `process_fork` and `process_page_alloc`. -/
structure KernelVm where
  processFork : Os → Option (Os × BitVec 64)
  processPageAlloc : Os → BitVec 64 → Option Os

/-- How a call of `exception` ends. -/
inductive Outcome where
  | runs (k : Os)
  | spins (k : Os)
  | panics (k : Os)

/-- The cases of the switch in `exception`. -/
inductive ExceptionCase where
  | panic
  | getpid
  | fork
  | mapping
  | exit
  | yield
  | brk
  | sbrk
  | pageAlloc
  | memTog
  | timer
  | pagefault
  | other
  deriving DecidableEq

def exceptionCase (intno : BitVec 64) : ExceptionCase :=
  if intno.toNat = intSys then .panic
  else if intno.toNat = intSys + 1 then .getpid
  else if intno.toNat = intSys + 4 then .fork
  else if intno.toNat = intSys + 6 then .mapping
  else if intno.toNat = intSys + 5 then .exit
  else if intno.toNat = intSys + 2 then .yield
  else if intno.toNat = intSys + 9 then .brk
  else if intno.toNat = intSys + 10 then .sbrk
  else if intno.toNat = intSys + 3 then .pageAlloc
  else if intno.toNat = intSys + 8 then .memTog
  else if intno.toNat = intTimer then .timer
  else if intno.toNat = intPagefault then .pagefault
  else .other

def pferrPresent : BitVec 64 := 0x1

def pferrUser : BitVec 64 := 0x4

def hz : Nat := 100

/-- The first character and color of `memstate_colors[]` is the one for `PO_KERNEL`. -/
def memstateColors : List (BitVec 16) :=
  [0x0D4B, 0x0752, 0x072E, 0x0C31, 0x0A32, 0x0933, 0x0E34, 0x0F35, 0x0C36, 0x0A37, 0x0938, 0x0E39, 0x0F41, 0x0C42, 0x0A43,
    0x0944, 0x0E45, 0x0F46, 0x0053]

def sharedColor : BitVec 16 := 0x0053

/-- `memstate_colors[owner - PO_KERNEL]`; there is no color outside of the array. -/
def memstateColor (owner : Int) : Option (BitVec 16) :=
  if 0 ≤ owner - poKernel then memstateColors[(owner - poKernel).toNat]? else none

def PageInfo.shownOwner (info : PageInfo) : Int := if info.refcount = 0 then poFree else info.owner

section MemoryViewer

variable (s : Machine)

def physicalCell (pn : Nat) : Option (BitVec 16) :=
  (memstateColor (s.pageinfo pn).shownOwner).map fun color =>
    if 1 < (s.pageinfo pn).refcount ∧ (pn : Int) ≠ pageNumber consoleAddr then sharedColor ||| 0x0F00 else color

/-- The cells that `memshow_physical` draws, without the text around them. -/
def memshowPhysical : Option (List (BitVec 16)) := (List.range npages).mapM (physicalCell s)

def reverseVideo (color : BitVec 16) : BitVec 16 := (color &&& 0x0F00) <<< 4 ||| (color &&& 0xF000) >>> 4 ||| (color &&& 0x00FF)

def virtualCell (pagetable va : Nat) : Option (BitVec 16) :=
  let vam := virtualMemoryLookup s.mem pagetable va
  if vam.pn < 0 then some 0x20
  else if vam.pa < memsizePhysical ∧ vam.pn < npages then
    (memstateColor (s.pageinfo vam.pn.toNat).shownOwner).map fun color =>
      let user := permBits vam.perm &&& pteU ≠ 0
      let color := if user then reverseVideo color else color
      if 1 < (s.pageinfo vam.pn.toNat).refcount ∧ va ≠ consoleAddr then
        let color := sharedColor ||| (color &&& 0xF000)
        if user then color else color ||| 0x0F00
      else color
  else none

/-- The cells that `memshow_virtual` draws. -/
def memshowVirtual (pagetable : Nat) : Option (List (BitVec 16)) :=
  if pagetable = pteAddr (BitVec.ofNat 64 pagetable) then
    (List.range (memsizeVirtual / pageSize)).mapM fun k => virtualCell s pagetable (pageSize * k)
  else none

/-- The loop of `memshow_virtual_animate`, for as many rounds as it can take. -/
def nextShowing : Nat → Nat → Nat
  | 0, showing => showing
  | rounds + 1, showing =>
      if showing ≤ 2 * nproc ∧ (s.processes (showing % nproc)).pState = .free then nextShowing rounds (showing + 1) else showing

end MemoryViewer

/-- The kernel has written to the console. -/
def Machine.withScreen (s : Machine) (screen : Nat → UInt8) : Machine :=
  { s with mem := fun x => if x / pageSize = consoleAddr / pageSize then screen (x % pageSize) else s.mem x }

namespace Os

variable (k : Os)

def withMachine (s : Machine) : Os := { k with machine := s }

def memshowVirtualAnimate : Option Os :=
  let k :=
    if k.lastTicks = 0 ∨ hz / 2 ≤ (k.ticks - k.lastTicks).toNat then
      { k with lastTicks := k.ticks, showing := k.showing + 1 }
    else k
  let k := { k with showing := nextShowing k.machine (2 * nproc + 1) k.showing % nproc }
  if (k.machine.processes k.showing).pState ≠ .free ∧ k.displayStatus k.showing = true then
    (memshowVirtual k.machine (k.machine.processes k.showing).pPagetable).map fun _ => k
  else some k

def setPagetable (I : KernelImage) (pagetable : Nat) : Option Os :=
  if PagetableOk I.symbols k.machine.mem pagetable then some { k with cr3 := pagetable } else none

/-- The check and the memory viewer at the head of `exception`. -/
def checkAndShow (I : KernelImage) : Option Os :=
  if checkVirtualMemory I.toKernelLayout k.machine then
    if k.dispGlobal then (memshowPhysical k.machine).bind fun _ => k.memshowVirtualAnimate else some k
  else none

def run (I : KernelImage) (screen : Nat → UInt8) (p : Nat) : Option Outcome :=
  if (k.machine.processes p).pState = .runnable then
    (memstateColor p).bind fun _ =>
    (({ k with current := p } : Os).setPagetable I (k.machine.processes p).pPagetable).map fun k =>
      .runs (k.withMachine (k.machine.withScreen screen))
  else none

/-- What the scheduler sees. -/
def scheduler : Scheduler := ⟨fun q => ⟨q, (k.machine.processes q).pState⟩, k.current⟩

/-- After a round without a process that can run, `schedule` spins forever. -/
def schedule (I : KernelImage) (screen : Nat → UInt8) : Option Outcome :=
  match Scheduler.schedule nproc k.scheduler with
  | some t => k.run I screen t.current
  | none => some (.spins k)

/-- The end of `exception`. -/
def finish (I : KernelImage) (screen : Nat → UInt8) : Option Outcome :=
  if (k.machine.processes k.current).pState = .runnable then k.run I screen k.current else k.schedule I screen

/-- `current->p_registers` -/
def registers : Registers := k.pRegisters k.current

def setRegisters (reg : Registers) : Os := { k with pRegisters := Function.update k.pRegisters k.current reg }

def setRax (rax : BitVec 64) : Os :=
  k.setRegisters { k.registers with regs := Function.update k.registers.regs .rax rax }

/-- A conversion to `pid_t`. -/
def pidOf (v : BitVec 64) : Int := (v.setWidth 32).toInt

def syscallMemTog : Os :=
  let p := pidOf (k.registers.regs .rdi)
  if p = 0 then { k with dispGlobal := !k.dispGlobal }
  else if p < 0 ∨ nproc < p ∨ p ≠ k.current then k
  else { k with displayStatus := Function.update k.displayStatus k.current !k.displayStatus k.current }

/-- The switch in `exception`, and what follows it. -/
def handle (V : KernelVm) (I : KernelImage) (t : Trap) : Option Outcome :=
  let rdi := k.registers.regs .rdi
  let rsi := k.registers.regs .rsi
  let proc := k.machine.processes k.current
  match exceptionCase t.registers.intno with
  | .panic => some (.panics k)
  | .getpid => (k.setRax (BitVec.ofNat 64 k.current)).finish I t.screen
  | .fork => (V.processFork k).bind fun (k, pid) => (k.setRax pid).finish I t.screen
  | .mapping =>
      let mem := syscallMapping k.machine.mem proc.pPagetable rdi.toNat rsi.toNat t.pad
      (k.withMachine { k.machine with mem := mem }).finish I t.screen
  | .exit => (processFree k.machine k.current).bind fun s => (k.withMachine s).schedule I t.screen
  | .yield => k.schedule I t.screen
  | .brk => (sysBrk k.machine k.current rdi.toNat).bind fun (s, rax) =>
      ((k.withMachine s).setRax (BitVec.ofNat 64 rax)).finish I t.screen
  | .sbrk => (sysSbrk k.machine k.current rdi.toNat).bind fun (s, rax) =>
      ((k.withMachine s).setRax (BitVec.ofNat 64 rax)).finish I t.screen
  | .pageAlloc => (V.processPageAlloc k rdi).bind fun k => k.finish I t.screen
  | .memTog => k.syscallMemTog.finish I t.screen
  | .timer => ({ k with ticks := k.ticks + 1 } : Os).schedule I t.screen
  | .pagefault =>
      if t.registers.err &&& pferrUser = 0 then some (.panics k)
      else
        let missing := decide (t.registers.err &&& pferrPresent = 0)
        (handlePagefault k.machine k.current t.cr2.toNat missing t.page).bind fun s => (k.withMachine s).finish I t.screen
  | .other => some (.panics k)

end Os

/-- The function `exception`; `none` when an assertion fails. No key is pressed while it runs. -/
def exception (V : KernelVm) (I : KernelImage) (k : Os) (t : Trap) : Option Outcome :=
  ((k.setRegisters t.registers).setPagetable I I.kernelPagetable).bind fun k =>
  (if (t.registers.intno.toNat ≠ intPagefault ∧ t.registers.intno.toNat ≠ intGpf) ∨ t.registers.err &&& pferrUser ≠ 0 then k.checkAndShow I
    else some k).bind fun k =>
  k.handle V I t

end WeensyOS.Kernel
