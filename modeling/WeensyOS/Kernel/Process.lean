import WeensyOS.Shared.LibC
import WeensyOS.Kernel.VirtualMemory

namespace WeensyOS.Kernel

open ByteMemory LibC ProgramBreak

/-- A conversion to `uintptr_t` or `u64`. -/
def asWord (z : Int) : Nat := (BitVec.ofInt 64 z).toNat

/-- A conversion to `intptr_t` or `i64`. -/
def asLong (z : Int) : Int := (BitVec.ofInt 64 z).toInt

def npages : Nat := memsizePhysical / pageSize

def nproc : Nat := 16

structure PageInfo where
  owner : Int
  refcount : Int
  deriving DecidableEq

def poFree : Int := 0

def poReserved : Int := -1

def poKernel : Int := -2

inductive ProcState where
  | free
  | runnable
  | blocked
  | broken
  deriving DecidableEq

/-- The fields of a process descriptor that say where its memory is. -/
structure Proc where
  programBreak : Nat
  originalBreak : Nat
  pState : ProcState
  pPagetable : Nat

/-- Physical memory with the page tables in it, and the kernel's own variables,
which are kept apart from it. -/
structure Machine where
  mem : Memory
  pageinfo : Nat → PageInfo
  processes : Nat → Proc

namespace Machine

def setOwner (s : Machine) (pn : Nat) (owner : Int) : Machine :=
  { s with pageinfo := Function.update s.pageinfo pn { s.pageinfo pn with owner := owner } }

def setRefcount (s : Machine) (pn : Nat) (refcount : Int) : Machine :=
  { s with pageinfo := Function.update s.pageinfo pn { s.pageinfo pn with refcount := refcount } }

def setBreak (s : Machine) (p newBreak : Nat) : Machine :=
  { s with processes := Function.update s.processes p { s.processes p with programBreak := newBreak } }

end Machine

/-- The loop of `sbrk` for the `n` pages that are left. There is no `pageinfo`
for a page number outside of the array. -/
def unmapPages (pagetable : Nat) : Nat → Machine → Nat → Option Machine
  | 0, s, _ => some s
  | n + 1, s, addr =>
      let vam := virtualMemoryLookup s.mem pagetable addr
      (if 0 ≤ vam.pn then
        if vam.pn < npages then
          let s := (s.setOwner vam.pn.toNat poFree).setRefcount vam.pn.toNat 0
          (virtualMemoryMap s.mem pagetable addr 0 pageSize 0).map fun (_, mem) => { s with mem := mem }
        else none
      else some s).bind fun s => unmapPages pagetable n s ((addr + pageSize) % 2 ^ 64)

/-- The bounds of the loop are multiples of the page size. -/
def sbrk (s : Machine) (p : Nat) (difference : Int) : Option (Machine × Int) :=
  let proc := s.processes p
  let newBreak := asWord (proc.programBreak + difference)
  if newBreak < proc.originalBreak ∨ memsizeVirtual - pageSize ≤ newBreak then some (s, -1)
  else
    let oldBreak := proc.programBreak
    let s := s.setBreak p newBreak
    if difference < 0 then
      let oldTop := roundUp oldBreak pageSize
      let addr := roundUp newBreak pageSize
      (unmapPages proc.pPagetable ((oldTop - addr) / pageSize) s addr).map fun s => (s, 0)
    else some (s, 0)

/-- The case `INT_SYS_BRK` of `exception`, with `reg_rdi` and the new `reg_rax`. -/
def sysBrk (s : Machine) (current rdi : Nat) : Option (Machine × Nat) :=
  let difference := asLong (asWord (rdi - (s.processes current).programBreak))
  (sbrk s current difference).map fun (s, r) => (s, if r = 0 then 0 else asWord (-1))

/-- The case `INT_SYS_SBRK` of `exception`, with `reg_rdi` and the new `reg_rax`. -/
def sysSbrk (s : Machine) (current rdi : Nat) : Option (Machine × Nat) :=
  let difference := asLong rdi
  let oldBreak := (s.processes current).programBreak
  (sbrk s current difference).map fun (s, r) => (s, if r = 0 then oldBreak else asWord (-1))

section Words

variable {z : Int} {n : Nat}

theorem asWord_eq (z : Int) : asWord z = (z % 2 ^ 64).toNat := by
  rw [asWord, BitVec.toNat_ofInt]
  rfl

theorem asLong_eq (z : Int) : asLong z = Int.bmod z (2 ^ 64) := by
  rw [asLong, BitVec.toInt_ofInt]

theorem asWord_add_asLong (n : Nat) (z : Int) : asWord (n + asLong z) = asWord (n + z) := by
  rw [asWord_eq, asWord_eq, asLong_eq, Int.bmod_def]
  split <;> omega

theorem asWord_minusOne : asWord (-1) = 2 ^ 64 - 1 := by
  rw [asWord_eq]
  rfl

end Words

end WeensyOS.Kernel
