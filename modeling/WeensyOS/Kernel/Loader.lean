import WeensyOS.Kernel.Exceptions
import WeensyOS.Lib.Loop
import WeensyOS.RustKernel.Process

namespace WeensyOS.Kernel

open ByteMemory LibC Loop ProgramBreak

def elfMagic : Nat := 0x464C457F

def elfPtypeLoad : Nat := 1

def elfPflagWrite : BitVec 32 := 2

/-- The fields of a program header that the loader reads. -/
structure ElfProgram where
  pType : Nat
  pFlags : BitVec 32
  pOffset : Nat
  pVa : Nat
  pFilesz : Nat
  pMemsz : Nat

/-- A program in the kernel's binary: its header, its `e_phnum` program headers, and its bytes. -/
structure RamImage where
  eMagic : Nat
  eEntry : Nat
  programs : List ElfProgram
  byte : Nat → UInt8

/-- Where the linker has put what `set_pagetable` looks up. -/
structure Symbols where
  defaultIntHandler : Nat
  kernelPagetable : Nat
  virtualMemoryMap : Nat

/-- The assertions of `set_pagetable`. -/
def PagetableOk (k : Symbols) (m : Memory) (pagetable : Nat) : Prop :=
  pageOffset pagetable = 0 ∧
    (virtualMemoryLookup m pagetable k.defaultIntHandler).pa = k.defaultIntHandler ∧
    (virtualMemoryLookup m k.kernelPagetable pagetable).pa = pagetable ∧
    (virtualMemoryLookup m pagetable k.kernelPagetable).pa = k.kernelPagetable ∧
    (virtualMemoryLookup m pagetable k.virtualMemoryMap).pa = k.virtualMemoryMap

instance (k : Symbols) (m : Memory) (pagetable : Nat) : Decidable (PagetableOk k m pagetable) :=
  inferInstanceAs (Decidable (_ ∧ _))

/-- The hardware lets the kernel write to the address; write protection is on. -/
def Writable (m : Memory) (pagetable a : Nat) : Prop :=
  ∀ i < 4, levelEntry m pagetable a i &&& pteP ≠ 0 ∧ levelEntry m pagetable a i &&& pteW ≠ 0

instance (m : Memory) (pagetable a : Nat) : Decidable (Writable m pagetable a) :=
  inferInstanceAs (Decidable (∀ i < 4, _))

/-- The bytes `bs` are stored one by one at the virtual address; a page fault of the kernel is a panic. -/
def storeVirtual (pagetable : Nat) : Nat → List UInt8 → Memory → Option Memory
  | _, [], m => some m
  | a, b :: bs, m =>
      if Writable m pagetable a then
        storeVirtual pagetable (a + 1) bs (Function.update m (tableAt m pagetable a 4 + pageOffset a) b)
      else none

/-- `virtual_memory_map` of one of the kernels. -/
abbrev MapFunction := Memory → Nat → Nat → Nat → Nat → BitVec 32 → Option (Int × Memory)

/-- The variables of the first loop of `program_load_segment`; `supply` is what `palloc` is going to return. -/
structure Allocation where
  machine : Machine
  supply : List (Option NewPage)
  addr : Nat
  ret : Int

def allocateStep (map : MapFunction) (p : Nat) (c : Allocation) : Option Allocation :=
  match c.supply.head?.join with
  | none => some { c with supply := c.supply.tail, ret := -1 }
  | some page =>
      let s := c.machine.palloc page p
      (map s.mem (s.processes p).pPagetable c.addr (page.number * pageSize) pageSize 7).map fun (r, mem) =>
        ⟨{ s with mem := mem }, c.supply.tail, if r < 0 then c.addr else (c.addr + pageSize) % 2 ^ 64, if r < 0 then -1 else 0⟩

/-- The loop that allocates memory. It returns -1 at the page that it cannot assign. -/
def allocatePages (map : MapFunction) (p endMem : Nat) (c : Allocation) : Option Allocation :=
  cwhile (fun c : Allocation => c.ret = 0 ∧ c.addr < endMem) (allocateStep map p) c

def protectStep (map : MapFunction) (pagetable : Nat) (c : Memory × Nat) : Option (Memory × Nat) :=
  let mapping := virtualMemoryLookup c.1 pagetable c.2
  (map c.1 pagetable c.2 mapping.pa pageSize 5).map fun (_, mem) => (mem, (c.2 + pageSize) % 2 ^ 64)

/-- The loop that takes the permission to write away. -/
def protectPages (map : MapFunction) (pagetable va endMem : Nat) (m : Memory) : Option Memory :=
  (cwhile (fun c : Memory × Nat => c.2 < endMem) (protectStep map pagetable) (m, va)).map Prod.fst

/-- `program_load_segment`, over the `virtual_memory_map` that it calls. `image` is the image that the
segment belongs to. What is printed about a page that cannot be assigned is left out. -/
def programLoadSegmentWith (map : MapFunction) (k : Symbols) (image : Nat → UInt8) (p : Nat) (ph : ElfProgram)
    (s : Machine) (supply : List (Option NewPage)) : Option (Int × Machine × List (Option NewPage)) :=
  let endFile := (ph.pVa + ph.pFilesz) % 2 ^ 64
  let endMem := (ph.pVa + ph.pMemsz) % 2 ^ 64
  let va := roundDown ph.pVa pageSize
  let pagetable := (s.processes p).pPagetable
  (allocatePages map p endMem ⟨s, supply, va, 0⟩).bind fun c =>
  if c.ret < 0 then some (-1, c.machine, c.supply)
  else if PagetableOk k c.machine.mem pagetable then
    let file := (List.range ((endFile + 2 ^ 64 - va) % 2 ^ 64)).map fun i => image (ph.pOffset + i)
    (storeVirtual pagetable va file c.machine.mem).bind fun m =>
    (storeVirtual pagetable endFile (List.replicate ((endMem + 2 ^ 64 - endFile) % 2 ^ 64) 0) m).bind fun m =>
    if PagetableOk k m k.kernelPagetable then
      (if ph.pFlags &&& elfPflagWrite = 0 then protectPages map pagetable va endMem m else some m).bind fun m =>
      some (0, { c.machine with mem := m }, c.supply)
    else none
  else none

/-- The loop of `program_load` over the program headers, with `max_end_mem`. -/
def loadSegments (map : MapFunction) (k : Symbols) (image : Nat → UInt8) (p : Nat) :
    List ElfProgram → Nat → Machine → List (Option NewPage) → Option (Int × Nat × Machine)
  | [], maxEndMem, s, _ => some (0, maxEndMem, s)
  | ph :: phs, maxEndMem, s, supply =>
      if ph.pType = elfPtypeLoad then
        (programLoadSegmentWith map k image p ph s supply).bind fun (r, s, supply) =>
        if r < 0 then some (-1, maxEndMem, s)
        else
          let endMem := (ph.pVa + ph.pMemsz) % 2 ^ 64
          loadSegments map k image p phs (if maxEndMem < endMem then endMem else maxEndMem) s supply
      else loadSegments map k image p phs maxEndMem s supply

/-- Both breaks of a process. -/
def Machine.startHeap (s : Machine) (p a : Nat) : Machine :=
  { s with processes := Function.update s.processes p { s.processes p with programBreak := a, originalBreak := a } }

/-- The returned value, the new `reg_rip` if it is set, and the machine. -/
def programLoadWith (map : MapFunction) (k : Symbols) (ramimages : List RamImage) (p : Nat) (programnumber : Int)
    (s : Machine) (supply : List (Option NewPage)) : Option (Int × Option Nat × Machine) :=
  if 0 ≤ programnumber then
    ramimages[programnumber.toNat]?.bind fun eh =>
    if eh.eMagic = elfMagic then
      (loadSegments map k eh.byte p eh.programs 0 s supply).map fun (r, maxEndMem, s) =>
      if r < 0 then (-1, none, s) else (0, some eh.eEntry, s.startHeap p (roundUp maxEndMem pageSize))
    else none
  else none

def programLoadSegment := programLoadSegmentWith virtualMemoryMap

def programLoad := programLoadWith virtualMemoryMap

end WeensyOS.Kernel

namespace WeensyOS.RustKernel

def programLoadSegment := Kernel.programLoadSegmentWith virtualMemoryMap

def programLoad := Kernel.programLoadWith virtualMemoryMap

end WeensyOS.RustKernel
