import WeensyOS.Kernel.ProgramBreak

namespace WeensyOS.Kernel

open ByteMemory ProgramBreak

/-- A page-table entry; its pattern is in memory, little-endian. -/
abbrev PageEntry := BitVec 64

def pteP : PageEntry := 1

def pteW : PageEntry := 2

def pteU : PageEntry := 4

def pteAddr (pe : PageEntry) : Nat := (pe &&& ~~~0xFFF#64).toNat

def pteFlags (pe : PageEntry) : PageEntry := pe &&& 0xFFF#64

/-- A conversion to `int`. -/
def asInt (n : Nat) : Int := (BitVec.ofNat 32 n).toInt

def pageNumber (ptr : Nat) : Int := asInt (ptr / 2 ^ 12)

def pageIndex (addr level : Nat) : Nat := addr / 2 ^ (12 + (3 - level) * 9) % 512

def pageOffset (addr : Nat) : Nat := addr % pageSize

/-- `pt->entry[i]`. Physical memory is the memory that the kernel sees. -/
def entry (m : Memory) (pt i : Nat) : PageEntry := BitVec.ofNat 64 (readLE m (pt + 8 * i) 8)

def setEntry (m : Memory) (pt i : Nat) (pe : PageEntry) : Memory := writeLE m (pt + 8 * i) 8 pe.toNat

structure VaMapping where
  pn : Int
  pa : Nat
  perm : BitVec 32
  deriving DecidableEq

def VaMapping.unmapped : VaMapping := ⟨-1, 2 ^ 64 - 1, 0⟩

/-- The loop of `virtual_memory_lookup` over the levels that are left, with `pt` and `pe`. -/
def lookupLevels (m : Memory) (va : Nat) : List Nat → Nat × PageEntry → Nat × PageEntry
  | [], c => c
  | i :: is, (pt, pe) =>
      if pe &&& pteP = 0 then (pt, pe)
      else
        let pe := entry m pt (pageIndex va i) &&& ~~~(pe &&& (pteW ||| pteU))
        lookupLevels m va is (pteAddr pe, pe)

/-- The function is the same in both kernels. -/
def virtualMemoryLookup (m : Memory) (pagetable va : Nat) : VaMapping :=
  let (_, pe) := lookupLevels m va [0, 1, 2, 3] (pagetable, pteW ||| pteU ||| pteP)
  if pe &&& pteP = 0 then .unmapped
  else ⟨pageNumber pe.toNat, pteAddr pe + pageOffset va, (pteFlags pe).setWidth 32⟩

/-- An `int` as an operand of a 64-bit operation. -/
def permBits (perm : BitVec 32) : PageEntry := perm.signExtend 64

/-- The loop of `lookup_l4pagetable` over the levels that are left; `none` is a
failed assertion, and the null pointer is 0. -/
def lookupL4Levels (m : Memory) (va : Nat) (perm : BitVec 32) : List Nat → Nat → Option Nat
  | [], pt => some pt
  | i :: is, pt =>
      let pe := entry m pt (pageIndex va i)
      if pe &&& pteP = 0 then some 0
      else if memsizePhysical ≤ pteAddr pe then none
      else if permBits perm &&& pteW ≠ 0 ∧ pe &&& pteW = 0 then none
      else if permBits perm &&& pteU ≠ 0 ∧ pe &&& pteU = 0 then none
      else lookupL4Levels m va perm is (pteAddr pe)

def lookupL4pagetable (m : Memory) (pagetable va : Nat) (perm : BitVec 32) : Option Nat :=
  lookupL4Levels m va perm [0, 1, 2] pagetable

/-- The loop of `virtual_memory_map` for the `n` pages that are left, with
`last_index123` and `l4pagetable`. -/
def mapPages (pagetable : Nat) (perm : BitVec 32) : Nat → Memory → Nat → Nat → Int → Nat → Option (Int × Memory)
  | 0, m, _, _, _, _ => some (0, m)
  | n + 1, m, va, pa, lastIndex123, l4pagetable =>
      let curIndex123 := asInt (va / 2 ^ (12 + 9))
      (if curIndex123 ≠ lastIndex123 then lookupL4pagetable m pagetable va perm else some l4pagetable).bind
        fun l4pagetable =>
      let next := fun m => mapPages pagetable perm n m ((va + pageSize) % 2 ^ 64) ((pa + pageSize) % 2 ^ 64)
        curIndex123 l4pagetable
      if permBits perm &&& pteP ≠ 0 ∧ l4pagetable ≠ 0 then
        next (setEntry m l4pagetable (pageIndex va 3) (BitVec.ofNat 64 pa ||| permBits perm))
      else if l4pagetable ≠ 0 then next (setEntry m l4pagetable (pageIndex va 3) (permBits perm))
      else if permBits perm &&& pteP ≠ 0 then some (-1, m)
      else next m

/-- The assertions at the head of `virtual_memory_map`. -/
structure MapArgs (pagetable va pa sz : Nat) (perm : BitVec 32) : Prop where
  va_aligned : va % pageSize = 0
  sz_aligned : sz % pageSize = 0
  va_range : va ≤ (va + sz) % 2 ^ 64 ∨ (va + sz) % 2 ^ 64 = 0
  pa_aligned : permBits perm &&& pteP ≠ 0 → pa % pageSize = 0
  pa_range : permBits perm &&& pteP ≠ 0 → pa ≤ (pa + sz) % 2 ^ 64 ∧ (pa + sz) % 2 ^ 64 ≤ memsizePhysical
  perm_range : 0 ≤ perm.toInt ∧ perm.toInt < 0x1000
  pagetable_aligned : pagetable % pageSize = 0

instance (pagetable va pa sz : Nat) (perm : BitVec 32) : Decidable (MapArgs pagetable va pa sz perm) :=
  decidable_of_iff
    (va % pageSize = 0 ∧ sz % pageSize = 0 ∧ (va ≤ (va + sz) % 2 ^ 64 ∨ (va + sz) % 2 ^ 64 = 0) ∧
      (permBits perm &&& pteP ≠ 0 → pa % pageSize = 0) ∧
      (permBits perm &&& pteP ≠ 0 → pa ≤ (pa + sz) % 2 ^ 64 ∧ (pa + sz) % 2 ^ 64 ≤ memsizePhysical) ∧
      (0 ≤ perm.toInt ∧ perm.toInt < 0x1000) ∧ pagetable % pageSize = 0)
    ⟨fun ⟨h₁, h₂, h₃, h₄, h₅, h₆, h₇⟩ => ⟨h₁, h₂, h₃, h₄, h₅, h₆, h₇⟩,
      fun h => ⟨h.1, h.2, h.3, h.4, h.5, h.6, h.7⟩⟩

/-- The returned value and the memory; `sz` is a multiple of the page size, so
that the loop makes `sz / PAGESIZE` rounds. -/
def virtualMemoryMap (m : Memory) (pagetable va pa sz : Nat) (perm : BitVec 32) : Option (Int × Memory) :=
  if MapArgs pagetable va pa sz perm then mapPages pagetable perm (sz / pageSize) m va pa (-1) 0 else none

end WeensyOS.Kernel
