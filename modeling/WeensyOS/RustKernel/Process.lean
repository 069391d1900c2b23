import WeensyOS.Kernel.Mapping
import WeensyOS.Kernel.Process

namespace WeensyOS.RustKernel

open ByteMemory LibC ProgramBreak Kernel

/-- The loop of `virtual_memory_map`; the index of the last table is an `i64` here. -/
def mapPages (pagetable : Nat) (perm : BitVec 32) : Nat → Memory → Nat → Nat → Int → Nat → Option (Int × Memory)
  | 0, m, _, _, _, _ => some (0, m)
  | n + 1, m, va, pa, lastIndex123, l1pagetable =>
      let curIndex123 := asLong (va / 2 ^ (12 + 9) : Nat)
      (if curIndex123 ≠ lastIndex123 then lookupL4pagetable m pagetable va perm else some l1pagetable).bind
        fun l1pagetable =>
      let next := fun m => mapPages pagetable perm n m ((va + pageSize) % 2 ^ 64) ((pa + pageSize) % 2 ^ 64)
        curIndex123 l1pagetable
      if permBits perm &&& pteP ≠ 0 ∧ l1pagetable ≠ 0 then
        next (setEntry m l1pagetable (pageIndex va 3) (BitVec.ofNat 64 pa ||| permBits perm))
      else if l1pagetable ≠ 0 then next (setEntry m l1pagetable (pageIndex va 3) (permBits perm))
      else if permBits perm &&& pteP ≠ 0 then some (-1, m)
      else next m

/-- The assertions are those of the C function. -/
def virtualMemoryMap (m : Memory) (pagetable va pa sz : Nat) (perm : BitVec 32) : Option (Int × Memory) :=
  if MapArgs pagetable va pa sz perm then mapPages pagetable perm (sz / pageSize) m va pa (-1) 0 else none

/-- The loop of `sbrk` for the `n` pages that are left; an index outside of `pageinfo` panics. -/
def unmapPages (pagetable : Nat) : Nat → Machine → Nat → Option Machine
  | 0, s, _ => some s
  | n + 1, s, va =>
      let vam := virtualMemoryLookup s.mem pagetable va
      (if 0 ≤ vam.pn then
        if vam.pn < npages then
          let s := (s.setRefcount vam.pn.toNat 0).setOwner vam.pn.toNat poFree
          (virtualMemoryMap s.mem pagetable va 0 pageSize 0).map fun (_, mem) => { s with mem := mem }
        else none
      else some s).bind fun s => unmapPages pagetable n s ((va + pageSize) % 2 ^ 64)

/-- Sums wrap around. -/
def sbrk (s : Machine) (p : Nat) (difference : Int) : Option (Machine × Int) :=
  let proc := s.processes p
  let newBreak := asWord (asLong (asLong proc.programBreak + difference))
  if newBreak < proc.originalBreak ∨ memsizeVirtual - pageSize ≤ newBreak then some (s, -1)
  else
    (if difference < 0 then
      let oldTop := roundUp proc.programBreak pageSize
      let newTop := roundUp newBreak pageSize
      unmapPages proc.pPagetable ((oldTop - newTop) / pageSize) s newTop
    else some s).map fun s => (s.setBreak p newBreak, 0)

def sysBrk (s : Machine) (current rdi : Nat) : Option (Machine × Nat) :=
  let difference := asLong (asLong rdi - asLong (s.processes current).programBreak)
  (sbrk s current difference).map fun (s, r) => (s, if r = 0 then 0 else 2 ^ 64 - 1)

def sysSbrk (s : Machine) (current rdi : Nat) : Option (Machine × Nat) :=
  let difference := asLong rdi
  let oldBreak := (s.processes current).programBreak
  (sbrk s current difference).map fun (s, r) => (s, if r = 0 then oldBreak else 2 ^ 64 - 1)

section Words

theorem asLong_natCast {n : Nat} (hn : n < 2 ^ 63) : asLong n = n := by
  rw [asLong_eq, Int.bmod_def]
  omega

theorem asWord_asLong (z : Int) : asWord (asLong z) = asWord z := by
  rw [asWord_eq, asWord_eq, asLong_eq, Int.bmod_def]
  split <;> omega

theorem asWord_asLong_add (a z : Int) : asWord (asLong (asLong a + z)) = asWord (a + z) := by
  rw [asWord_asLong, asWord_eq, asWord_eq, asLong_eq, Int.bmod_def]
  split <;> omega

/-- The signed difference of two words is their unsigned difference, converted. -/
theorem asLong_sub (a b : Int) : asLong (asLong a - asLong b) = asLong (asWord (a - b)) := by
  rw [asWord_eq, asLong_eq, asLong_eq, asLong_eq, asLong_eq]
  simp only [Int.bmod_def]
  omega

end Words

section Agreement

variable {m : Memory} {pt va pa n : Nat} {perm : BitVec 32} {last : Int} {l1 : Nat}

/-- The two kernels map the same pages, as long as the C kernel's `int` holds the index. -/
theorem mapPages_eq (h : va + 4096 * n ≤ 2 ^ 52) :
    mapPages pt perm n m va pa last l1 = Kernel.mapPages pt perm n m va pa last l1 := by
  induction n generalizing m va pa last l1 with
  | zero => rfl
  | succ n ih =>
      have hindex : asLong (va / 2 ^ (12 + 9) : Nat) = asInt (va / 2 ^ (12 + 9)) := by
        rw [asLong_natCast (by omega), asInt_eq (by omega)]
      have hnext : (va + pageSize) % 2 ^ 64 + 4096 * n ≤ 2 ^ 52 := by
        simp only [pageSize]
        omega
      simp only [mapPages, Kernel.mapPages, hindex, ih hnext]

theorem virtualMemoryMap_eq (h : va + 4096 ≤ 2 ^ 52) :
    virtualMemoryMap m pt va pa pageSize perm = Kernel.virtualMemoryMap m pt va pa pageSize perm := by
  have hone : pageSize / pageSize = 1 := rfl
  rw [virtualMemoryMap, Kernel.virtualMemoryMap, hone, mapPages_eq (by omega)]

theorem setRefcount_setOwner (s : Machine) (pn : Nat) (o c : Int) :
    (s.setRefcount pn c).setOwner pn o = (s.setOwner pn o).setRefcount pn c := by
  simp only [Machine.setOwner, Machine.setRefcount, Function.update_self, Function.update_idem]

theorem unmapPages_eq (s : Machine) (h : va + 4096 * n ≤ 2 ^ 52) :
    unmapPages pt n s va = Kernel.unmapPages pt n s va := by
  induction n generalizing s va with
  | zero => rfl
  | succ n ih =>
      have hva : va + 4096 ≤ 2 ^ 52 := Nat.le_trans (Nat.add_le_add_left (Nat.le_mul_of_pos_right 4096 (Nat.succ_pos n)) va) h
      have hnext : (va + pageSize) % 2 ^ 64 + 4096 * n ≤ 2 ^ 52 := by
        simp only [pageSize]
        omega
      have hmap (s : Machine) : virtualMemoryMap s.mem pt va 0 pageSize 0 =
          Kernel.virtualMemoryMap s.mem pt va 0 pageSize 0 := virtualMemoryMap_eq hva
      simp only [unmapPages, Kernel.unmapPages, setRefcount_setOwner, hmap, ih _ hnext]

end Agreement

end WeensyOS.RustKernel
