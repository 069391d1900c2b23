import WeensyOS.Kernel.Exceptions
import WeensyOS.Kernel.Unmapping

namespace WeensyOS.Kernel

open ByteMemory LibC ProgramBreak

def kernelStartAddr : Nat := 0x40000

def kernelStackTop : Nat := 0x80000

/-- What the linker and the boot code fix: the kernel's image ends below the memory of the processes. -/
structure KernelLayout where
  startData : Nat
  end_ : Nat
  kernelPagetable : Nat
  end_le : end_ ≤ procStartAddr

section Checks

variable (L : KernelLayout) (s : Machine)

/-- The address is mapped to itself, with `PTE_W` where `writable` says so. -/
def checkIdentity (m : Memory) (pt va : Nat) (writable : Bool) : Bool :=
  let vam := virtualMemoryLookup m pt va
  decide (vam.pa = va) && (!writable || decide (permBits vam.perm &&& pteW ≠ 0))

def checkPageTableMappings (pt : Nat) : Bool :=
  decide (pteAddr (BitVec.ofNat 64 pt) = pt) &&
    (List.range ((L.end_ - kernelStartAddr + pageSize - 1) / pageSize)).all (fun k =>
      checkIdentity s.mem pt (kernelStartAddr + pageSize * k)
        (decide (L.startData ≤ kernelStartAddr + pageSize * k))) &&
      checkIdentity s.mem pt (kernelStackTop - pageSize) true

/-- The assertions about one table; a page number outside of `pageinfo` fails them. -/
def checkTable (owner refcount : Int) (pt : Nat) : Bool :=
  let pn := pageNumber pt
  decide (0 ≤ pn) && decide (pn < npages) && decide ((s.pageinfo pn.toNat).owner = owner) &&
    decide ((s.pageinfo pn.toNat).refcount = refcount)

/-- The recursion of the function, with the number of levels below the table. -/
def checkPageTableOwnershipLevel (owner : Int) : Nat → Nat → Int → Bool
  | 0, pt, refcount => checkTable s owner refcount pt
  | levels + 1, pt, refcount =>
      checkTable s owner refcount pt &&
        (List.range 512).all fun index => decide (entry s.mem pt index = 0) ||
          checkPageTableOwnershipLevel owner levels (pteAddr (entry s.mem pt index)) 1

/-- The number of processes that use the kernel's page table. -/
def kernelUsers : Nat := (List.range nproc).countP fun xpid =>
  decide ((s.processes xpid).pState ≠ .free) && decide ((s.processes xpid).pPagetable = L.kernelPagetable)

def checkPageTableOwnership (pt : Nat) (pid : Int) : Bool :=
  if pt = L.kernelPagetable then checkPageTableOwnershipLevel s poKernel 3 pt (1 + kernelUsers L s)
  else checkPageTableOwnershipLevel s pid 3 pt 1

/-- The function returns; otherwise an assertion fails. -/
def checkVirtualMemory : Bool :=
  decide ((s.processes 0).pState = .free) && checkPageTableMappings L s L.kernelPagetable &&
    checkPageTableOwnership L s L.kernelPagetable (-1) &&
      (List.range nproc).all (fun pid => decide ((s.processes pid).pState = .free) ||
        decide ((s.processes pid).pPagetable = L.kernelPagetable) ||
          (checkPageTableMappings L s (s.processes pid).pPagetable &&
            checkPageTableOwnership L s (s.processes pid).pPagetable pid)) &&
        (List.range npages).all fun pn => !(decide (0 < (s.pageinfo pn).refcount) && decide (0 ≤ (s.pageinfo pn).owner)) ||
          (decide ((s.pageinfo pn).owner < nproc) && decide ((s.processes (s.pageinfo pn).owner.toNat).pState ≠ .free))

end Checks

/-- The table `t` is found at the end of a path of nonzero entries. -/
inductive Visits (m : Memory) : Nat → List Nat → Nat → Prop
  | nil (pt : Nat) : Visits m pt [] pt
  | cons {pt i t : Nat} {path : List Nat} (hi : i < 512) (hne : entry m pt i ≠ 0)
      (rest : Visits m (pteAddr (entry m pt i)) path t) : Visits m pt (i :: path) t

variable {L : KernelLayout} {s s' : Machine} {m m' : Memory} {p pt t va i : Nat} {path : List Nat} {owner refcount : Int}

/-- The kernel's page table is in use once, the others by the process that owns them. -/
structure TableOk (s : Machine) (owner refcount : Int) (pt : Nat) : Prop where
  nonneg : 0 ≤ pageNumber pt
  lt : pageNumber pt < npages
  owner : (s.pageinfo (pageNumber pt).toNat).owner = owner
  refcount : (s.pageinfo (pageNumber pt).toNat).refcount = refcount

section Checked

theorem checkTable_iff : checkTable s owner refcount pt = true ↔ TableOk s owner refcount pt := by
  simp only [checkTable, Bool.and_eq_true, decide_eq_true_eq]
  exact ⟨fun ⟨⟨⟨h₁, h₂⟩, h₃⟩, h₄⟩ => ⟨h₁, h₂, h₃, h₄⟩, fun h => ⟨⟨⟨h.nonneg, h.lt⟩, h.owner⟩, h.refcount⟩⟩

theorem ownershipLevel_iff (owner : Int) (n pt : Nat) (refcount : Int) :
    checkPageTableOwnershipLevel s owner n pt refcount = true ↔ TableOk s owner refcount pt ∧
      ∀ path t, Visits s.mem pt path t → path ≠ [] → path.length ≤ n → TableOk s owner 1 t := by
  induction n generalizing pt refcount with
  | zero =>
      rw [checkPageTableOwnershipLevel, checkTable_iff]
      refine ⟨fun h => ⟨h, fun path t _ hne hlen => ?_⟩, fun h => h.1⟩
      exact absurd (List.eq_nil_of_length_eq_zero (Nat.le_zero.mp hlen)) hne
  | succ n ih =>
      rw [checkPageTableOwnershipLevel, Bool.and_eq_true, checkTable_iff, List.all_eq_true]
      refine and_congr_right fun _ => ⟨fun h path t hv hne hlen => ?_, fun h i hi => ?_⟩
      · cases hv with
        | nil => exact absurd rfl hne
        | @cons _ i _ path hi hentry hrest =>
            have hall := h i (List.mem_range.mpr hi)
            rw [Bool.or_eq_true, decide_eq_true_eq, ih] at hall
            have hchild := hall.resolve_left hentry
            cases hrest with
            | nil => exact hchild.1
            | cons hi' hentry' hrest' =>
                exact hchild.2 _ _ (.cons hi' hentry' hrest') (List.cons_ne_nil _ _) (Nat.le_of_succ_le_succ hlen)
      · rw [Bool.or_eq_true, decide_eq_true_eq, ih]
        by_cases hentry : entry s.mem pt i = 0
        · exact .inl hentry
        · have hi' := List.mem_range.mp hi
          refine .inr ⟨h [i] _ (.cons hi' hentry (.nil _)) (List.cons_ne_nil _ _) (Nat.le_add_left 1 n), ?_⟩
          intro path t hv _ hlen
          exact h (i :: path) t (.cons hi' hentry hv) (List.cons_ne_nil _ _) (Nat.succ_le_succ hlen)

/-- The kernel's image and its stack are mapped to themselves. -/
structure IdentityMapped (L : KernelLayout) (m : Memory) (pt : Nat) : Prop where
  aligned : pteAddr (BitVec.ofNat 64 pt) = pt
  image : ∀ k < (L.end_ - kernelStartAddr + pageSize - 1) / pageSize,
    checkIdentity m pt (kernelStartAddr + pageSize * k) (decide (L.startData ≤ kernelStartAddr + pageSize * k)) = true
  stack : checkIdentity m pt (kernelStackTop - pageSize) true = true

theorem checkPageTableMappings_iff : checkPageTableMappings L s pt = true ↔ IdentityMapped L s.mem pt := by
  simp only [checkPageTableMappings, Bool.and_eq_true, decide_eq_true_eq, List.all_eq_true, List.mem_range]
  exact ⟨fun ⟨⟨h₁, h₂⟩, h₃⟩ => ⟨h₁, h₂, h₃⟩, fun h => ⟨⟨h.aligned, h.image⟩, h.stack⟩⟩

/-- A table and all tables below it have the owner, and each of those below is in use once. -/
structure TablesOwned (s : Machine) (pt : Nat) (owner refcount : Int) : Prop where
  top : TableOk s owner refcount pt
  below : ∀ path t, Visits s.mem pt path t → path ≠ [] → path.length ≤ 3 → TableOk s owner 1 t

theorem tablesOwned_iff :
    checkPageTableOwnershipLevel s owner 3 pt refcount = true ↔ TablesOwned s pt owner refcount := by
  rw [ownershipLevel_iff]
  exact ⟨fun ⟨h₁, h₂⟩ => ⟨h₁, h₂⟩, fun h => ⟨h.top, h.below⟩⟩

/-- The assertions of `check_virtual_memory`. -/
structure Checked (L : KernelLayout) (s : Machine) : Prop where
  zero : (s.processes 0).pState = .free
  kernelMapped : IdentityMapped L s.mem L.kernelPagetable
  kernelOwned : TablesOwned s L.kernelPagetable poKernel (1 + kernelUsers L s)
  mapped : ∀ pid < nproc, (s.processes pid).pState ≠ .free → (s.processes pid).pPagetable ≠ L.kernelPagetable →
    IdentityMapped L s.mem (s.processes pid).pPagetable
  owned : ∀ pid < nproc, (s.processes pid).pState ≠ .free → (s.processes pid).pPagetable ≠ L.kernelPagetable →
    TablesOwned s (s.processes pid).pPagetable pid 1
  owners : ∀ pn < npages, 0 < (s.pageinfo pn).refcount → 0 ≤ (s.pageinfo pn).owner →
    (s.pageinfo pn).owner < nproc ∧ (s.processes (s.pageinfo pn).owner.toNat).pState ≠ .free

theorem checkVirtualMemory_iff : checkVirtualMemory L s = true ↔ Checked L s := by
  have hkernel : checkPageTableOwnership L s L.kernelPagetable (-1) = true ↔
      TablesOwned s L.kernelPagetable poKernel (1 + kernelUsers L s) := by
    rw [checkPageTableOwnership, if_pos rfl, tablesOwned_iff]
  have hproc (pid : Nat) (hne : (s.processes pid).pPagetable ≠ L.kernelPagetable) :
      checkPageTableOwnership L s (s.processes pid).pPagetable pid = true ↔
        TablesOwned s (s.processes pid).pPagetable pid 1 := by
    rw [checkPageTableOwnership, if_neg hne, tablesOwned_iff]
  simp only [checkVirtualMemory, Bool.and_eq_true, Bool.or_eq_true, Bool.not_eq_true', decide_eq_true_eq,
    List.all_eq_true, List.mem_range, hkernel, checkPageTableMappings_iff, Bool.and_eq_false_iff, decide_eq_false_iff_not]
  constructor
  · rintro ⟨⟨⟨⟨h₁, h₂⟩, h₃⟩, h₄⟩, h₅⟩
    refine ⟨h₁, h₂, h₃, fun pid hpid hlive hne => ?_, fun pid hpid hlive hne => ?_, fun pn hpn hrc howner => ?_⟩
    · rcases h₄ pid hpid with (hf | heq) | h
      · exact absurd hf hlive
      · exact absurd heq hne
      · exact h.1
    · rcases h₄ pid hpid with (hf | heq) | h
      · exact absurd hf hlive
      · exact absurd heq hne
      · exact (hproc pid hne).mp h.2
    · rcases h₅ pn hpn with (hf | hf) | h
      · exact absurd hrc hf
      · exact absurd howner hf
      · exact h
  · intro h
    refine ⟨⟨⟨⟨h.zero, h.kernelMapped⟩, h.kernelOwned⟩, fun pid hpid => ?_⟩, fun pn hpn => ?_⟩
    · by_cases hlive : (s.processes pid).pState = .free
      · exact .inl (.inl hlive)
      · by_cases hne : (s.processes pid).pPagetable = L.kernelPagetable
        · exact .inl (.inr hne)
        · exact .inr ⟨h.mapped pid hpid hlive hne, (hproc pid hne).mpr (h.owned pid hpid hlive hne)⟩
    · by_cases hrc : 0 < (s.pageinfo pn).refcount
      · by_cases howner : 0 ≤ (s.pageinfo pn).owner
        · exact .inr (h.owners pn hpn hrc howner)
        · exact .inl (.inr howner)
      · exact .inl (.inl hrc)

end Checked

end WeensyOS.Kernel
