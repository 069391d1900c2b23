import WeensyOS.Kernel.ConsistentSteps
import WeensyOS.Kernel.Isolation
import WeensyOS.Kernel.Loader
import WeensyOS.Kernel.TableCache
import WeensyOS.Kernel.VirtualStores
import WeensyOS.Shared.Console

namespace WeensyOS.Kernel

open ByteMemory Console LibC ProgramBreak

def iophysmem : Nat := 0xA0000

def extphysmem : Nat := 0x100000

/-- The kernel as it is linked, below the I/O memory. Its five page tables and the functions that
`set_pagetable` looks up are inside of it. -/
structure KernelImage extends KernelLayout where
  end_io : end_ ≤ iophysmem
  defaultIntHandler : Nat
  virtualMemoryMap : Nat
  tables_aligned : 4096 ∣ kernelPagetable
  start_le : kernelStartAddr ≤ kernelPagetable
  tables_le : kernelPagetable + 5 * pageSize ≤ end_
  handler_lt : kernelStartAddr ≤ defaultIntHandler ∧ defaultIntHandler < end_
  map_lt : kernelStartAddr ≤ virtualMemoryMap ∧ virtualMemoryMap < end_

def KernelImage.symbols (I : KernelImage) : Symbols := ⟨I.defaultIntHandler, I.kernelPagetable, I.virtualMemoryMap⟩

/-- The loop of `virtual_memory_init` over the physical pages, which has two assertions. -/
def IdentityChecked (m : Memory) (pagetable : Nat) : Prop :=
  ∀ k < memsizePhysical / pageSize, (virtualMemoryLookup m pagetable (pageSize * k)).pa = pageSize * k ∧
    permBits (virtualMemoryLookup m pagetable (pageSize * k)).perm &&& (pteP ||| pteW) = pteP ||| pteW

instance (m : Memory) (pagetable : Nat) : Decidable (IdentityChecked m pagetable) :=
  inferInstanceAs (Decidable (∀ k < memsizePhysical / pageSize, _))

def virtualMemoryInit (k : Symbols) (m : Memory) : Option Memory :=
  (virtualMemoryMap (connectTables m k.kernelPagetable) k.kernelPagetable 0 0 memsizePhysical 7).bind fun (_, m) =>
  if IdentityChecked m k.kernelPagetable then
    if PagetableOk k m k.kernelPagetable then some m else none
  else none

def physicalMemoryIsreserved (pa : Nat) : Bool := decide (pa = 0) || (decide (iophysmem ≤ pa) && decide (pa < extphysmem))

def initialOwner (end_ addr : Nat) : Int :=
  if physicalMemoryIsreserved addr then poReserved
  else if (kernelStartAddr ≤ addr ∧ addr < end_) ∨ addr = kernelStackTop - pageSize then poKernel
  else poFree

/-- The loop of `pageinfo_init` over the first `n` pages. -/
def pageinfoInit (end_ n : Nat) (s : Machine) : Machine :=
  (List.range n).foldl (fun s k =>
    let addr := pageSize * k
    let owner := initialOwner end_ addr
    (s.setOwner (pageNumber addr).toNat owner).setRefcount (pageNumber addr).toNat (if owner ≠ poFree then 1 else 0)) s

/-- `memset` of the process descriptors, and the loop after it. -/
def processesInit (s : Machine) : Machine :=
  { s with processes := fun pid => if pid < nproc then ⟨0, 0, .free, 0⟩ else s.processes pid }

@[simp] theorem processesInit_mem (s : Machine) : (processesInit s).mem = s.mem := rfl

def consoleAddr : Nat := 0xB8000

def cursorposAddr : Nat := 0xB8FFC

/-- A blank of `console_clear`, `' ' | 0x0700`. -/
def blankCell : Nat := 0x20 ||| 0x0700

/-- The loop of `console_clear` over the first `n` cells. -/
def clearCells (m : Memory) (n : Nat) : Memory :=
  (List.range n).foldl (fun m i => writeLE m (consoleAddr + 2 * i) 2 blankCell) m

def consoleClear (m : Memory) : Memory := writeLE (clearCells m consoleCells) cursorposAddr 4 0

/-- What `kernel` does to the page tables, the page and process descriptors and the console before it sets up
processes. The other variables of the kernel and its stack are not part of the machine. -/
def kernelInit (I : KernelImage) (s : Machine) : Option Machine :=
  (virtualMemoryInit I.symbols s.mem).map fun m =>
    let s := pageinfoInit I.end_ npages { s with mem := m }
    processesInit { s with mem := consoleClear s.mem }

variable {I : KernelImage} {m m' : Memory} {s s' : Machine} {kp va a i j t : Nat} {path : List Nat}

/-- The kernel's table after `virtual_memory_init`: it maps physical memory to itself. -/
structure IdentityTable (m : Memory) (kp : Nat) : Prop extends KernelTables m kp where
  low : ∀ a < memsizePhysical, leafEntry m kp a = some (leafValue (a / 4096 * 4096) heapPerm)
  high : ∀ a, memsizePhysical ≤ a → a < 2 ^ 48 → leafEntry m kp a = none ∨ leafEntry m kp a = some 0

section Identity

theorem IdentityTable.lookup (h : IdentityTable m kp) (ha : a < memsizePhysical) :
    virtualMemoryLookup m kp a = ⟨pageNumber a, a, heapPerm⟩ := by
  have hphys : memsizePhysical = 2097152 := rfl
  have haddr : a / 4096 * 4096 + pageOffset a = a := by
    have hpage : pageSize = 4096 := rfl
    rw [pageOffset, hpage]
    omega
  rw [h.tree.lookup (by omega), h.low a ha,
    mappingOf_leafValue (by decide) (Nat.mul_mod_left _ _) (by omega) (by decide), haddr]

theorem IdentityTable.lookup_high (h : IdentityTable m kp) (ha : memsizePhysical ≤ a) (hlt : a < 2 ^ 48) :
    virtualMemoryLookup m kp a = .unmapped := by
  rw [h.tree.lookup hlt]
  rcases h.high a ha hlt with hnone | hzero
  · rw [hnone]
    rfl
  · rw [hzero]
    rfl

theorem IdentityTable.congr (h : IdentityTable m kp) (hsame : ∀ i < 5, SamePage m m' (kernelPagetableAt kp i)) :
    IdentityTable m' kp where
  toKernelTables := h.toKernelTables.congr hsame
  low a ha := (h.leafEntry_congr hsame a).trans (h.low a ha)
  high a ha hlt := by
    rw [h.leafEntry_congr hsame a]
    exact h.high a ha hlt

/-- Mapping physical memory to itself works, and writes to the first of the last-level tables only. -/
theorem identity_mapped (m : Memory) (hdvd : 4096 ∣ kp) (hpos : 0 < kp) (hle : kp + 5 * pageSize ≤ procStartAddr) :
    ∃ m', virtualMemoryMap (connectTables m kp) kp 0 0 memsizePhysical 7 = some (0, m') ∧ IdentityTable m' kp ∧
      ∀ x, x < kp ∨ kp + 5 * pageSize ≤ x → m' x = m x := by
  have hphys : memsizePhysical = 2097152 := rfl
  have hpage : pageSize = 4096 := rfl
  have h := connectTables_kernelTables m hdvd hpos hle
  have hargs : MapArgs kp 0 0 memsizePhysical 7 :=
    ⟨by decide, by decide, by decide, fun _ => by decide, fun _ => by decide, by decide, Nat.mod_eq_zero_of_dvd hdvd⟩
  have hcall (n : Nat) (hn : n ≤ 512) : ∃ r m', mapPages kp 7 n (connectTables m kp) 0 0 (-1) 0 = some (r, m') ∧
      Mapped (connectTables m kp) m' kp (2 ^ 48) 0 n 0 7 r :=
    (mapPages_mapped h.tree.toShape (Nat.le_refl _) rfl (by omega) (fun _ => by omega) (.inl rfl)).resolve_right
      fun hfail => hfail.2 (h.tree.allows 7)
  obtain ⟨r, m', hrun, hmapped⟩ := hcall 512 (Nat.le_refl _)
  have hzero : r = 0 := by
    have hby := hrun
    rw [mapPages_eq_by] at hby
    have hend : 0 + pageSize * 512 ≤ 2 ^ 64 := by decide
    refine (mapPagesBy_failed hend hby).resolve_right ?_
    rintro ⟨-, -, k, hk, hfront, htable⟩
    rw [← mapPages_eq_by] at hfront
    obtain ⟨r', m'', hrun', hmapped'⟩ := hcall k (Nat.le_of_lt hk)
    obtain ⟨rfl, rfl⟩ := Prod.mk.inj (Option.some.inj (hfront.symm.trans hrun'))
    have hfirst : intIndex 0 ≠ -1 := by decide +kernel
    have hleaf := htable fun _ => hfirst
    rw [hpage] at hleaf
    rw [hmapped'.upper.leafTable (by omega)] at hleaf
    exact h.leafTable_low (by omega) hleaf
  subst hzero
  have hmap : virtualMemoryMap (connectTables m kp) kp 0 0 memsizePhysical 7 = some (0, m') := by
    rw [virtualMemoryMap, if_pos hargs]
    exact hrun
  have hout (x : Nat) (hx : x < kernelPagetableAt kp 3 ∨ kernelPagetableAt kp 4 ≤ x) : m' x = connectTables m kp x := by
    refine hmapped.outside x fun a _ ha _ => ?_
    have hsucc : kernelPagetableAt kp 4 = kernelPagetableAt kp 3 + 4096 := by
      rw [kernelPagetableAt, kernelPagetableAt, hpage]
    rw [h.table_low (by omega)]
    omega
  have h' : KernelTables m' kp := by
    refine ⟨hdvd, hpos, hle, fun j hj i hi => ?_⟩
    rw [← h.upper j hj i hi]
    refine entry_congr (fun x _ hx => hout x (.inl ?_)) hi
    rw [kernelPagetableAt, hpage] at hx ⊢
    omega
  refine ⟨m', hmap, ⟨h', fun a ha => ?_, fun a ha hlt => ?_⟩, fun x hx => ?_⟩
  · rw [hmapped.leaf rfl a (by omega), if_pos ⟨by omega, h.leafTable_low ha⟩]
    have hsame : 0 + (a / 4096 * 4096 - 0) = a / 4096 * 4096 := by omega
    rw [hsame]
    rfl
  · rw [hmapped.leaf rfl a hlt, if_neg (by omega)]
    exact connectTables_high m h a
  · refine (hout x ?_).trans (connectTables_outside m hdvd hle hx)
    rw [kernelPagetableAt, kernelPagetableAt, hpage]
    omega

theorem IdentityTable.pagetableOk (I : KernelImage) (h : IdentityTable m I.kernelPagetable) :
    PagetableOk I.symbols m I.kernelPagetable := by
  have hphys : memsizePhysical = 2097152 := rfl
  have hpage : pageSize = 4096 := rfl
  have hstart : procStartAddr = 0x100000 := rfl
  have hend := I.end_le
  have hle := I.tables_le
  have hhandler := I.handler_lt
  have hfun := I.map_lt
  have hpa (a : Nat) (ha : a < memsizePhysical) : (virtualMemoryLookup m I.kernelPagetable a).pa = a := by rw [h.lookup ha]
  exact ⟨Nat.mod_eq_zero_of_dvd I.tables_aligned, hpa I.defaultIntHandler (by omega), hpa I.kernelPagetable (by omega),
    hpa I.kernelPagetable (by omega), hpa I.virtualMemoryMap (by omega)⟩

theorem virtualMemoryInit_spec (I : KernelImage) (m : Memory) : ∃ m', virtualMemoryInit I.symbols m = some m' ∧
    IdentityTable m' I.kernelPagetable ∧
      ∀ x, x < I.kernelPagetable ∨ I.kernelPagetable + 5 * pageSize ≤ x → m' x = m x := by
  have hphys : memsizePhysical = 2097152 := rfl
  have hpage : pageSize = 4096 := rfl
  have hstart : procStartAddr = 0x100000 := rfl
  have hkernel : kernelStartAddr = 0x40000 := rfl
  have hend := I.end_le
  have hfirst := I.start_le
  have hle := Nat.le_trans I.tables_le I.end_le
  obtain ⟨m', hmap, hid, hout⟩ := identity_mapped m I.tables_aligned (by omega) hle
  have hchecked : IdentityChecked m' I.kernelPagetable := by
    intro k hk
    have hperm : permBits heapPerm &&& (pteP ||| pteW) = pteP ||| pteW := by decide
    have ha : pageSize * k < memsizePhysical := by
      rw [hphys, hpage] at hk
      rw [hphys, hpage]
      omega
    rw [hid.lookup ha]
    exact ⟨rfl, hperm⟩
  refine ⟨m', ?_, hid, hout⟩
  have hmap' : virtualMemoryMap (connectTables m I.symbols.kernelPagetable) I.symbols.kernelPagetable 0 0 memsizePhysical 7 =
      some (0, m') := hmap
  rw [virtualMemoryInit, hmap', Option.bind_some]
  exact (if_pos hchecked).trans (if_pos (hid.pagetableOk I))

end Identity

section Pageinfo

theorem pageNumber_page {k : Nat} (hk : k < 2 ^ 31) : pageNumber (pageSize * k) = k := by
  have hpage : pageSize = 4096 := rfl
  have hdiv : pageSize * k / 2 ^ 12 = k := by
    rw [hpage]
    omega
  rw [pageNumber, hdiv, asInt_eq hk]

def initialInfo (end_ pn : Nat) : PageInfo :=
  ⟨initialOwner end_ (pageSize * pn), if initialOwner end_ (pageSize * pn) ≠ poFree then 1 else 0⟩

theorem pageinfoInit_spec (end_ : Nat) {n : Nat} (hn : n < 2 ^ 31) (s : Machine) :
    (pageinfoInit end_ n s).mem = s.mem ∧ (pageinfoInit end_ n s).processes = s.processes ∧
      ∀ pn, (pageinfoInit end_ n s).pageinfo pn = if pn < n then initialInfo end_ pn else s.pageinfo pn := by
  induction n with
  | zero => exact ⟨rfl, rfl, fun pn => (if_neg (Nat.not_lt_zero pn)).symm⟩
  | succ n ih =>
      obtain ⟨hmem, hproc, hinfo⟩ := ih (by omega)
      have hstep : pageinfoInit end_ (n + 1) s = ((pageinfoInit end_ n s).setOwner n (initialOwner end_ (pageSize * n))).setRefcount n
          (if initialOwner end_ (pageSize * n) ≠ poFree then 1 else 0) := by
        rw [pageinfoInit, List.range_succ, List.foldl_append]
        simp only [List.foldl_cons, List.foldl_nil, pageNumber_page (by omega : n < 2 ^ 31), Int.toNat_natCast]
        rfl
      rw [hstep]
      refine ⟨hmem, hproc, fun pn => ?_⟩
      by_cases hpn : pn = n
      · subst hpn
        rw [if_pos (Nat.lt_succ_self pn)]
        simp [Machine.setOwner, Machine.setRefcount, initialInfo]
      · have hlt : pn < n + 1 ↔ pn < n := by omega
        simp only [Machine.setOwner, Machine.setRefcount, Function.update_of_ne hpn, hinfo, hlt]

theorem initialOwner_cases (end_ addr : Nat) : initialOwner end_ addr = poReserved ∨ initialOwner end_ addr = poKernel ∨
    initialOwner end_ addr = poFree := by
  rw [initialOwner]
  split
  · exact .inl rfl
  · split
    · exact .inr (.inl rfl)
    · exact .inr (.inr rfl)

/-- The page of an address of the kernel's image belongs to the kernel. -/
theorem initialInfo_image {end_ x : Nat} (hlo : kernelStartAddr ≤ x) (hhi : x < end_)
    (hio : x < iophysmem) : initialInfo end_ (x / pageSize) = ⟨poKernel, 1⟩ := by
  have hpage : pageSize = 4096 := rfl
  have hstart : kernelStartAddr = 0x40000 := rfl
  have howner : initialOwner end_ (pageSize * (x / pageSize)) = poKernel := by
    have hio' : iophysmem = 0xA0000 := rfl
    have hreserved : physicalMemoryIsreserved (pageSize * (x / pageSize)) = false := by
      simp only [physicalMemoryIsreserved, Bool.or_eq_false_iff, Bool.and_eq_false_iff, decide_eq_false_iff_not, hpage]
      omega
    have himage : kernelStartAddr ≤ pageSize * (x / pageSize) ∧ pageSize * (x / pageSize) < end_ := by
      rw [hpage]
      omega
    rw [initialOwner, hreserved, if_neg Bool.false_ne_true, if_pos (.inl himage)]
  rw [initialInfo, howner]
  rfl

end Pageinfo

section Clear

theorem clearCells_succ (m : Memory) (n : Nat) :
    clearCells m (n + 1) = writeLE (clearCells m n) (consoleAddr + 2 * n) 2 blankCell := by
  rw [clearCells, List.range_succ, List.foldl_append]
  rfl

theorem clearCells_outside (m : Memory) {n x : Nat} (hx : x < consoleAddr ∨ consoleAddr + 2 * n ≤ x) :
    clearCells m n x = m x := by
  induction n with
  | zero => rfl
  | succ n ih => rw [clearCells_succ, writeLE_outside _ (by omega), ih (by omega)]

theorem clearCells_inside (m : Memory) {n : Nat} (hi : i < n) : readLE (clearCells m n) (consoleAddr + 2 * i) 2 = blankCell := by
  induction n with
  | zero => exact absurd hi (Nat.not_lt_zero i)
  | succ n ih =>
      rw [clearCells_succ]
      by_cases hin : i = n
      · subst hin
        exact readLE_writeLE_self _ _ _ _
      · rw [readLE_writeLE_disjoint _ (by omega)]
        exact ih (by omega)

theorem consoleClear_outside (m : Memory) {x : Nat} (hcells : x < consoleAddr ∨ consoleAddr + 2 * consoleCells ≤ x)
    (hcursor : x < cursorposAddr ∨ cursorposAddr + 4 ≤ x) : consoleClear m x = m x := by
  rw [consoleClear, writeLE_outside _ hcursor, clearCells_outside m hcells]

theorem consoleClear_cleared (m : Memory) : (∀ i < consoleCells, readLE (consoleClear m) (consoleAddr + 2 * i) 2 = blankCell) ∧
    readLE (consoleClear m) cursorposAddr 4 = 0 := by
  refine ⟨fun i hi => ?_, readLE_writeLE_self _ _ _ _⟩
  have hcells : consoleCells = 2000 := rfl
  have hconsole : consoleAddr = 0xB8000 := rfl
  have hcursor : cursorposAddr = 0xB8FFC := rfl
  rw [consoleClear, readLE_writeLE_disjoint _ (by omega), clearCells_inside m hi]

/-- The kernel's tables are below the console. -/
theorem consoleClear_tables (m : Memory) (hle : kp + 5 * pageSize ≤ iophysmem) (hi : i < 5) :
    SamePage m (consoleClear m) (kernelPagetableAt kp i) := by
  have hpage : pageSize = 4096 := rfl
  have hio : iophysmem = 0xA0000 := rfl
  have hconsole : consoleAddr = 0xB8000 := rfl
  have hcursor : cursorposAddr = 0xB8FFC := rfl
  intro x hx hx'
  rw [kernelPagetableAt, hpage] at hx'
  exact consoleClear_outside m (by omega) (by omega)

end Clear

/-- The state in which the first process is set up. -/
structure Booted (I : KernelImage) (s s' : Machine) : Prop where
  /-- Physical memory is mapped to itself, for the kernel and for applications, and nothing else is mapped. -/
  identity : ∀ a < memsizePhysical, Reaches s'.mem I.kernelPagetable a 4 ∧ target s'.mem I.kernelPagetable a = a ∧
    ∀ i < 4, levelEntry s'.mem I.kernelPagetable a i &&& pteW ≠ 0 ∧ levelEntry s'.mem I.kernelPagetable a i &&& pteU ≠ 0
  beyond : ∀ a, memsizePhysical ≤ a → a < 2 ^ 48 → virtualMemoryLookup s'.mem I.kernelPagetable a = .unmapped
  tree : Tree s'.mem I.kernelPagetable (2 ^ 48)
  /-- The console is blank, and the cursor is at its start. -/
  cleared : (∀ i < consoleCells, readLE s'.mem (consoleAddr + 2 * i) 2 = blankCell) ∧ readLE s'.mem cursorposAddr 4 = 0
  /-- Of memory, the kernel's tables, the cells of the console and the cursor have been written. -/
  outside : ∀ x, x < I.kernelPagetable ∨ I.kernelPagetable + 5 * pageSize ≤ x →
    x < consoleAddr ∨ consoleAddr + 2 * consoleCells ≤ x → x < cursorposAddr ∨ cursorposAddr + 4 ≤ x → s'.mem x = s.mem x
  /-- The checks of the kernel pass: those of `check_virtual_memory`, and those of `set_pagetable`. -/
  checked : checkVirtualMemory I.toKernelLayout s' = true
  pagetable : PagetableOk I.symbols s'.mem I.kernelPagetable
  /-- No process is there, and the invariants of the later runs hold. -/
  noProcess : ∀ p < nproc, ¬Live s' p
  kernelOk : KernelOk s'
  consistent : Consistent I.toKernelLayout s'
  /-- A page that may be handed out is no part of the kernel, of its stack, or of the I/O memory. -/
  free : ∀ page : NewPage, page.Free s' → ∀ x, x / pageSize = page.number →
    ¬(kernelStartAddr ≤ x ∧ x < I.end_) ∧ ¬(kernelStackTop - pageSize ≤ x ∧ x < kernelStackTop) ∧
      ¬(iophysmem ≤ x ∧ x < extphysmem)

section Boot

theorem IdentityTable.open (h : IdentityTable m kp) (ha : a < memsizePhysical) : Reaches m kp a 4 ∧ target m kp a = a ∧
    ∀ i < 4, levelEntry m kp a i &&& pteW ≠ 0 ∧ levelEntry m kp a i &&& pteU ≠ 0 := by
  have hphys : memsizePhysical = 2097152 := rfl
  have hpage : pageSize = 4096 := rfl
  have hsize : npages = 512 := rfl
  have hr := h.reaches_low (by omega : a < 2 ^ 22) (Nat.le_refl 3)
  have hpn : a / 4096 < npages := by omega
  have hleaf : levelEntry m kp a 3 = leafValue (a / 4096 * pageSize) heapPerm := by
    have hlow := h.low a ha
    rw [leafEntry, if_pos hr] at hlow
    exact Option.some.inj hlow
  have hr4 : Reaches m kp a 4 := by
    refine Reaches.succ.mpr ⟨hr, ?_⟩
    rw [hleaf]
    exact leafValue_heap_present hpn
  refine ⟨hr4, ?_, fun i hi => ?_⟩
  · have haddr := leafValue_heap_addr hpn
    have hdvd := pteAddr_dvd (leafValue (a / 4096 * pageSize) heapPerm)
    rw [target, tableAt_succ, hleaf, pageOffset]
    rw [hpage] at haddr hdvd ⊢
    omega
  · by_cases h3 : i = 3
    · rw [h3, hleaf]
      exact leafValue_heap_open hpn
    · exact h.tree.upper a (by omega) i (by omega) (hr.mono (by omega))

theorem IdentityTable.identityMapped (I : KernelImage) (h : IdentityTable m I.kernelPagetable) :
    IdentityMapped I.toKernelLayout m I.kernelPagetable := by
  have hpage : pageSize = 4096 := rfl
  have hphys : memsizePhysical = 2097152 := rfl
  have hstart : procStartAddr = 0x100000 := rfl
  have hkernel : kernelStartAddr = 0x40000 := rfl
  have hend := I.end_le
  have hle := I.tables_le
  have hcheck (a : Nat) (ha : a < memsizePhysical) (writable : Bool) :
      checkIdentity m I.kernelPagetable a writable = true := by
    have hperm : permBits heapPerm &&& pteW ≠ 0 := by decide
    rw [checkIdentity, h.lookup ha]
    simp only [decide_true, Bool.true_and, Bool.or_eq_true, decide_eq_true_eq]
    exact .inr hperm
  refine ⟨?_, fun k hk => hcheck _ ?_ _, hcheck _ (by decide) _⟩
  · obtain ⟨k, hk⟩ := I.tables_aligned
    rw [pteAddr_eq, BitVec.toNat_ofNat]
    omega
  · rw [hpage] at hk ⊢
    omega

theorem processesInit_dead (s : Machine) {p : Nat} (hp : p < nproc) : ¬Live (processesInit s) p := by
  rw [Live, processesInit]
  simp [hp]

variable (hinfo : ∀ pn < npages, s.pageinfo pn = initialInfo I.end_ pn)
include hinfo

theorem initial_tableOk (hi : i < 5) : TableOk s poKernel 1 (kernelPagetableAt I.kernelPagetable i) := by
  have hpage : pageSize = 4096 := rfl
  have hsize : npages = 512 := rfl
  have hio : iophysmem = 0xA0000 := rfl
  have hstart : kernelStartAddr = 0x40000 := rfl
  have hle := I.tables_le
  have hend := I.end_io
  have hfirst := I.start_le
  obtain ⟨k, hk⟩ := I.tables_aligned
  have htable : kernelPagetableAt I.kernelPagetable i = pageSize * (k + i) := by
    rw [kernelPagetableAt, hk, hpage]
    omega
  have hnumber : pageNumber (kernelPagetableAt I.kernelPagetable i) = (k + i : Nat) := by
    rw [htable, pageNumber_page (by omega)]
  have himage := initialInfo_image (by rw [kernelPagetableAt, hpage]; omega : kernelStartAddr ≤ kernelPagetableAt I.kernelPagetable i)
    (by rw [kernelPagetableAt, hpage]; omega : _ < I.end_) (by rw [kernelPagetableAt, hpage]; omega)
  have hdiv : kernelPagetableAt I.kernelPagetable i / pageSize = k + i := by
    rw [htable, hpage]
    omega
  have hpn : s.pageinfo (k + i) = ⟨poKernel, 1⟩ := by rw [hinfo _ (by omega), ← hdiv, himage]
  refine ⟨by omega, by omega, ?_, ?_⟩ <;> rw [hnumber, Int.toNat_natCast, hpn]

theorem initial_checked (hid : IdentityTable s.mem I.kernelPagetable) (hnone : ∀ p < nproc, ¬Live s p) : Checked I.toKernelLayout s where
  zero := not_not.mp (hnone 0 (by decide))
  kernelMapped := hid.identityMapped I
  kernelOwned := by
    have husers : kernelUsers I.toKernelLayout s = 0 := kernelUsers_eq_zero fun q hq hlive => absurd hlive (hnone q hq)
    have hzero := KernelTables.table_zero I.kernelPagetable
    rw [husers]
    refine ⟨?_, fun path t hv _ hlen => ?_⟩
    · have hok := initial_tableOk hinfo (by decide : 0 < 5)
      rwa [hzero] at hok
    · rw [← hzero] at hv
      obtain ⟨i, hi, rfl⟩ := hid.visits hv (.inl (by omega))
      exact initial_tableOk hinfo hi
  mapped p hp hlive := absurd hlive (hnone p hp)
  owned p hp hlive := absurd hlive (hnone p hp)
  owners pn hpn hrc howner := by
    rw [hinfo pn hpn, initialInfo] at hrc howner
    have hreserved : poReserved = -1 := rfl
    have hkernel : poKernel = -2 := rfl
    rcases initialOwner_cases I.end_ (pageSize * pn) with h | h | h
    · simp only [h] at howner
      omega
    · simp only [h] at howner
      omega
    · simp [h] at hrc

theorem initial_free {page : NewPage} (hfree : page.Free s) {x : Nat} (hx : x / pageSize = page.number) :
    ¬(kernelStartAddr ≤ x ∧ x < I.end_) ∧ ¬(kernelStackTop - pageSize ≤ x ∧ x < kernelStackTop) ∧
      ¬(iophysmem ≤ x ∧ x < extphysmem) := by
  have hpage : pageSize = 4096 := rfl
  have hio : iophysmem = 0xA0000 := rfl
  have hext : extphysmem = 0x100000 := rfl
  have hstart : kernelStartAddr = 0x40000 := rfl
  have hstack : kernelStackTop = 0x80000 := rfl
  obtain ⟨-, hlt, hrc⟩ := hfree
  have howner : initialOwner I.end_ (pageSize * page.number) = poFree := by
    rw [hinfo _ hlt, initialInfo] at hrc
    by_contra hne
    rw [if_pos hne] at hrc
    cases hrc
  rw [initialOwner] at howner
  split at howner
  next => cases howner
  next hreserved =>
    split at howner
    next => cases howner
    next hkernel =>
      simp only [physicalMemoryIsreserved, Bool.or_eq_true, Bool.and_eq_true, decide_eq_true_eq] at hreserved
      rw [hpage] at hreserved hkernel hx
      refine ⟨by omega, by omega, by omega⟩

omit hinfo in
/-- The kernel starts, whatever it finds in memory, with all assertions of its initialisation true. -/
theorem kernel_boots (I : KernelImage) (s : Machine) : ∃ s', kernelInit I s = some s' ∧ Booted I s s' := by
  obtain ⟨m', hinit, hid, hout⟩ := virtualMemoryInit_spec I s.mem
  obtain ⟨hmem, -, hinfo⟩ := pageinfoInit_spec I.end_ (by decide : npages < 2 ^ 31) { s with mem := m' }
  have hrun : kernelInit I s = _ := congrArg (Option.map _) hinit
  rw [Option.map_some] at hrun
  simp only at hrun
  generalize pageinfoInit I.end_ npages { s with mem := m' } = u at hmem hinfo hrun
  have hmem' : consoleClear u.mem = consoleClear m' := congrArg consoleClear hmem
  rw [hmem'] at hrun
  generalize ht : ({ u with mem := consoleClear m' } : Machine) = t at hrun
  have htmem : t.mem = consoleClear m' := by rw [← ht]
  have hid' : IdentityTable (processesInit t).mem I.kernelPagetable := by
    rw [processesInit_mem, htmem]
    exact hid.congr fun i hi => consoleClear_tables m' (Nat.le_trans I.tables_le I.end_io) hi
  have hinfo' (pn : Nat) (hpn : pn < npages) : (processesInit t).pageinfo pn = initialInfo I.end_ pn := by
    rw [← ht]
    exact (hinfo pn).trans (if_pos hpn)
  have hnone (p : Nat) (hp : p < nproc) : ¬Live (processesInit t) p := processesInit_dead t hp
  have hchecked := initial_checked hinfo' hid' hnone
  refine ⟨processesInit t, hrun, ?_⟩
  exact {
    identity := fun a ha => hid'.open ha
    beyond := fun a ha hlt => hid'.lookup_high ha hlt
    tree := hid'.tree
    cleared := by
      rw [processesInit_mem, htmem]
      exact consoleClear_cleared m'
    outside := fun x hx hcells hcursor => by
      rw [processesInit_mem, htmem, consoleClear_outside m' hcells hcursor]
      exact hout x hx
    checked := checkVirtualMemory_iff.mpr hchecked
    pagetable := hid'.pagetableOk I
    noProcess := hnone
    kernelOk := by
      have hzero : (processesInit t).pageinfo 0 = ⟨poReserved, 1⟩ := hinfo' 0 (by decide)
      refine ⟨⟨by decide, ?_, ?_⟩, fun p hp hlive => absurd hlive (hnone p hp)⟩
      · rw [hzero]
        decide
      · rw [hzero]
    consistent := ⟨hchecked, fun p hp hlive => absurd hlive (hnone p hp), fun p hp hlive => absurd hlive (hnone p hp)⟩
    free := fun page hfree x hx => initial_free hinfo' hfree hx }

end Boot

end WeensyOS.Kernel
