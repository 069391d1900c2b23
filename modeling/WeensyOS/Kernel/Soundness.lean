import WeensyOS.Kernel.Dispatch
import WeensyOS.Kernel.HeapMemory
import WeensyOS.Kernel.LookupsKept

namespace WeensyOS.Kernel

open ByteMemory LibC ProgramBreak

variable {I : KernelImage} {m : Memory} {s s' : Machine} {p pt a pn : Nat} {c : Nat → Option UInt8}

/-- The lookup says that user code may write to the address. -/
def Offered (m : Memory) (pagetable a : Nat) : Prop :=
  permBits (virtualMemoryLookup m pagetable a).perm &&& (pteW ||| pteU) = pteW ||| pteU

instance (m : Memory) (pagetable a : Nat) : Decidable (Offered m pagetable a) := inferInstanceAs (Decidable (_ = _))

def consolePage : Nat := 0xB8

/-- What the kernel relies on between two exceptions. -/
structure Sound (I : KernelImage) (s : Machine) : Prop where
  kernel : KernelOk s
  heaps : ∀ p < nproc, Live s p → HeapMem s (fun _ => none) p
  consistent : Consistent I.toKernelLayout s
  /-- Every page table can be loaded. -/
  roots : ∀ r owner, Root I.toKernelLayout s r owner → r < procStartAddr ∧ PagetableOk I.symbols s.mem r
  /-- Outside of the addresses of the processes, what is mapped is physical memory, below `MEMSIZE_VIRTUAL`. -/
  within : ∀ p < nproc, Live s p → ∀ a < 2 ^ 48, a < procStartAddr ∨ memsizeVirtual ≤ a →
    virtualMemoryLookup s.mem (s.processes p).pPagetable a ≠ .unmapped →
      a < memsizeVirtual ∧ (virtualMemoryLookup s.mem (s.processes p).pPagetable a).pa < memsizePhysical
  /-- No page table is on a page that user code may write to. -/
  guarded : ∀ p < nproc, Live s p → ∀ a < 2 ^ 48, Offered s.mem (s.processes p).pPagetable a → ∀ owner t,
    TableOf I.toKernelLayout s owner t → (virtualMemoryLookup s.mem (s.processes p).pPagetable a).pn ≠ pageNumber t
  /-- The number of process 0 says that a page is free. -/
  first : ¬Live s 0
  mapped : ∀ p < nproc, Live s p → OwnsMapped s p
  owners : ∀ pn < npages, poKernel ≤ (s.pageinfo pn).owner ∧ (s.pageinfo pn).owner < nproc
  console : (s.pageinfo consolePage).owner = poReserved ∧ 1 ≤ (s.pageinfo consolePage).refcount

section Offers

theorem and_open (b : PageEntry) : b &&& (pteW ||| pteU) = pteW ||| pteU ↔ b.getLsbD 1 = true ∧ b.getLsbD 2 = true := by
  have hbits : ∀ i < 64, (pteW ||| pteU).getLsbD i = (decide (i = 1) || decide (i = 2)) := by decide
  constructor
  · intro h
    have hbit (i : Nat) (hi : i < 64) (hset : (pteW ||| pteU).getLsbD i = true) : b.getLsbD i = true := by
      have heq := congrArg (fun x : PageEntry => x.getLsbD i) h
      simp only [BitVec.getLsbD_and, hset, Bool.and_true] at heq
      exact heq
    exact ⟨hbit 1 (by decide) rfl, hbit 2 (by decide) rfl⟩
  · rintro ⟨h1, h2⟩
    apply BitVec.eq_of_getLsbD_eq
    intro i hi
    rw [BitVec.getLsbD_and, hbits i hi]
    by_cases hi1 : i = 1
    · rw [hi1, h1]
      rfl
    · by_cases hi2 : i = 2
      · rw [hi2, h2]
        rfl
      · simp [hi1, hi2]

theorem Offered.reaches (h : Offered m pt a) : Reaches m pt a 4 := by
  by_contra habsent
  rw [Offered, lookup_absent habsent] at h
  exact absurd h (by decide)

theorem lookup_mapped (h : Reaches m pt a 4) : virtualMemoryLookup m pt a ≠ .unmapped := by
  intro hnone
  have hperm := congrArg (fun vam : VaMapping => (permBits vam.perm).getLsbD 0) hnone
  have hbit : (seen m pt a 4).getLsbD 0 = true := by
    have hpresent := mt (seen_present m pt a 3).mp (h 3 (by decide))
    rwa [and_pteP, Bool.not_eq_false] at hpresent
  rw [lookup_present h] at hperm
  simp only [getLsbD_permBits _ (by decide : 0 < 12), hbit] at hperm
  exact absurd hperm (by decide)

theorem HeapMem.offered_iff (h : HeapMem s c p) (ha : a < memsizeVirtual) :
    Offered s.mem (s.processes p).pPagetable a ↔ Granted s p a true := by
  have hupper (hr : Reaches s.mem (s.processes p).pPagetable a 4) (i : Nat) (hi : i < 3) :
      (levelEntry s.mem (s.processes p).pPagetable a i).getLsbD 1 = true ∧
        (levelEntry s.mem (s.processes p).pPagetable a i).getLsbD 2 = true := by
    obtain ⟨hw, hu⟩ := h.tree.upper a ha i hi (hr.mono (by omega))
    rw [ne_eq, and_pteW, Bool.not_eq_false] at hw
    rw [ne_eq, and_pteU, Bool.not_eq_false] at hu
    exact ⟨hw, hu⟩
  have hleaf (hr : Reaches s.mem (s.processes p).pPagetable a 4) : Offered s.mem (s.processes p).pPagetable a ↔
      (levelEntry s.mem (s.processes p).pPagetable a 3).getLsbD 1 = true ∧
        (levelEntry s.mem (s.processes p).pPagetable a 3).getLsbD 2 = true := by
    rw [Offered, and_open, lookup_bit hr (by decide) rfl, lookup_bit hr (by decide) rfl, (hupper hr 1 (by decide)).1,
      (hupper hr 1 (by decide)).2, (hupper hr 2 (by decide)).1, (hupper hr 2 (by decide)).2]
    simp only [Bool.not_true, Bool.false_or, Bool.and_true]
  constructor
  · intro hoffer
    have hr := hoffer.reaches
    obtain ⟨hw, hu⟩ := (hleaf hr).mp hoffer
    refine ⟨ha, fun i hi => ⟨hr i hi, ?_, fun _ => ?_⟩⟩
    · rw [ne_eq, and_pteU, Bool.not_eq_false]
      rcases Nat.lt_succ_iff_lt_or_eq.mp hi with hi | rfl
      · exact (hupper hr i hi).2
      · exact hu
    · rw [ne_eq, and_pteW, Bool.not_eq_false]
      rcases Nat.lt_succ_iff_lt_or_eq.mp hi with hi | rfl
      · exact (hupper hr i hi).1
      · exact hw
  · intro hg
    obtain ⟨-, hu, hw⟩ := hg.2 3 (by decide)
    have hw' := hw rfl
    rw [ne_eq, and_pteU, Bool.not_eq_false] at hu
    rw [ne_eq, and_pteW, Bool.not_eq_false] at hw'
    exact (hleaf hg.reaches).mpr ⟨hw', hu⟩

theorem PagetableOk.congr {m' : Memory} {r : Nat} (h : PagetableOk I.symbols m r)
    (hlow : ∀ a < procStartAddr, virtualMemoryLookup m' r a = virtualMemoryLookup m r a)
    (hkernel : virtualMemoryLookup m' I.kernelPagetable r = virtualMemoryLookup m I.kernelPagetable r) :
    PagetableOk I.symbols m' r := by
  obtain ⟨halign, hhandler, hself, htables, hmap⟩ := h
  have hend := I.end_le
  have hle := I.tables_le
  have hpage : pageSize = 4096 := rfl
  have hkp : I.kernelPagetable < procStartAddr := by omega
  refine ⟨halign, ?_, ?_, ?_, ?_⟩
  · exact (congrArg VaMapping.pa (hlow _ (Nat.lt_of_lt_of_le I.handler_lt.2 hend))).trans hhandler
  · exact (congrArg VaMapping.pa hkernel).trans hself
  · exact (congrArg VaMapping.pa (hlow _ hkp)).trans htables
  · exact (congrArg VaMapping.pa (hlow _ (Nat.lt_of_lt_of_le I.map_lt.2 hend))).trans hmap

end Offers

namespace Sound

section Steps

variable (h : Sound I s) (hp : p < nproc) (hlive : Live s p)
include h

theorem table_lt {owner : Int} {t : Nat} (ht : TableOf I.toKernelLayout s owner t) :
    0 ≤ pageNumber t ∧ pageNumber t < npages ∧ (s.pageinfo (pageNumber t).toNat).owner = owner := by
  have hok := h.consistent.tableOk ht
  exact ⟨hok.nonneg, hok.lt, hok.owner⟩

include hp hlive in
/-- One step of process `p`. -/
theorem of_stepped (hstep : Stepped s s' p) (hown : Live s' p → HeapMem s' (fun _ => none) p)
    (hcons : Consistent I.toKernelLayout s') (hkept : LookupsKept I.toKernelLayout s s' p) (hmapped : Live s' p → OwnsMapped s' p)
    (hinfo : ∀ pn, s'.pageinfo pn = s.pageinfo pn ∨ (s'.pageinfo pn).owner = poFree ∨ (s'.pageinfo pn).owner = p) : Sound I s' := by
  have hother (q : Nat) (hq : q ≠ p) (hl : Live s' q) : Live s q := by
    rwa [Live, (hstep.others q hq).proc] at hl
  have hstart (q : Nat) (hq : q < nproc) (hl : Live s' q) := (hcons.ready q hq hl).start
  have hwas (q : Nat) (hq : q < nproc) (hl : Live s' q) : Live s q ∧ (s'.processes q).pPagetable = (s.processes q).pPagetable := by
    by_cases hqp : q = p
    · subst hqp
      exact ⟨hlive, (hkept.root _ _ (Root.process hq hl)).eq_process⟩
    · exact ⟨hother q hqp hl, by rw [(hstep.others q hqp).proc]⟩
  have hlow (r : Nat) (owner : Int) (hr : Root I.toKernelLayout s' r owner) (a : Nat) (ha : a < procStartAddr) :
      virtualMemoryLookup s'.mem r a = virtualMemoryLookup s.mem r a := by
    have hsize : procStartAddr = 0x100000 := rfl
    refine hkept.lookup r owner hr a (by omega) fun howner => .inl ?_
    subst howner
    exact Nat.lt_of_lt_of_le ha (hstart p hp hr.live)
  have hkernel : Root I.toKernelLayout s' I.kernelPagetable poKernel := .inl ⟨rfl, rfl⟩
  refine ⟨h.kernel.step hstep, fun q hq hl => ?_, hcons, fun r owner hr => ?_, fun q hq hl a ha hout hpn => ?_,
    fun q hq hl a ha hoffer owner t ht => ?_, fun hl => h.first (hwas 0 (by decide) hl).1, fun q hq hl => ?_, fun pn hpn => ?_, ?_⟩
  · by_cases hqp : q = p
    · subst hqp
      exact hown hl
    · have hl' := hother q hqp hl
      exact (h.heaps q hq hl').untouched (h.kernel.procs q hq hl') (hstep.others q hqp)
  · obtain ⟨hlt, hok⟩ := h.roots r owner (hkept.root r owner hr)
    exact ⟨hlt, hok.congr (hlow r owner hr) (hlow _ _ hkernel r hlt)⟩
  · obtain ⟨hl', hpt⟩ := hwas q hq hl
    have hsame : virtualMemoryLookup s'.mem (s'.processes q).pPagetable a =
        virtualMemoryLookup s.mem (s'.processes q).pPagetable a := by
      refine hkept.lookup _ _ (Root.process hq hl) a ha fun howner => hout.imp_left fun hlt => ?_
      obtain rfl : q = p := by omega
      exact Nat.lt_of_lt_of_le hlt (hstart q hq hl)
    rw [hsame, hpt] at hpn ⊢
    exact h.within q hq hl' a ha hout hpn
  · obtain ⟨hl', hpt⟩ := hwas q hq hl
    by_cases hheap : q = p ∧ (s'.processes q).originalBreak ≤ a ∧ a < memsizeVirtual
    · exact (hcons.ready q hq hl).apart a hheap.2.1 hheap.2.2 owner t ht
    · have hsame : virtualMemoryLookup s'.mem (s'.processes q).pPagetable a =
          virtualMemoryLookup s.mem (s'.processes q).pPagetable a := by
        refine hkept.lookup _ _ (Root.process hq hl) a ha fun howner => ?_
        obtain rfl : q = p := by omega
        have hno : ¬((s'.processes q).originalBreak ≤ a ∧ a < memsizeVirtual) := fun hc => hheap ⟨rfl, hc⟩
        omega
      rw [Offered, hsame, hpt] at hoffer
      rw [hsame, hpt]
      exact h.guarded q hq hl' a ha hoffer owner t (hkept.table owner t ht)
  · by_cases hqp : q = p
    · subst hqp
      exact hmapped hl
    · have hl' := hother q hqp hl
      have hok := h.kernel.procs q hq hl'
      refine (h.mapped q hq hl').kept hok ((hstep.others q hqp).tables hok) fun pn howner => ?_
      rcases hinfo pn with hsame | hfree | hp'
      · rwa [hsame] at howner
      · -- a free page would be one of process 0
        obtain rfl : q = 0 := Int.natCast_eq_zero.mp (howner.symm.trans hfree)
        exact absurd hl' h.first
      · exact absurd (Int.ofNat.inj (howner.symm.trans hp')) hqp
  · rcases hinfo pn with hsame | hfree | howner
    · rw [hsame]
      exact h.owners pn hpn
    · rw [hfree]
      decide
    · rw [howner]
      exact ⟨Int.le_trans (by decide : poKernel ≤ 0) (Int.natCast_nonneg p), Int.ofNat_lt.mpr hp⟩
  · have hsystem : SystemPage s consolePage := ⟨by decide, by rw [h.console.1]; decide, h.console.2⟩
    rw [hstep.system consolePage hsystem]
    exact h.console

include hp hlive

theorem proc : ProcOk s p ∧ HeapMem s (fun _ => none) p := ⟨h.kernel.procs p hp hlive, h.heaps p hp hlive⟩

theorem exit : Sound I (s.exit p) :=
  h.of_stepped hp hlive (exit_stepped s p) (fun hl => absurd hl (exit_free s p)) h.consistent.exit (.exit s p)
    (fun hl => absurd hl (exit_free s p)) fun pn => (exit_owners s p pn).imp_right .inl

/-- The object code of `process_free` does what it is for. -/
theorem processFree_eq : processFree s p = some (s.processFree p) := by
  obtain ⟨hok, hmem⟩ := h.proc hp hlive
  exact (h.mapped p hp hlive).processFree_eq h.consistent hok hmem hp hlive

theorem handlePagefault_eq (addr : Nat) (missing : Bool) {page : Option NewPage} (hfree : ∀ new ∈ page, new.Free s) :
    handlePagefault s p addr missing page = pageFault s p addr missing page := by
  obtain ⟨hok, hmem⟩ := h.proc hp hlive
  exact (h.mapped p hp hlive).handlePagefault_eq h.consistent hok h.kernel.reserved hmem hp hlive hfree

theorem brk {rdi rax : Nat} (hrdi : rdi < 2 ^ 64) (hrun : sysBrk s p rdi = some (s', rax)) : Sound I s' := by
  obtain ⟨hok, hmem⟩ := h.proc hp hlive
  have hpos : p ≠ 0 := by
    rintro rfl
    exact h.first hlive
  refine h.of_stepped hp hlive (sysBrk_stepped hok h.kernel.reserved hrdi hrun) (fun _ => ?_)
    (h.consistent.sysBrk hp hlive hrun) (h.consistent.lookups_brk hp hlive hok h.kernel.reserved hrdi hrun) (fun _ => ?_) fun pn => ?_
  · exact (hmem.sysBrk hok h.kernel.reserved hrdi hrun).mono fun a b hb => by cases hb
  · rcases sysBrk_cases hok h.kernel.reserved hrdi hrun with rfl | ⟨hle, hlt, hmoved⟩
    · exact h.mapped p hp hlive
    · exact (h.mapped p hp hlive).moved hok hmoved hle hlt (h.consistent.ready p hp hlive).start hpos
  · rcases sysBrk_cases hok h.kernel.reserved hrdi hrun with rfl | ⟨-, -, hmoved⟩
    · exact .inl rfl
    · exact (hmoved.owners pn).imp_right .inl

theorem sbrk {rdi rax : Nat} (hrun : sysSbrk s p rdi = some (s', rax)) : Sound I s' := by
  rw [sysSbrk_eq] at hrun
  obtain ⟨⟨t, r⟩, hbrk, ht⟩ := Option.map_eq_some_iff.mp hrun
  cases ht
  exact h.brk hp hlive (Nat.mod_lt _ (by decide)) hbrk

theorem fault {addr : Nat} {page : Option NewPage} (hfree : ∀ new ∈ page, new.Free s)
    (hrun : pageFault s p addr (decide ¬Reaches s.mem (s.processes p).pPagetable addr 4) page = some s') : Sound I s' := by
  obtain ⟨hok, hmem⟩ := h.proc hp hlive
  have hmissing (hl : Live s' p) : ¬Reaches s.mem (s.processes p).pPagetable addr 4 := by
    intro hr
    rw [decide_eq_false (not_not_intro hr), pageFault, if_neg (by simp)] at hrun
    cases hrun
    exact exit_free s p hl
  refine h.of_stepped hp hlive (pageFault_stepped hok hfree hrun) (fun hl => ?_) (h.consistent.pageFault hp hlive hfree hrun)
    (h.consistent.lookups_fault hp hlive hok hfree hrun) (fun hl => ?_) (pageFault_owners hok hfree hrun)
  · have habsent := hmissing hl
    cases page with
    | none =>
        rw [pageFault] at hrun
        split at hrun
        · cases hrun
          exact absurd hl (exit_free s p)
        · cases hrun
          exact absurd hl (exit_free s p)
    | some new => exact hmem.fault hok (hfree new rfl) (fun hg : Granted s p addr true => habsent hg.reaches) hrun hl
  · have habsent := hmissing hl
    rcases pageFault_cases hok hfree hrun with rfl | ⟨new, rfl, rfl | ⟨hle, hlt, hr, rfl⟩⟩
    · exact absurd hl (exit_free s p)
    · exact absurd hl (exit_free _ p)
    · have hpage : pageSize = 4096 := rfl
      have hstart := (h.consistent.ready p hp hlive).start
      obtain ⟨hlo, hhi⟩ := roundDown_heap hok.aligned hle (Nat.lt_trans hlt hok.lt)
      have hsame : roundDown addr pageSize / 4096 = addr / 4096 := by
        rw [roundDown, hpage]
        omega
      refine (h.mapped p hp hlive).mapPage hok (hfree new rfl) (Nat.le_trans hstart hlo) hhi hr ?_
      rw [mappedPage_page hsame]
      exact mappedPage_eq_none.mpr habsent

theorem store_same {b : UInt8} (hg : Granted s p a true) {owner : Int} {t : Nat}
    (ht : TableOf I.toKernelLayout s owner t) : SamePage s.mem (storeByte s p a b).mem t := by
  intro x hx hx'
  obtain ⟨pn, hu, hphys⟩ := hg.userMaps
  have hV : memsizeVirtual = 3145728 := rfl
  have hpage : pageSize = 4096 := rfl
  have hlt := hu.lt
  have hoffset : pageOffset a < 4096 := Nat.mod_lt _ (by decide)
  have hoffer := ((h.heaps p hp hlive).offered_iff hg.1).mpr hg
  have hapart := h.guarded p hp hlive a (by omega) hoffer owner t ht
  rw [lookup_pn, hu.page] at hapart
  refine Function.update_of_ne (fun heq => hapart ?_) _ _
  obtain ⟨i, rfl⟩ := h.consistent.table_dvd ht
  rw [hphys, hpage] at heq
  have hi : 4096 * i / 2 ^ 12 = pn := by omega
  rw [pageNumber, hi]
  rfl

/-- User code writes a byte. -/
theorem store (b : UInt8) (hg : Granted s p a true) : Sound I (storeByte s p a b) := by
  obtain ⟨hok, hmem⟩ := h.proc hp hlive
  have hsame (owner : Int) (t : Nat) (ht : TableOf I.toKernelLayout s owner t) := h.store_same hp hlive (b := b) hg ht
  refine h.of_stepped hp hlive (hmem.store_stepped hok hg) (fun _ => ?_) (h.consistent.of_tables hsame) (.of_tables hsame)
    (fun _ => (h.mapped p hp hlive).kept hok (hmem.store_kept hg) fun _ howner => howner) fun _ => .inl rfl
  exact (hmem.store hok hg).mono fun x y hy => by cases hy

/-- The kernel writes bytes where user code may write them. -/
theorem storeBytes {x : Nat} (bs : List UInt8) (hg : ∀ i < bs.length, Granted s p (a + i) true ∧ physicalAddress s p (a + i) = x + i) :
    Sound I { s with mem := storeBytes s.mem x bs } := by
  induction bs generalizing s a x with
  | nil => exact h
  | cons b bs ih =>
      obtain ⟨hok, hmem⟩ := h.proc hp hlive
      obtain ⟨hfirst, hphys⟩ := hg 0 (Nat.succ_pos _)
      rw [Nat.add_zero, Nat.add_zero] at hphys
      rw [Nat.add_zero] at hfirst
      have hkept := hmem.store_kept (b := b) hfirst
      have hmachine : storeByte s p a b = { s with mem := Function.update s.mem x b } := by rw [storeByte, hphys]
      have hrest := ih (a := a + 1) (x := x + 1) (h.store hp hlive b hfirst) hlive fun i hi => ?_
      · rw [hmachine] at hrest
        exact hrest
      · obtain ⟨hgi, hpi⟩ := hg (i + 1) (Nat.succ_lt_succ hi)
        have hshift : a + 1 + i = a + (i + 1) := by omega
        rw [hshift]
        refine ⟨hkept.granted hok hgi, ?_⟩
        rw [physicalAddress, hkept.proc, (hkept.path hok hgi.1 (Nat.le_refl 4)).2 hgi.reaches]
        rw [physicalAddress] at hpi
        omega

omit hp hlive in
theorem console_system : SystemPage s consolePage := ⟨by decide, by rw [h.console.1]; decide, h.console.2⟩

omit h hp hlive in
theorem screen_bytes (screen : Nat → UInt8) {t : Nat} (hne : t ≠ consolePage) :
    SamePage s.mem (s.withScreen screen).mem (t * pageSize) := by
  have hconsole : consoleAddr / pageSize = consolePage := rfl
  have hpage : pageSize = 4096 := rfl
  intro x hx hx'
  refine if_neg fun heq => hne ?_
  rw [hconsole, hpage] at heq
  rw [hpage] at hx hx'
  omega

omit hp hlive in
theorem screen_untouched (screen : Nat → UInt8) (q : Nat) : Untouched s (s.withScreen screen) q :=
  ⟨rfl, fun _ _ => rfl, fun _ hk => screen_bytes screen fun heq => (heq ▸ hk).not_system h.console_system⟩

omit hp hlive in
theorem screen_tables (screen : Nat → UInt8) {owner : Int} {t : Nat} (ht : TableOf I.toKernelLayout s owner t) :
    SamePage s.mem (s.withScreen screen).mem t := by
  have hpage : pageSize = 4096 := rfl
  obtain ⟨hnonneg, hlt, howner⟩ := h.table_lt ht
  obtain ⟨i, rfl⟩ := h.consistent.table_dvd ht
  have hi : i * pageSize = 4096 * i := by rw [hpage, Nat.mul_comm]
  rw [← hi]
  refine screen_bytes screen fun heq => ?_
  subst heq
  have hpn : pageNumber (4096 * consolePage) = consolePage := by decide
  rw [hpn] at howner
  have hreserved := h.console.1
  rw [Int.toNat_natCast, hreserved] at howner
  obtain ⟨r, path, ⟨-, hkernel⟩ | ⟨q, -, -, -, hq⟩, -, -⟩ := ht
  · rw [hkernel] at howner
    exact absurd howner (by decide)
  · have hres : poReserved = -1 := rfl
    omega

/-- The kernel writes to the console. -/
theorem withScreen (screen : Nat → UInt8) : Sound I (s.withScreen screen) := by
  obtain ⟨hok, hmem⟩ := h.proc hp hlive
  have hsame (owner : Int) (t : Nat) (ht : TableOf I.toKernelLayout s owner t) := h.screen_tables screen ht
  refine h.of_stepped hp hlive ⟨fun q _ => h.screen_untouched screen q, fun _ _ => rfl, fun _ => ?_⟩ (fun _ => ?_)
    (h.consistent.of_tables hsame) (.of_tables hsame) (fun _ => ?_) fun _ => .inl rfl
  · exact hok.kept ((h.screen_untouched screen p).tables hok) fun _ _ => rfl
  · exact hmem.untouched hok (h.screen_untouched screen p)
  · exact (h.mapped p hp hlive).kept hok ((h.screen_untouched screen p).tables hok) fun _ howner => howner

end Steps

end Sound

end WeensyOS.Kernel
