import WeensyOS.Kernel.ConsistentSteps
import WeensyOS.Kernel.HeapSteps
import WeensyOS.Kernel.TableEntries

namespace WeensyOS.Kernel

open ByteMemory LibC ProgramBreak

variable {L : KernelLayout} {s s' : Machine} {m m' : Memory} {p pt va pa n : Nat} {perm : BitVec 32} {r : Int}

section Calls

theorem virtualMemoryMap_one (h : virtualMemoryMap m pt va pa pageSize perm = some (r, m')) : m' = m ∨
    (Reaches m pt va 3 ∧ m' = setEntry m (tableAt m pt va 3) (pageIndex va 3) (leafValue pa perm)) := by
  have hone : pageSize / pageSize = 0 + 1 := rfl
  rw [virtualMemoryMap] at h
  split at h
  case isFalse => cases h
  rw [hone, mapPages_eq_by, mapPagesBy] at h
  obtain ⟨t, htable, hround⟩ := Option.bind_eq_some_iff.mp h
  have ht : t = 0 ∨ t = leafTable m pt va := by
    rw [cachedTable] at htable
    split at htable
    · exact .inr (lookupL4pagetable_some htable)
    · exact .inl (Option.some.inj htable).symm
  split at hround
  · exact .inl (Prod.mk.inj (Option.some.inj hround)).2.symm
  · have hm : writePage m t va pa perm = m' := (Prod.mk.inj (Option.some.inj hround)).2
    rw [← hm, writePage]
    by_cases hzero : t = 0
    · exact .inl (if_pos hzero)
    · have hleaf := ht.resolve_left hzero
      rw [hleaf] at hzero
      obtain ⟨hr, htab⟩ := (leafTable_cases m pt va).resolve_left hzero
      rw [htab] at hleaf
      rw [if_neg (by rw [hleaf, ← htab]; exact hzero), hleaf]
      exact .inr ⟨hr, rfl⟩

theorem Consistent.mapOne (h : Consistent L s) (hp : p < nproc) (hlive : Live s p)
    (hle : (s.processes p).originalBreak ≤ va) (hlt : va < memsizeVirtual)
    (hv : leafValue pa perm &&& pteP ≠ 0 → ∀ owner t, TableOf L s owner t →
      asInt (pteAddr (leafValue pa perm) / pageSize) ≠ pageNumber t)
    (hrun : virtualMemoryMap s.mem (s.processes p).pPagetable va pa pageSize perm = some (r, m')) :
    Consistent L { s with mem := m' } := by
  rcases virtualMemoryMap_one hrun with rfl | ⟨hr, rfl⟩
  · exact h
  · exact h.writeLeaf ⟨hp, hlive, hle, hlt, hr⟩ hv

theorem Consistent.unmapPages (h : Consistent L s) (hp : p < nproc) (hlive : Live s p)
    (hle : (s.processes p).originalBreak ≤ va) (hlt : va + pageSize * n ≤ memsizeVirtual)
    (hrun : unmapPages (s.processes p).pPagetable n s va = some s') : Consistent L s' := by
  have hpage : pageSize = 4096 := rfl
  have hV : memsizeVirtual = 3145728 := rfl
  induction n generalizing s va with
  | zero =>
      cases hrun
      exact h
  | succ n ih =>
      have hnext : (va + pageSize) % 2 ^ 64 = va + pageSize := by
        rw [hpage, hV] at *
        omega
      have hva : va < memsizeVirtual := by
        rw [hpage] at hlt
        omega
      have hrest : va + pageSize + pageSize * n ≤ memsizeVirtual := by
        rw [hpage] at hlt ⊢
        omega
      have hpn := (h.ready p hp hlive).apart va hle hva
      rw [Kernel.unmapPages, hnext] at hrun
      obtain ⟨u, hu, hloop⟩ := Option.bind_eq_some_iff.mp hrun
      split at hu
      case isFalse =>
        cases hu
        exact ih h hlive (Nat.le_trans hle (Nat.le_add_right va pageSize)) hrest hloop
      case isTrue hnonneg =>
        split at hu
        case isFalse => cases hu
        obtain ⟨⟨r, mem⟩, hmap, rfl⟩ := Option.map_eq_some_iff.mp hu
        have hfree := h.freePage fun owner t ht heq => hpn owner t ht (by rw [heq, Int.toNat_of_nonneg hnonneg])
        have hkept := hfree.mapOne hp hlive hle hva (fun hpresent => absurd rfl hpresent) hmap
        exact ih hkept hlive (Nat.le_trans hle (Nat.le_add_right va pageSize)) hrest hloop

theorem roundUp_heap {a : Nat} (h : a < memsizeVirtual - pageSize) :
    a ≤ roundUp a pageSize ∧ roundUp a pageSize ≤ memsizeVirtual := by
  rw [limit_eq] at h
  have hV : memsizeVirtual = 3145728 := rfl
  rw [roundUp_page (by omega)]
  omega

theorem setBreak_pagetable (s : Machine) (p newBreak : Nat) :
    ((s.setBreak p newBreak).processes p).pPagetable = (s.processes p).pPagetable ∧
      ((s.setBreak p newBreak).processes p).originalBreak = (s.processes p).originalBreak ∧
        ((s.setBreak p newBreak).processes p).pState = (s.processes p).pState := by
  simp only [Machine.setBreak, Function.update_self, and_self]

theorem Consistent.sbrk {difference : Int} (h : Consistent L s) (hp : p < nproc) (hlive : Live s p)
    (hrun : sbrk s p difference = some (s', r)) : Consistent L s' := by
  rw [Kernel.sbrk] at hrun
  split at hrun
  case isTrue =>
    cases hrun
    exact h
  case isFalse hrange =>
    have hle : (s.processes p).originalBreak ≤ asWord ((s.processes p).programBreak + difference) := by omega
    have hlt : asWord ((s.processes p).programBreak + difference) < memsizeVirtual - pageSize := by omega
    have hmoved := h.setBreak hle hlt
    split at hrun
    case isFalse =>
      cases hrun
      exact hmoved
    case isTrue =>
      obtain ⟨t, hloop, ht⟩ := Option.map_eq_some_iff.mp hrun
      cases ht
      obtain ⟨hpt, hob, hstate⟩ := setBreak_pagetable s p (asWord ((s.processes p).programBreak + difference))
      have hlive' : Live (s.setBreak p (asWord ((s.processes p).programBreak + difference))) p := by
        rw [Live, hstate]
        exact hlive
      have hnew := roundUp_heap hlt
      have hold := roundUp_heap (h.ready p hp hlive).lt
      rw [← hpt] at hloop
      refine hmoved.unmapPages hp hlive' (by rw [hob]; omega) ?_ hloop
      have hpage : pageSize = 4096 := rfl
      have hdiv := Nat.div_mul_le_self
        (roundUp (s.processes p).programBreak pageSize - roundUp (asWord ((s.processes p).programBreak + difference)) pageSize) pageSize
      rw [Nat.mul_comm] at hdiv
      omega

theorem Consistent.sysBrk {rdi a : Nat} (h : Consistent L s) (hp : p < nproc) (hlive : Live s p)
    (hrun : sysBrk s p rdi = some (s', a)) : Consistent L s' := by
  obtain ⟨⟨t, r⟩, hcall, ht⟩ := Option.map_eq_some_iff.mp hrun
  cases ht
  exact h.sbrk hp hlive hcall

theorem Consistent.sysSbrk {rdi a : Nat} (h : Consistent L s) (hp : p < nproc) (hlive : Live s p)
    (hrun : sysSbrk s p rdi = some (s', a)) : Consistent L s' := by
  obtain ⟨⟨t, r⟩, hcall, ht⟩ := Option.map_eq_some_iff.mp hrun
  cases ht
  exact h.sbrk hp hlive hcall

theorem roundDown_heap {a b : Nat} (haligned : a % pageSize = 0) (hle : a ≤ b) (hlt : b < memsizeVirtual - pageSize) :
    a ≤ roundDown b pageSize ∧ roundDown b pageSize < memsizeVirtual := by
  have hpage : pageSize = 4096 := rfl
  have hV : memsizeVirtual = 3145728 := rfl
  rw [limit_eq] at hlt
  rw [roundDown, hpage, hV]
  rw [hpage] at haligned
  omega

theorem Consistent.pageFault {addr : Nat} {missing : Bool} {page : Option NewPage} (h : Consistent L s) (hp : p < nproc)
    (hlive : Live s p) (hfree : ∀ new ∈ page, new.Free s) (hrun : pageFault s p addr missing page = some s') :
    Consistent L s' := by
  rw [Kernel.pageFault] at hrun
  split at hrun
  case isFalse =>
    cases hrun
    exact h.exit
  case isTrue hheap =>
  obtain ⟨-, hle, hlt⟩ := hheap
  cases page with
  | none =>
      cases hrun
      exact h.exit
  | some new =>
      have hready := h.ready p hp hlive
      have hnew := hfree new rfl
      have hpn : asInt new.number = new.number := by
        have hsize : npages = 512 := rfl
        have hlt := hnew.2.1
        exact asInt_eq (by omega)
      obtain ⟨hgot, hapart⟩ := h.palloc hp hlive hnew
      obtain ⟨hva, hva'⟩ := roundDown_heap hready.aligned hle (Nat.lt_trans hlt hready.lt)
      obtain ⟨⟨r, mem⟩, hmap, hs'⟩ := Option.map_eq_some_iff.mp hrun
      have hmapped : Consistent L { s.palloc new p with mem := mem } := by
        refine hgot.mapOne hp hlive hva hva' (fun _ owner t ht => ?_) hmap
        rw [leafValue_heap_addr hnew.2.1, hpn]
        exact (hapart owner t ht).symm
      dsimp only at hs'
      rw [← hs']
      split
      next => exact hmapped
      next => exact hmapped.exit

end Calls

/-- No event of a process makes an assertion of `check_virtual_memory` fail. -/
theorem Consistent.step {e : HeapEvent} (h : Consistent L s) (hallowed : e.Allowed s) (he : e.step s = some s') :
    Consistent L s' := by
  obtain ⟨hpid, hrun, hargs⟩ := hallowed
  have hlive : Live s e.pid := by
    rw [Live, hrun]
    decide
  cases e with
  | brk pid rdi =>
      obtain ⟨⟨t, r⟩, hcall, ht⟩ := Option.map_eq_some_iff.mp he
      cases ht
      exact h.sysBrk hpid hlive hcall
  | sbrk pid rdi =>
      obtain ⟨⟨t, r⟩, hcall, ht⟩ := Option.map_eq_some_iff.mp he
      cases ht
      exact h.sysSbrk hpid hlive hcall
  | pageFault pid addr missing page => exact h.pageFault hpid hlive hargs.2 he

/-- The assertions of `check_virtual_memory` hold after any sequence of events of any processes. -/
theorem checks_kept (L : KernelLayout) (s s' : Machine) (hcheck : checkVirtualMemory L s = true)
    (hready : ∀ p < nproc, Live s p → HeapReady L s p)
    (honce : ∀ p < nproc, Live s p → VisitedOnce s.mem (s.processes p).pPagetable) (hreach : heapSystem.Reachable s s') :
    checkVirtualMemory L s' = true := by
  have hinit : Consistent L s := ⟨checkVirtualMemory_iff.mp hcheck, hready, honce⟩
  have hkept : Consistent L s' := Runs.System.Reachable.keeps (P := Consistent L)
    (fun t e t' ht hallowed he => ht.step hallowed he) hinit hreach
  exact checkVirtualMemory_iff.mpr hkept.checked

section Samples

/-- A kernel with one page of text, whose tables are on pages 1 to 4. -/
def sampleLayout : KernelLayout := ⟨0x41000, 0x41000, 0x1000, by decide⟩

/-- The tables of the kernel, and those of process 1 on pages 6 to 9. Both map the kernel's text and its stack. -/
def chainedEntries : List (Nat × Nat) := [(0x1000, 0x2007), (0x2000, 0x3007), (0x3000, 0x4007), (0x4200, 0x40007),
  (0x43F8, 0x7F007), (0x6000, 0x7007), (0x7000, 0x8007), (0x8000, 0x9007), (0x9200, 0x40007), (0x93F8, 0x7F007)]

/-- The third table of the process leads back to its second one. -/
def loopedEntries : List (Nat × Nat) := (0x8008, 0x7007) :: chainedEntries

def chained (pt : Nat) : Nat → List (List Nat × Nat)
  | 4 => [([0, 0, 0, 0x40], 0x40000), ([0, 0, 0, 0x7F], 0x7F000)]
  | j => [(List.replicate j 0, pt + 0x1000 * j)]

def looped : Nat → List (List Nat × Nat)
  | 4 => ([0, 0, 1, 0], 0x8000) :: chained 0x6000 4
  | 3 => ([0, 0, 1], 0x7000) :: chained 0x6000 3
  | j => chained 0x6000 j

def sampleMachine (entries : List (Nat × Nat)) (originalBreak programBreak : Nat) : Machine where
  mem := tableMemory entries
  pageinfo pn := if pn = 0 then ⟨poReserved, 1⟩ else if pn < 5 ∨ pn = 0x40 ∨ pn = 0x7F then ⟨poKernel, 1⟩
    else if 6 ≤ pn ∧ pn < 10 then ⟨1, 1⟩ else ⟨poFree, 0⟩
  processes p := ⟨programBreak, originalBreak, if p = 1 then .runnable else .free, 0x6000⟩

variable {entries : List (Nat × Nat)} {ob pb q : Nat} {found : Nat → List (List Nat × Nat)}

theorem sampleMachine_live (h : Live (sampleMachine entries ob pb) q) : q = 1 := by
  by_contra hne
  exact h (if_neg hne)

theorem sampleMachine_own (q : Nat) : ((sampleMachine entries ob pb).processes q).pPagetable ≠ sampleLayout.kernelPagetable := by
  have hne : 0x6000 ≠ 0x1000 := by decide
  exact hne

theorem sampleMachine_checked (hkernel : Explored entries 0x1000 (chained 0x1000)) (hproc : Explored entries 0x6000 found)
    (hmapped : ∀ pt ∈ [0x1000, 0x6000], checkPageTableMappings sampleLayout (sampleMachine entries ob pb) pt = true)
    (htables : ∀ j < 4, ∀ x ∈ chained 0x1000 j, checkTable (sampleMachine entries ob pb) poKernel 1 x.2 = true)
    (hfound : ∀ j < 4, ∀ x ∈ found j, checkTable (sampleMachine entries ob pb) 1 1 x.2 = true) :
    Checked sampleLayout (sampleMachine entries ob pb) where
  zero := rfl
  kernelMapped := checkPageTableMappings_iff.mp (hmapped 0x1000 List.mem_cons_self)
  kernelOwned := by
    rw [kernelUsers_eq_zero fun q _ _ => sampleMachine_own q]
    exact hkernel.owned rfl htables
  mapped _ _ _ _ := checkPageTableMappings_iff.mp (hmapped 0x6000 (by decide))
  owned q _ hlive _ := by
    obtain rfl := sampleMachine_live hlive
    exact hproc.owned rfl hfound
  owners pn _ hrc howner := by
    have hinfo : (sampleMachine entries ob pb).pageinfo pn = ⟨1, 1⟩ ∨ (sampleMachine entries ob pb).pageinfo pn = ⟨0, 0⟩ ∨
        ((sampleMachine entries ob pb).pageinfo pn).owner < 0 := by
      simp only [sampleMachine]
      split_ifs
      · exact .inr (.inr (by decide))
      · exact .inr (.inr (by decide))
      · exact .inl rfl
      · exact .inr (.inl rfl)
    rcases hinfo with hinfo | hinfo | hneg
    · rw [hinfo]
      have hlive : Live (sampleMachine entries ob pb) 1 := by
        rw [Live]
        simp [sampleMachine]
      exact ⟨by decide, hlive⟩
    · rw [hinfo] at hrc
      exact absurd hrc (by decide)
    · omega

theorem sampleMachine_ready (hchecked : Checked sampleLayout (sampleMachine entries ob pb)) (haligned : ob % pageSize = 0)
    (hstart : procStartAddr ≤ ob) (hle : ob ≤ pb) (hlt : pb < memsizeVirtual - pageSize)
    (hnone : ∀ a, ob ≤ a → a < memsizeVirtual → mappedPage (tableMemory entries) 0x6000 a = none) (q : Nat) :
    HeapReady sampleLayout (sampleMachine entries ob pb) q where
  own := sampleMachine_own q
  aligned := haligned
  start := hstart
  le := hle
  lt := hlt
  apart a ha ha' owner t ht := by
    have hnonneg := (hchecked.tableOk (fun q _ _ => sampleMachine_own q) ht).nonneg
    have hpn : (virtualMemoryLookup (tableMemory entries) 0x6000 a).pn = -1 := lookup_pn_none (hnone a ha ha')
    intro heq
    have hsame : (virtualMemoryLookup (tableMemory entries) 0x6000 a).pn = pageNumber t := heq
    omega

theorem chained_checked : Explored chainedEntries 0x6000 (chained 0x6000) ∧
    Checked sampleLayout (sampleMachine chainedEntries 0x100000 0x100000) := by
  have hkernel : Explored chainedEntries 0x1000 (chained 0x1000) := ⟨by decide, by decide, by decide +kernel⟩
  have hprocess : Explored chainedEntries 0x6000 (chained 0x6000) := ⟨by decide, by decide, by decide +kernel⟩
  exact ⟨hprocess, sampleMachine_checked hkernel hprocess (by decide +kernel) (by decide +kernel) (by decide +kernel)⟩

theorem chained_empty {a : Nat} (ha : 0x100000 ≤ a) (ha' : a < memsizeVirtual) :
    mappedPage (tableMemory chainedEntries) 0x6000 a = none := by
  by_contra hsome
  have hV : memsizeVirtual = 3145728 := rfl
  obtain ⟨x, hx, hpath⟩ := chained_checked.1.mapped hsome
  simp only [chained, List.mem_cons, List.not_mem_nil, or_false] at hx
  rcases hx with rfl | rfl
  all_goals
    simp only [pageIndex, List.cons.injEq, and_true] at hpath
    omega

/-- The process gets a page, and the assertions still hold. -/
theorem chained_grows : ∃ s', heapSystem.Reachable (sampleMachine chainedEntries 0x100000 0x100000) s' ∧
    mappedPage s'.mem 0x6000 0x100000 = some 16 ∧ checkVirtualMemory sampleLayout s' = true := by
  obtain ⟨s', hreach, hpage⟩ := Runs.System.reachable_of_any (M := heapSystem)
    (sampleMachine chainedEntries 0x100000 0x100000)
    [.sbrk 1 4096, .pageFault 1 0x100005 true (some ⟨16, fun _ => 0xCC⟩)]
    (P := fun s => mappedPage s.mem 0x6000 0x100000 = some 16) (by decide +kernel)
  refine ⟨s', hreach, hpage, checks_kept sampleLayout _ s' (checkVirtualMemory_iff.mpr chained_checked.2) (fun q _ _ => ?_)
    (fun q _ _ => ?_) hreach⟩
  · exact sampleMachine_ready chained_checked.2 (by decide) (by decide) (by decide) (by decide) (fun _ => chained_empty) q
  · exact chained_checked.1.once (by decide)

theorem looped_checked : Explored loopedEntries 0x6000 looped ∧
    Checked sampleLayout (sampleMachine loopedEntries 0x201000 0x203000) := by
  have hkernel : Explored loopedEntries 0x1000 (chained 0x1000) := ⟨by decide, by decide, by decide +kernel⟩
  have hprocess : Explored loopedEntries 0x6000 looped := ⟨by decide, by decide, by decide +kernel⟩
  exact ⟨hprocess, sampleMachine_checked hkernel hprocess (by decide +kernel) (by decide +kernel) (by decide +kernel)⟩

theorem looped_empty {a : Nat} (ha : 0x201000 ≤ a) (ha' : a < memsizeVirtual) :
    mappedPage (tableMemory loopedEntries) 0x6000 a = none := by
  by_contra hsome
  have hV : memsizeVirtual = 3145728 := rfl
  obtain ⟨x, hx, hpath⟩ := looped_checked.1.mapped hsome
  simp only [looped, chained, List.mem_cons, List.not_mem_nil, or_false] at hx
  rcases hx with rfl | rfl | rfl
  all_goals
    simp only [pageIndex, List.cons.injEq, and_true] at hpath
    omega

/-- A table that leads back to a table above it passes the check. A page of the heap
is then entered in an upper table, and what it holds is taken for page-table entries. -/
theorem looped_table_fails : ¬∀ (L : KernelLayout) (s s' : Machine), checkVirtualMemory L s = true →
    (∀ p < nproc, Live s p → HeapReady L s p) →
      (∀ p < nproc, Live s p → ∀ a, (s.processes p).originalBreak ≤ a → a < memsizeVirtual → ∀ pn,
        (s.pageinfo pn).owner = poKernel → mappedPage s.mem (s.processes p).pPagetable a ≠ some pn) →
        heapSystem.Reachable s s' → checkVirtualMemory L s' = true := by
  intro h
  obtain ⟨s', hreach, ⟨hlive, hpt⟩, h0, h1, h2⟩ := Runs.System.reachable_of_any (M := heapSystem)
    (sampleMachine loopedEntries 0x201000 0x203000) [.pageFault 1 0x201000 true (some ⟨16, fun _ => 0xCC⟩)]
    (P := fun s => ((s.processes 1).pState ≠ .free ∧ (s.processes 1).pPagetable = 0x6000) ∧ entry s.mem 0x6000 0 = 0x7007 ∧
      entry s.mem 0x7000 1 = 0x10007 ∧ entry s.mem 0x10000 0 = 0xCCCCCCCCCCCCCCCC) (by decide +kernel)
  have hcheck := h sampleLayout _ s' (checkVirtualMemory_iff.mpr looped_checked.2) (fun q _ _ => ?_) (fun q _ _ a ha ha' pn _ => ?_)
    hreach
  · have howned := (checkVirtualMemory_iff.mp hcheck).owned 1 (by decide) hlive (by rw [hpt]; decide)
    have hfirst : pteAddr (entry s'.mem 0x6000 0) = 0x7000 := by rw [h0]; rfl
    have hsecond : pteAddr (entry s'.mem 0x7000 1) = 0x10000 := by rw [h1]; rfl
    have hvisits : Visits s'.mem 0x6000 [0, 1, 0] (pteAddr 0xCCCCCCCCCCCCCCCC) := by
      refine .cons (by decide) (by rw [h0]; decide) ?_
      rw [hfirst]
      refine .cons (by decide) (by rw [h1]; decide) ?_
      rw [hsecond]
      refine .cons (by decide) (by rw [h2]; decide) ?_
      rw [h2]
      exact .nil _
    rw [hpt] at howned
    exact absurd (howned.below [0, 1, 0] _ hvisits (by decide) (by decide)).nonneg (by decide)
  · exact sampleMachine_ready looped_checked.2 (by decide) (by decide) (by decide) (by decide) (fun _ => looped_empty) q
  · have hnone : mappedPage (tableMemory loopedEntries) 0x6000 a = none := looped_empty ha ha'
    exact fun hsome => by cases hnone.symm.trans hsome

end Samples

end WeensyOS.Kernel
