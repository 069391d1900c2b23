import WeensyOS.Kernel.HeapAccess

namespace WeensyOS.Kernel

open ByteMemory LibC ProgramBreak

variable {s s' : Machine} {p a pn : Nat} {write : Bool} {c c' : Nat → Option UInt8}

/-- The kernel is in order, and every heap holds what the abstract memory says. -/
structure MemOk (s : Machine) (c : Cells) : Prop where
  kernel : KernelOk s
  heaps : ∀ p < nproc, Live s p → HeapMem s (c p) p

section Events

theorem HeapMem.mono (h : HeapMem s c p) (hc : ∀ a b, c' a = some b → c a = some b) : HeapMem s c' p :=
  { h with content := fun a b hb => h.content a b (hc a b hb) }

theorem HeapMem.sysBrk {rdi r : Nat} (h : HeapMem s c p) (hok : ProcOk s p) (h0 : SystemPage s 0) (hrdi : rdi < 2 ^ 64)
    (hrun : sysBrk s p rdi = some (s', r)) :
    HeapMem s' (fun x => if roundUp (s'.processes p).programBreak pageSize ≤ x then none else c x) p := by
  rcases sysBrk_cases hok h0 hrdi hrun with rfl | ⟨-, hlt, hmoved⟩
  · refine h.mono fun a b hb => ?_
    split at hb
    · cases hb
    · exact hb
  · have hbreak : (s'.processes p).programBreak = rdi := by rw [hmoved.proc]
    rw [hbreak]
    exact h.moved hok hlt hmoved

theorem HeapMem.fault {page : NewPage} (h : HeapMem s c p) (hok : ProcOk s p) (hfree : page.Free s)
    (hg : ¬Granted s p a write) (hrun : accessFault s p a page = some s') (hlive : Live s' p) : HeapMem s' c p := by
  have hfree' : ∀ new ∈ some page, new.Free s := by
    rintro new ⟨⟩
    exact hfree
  rcases pageFault_cases hok hfree' hrun with rfl | ⟨new, hnew, rfl | ⟨hle, hlt, hr, rfl⟩⟩
  · exact absurd hlive (exit_free s p)
  · exact absurd hlive (exit_free _ p)
  · cases hnew
    have hun := palloc_untouched hfree p p
    have hkept := hun.tables hok
    have hlimit := hok.lt
    have hround := roundDown_le a pageSize
    have hV : memsizeVirtual = 3145728 := rfl
    have hsame : roundDown a pageSize / 4096 = a / 4096 := by
      have hpage : pageSize = 4096 := rfl
      rw [roundDown, hpage]
      omega
    rw [limit_eq] at hlimit
    have hva : roundDown a pageSize < memsizeVirtual := by omega
    refine (h.untouched hok hun).mapPage (hok.kept hkept fun _ => palloc_system hfree p) hva (palloc_fresh hok hfree) ?_
    have hpage := hkept.mappedPage hok hva
    cases hmapped : mappedPage s.mem (s.processes p).pPagetable (roundDown a pageSize) with
    | none => exact hpage.trans hmapped
    | some t =>
        rw [mappedPage_page hsame] at hmapped
        have hm : HeapMaps s p a t := ⟨hle, by rw [limit_eq]; omega, hmapped⟩
        exact absurd (h.granted hm write) hg

theorem Cells.after_brk (cells : Cells) (s : Machine) (pid rdi : Nat) : cells.after s (.brk pid rdi) pid =
    fun x => if roundUp (s.processes pid).programBreak pageSize ≤ x then none else cells pid x :=
  funext fun _ => if_congr (and_iff_right rfl) rfl rfl

theorem Cells.after_sbrk (cells : Cells) (s : Machine) (pid rdi : Nat) : cells.after s (.sbrk pid rdi) pid =
    fun x => if roundUp (s.processes pid).programBreak pageSize ≤ x then none else cells pid x :=
  funext fun _ => if_congr (and_iff_right rfl) rfl rfl

theorem Cells.after_store (cells : Cells) (s : Machine) (pid a : Nat) (b : UInt8) : cells.after s (.store pid a b) pid =
    fun x => if x = a ∧ (s.processes pid).originalBreak ≤ a ∧ a < memsizeVirtual - pageSize then some b else cells pid x :=
  funext fun _ => if_congr (and_iff_right rfl) rfl rfl

variable {e : MemEvent} {cells : Cells} (h : MemOk s cells) (hallowed : e.Allowed s) (he : e.step s = some s')
include h hallowed he

theorem MemEvent.step_stepped : Stepped s s' e.pid := by
  obtain ⟨hpid, hrun, hargs⟩ := hallowed
  have hlive : Live s e.pid := by
    rw [Live, hrun]
    decide
  have hok := h.kernel.procs e.pid hpid hlive
  have hmem := h.heaps e.pid hpid hlive
  cases e with
  | brk pid rdi =>
      obtain ⟨⟨t, r⟩, hcall, ht⟩ := Option.map_eq_some_iff.mp he
      cases ht
      exact sysBrk_stepped hok h.kernel.reserved hargs hcall
  | sbrk pid rdi =>
      obtain ⟨⟨t, r⟩, hcall, ht⟩ := Option.map_eq_some_iff.mp he
      cases ht
      exact sysSbrk_stepped hok h.kernel.reserved hcall
  | load pid a =>
      cases he
      exact Stepped.refl hok
  | store pid a b =>
      cases he
      exact hmem.store_stepped hok hargs
  | fault pid a write page =>
      have hfault : pageFault s pid a (decide ¬Reaches s.mem (s.processes pid).pPagetable a 4) (some page) = some s' := he
      refine pageFault_stepped hok ?_ hfault
      rintro new ⟨⟩
      exact hargs.2

theorem MemEvent.step_own (hlive' : Live s' e.pid) : HeapMem s' (cells.after s' e e.pid) e.pid := by
  obtain ⟨hpid, hrun, hargs⟩ := hallowed
  have hlive : Live s e.pid := by
    rw [Live, hrun]
    decide
  have hok := h.kernel.procs e.pid hpid hlive
  have hmem := h.heaps e.pid hpid hlive
  cases e with
  | brk pid rdi =>
      obtain ⟨⟨t, r⟩, hcall, rfl⟩ := Option.map_eq_some_iff.mp he
      have hown : HeapMem t (cells.after t (.brk pid rdi) pid) pid := by
        rw [Cells.after_brk]
        exact hmem.sysBrk hok h.kernel.reserved hargs hcall
      exact hown
  | sbrk pid rdi =>
      obtain ⟨⟨t, r⟩, hcall, rfl⟩ := Option.map_eq_some_iff.mp he
      rw [sysSbrk_eq] at hcall
      obtain ⟨⟨u, r'⟩, hbrk, hu⟩ := Option.map_eq_some_iff.mp hcall
      obtain rfl : u = t := congrArg Prod.fst hu
      have hown : HeapMem u (cells.after u (.sbrk pid rdi) pid) pid := by
        rw [Cells.after_sbrk]
        exact hmem.sysBrk hok h.kernel.reserved (Nat.mod_lt _ (by decide)) hbrk
      exact hown
  | load pid a =>
      cases he
      exact hmem
  | store pid a b =>
      cases he
      have hown : HeapMem (storeByte s pid a b) (cells.after (storeByte s pid a b) (.store pid a b) pid) pid := by
        rw [Cells.after_store]
        exact hmem.store hok hargs
      exact hown
  | fault pid a write page => exact hmem.fault hok hargs.2 hargs.1 he hlive'

omit h hallowed he in
theorem Cells.after_other {q : Nat} (hq : q ≠ e.pid) : cells.after s' e q = cells q := by
  cases e with
  | brk pid rdi => exact funext fun x => if_neg fun hc => hq hc.1
  | sbrk pid rdi => exact funext fun x => if_neg fun hc => hq hc.1
  | load pid a => rfl
  | store pid a b => exact funext fun x => if_neg fun hc => hq hc.1
  | fault pid a write page => rfl

/-- One step of the kernel is one step of the abstract memory. -/
theorem MemOk.step : MemOk s' (cells.after s' e) where
  kernel := h.kernel.step (e.step_stepped h hallowed he)
  heaps q hq hlive := by
    by_cases hqp : q = e.pid
    · subst hqp
      exact e.step_own h hallowed he hlive
    · have hother := (e.step_stepped h hallowed he).others q hqp
      rw [Live, hother.proc] at hlive
      rw [Cells.after_other hqp]
      exact (h.heaps q hq hlive).untouched (h.kernel.procs q hq hlive) hother

end Events

/-- A process with all last-level tables and nothing in its heap. Its pages are in
use and its own, or the system's; none of them that it may use is one of its tables. -/
structure MemStart (s : Machine) (p : Nat) : Prop where
  aligned : (s.processes p).originalBreak % pageSize = 0
  breaks : (s.processes p).originalBreak = (s.processes p).programBreak
  lt : (s.processes p).programBreak < memsizeVirtual - pageSize
  tree : Tree s.mem (s.processes p).pPagetable memsizeVirtual
  full : ∀ a < memsizeVirtual, Reaches s.mem (s.processes p).pPagetable a 3
  tables : ∀ pn, IsTable s p pn → Keeps s p pn
  user : ∀ a pn, UserMaps s p a pn → Keeps s p pn ∨ SystemPage s pn
  safe : ∀ a pn, UserMaps s p a pn → ¬IsTable s p pn
  empty : ∀ a, (s.processes p).originalBreak ≤ a → a < memsizeVirtual - pageSize →
    mappedPage s.mem (s.processes p).pPagetable a = none

/-- The heap of `p` behaves like memory. -/
structure LikeMemory (s : Machine) (c : Cells) (p : Nat) : Prop where
  /-- Below the break an access is granted, at once or after one fault. -/
  served : ∀ a write, (s.processes p).originalBreak ≤ a → a < (s.processes p).programBreak → Granted s p a write ∨
    ∀ page : NewPage, page.Free s → ∃ s', accessFault s p a page = some s' ∧ (s'.processes p).pState = .runnable ∧
      Granted s' p a write
  /-- It stays granted, whatever the others do. -/
  stays : ∀ (e : MemEvent) (s' : Machine), e.Allowed s → e.pid ≠ p → e.step s = some s' → ∀ a write, Granted s p a write → Granted s' p a write
  /-- Past the last page of the heap nothing is granted. -/
  beyond : ∀ a write, roundUp (s.processes p).programBreak pageSize ≤ a → a < memsizeVirtual - pageSize →
    ¬Granted s p a write
  /-- A fault at or past the break kills the process. -/
  killed : ∀ a write, (s.processes p).programBreak ≤ a → a < memsizeVirtual - pageSize → ¬Granted s p a write →
    ∀ page : NewPage, ∃ s', accessFault s p a page = some s' ∧ ¬Live s' p
  /-- A load returns the byte that was stored last. -/
  loads : ∀ a b, c p a = some b → Granted s p a false ∧ loadByte s p a = b

section LikeMemory

theorem MemStart.ok (h : MemStart s p) : ProcOk s p where
  aligned := h.aligned
  le := Nat.le_of_eq h.breaks
  lt := h.lt
  shape := h.tree.toShape
  tables := h.tables
  user := h.user
  heap a pn hm := by
    have hnone := h.empty a hm.le hm.lt
    rw [hm.page] at hnone
    cases hnone

theorem MemStart.mem (h : MemStart s p) : HeapMem s (fun _ => none) p where
  tree := h.tree
  full := h.full
  safe := h.safe
  flags a pn hm := by
    have hnone := h.empty a hm.le hm.lt
    rw [hm.page] at hnone
    cases hnone
  content a b hc := by cases hc

variable {cells : Cells}

theorem HeapMem.missing (h : HeapMem s c p) (hle : (s.processes p).originalBreak ≤ a) (hlt : a < memsizeVirtual - pageSize)
    (hg : ¬Granted s p a write) : ¬Reaches s.mem (s.processes p).pPagetable a 4 := by
  intro hr
  exact hg (h.granted ⟨hle, hlt, mappedPage_eq_some.mpr ⟨hr, rfl⟩⟩ write)

theorem HeapMem.served (h : HeapMem s c p) (hok : ProcOk s p) (h0 : SystemPage s 0)
    (hrun : (s.processes p).pState = .runnable) (hle : (s.processes p).originalBreak ≤ a)
    (hlt : a < (s.processes p).programBreak) (hg : ¬Granted s p a write) (page : NewPage) (hfree : page.Free s) :
    ∃ s', accessFault s p a page = some s' ∧ (s'.processes p).pState = .runnable ∧ Granted s' p a write := by
  have hlimit := hok.lt
  have hround := roundDown_le a pageSize
  have hV : memsizeVirtual = 3145728 := rfl
  have halt : a < memsizeVirtual - pageSize := Nat.lt_trans hlt hlimit
  have hmissing := h.missing hle halt hg
  rw [limit_eq] at hlimit
  have hva : roundDown a pageSize < memsizeVirtual := by omega
  have hfault := pageFault_heap hok h0 hfree (h.tree.allows heapPerm) (h.full _ hva) hle hlt
  have hrun' : accessFault s p a page = some ((s.palloc page p).mapPage p (roundDown a pageSize) page.number) := by
    rw [accessFault, decide_eq_true hmissing, hfault]
  refine ⟨_, hrun', hrun, ?_⟩
  have hmem := h.fault hok hfree hg hrun' (by rw [Live]; exact fun hf => by cases hrun.symm.trans hf)
  have hun := palloc_untouched hfree p p
  have hok' : ProcOk (s.palloc page p) p := hok.kept (hun.tables hok) fun _ => palloc_system hfree p
  have hfull := (h.untouched hok hun).full _ hva
  have hsame : a / 4096 = roundDown a pageSize / 4096 := by
    have hpage : pageSize = 4096 := rfl
    rw [roundDown, hpage]
    omega
  have hpage := mapPage_page hok' hva hfull hfree.2.1 (Nat.lt_of_lt_of_le halt (Nat.sub_le _ _))
  rw [if_pos hsame] at hpage
  exact hmem.granted ⟨hle, halt, hpage⟩ write

theorem MemOk.likeMemory (h : MemOk s cells) (hp : p < nproc) (hrun : (s.processes p).pState = .runnable) :
    LikeMemory s cells p := by
  have hlive : Live s p := by
    rw [Live, hrun]
    decide
  have hok := h.kernel.procs p hp hlive
  have hmem := h.heaps p hp hlive
  refine ⟨fun a write hle hlt => ?_, fun e s' hallowed hne he a write hg => ?_, fun a write hge hlt hg => ?_,
    fun a write hge hlt hg page => ?_, fun a b hc => hmem.load hc⟩
  · by_cases hg : Granted s p a write
    · exact .inl hg
    · exact .inr (hmem.served hok h.kernel.reserved hrun hle hlt hg)
  · exact (((e.step_stepped h hallowed he).others p (Ne.symm hne)).tables hok).granted hok hg
  · have hle := hok.le
    have hlimit := hok.lt
    have hround := hge
    rw [limit_eq] at hlimit
    rw [roundUp_page (by omega)] at hround
    have hm : HeapMaps s p a _ := ⟨by omega, hlt, mappedPage_eq_some.mpr ⟨hg.reaches, rfl⟩⟩
    exact absurd (hok.heap a _ hm).below (Nat.not_lt.mpr hge)
  · refine ⟨s.exit p, ?_, exit_free s p⟩
    exact if_neg fun hc => Nat.not_lt.mpr hge hc.2.2

end LikeMemory

/-- Heaps behave like memory, after any sequence of calls, accesses and faults of any processes. -/
theorem heaps_like_memory (s s' : Machine) (c : Cells) (h0 : SystemPage s 0) (hstart : ∀ p < nproc, Live s p → MemStart s p)
    (hreach : memSystem.Reachable (s, fun _ _ => none) (s', c)) (p : Nat) (hp : p < nproc)
    (hrun : (s'.processes p).pState = .runnable) : LikeMemory s' c p := by
  have hinit : MemOk s fun _ _ => none :=
    ⟨⟨h0, fun p hp hlive => (hstart p hp hlive).ok⟩, fun p hp hlive => (hstart p hp hlive).mem⟩
  have hok : MemOk s' c := Runs.System.Reachable.keeps (P := fun t => MemOk t.1 t.2)
    (fun t e t' ht hallowed he => by
      obtain ⟨u, hu, rfl⟩ := Option.map_eq_some_iff.mp he
      exact ht.step hallowed hu) hinit hreach
  exact hok.likeMemory hp hrun

/-- Tables for all of virtual memory, with nothing mapped. -/
def emptyTables : Memory :=
  setEntry (setEntry (setEntry (setEntry (fun _ => 0) 0x1000 0 0x2007) 0x2000 0 0x3007) 0x3000 0 0x4007) 0x3000 1 0x5007

/-- Process 1 with these tables, which are on pages 1 to 5. -/
def freshProcess : Machine where
  mem := emptyTables
  pageinfo pn := if pn = 0 then ⟨poReserved, 1⟩ else if pn < 6 then ⟨1, 1⟩ else ⟨poFree, 0⟩
  processes p := ⟨0x100000, 0x100000, if p = 1 then .runnable else .free, 0x1000⟩

section FreshProcess

theorem emptyTables_path (ha : a < memsizeVirtual) : Reaches emptyTables 0x1000 a 3 ∧
    tableAt emptyTables 0x1000 a 1 = 0x2000 ∧ tableAt emptyTables 0x1000 a 2 = 0x3000 ∧
      tableAt emptyTables 0x1000 a 3 = 0x4000 + 0x1000 * (a / 2 ^ 21) ∧
        levelEntry emptyTables 0x1000 a 0 = 0x2007 ∧ levelEntry emptyTables 0x1000 a 1 = 0x3007 ∧
          (levelEntry emptyTables 0x1000 a 2 = 0x4007 ∨ levelEntry emptyTables 0x1000 a 2 = 0x5007) := by
  have hV : memsizeVirtual = 3145728 := rfl
  have h0 : levelEntry emptyTables 0x1000 a 0 = 0x2007 := by
    have hindex : pageIndex a 0 = 0 := by
      simp only [pageIndex]
      omega
    have hentry : entry emptyTables 0x1000 0 = 0x2007 := by decide +kernel
    rw [levelEntry, hindex]
    exact hentry
  have ht1 : tableAt emptyTables 0x1000 a 1 = 0x2000 := by
    rw [tableAt_succ, h0]
    rfl
  have h1 : levelEntry emptyTables 0x1000 a 1 = 0x3007 := by
    have hindex : pageIndex a 1 = 0 := by
      simp only [pageIndex]
      omega
    have hentry : entry emptyTables 0x2000 0 = 0x3007 := by decide +kernel
    rw [levelEntry, ht1, hindex, hentry]
  have ht2 : tableAt emptyTables 0x1000 a 2 = 0x3000 := by
    rw [tableAt_succ, h1]
    rfl
  have hindex : pageIndex a 2 = a / 2 ^ 21 := by
    simp only [pageIndex]
    omega
  have hregion : a / 2 ^ 21 = 0 ∨ a / 2 ^ 21 = 1 := by omega
  rcases hregion with hregion | hregion
  · have h2 : levelEntry emptyTables 0x1000 a 2 = 0x4007 := by
      have hentry : entry emptyTables 0x3000 0 = 0x4007 := by decide +kernel
      rw [levelEntry, ht2, hindex, hregion, hentry]
    refine ⟨?_, ht1, ht2, ?_, h0, h1, .inl h2⟩
    · rw [Reaches.succ, Reaches.succ, Reaches.succ, h0, h1, h2]
      exact ⟨⟨⟨reaches_zero _ _ _, by decide⟩, by decide⟩, by decide⟩
    · rw [tableAt_succ, h2, hregion]
      rfl
  · have h2 : levelEntry emptyTables 0x1000 a 2 = 0x5007 := by
      have hentry : entry emptyTables 0x3000 1 = 0x5007 := by decide +kernel
      rw [levelEntry, ht2, hindex, hregion, hentry]
    refine ⟨?_, ht1, ht2, ?_, h0, h1, .inr h2⟩
    · rw [Reaches.succ, Reaches.succ, Reaches.succ, h0, h1, h2]
      exact ⟨⟨⟨reaches_zero _ _ _, by decide⟩, by decide⟩, by decide⟩
    · rw [tableAt_succ, h2, hregion]
      rfl

theorem emptyTables_unmapped (ha : a < memsizeVirtual) : mappedPage emptyTables 0x1000 a = none := by
  rw [mappedPage_eq_none, Reaches.succ]
  rintro ⟨-, hpresent⟩
  have hV : memsizeVirtual = 3145728 := rfl
  have htable := (emptyTables_path ha).2.2.2.1
  have hdvd : 4096 ∣ 0x4000 + 0x1000 * (a / 2 ^ 21) := by omega
  have hzero : levelEntry emptyTables 0x1000 a 3 = 0 := by
    have hindex := pageIndex_lt a 3
    rw [levelEntry, htable, emptyTables, entry_setEntry (by decide) hdvd (by decide) hindex, if_neg (by omega),
      entry_setEntry (by decide) hdvd (by decide) hindex, if_neg (by omega), entry_setEntry (by decide) hdvd (by decide) hindex,
      if_neg (by omega), entry_setEntry (by decide) hdvd (by decide) hindex, if_neg (by omega), entry_zero]
  exact hpresent (by rw [hzero]; rfl)

theorem emptyTables_tree : Tree emptyTables 0x1000 memsizeVirtual where
  aligned := by decide
  physical a ha i hi _ := by
    have hV : memsizeVirtual = 3145728 := rfl
    have hphys : memsizePhysical = 2097152 := rfl
    obtain ⟨-, h1, h2, h3, -⟩ := emptyTables_path ha
    have hi' : i + 1 = 1 ∨ i + 1 = 2 ∨ i + 1 = 3 := by omega
    rcases hi' with hi' | hi' | hi' <;> rw [hi'] <;> omega
  upper a ha i hi _ := by
    obtain ⟨-, -, -, -, h0, h1, h2⟩ := emptyTables_path ha
    have hi' : i = 0 ∨ i = 1 ∨ i = 2 := by omega
    rcases hi' with rfl | rfl | rfl
    · rw [h0]
      decide
    · rw [h1]
      decide
    · rcases h2 with h2 | h2 <;> rw [h2] <;> decide
  distinct a ha a' ha' _ _ heq := by
    rw [(emptyTables_path ha).2.2.2.1, (emptyTables_path ha').2.2.2.1] at heq
    omega
  leaf a ha a' ha' i hi _ _ := by
    obtain ⟨-, -, -, h3, -⟩ := emptyTables_path ha
    obtain ⟨-, h1, h2, -⟩ := emptyTables_path ha'
    have hzero : tableAt emptyTables 0x1000 a' 0 = 0x1000 := rfl
    have hi' : i = 0 ∨ i = 1 ∨ i = 2 := by omega
    rcases hi' with rfl | rfl | rfl <;> omega

theorem freshProcess_table (ht : IsTable freshProcess p pn) : 0 < pn ∧ pn < 6 := by
  obtain ⟨a, ha, i, hi, -, htable⟩ := ht
  have hV : memsizeVirtual = 3145728 := rfl
  have hpage : pageSize = 4096 := rfl
  obtain ⟨-, h1, h2, h3, -⟩ := emptyTables_path ha
  have hzero : tableAt emptyTables 0x1000 a 0 = 0x1000 := rfl
  have htable' : tableAt emptyTables 0x1000 a i = pn * pageSize := htable
  rw [hpage] at htable'
  have hi' : i = 0 ∨ i = 1 ∨ i = 2 ∨ i = 3 := by omega
  rcases hi' with rfl | rfl | rfl | rfl <;> omega

theorem freshProcess_start (p : Nat) (hlive : Live freshProcess p) : MemStart freshProcess p where
  aligned := (by decide : 0x100000 % pageSize = 0)
  breaks := rfl
  lt := (by decide : 0x100000 < memsizeVirtual - pageSize)
  tree := emptyTables_tree
  full _ ha := (emptyTables_path ha).1
  tables pn ht := by
    obtain ⟨hlo, hhi⟩ := freshProcess_table ht
    have hsize : npages = 512 := rfl
    have hone : p = 1 := by
      by_contra hne
      exact hlive (if_neg hne)
    have hinfo : freshProcess.pageinfo pn = ⟨1, 1⟩ := (if_neg (Nat.ne_of_gt hlo)).trans (if_pos hhi)
    refine ⟨by omega, ?_, ?_⟩
    · rw [hinfo, hone]
      rfl
    · rw [hinfo]
  user a pn hu := by cases (emptyTables_unmapped hu.lt).symm.trans hu.page
  safe a pn hu _ := by cases (emptyTables_unmapped hu.lt).symm.trans hu.page
  empty a _ ha := emptyTables_unmapped (Nat.lt_of_lt_of_le ha (Nat.sub_le _ _))

/-- The process stores a byte in a page of its heap, and loads it. -/
theorem freshProcess_stores : ∃ s' c, memSystem.Reachable (freshProcess, fun _ _ => none) (s', c) ∧
    Granted s' 1 0x100005 false ∧ loadByte s' 1 0x100005 = 7 := by
  obtain ⟨⟨s', c⟩, hreach, hrun, hcell⟩ := Runs.System.reachable_of_any (M := memSystem) (freshProcess, fun _ _ => none)
    [.sbrk 1 4096, .fault 1 0x100005 true ⟨6, fun _ => 0xCC⟩, .store 1 0x100005 7, .sbrk 1 (2 ^ 64 - 1), .load 1 0x100005]
    (P := fun t => (t.1.processes 1).pState = .runnable ∧ t.2 1 0x100005 = some 7) (by decide +kernel)
  exact ⟨s', c, hreach, (heaps_like_memory freshProcess s' c ⟨by decide, by decide, by decide⟩
    (fun p _ => freshProcess_start p) hreach 1 (by decide) hrun).loads 0x100005 7 hcell⟩

end FreshProcess

end WeensyOS.Kernel
