import WeensyOS.Kernel.HeapAccess
import WeensyOS.Kernel.Permissions
import WeensyOS.Kernel.TableWalks

namespace WeensyOS.Kernel

open ByteMemory LibC ProgramBreak

namespace Machine

/-- A page is no longer mapped. -/
def dropPage (s : Machine) (pn : Nat) : Machine :=
  let s := s.setRefcount pn ((s.pageinfo pn).refcount - 1)
  if (s.pageinfo pn).refcount = 0 then s.setOwner pn poFree else s

end Machine

/-- The first loop of `process_free`, for the `n` pages that are left. There is no `pageinfo` for a page number
outside of the array. -/
def dropPages (pagetable : Nat) : Nat → Machine → Nat → Option Machine
  | 0, s, _ => some s
  | n + 1, s, va =>
      let vam := virtualMemoryLookup s.mem pagetable va
      (if permBits vam.perm &&& pteP ≠ 0 then
        if 0 ≤ vam.pn ∧ vam.pn < npages then some (s.dropPage vam.pn.toNat) else none
      else some s).bind fun s => dropPages pagetable n s (va + pageSize)

/-- A page table is given up; it is asserted that it is in use once. -/
def freeTable (s : Machine) (table : Nat) : Option Machine :=
  let pn := pageNumber table
  if 0 ≤ pn ∧ pn < npages ∧ (s.pageinfo pn.toNat).refcount = 1 then
    some ((s.setRefcount pn.toNat 0).setOwner pn.toNat poFree)
  else none

/-- The tables that `process_free` gives up: `l4`, `l3`, `l2`, `l1` and `l1_dash`. -/
def processTables (m : Memory) (l4 : Nat) : List Nat :=
  let l3 := pteAddr (entry m l4 0)
  let l2 := pteAddr (entry m l3 0)
  [l4, l3, l2, pteAddr (entry m l2 0), pteAddr (entry m l2 1)]

/-- The object code of `process_free`. -/
def processFree (s : Machine) (pid : Nat) : Option Machine :=
  let s := s.setState pid .free
  let pagetable := (s.processes pid).pPagetable
  (dropPages pagetable ((memsizeVirtual - procStartAddr) / pageSize) s procStartAddr).bind fun s =>
  (processTables s.mem pagetable).foldlM freeTable s

/-- The case `INT_PAGEFAULT` of `exception`, where a process that is broken gives its pages back with `process_free`. -/
def handlePagefault (s : Machine) (current addr : Nat) (missing : Bool) (page : Option NewPage) : Option Machine :=
  let proc := s.processes current
  let inHeap := proc.originalBreak ≤ addr ∧ addr < proc.programBreak
  if missing = true ∧ inHeap then
    let pageAddr := roundDown addr pageSize
    match page with
    | none => processFree (s.setState current .broken) current
    | some page =>
        let s := s.palloc page current
        (virtualMemoryMap s.mem proc.pPagetable pageAddr (page.number * pageSize) pageSize heapPerm).bind fun (r, mem) =>
          let s := { s with mem := mem }
          if 0 ≤ r then some s else processFree (s.setState current .broken) current
  else processFree (s.setState current .broken) current

/-- Apart from its page tables, the process owns the pages that are mapped at the addresses of user code, and these are
mapped once. -/
structure OwnsMapped (s : Machine) (p : Nat) : Prop where
  info : ∀ a pn, procStartAddr ≤ a → a < memsizeVirtual → mappedPage s.mem (s.processes p).pPagetable a = some pn →
    pn < npages ∧ s.pageinfo pn = ⟨p, 1⟩
  once : ∀ a b pn, procStartAddr ≤ a → a < memsizeVirtual → procStartAddr ≤ b → b < memsizeVirtual →
    mappedPage s.mem (s.processes p).pPagetable a = some pn → mappedPage s.mem (s.processes p).pPagetable b = some pn →
      a / 4096 = b / 4096
  owned : ∀ pn, (s.pageinfo pn).owner = p → IsTable s p pn ∨ ∃ a, procStartAddr ≤ a ∧ a < memsizeVirtual ∧
    mappedPage s.mem (s.processes p).pPagetable a = some pn

/-- The pages in question are free, and nothing else has changed. -/
structure Freed (pages : Nat → Prop) (s s' : Machine) : Prop where
  mem : s'.mem = s.mem
  processes : s'.processes = s.processes
  free : ∀ pn, pages pn → s'.pageinfo pn = ⟨poFree, 0⟩
  kept : ∀ pn, ¬pages pn → s'.pageinfo pn = s.pageinfo pn

variable {s s' s'' : Machine} {m : Memory} {p pn pt va n : Nat} {pages pages' : Nat → Prop}

section Freeing

theorem Freed.trans (h : Freed pages s s') (h' : Freed pages' s' s'') : Freed (fun pn => pages pn ∨ pages' pn) s s'' where
  mem := h'.mem.trans h.mem
  processes := h'.processes.trans h.processes
  free pn hpn := by
    by_cases hlast : pages' pn
    · exact h'.free pn hlast
    · exact (h'.kept pn hlast).trans (h.free pn (hpn.resolve_right hlast))
  kept pn hpn := (h'.kept pn fun hlast => hpn (.inr hlast)).trans (h.kept pn fun hfirst => hpn (.inl hfirst))

theorem Freed.congr (h : Freed pages s s') (hpages : ∀ pn, pages pn ↔ pages' pn) : Freed pages' s s' where
  mem := h.mem
  processes := h.processes
  free pn hpn := h.free pn ((hpages pn).mpr hpn)
  kept pn hpn := h.kept pn fun hpn' => hpn ((hpages pn).mp hpn')

theorem Freed.refl (s : Machine) : Freed (fun _ => False) s s := ⟨rfl, rfl, fun _ hpn => hpn.elim, fun _ _ => rfl⟩

/-- A page that is in use once is free when it is dropped. -/
theorem dropPage_freed (h : (s.pageinfo pn).refcount = 1) : Freed (· = pn) s (s.dropPage pn) := by
  have hzero : ((s.setRefcount pn ((s.pageinfo pn).refcount - 1)).pageinfo pn).refcount = 0 := by
    simp only [Machine.setRefcount, Function.update_self, h]
    rfl
  have hdrop : s.dropPage pn = (s.setRefcount pn ((s.pageinfo pn).refcount - 1)).setOwner pn poFree := if_pos hzero
  rw [hdrop]
  refine ⟨rfl, rfl, ?_, fun q hq => ?_⟩
  · rintro q rfl
    simp only [Machine.setOwner, Machine.setRefcount, Function.update_self, h]
    rfl
  · simp only [Machine.setOwner, Machine.setRefcount, Function.update_of_ne hq]

theorem freeTable_freed {t : Nat} (hlo : 0 ≤ pageNumber t) (hhi : pageNumber t < npages)
    (h : (s.pageinfo (pageNumber t).toNat).refcount = 1) :
    ∃ s', freeTable s t = some s' ∧ Freed (· = (pageNumber t).toNat) s s' := by
  refine ⟨_, if_pos ⟨hlo, hhi, h⟩, rfl, rfl, ?_, fun q hq => ?_⟩
  · rintro q rfl
    simp only [Machine.setOwner, Machine.setRefcount, Function.update_self]
  · simp only [Machine.setOwner, Machine.setRefcount, Function.update_of_ne hq]

/-- No page is given up twice. -/
theorem freeTables_freed {ts : List Nat} (hdistinct : ts.Pairwise fun t u => (pageNumber t).toNat ≠ (pageNumber u).toNat)
    (h : ∀ t ∈ ts, 0 ≤ pageNumber t ∧ pageNumber t < npages ∧ (s.pageinfo (pageNumber t).toNat).refcount = 1) :
    ∃ s', ts.foldlM freeTable s = some s' ∧ Freed (fun pn => ∃ t ∈ ts, (pageNumber t).toNat = pn) s s' := by
  induction ts generalizing s with
  | nil => exact ⟨s, rfl, (Freed.refl s).congr fun pn => by simp⟩
  | cons t ts ih =>
      obtain ⟨hfirst, hrest⟩ := List.pairwise_cons.mp hdistinct
      obtain ⟨hlo, hhi, hone⟩ := h t List.mem_cons_self
      obtain ⟨s₁, hrun, hfreed⟩ := freeTable_freed hlo hhi hone
      obtain ⟨s', hruns, hfreeds⟩ := ih (s := s₁) hrest fun u hu => by
        obtain ⟨hlo', hhi', hone'⟩ := h u (List.mem_cons_of_mem t hu)
        exact ⟨hlo', hhi', by rw [hfreed.kept _ (hfirst u hu).symm, hone']⟩
      refine ⟨s', by rw [List.foldlM_cons, hrun]; exact hruns, (hfreed.trans hfreeds).congr fun pn => ?_⟩
      simp [eq_comm]

theorem lookup_present_iff (m : Memory) (pt va : Nat) :
    permBits (virtualMemoryLookup m pt va).perm &&& pteP ≠ 0 ↔ mappedPage m pt va ≠ none := by
  rw [ne_eq, ne_eq, mappedPage_eq_none, not_not]
  by_cases h : Reaches m pt va 4
  · refine iff_of_true (fun hzero => ?_) h
    have hbit : (seen m pt va 4).getLsbD 0 = true := by
      have hpresent := mt (seen_present m pt va 3).mp (h 3 (by decide))
      rwa [and_pteP, Bool.not_eq_false] at hpresent
    rw [and_pteP, lookup_present h] at hzero
    simp only [getLsbD_permBits _ (by decide : 0 < 12), hbit] at hzero
    cases hzero
  · refine iff_of_false (fun hne => hne ?_) h
    rw [lookup_absent h]
    decide

theorem exists_mapped_succ (m : Memory) (pt va n pn : Nat) : (∃ i < n + 1, mappedPage m pt (va + 4096 * i) = some pn) ↔
    mappedPage m pt va = some pn ∨ ∃ i < n, mappedPage m pt (va + pageSize + 4096 * i) = some pn := by
  have hsize : pageSize = 4096 := rfl
  have hnext (i : Nat) : va + pageSize + 4096 * i = va + 4096 * (i + 1) := by omega
  simp only [hnext]
  constructor
  · rintro ⟨i, hi, h⟩
    cases i with
    | zero => exact .inl h
    | succ i => exact .inr ⟨i, Nat.lt_of_succ_lt_succ hi, h⟩
  · rintro (h | ⟨i, hi, h⟩)
    · exact ⟨0, Nat.succ_pos n, h⟩
    · exact ⟨i + 1, Nat.succ_lt_succ hi, h⟩

/-- The loop gives up the pages that are mapped, as each of them is in use once. -/
theorem dropPages_freed (hinfo : ∀ i < n, ∀ pn, mappedPage s.mem pt (va + 4096 * i) = some pn →
      pn < npages ∧ (s.pageinfo pn).refcount = 1)
    (honce : ∀ i < n, ∀ j < n, ∀ pn, mappedPage s.mem pt (va + 4096 * i) = some pn →
      mappedPage s.mem pt (va + 4096 * j) = some pn → i = j) :
    ∃ s', dropPages pt n s va = some s' ∧ Freed (fun pn => ∃ i < n, mappedPage s.mem pt (va + 4096 * i) = some pn) s s' := by
  have hsize : pageSize = 4096 := rfl
  induction n generalizing s va with
  | zero => exact ⟨s, rfl, (Freed.refl s).congr fun pn => by simp⟩
  | succ n ih =>
      have hnext (i : Nat) : va + pageSize + 4096 * i = va + 4096 * (i + 1) := by omega
      rw [dropPages]
      cases hmapped : mappedPage s.mem pt va with
      | none =>
          obtain ⟨s', hrun, hfreed⟩ := @ih s (va + pageSize)
            (fun i hi pn h => hinfo (i + 1) (Nat.succ_lt_succ hi) pn (hnext i ▸ h))
            fun i hi j hj pn h h' => Nat.succ_inj.mp (honce (i + 1) (Nat.succ_lt_succ hi) (j + 1) (Nat.succ_lt_succ hj) pn
              (hnext i ▸ h) (hnext j ▸ h'))
          have habsent : ¬(permBits (virtualMemoryLookup s.mem pt va).perm &&& pteP ≠ 0) :=
            fun h => (lookup_present_iff s.mem pt va).mp h hmapped
          refine ⟨s', by simp only [if_neg habsent, Option.bind_some]; exact hrun, hfreed.congr fun pn => ?_⟩
          rw [exists_mapped_succ, hmapped, or_iff_right (Option.some_ne_none pn).symm]
      | some first =>
          obtain ⟨hlt, hone⟩ := hinfo 0 (Nat.succ_pos n) first hmapped
          have hfirst := dropPage_freed hone
          have hpn := lookup_pn_some hmapped hlt
          have hpresent : permBits (virtualMemoryLookup s.mem pt va).perm &&& pteP ≠ 0 :=
            (lookup_present_iff s.mem pt va).mpr (by rw [hmapped]; exact Option.some_ne_none first)
          -- the first page is not mapped again further up
          have hne (i : Nat) (hi : i < n) (h : mappedPage s.mem pt (va + 4096 * (i + 1)) = some first) : False :=
            Nat.succ_ne_zero i (honce (i + 1) (Nat.succ_lt_succ hi) 0 (Nat.succ_pos n) first h hmapped)
          obtain ⟨s', hrun, hfreed⟩ := @ih (s.dropPage first) (va + pageSize)
            (fun i hi pn h => by
              rw [hfirst.mem, hnext] at h
              obtain ⟨hlt', hone'⟩ := hinfo (i + 1) (Nat.succ_lt_succ hi) pn h
              refine ⟨hlt', ?_⟩
              rw [hfirst.kept pn fun heq => hne i hi (heq ▸ h), hone'])
            (fun i hi j hj pn h h' => by
              rw [hfirst.mem, hnext] at h h'
              exact Nat.succ_inj.mp (honce (i + 1) (Nat.succ_lt_succ hi) (j + 1) (Nat.succ_lt_succ hj) pn h h'))
          refine ⟨s', ?_, (hfirst.trans hfreed).congr fun pn => ?_⟩
          · have hin : (0 : Int) ≤ first ∧ (first : Int) < npages := by omega
            simp only [if_pos hpresent, hpn, if_pos hin, Int.toNat_natCast, Option.bind_some]
            exact hrun
          · rw [hfirst.mem, exists_mapped_succ, hmapped, Option.some.injEq, eq_comm]

end Freeing

section Process

/-- The addresses and levels of the tables that `process_free` gives up. -/
def tablePlaces : List (Nat × Nat) := [(0, 0), (0, 1), (0, 2), (0, 3), (0x200000, 3)]

theorem processTables_eq (m : Memory) (pt : Nat) : processTables m pt = tablePlaces.map fun place => tableAt m pt place.1 place.2 := rfl

/-- They are all tables that the process has. -/
theorem mem_processTables {a i : Nat} (m : Memory) (pt : Nat) (ha : a < memsizeVirtual) (hi : i < 4) :
    tableAt m pt a i ∈ processTables m pt := by
  have hV : memsizeVirtual = 3145728 := rfl
  have h0 : pageIndex a 0 = 0 := by
    simp only [pageIndex]
    omega
  have h1 : pageIndex a 1 = 0 := by
    simp only [pageIndex]
    omega
  have h2 : pageIndex a 2 = 0 ∨ pageIndex a 2 = 1 := by
    simp only [pageIndex]
    omega
  have htable1 : tableAt m pt a 1 = pteAddr (entry m pt 0) := by rw [tableAt_succ, levelEntry, h0]; rfl
  have htable2 : tableAt m pt a 2 = pteAddr (entry m (pteAddr (entry m pt 0)) 0) := by
    rw [tableAt_succ, levelEntry, h1, htable1]
  simp only [processTables, List.mem_cons, List.not_mem_nil, or_false]
  obtain rfl | rfl | rfl | rfl : i = 0 ∨ i = 1 ∨ i = 2 ∨ i = 3 := by omega
  · exact .inl rfl
  · exact .inr (.inl htable1)
  · exact .inr (.inr (.inl htable2))
  · rcases h2 with h2 | h2
    · exact .inr (.inr (.inr (.inl (by rw [tableAt_succ, levelEntry, h2, htable2]))))
    · exact .inr (.inr (.inr (.inr (by rw [tableAt_succ, levelEntry, h2, htable2]))))

theorem ProcOk.pageNumber_table {a i : Nat} (hok : ProcOk s p) (ha : a < memsizeVirtual) (hi : i < 4)
    (hr : Reaches s.mem (s.processes p).pPagetable a i) : ∃ pn < npages, IsTable s p pn ∧
      tableAt s.mem (s.processes p).pPagetable a i = pn * pageSize ∧
        pageNumber (tableAt s.mem (s.processes p).pPagetable a i) = pn := by
  obtain ⟨pn, htable, his⟩ := hok.table ha hi hr
  have hlt := (hok.tables pn his).lt
  have hsize : npages = 512 := rfl
  have hpage : pageSize = 4096 := rfl
  refine ⟨pn, hlt, his, htable, ?_⟩
  have hdiv : pn * pageSize / 2 ^ 12 = pn := by
    rw [hpage]
    omega
  rw [htable, pageNumber, hdiv]
  exact asInt_eq (by omega)

variable {L : KernelLayout} {c : Nat → Option UInt8}

/-- The tables of a process are on pages of their own, which are in use once. -/
theorem Consistent.processTables_ok (h : Consistent L s) (hok : ProcOk s p) (hmem : HeapMem s c p) (hp : p < nproc)
    (hlive : Live s p) : (processTables s.mem (s.processes p).pPagetable).Pairwise (fun t u => (pageNumber t).toNat ≠ (pageNumber u).toNat) ∧
      ∀ t ∈ processTables s.mem (s.processes p).pPagetable, ∃ pn < npages, IsTable s p pn ∧ pageNumber t = pn ∧
        (s.pageinfo pn).refcount = 1 := by
  have hplaces : ∀ place ∈ tablePlaces, place.1 < memsizeVirtual ∧ place.2 < 4 := by decide
  have hdistinct : tablePlaces.Pairwise fun x y => indices x.1 x.2 ≠ indices y.1 y.2 := by decide
  have hr (place : Nat × Nat) (hin : place ∈ tablePlaces) : Reaches s.mem (s.processes p).pPagetable place.1 place.2 :=
    (hmem.full _ (hplaces place hin).1).mono (Nat.le_of_lt_succ (hplaces place hin).2)
  have hat (place : Nat × Nat) (hin : place ∈ tablePlaces) :=
    hok.pageNumber_table (hplaces place hin).1 (hplaces place hin).2 (hr place hin)
  rw [processTables_eq]
  refine ⟨List.pairwise_map.mpr (hdistinct.imp_of_mem ?_), fun t ht => ?_⟩
  · intro x y hx hy hne hsame
    apply hne
    obtain ⟨pn, -, -, htable, hpn⟩ := hat x hx
    obtain ⟨pn', -, -, htable', hpn'⟩ := hat y hy
    rw [hpn, hpn', Int.toNat_natCast, Int.toNat_natCast] at hsame
    have hvisits := reaches_visits (hr x hx)
    have hvisits' := reaches_visits (hr y hy)
    rw [htable, hsame, ← htable'] at hvisits
    refine h.once p hp hlive _ _ _ ?_ ?_ hvisits hvisits'
    · rw [indices_length]
      exact Nat.le_of_lt_succ (hplaces x hx).2
    · rw [indices_length]
      exact Nat.le_of_lt_succ (hplaces y hy).2
  · obtain ⟨place, hin, rfl⟩ := List.mem_map.mp ht
    obtain ⟨pn, hlt, his, -, hpn⟩ := hat place hin
    have hone := (h.tableOk ((Root.process hp hlive).reaches (Nat.le_of_lt_succ (hplaces place hin).2) (hr place hin))).refcount
    rw [hpn, Int.toNat_natCast] at hone
    exact ⟨pn, hlt, his, hpn, hone⟩

/-- The pages that are given up are those that the process owns. -/
theorem OwnsMapped.pages_iff (howns : OwnsMapped s p) (h : Consistent L s) (hok : ProcOk s p) (hmem : HeapMem s c p) (hp : p < nproc)
    (hlive : Live s p) : ((∃ i < 512, mappedPage s.mem (s.processes p).pPagetable (procStartAddr + 4096 * i) = some pn) ∨
      ∃ t ∈ processTables s.mem (s.processes p).pPagetable, (pageNumber t).toNat = pn) ↔ (s.pageinfo pn).owner = p := by
  have hV : memsizeVirtual = 3145728 := rfl
  have hstart : procStartAddr = 1048576 := rfl
  constructor
  · rintro (⟨i, hi, hpage⟩ | ⟨t, ht, htable⟩)
    · rw [(howns.info (procStartAddr + 4096 * i) pn (by omega) (by omega) hpage).2]
    · obtain ⟨pn', -, his, hpn, -⟩ := (h.processTables_ok hok hmem hp hlive).2 t ht
      rw [hpn, Int.toNat_natCast] at htable
      subst htable
      exact (hok.tables pn' his).owner
  · intro howner
    rcases howns.owned pn howner with his | ⟨a, hlo, hhi, hpage⟩
    · obtain ⟨a, ha, i, hi, hr, htable⟩ := his
      obtain ⟨pn', -, -, htable', hpn⟩ := hok.pageNumber_table ha hi hr
      have hsame : pn' = pn := Nat.eq_of_mul_eq_mul_right (by decide : 0 < pageSize) (htable'.symm.trans htable)
      exact .inr ⟨_, mem_processTables s.mem _ ha hi, by rw [hpn, hsame, Int.toNat_natCast]⟩
    · refine .inl ⟨(a - procStartAddr) / 4096, by omega, ?_⟩
      have hsame : (procStartAddr + 4096 * ((a - procStartAddr) / 4096)) / 4096 = a / 4096 := by omega
      rw [mappedPage_page hsame, hpage]

theorem Freed.eq_processFree (h : Freed pages (s.setState p .free) s') (hpages : ∀ pn, pages pn ↔ (s.pageinfo pn).owner = p) :
    s' = s.processFree p := by
  obtain ⟨m', info', procs'⟩ := s'
  obtain ⟨rfl, rfl, hfree, hkept⟩ := h
  have hinfo : info' = (s.processFree p).pageinfo := by
    funext pn
    by_cases howner : (s.pageinfo pn).owner = p
    · exact (hfree pn ((hpages pn).mpr howner)).trans (if_pos howner).symm
    · exact (hkept pn fun hpn => howner ((hpages pn).mp hpn)).trans (if_neg howner).symm
  rw [hinfo]
  rfl

/-- The object code frees the slot and the pages of the process, and its assertions hold. -/
theorem OwnsMapped.processFree_eq (howns : OwnsMapped s p) (h : Consistent L s) (hok : ProcOk s p) (hmem : HeapMem s c p)
    (hp : p < nproc) (hlive : Live s p) : processFree s p = some (s.processFree p) := by
  have hV : memsizeVirtual = 3145728 := rfl
  have hstart : procStartAddr = 1048576 := rfl
  have hcount : (memsizeVirtual - procStartAddr) / pageSize = 512 := rfl
  have hpt : ((s.setState p .free).processes p).pPagetable = (s.processes p).pPagetable := by
    simp only [Machine.setState, Function.update_self]
  have hrange (i : Nat) (hi : i < 512) : procStartAddr ≤ procStartAddr + 4096 * i ∧ procStartAddr + 4096 * i < memsizeVirtual := by
    omega
  obtain ⟨hdistinct, htables⟩ := h.processTables_ok hok hmem hp hlive
  obtain ⟨s₁, hrun₁, hfreed₁⟩ := @dropPages_freed (s.setState p .free) (s.processes p).pPagetable procStartAddr 512
    (fun i hi pn hpage => by
      obtain ⟨hlt, hinfo⟩ := howns.info _ pn (hrange i hi).1 (hrange i hi).2 hpage
      exact ⟨hlt, congrArg PageInfo.refcount hinfo⟩)
    (fun i hi j hj pn hpage hpage' => by
      have hsame := howns.once _ _ pn (hrange i hi).1 (hrange i hi).2 (hrange j hj).1 (hrange j hj).2 hpage hpage'
      omega)
  -- the tables are not among the pages that user code may use
  obtain ⟨s₂, hrun₂, hfreed₂⟩ := @freeTables_freed s₁ (processTables s.mem (s.processes p).pPagetable) hdistinct fun t ht => by
    obtain ⟨pn, hlt, his, hpn, hone⟩ := htables t ht
    rw [hpn, Int.toNat_natCast]
    refine ⟨Int.natCast_nonneg pn, Int.ofNat_lt.mpr hlt, ?_⟩
    rw [hfreed₁.kept pn]
    · exact hone
    · rintro ⟨i, hi, hpage⟩
      exact hmem.safe _ pn ⟨(hrange i hi).2, hpage, .inl (hrange i hi).1⟩ his
  rw [processFree]
  simp only [hpt, hcount, hrun₁, Option.bind_some, hfreed₁.mem]
  refine hrun₂.trans (congrArg some ?_)
  exact (hfreed₁.trans hfreed₂).eq_processFree fun pn => howns.pages_iff h hok hmem hp hlive

theorem setState_free (s : Machine) (p : Nat) : (s.setState p .broken).setState p .free = s.setState p .free := by
  simp only [Machine.setState, Function.update_idem, Function.update_self]

theorem processFree_broken (s : Machine) (p : Nat) : processFree (s.setState p .broken) p = processFree s p := by
  rw [processFree, processFree, setState_free]

theorem processFree_eq_exit (s : Machine) (p : Nat) : s.processFree p = s.exit p := by
  rw [Machine.exit, Machine.processFree, Machine.processFree, setState_free]
  rfl

/-- A page that `palloc` has found is mapped, so that the process gives its pages back only if there is none, or if the address
is not its own. -/
theorem OwnsMapped.handlePagefault_eq {addr : Nat} {missing : Bool} {page : Option NewPage} (howns : OwnsMapped s p)
    (h : Consistent L s) (hok : ProcOk s p) (h0 : SystemPage s 0) (hmem : HeapMem s c p) (hp : p < nproc) (hlive : Live s p)
    (hfree : ∀ new ∈ page, new.Free s) : handlePagefault s p addr missing page = pageFault s p addr missing page := by
  have hexit : processFree (s.setState p .broken) p = some (s.exit p) := by
    rw [processFree_broken, howns.processFree_eq h hok hmem hp hlive, processFree_eq_exit]
  by_cases hheap : missing = true ∧ (s.processes p).originalBreak ≤ addr ∧ addr < (s.processes p).programBreak
  · obtain ⟨rfl, hle, hlt⟩ := hheap
    cases page with
    | none =>
        rw [handlePagefault, pageFault, if_pos ⟨rfl, hle, hlt⟩, if_pos ⟨rfl, hle, hlt⟩]
        exact hexit
    | some new =>
        have hlimit := hok.lt
        have hround := roundDown_le addr pageSize
        have hV : memsizeVirtual = 3145728 := rfl
        rw [limit_eq] at hlimit
        have hfull := hmem.full (roundDown addr pageSize) (by omega)
        have hallows := hmem.tree.allows heapPerm
        rw [pageFault_heap hok h0 (hfree new rfl) hallows hfull hle hlt, handlePagefault, if_pos ⟨rfl, hle, hlt⟩]
        simp only [mapPage_heap hok h0 (hfree new rfl) hallows hfull hlt, Option.bind_some, Int.le_refl, if_true]
        rfl
  · rw [handlePagefault, pageFault, if_neg hheap, if_neg hheap]
    exact hexit

end Process

section Steps

theorem TablesKept.isTable_mp (hok : ProcOk s p) (h : TablesKept s s' p) (ht : IsTable s p pn) : IsTable s' p pn := by
  obtain ⟨a, ha, i, hi, hr, htable⟩ := ht
  obtain ⟨hreach, hsame⟩ := h.path hok ha (Nat.le_of_lt hi)
  exact ⟨a, ha, i, hi, by rw [h.proc]; exact hreach.mpr hr, by rw [h.proc]; exact (hsame hr).trans htable⟩

/-- The process owns what it owned. -/
theorem OwnsMapped.kept (h : OwnsMapped s p) (hok : ProcOk s p) (hkept : TablesKept s s' p)
    (hown : ∀ pn, (s'.pageinfo pn).owner = p → (s.pageinfo pn).owner = p) : OwnsMapped s' p where
  info a pn hlo hhi hpage := by
    rw [hkept.proc, hkept.mappedPage hok hhi] at hpage
    obtain ⟨hlt, hinfo⟩ := h.info a pn hlo hhi hpage
    exact ⟨hlt, (hkept.info pn (keeps_of_info ⟨hlt, hinfo⟩)).trans hinfo⟩
  once a b pn hlo hhi hlo' hhi' hpage hpage' := by
    rw [hkept.proc, hkept.mappedPage hok hhi] at hpage
    rw [hkept.proc, hkept.mappedPage hok hhi'] at hpage'
    exact h.once a b pn hlo hhi hlo' hhi' hpage hpage'
  owned pn howner := by
    rcases h.owned pn (hown pn howner) with ht | ⟨a, hlo, hhi, hpage⟩
    · exact .inl (hkept.isTable_mp hok ht)
    · exact .inr ⟨a, hlo, hhi, by rw [hkept.proc, hkept.mappedPage hok hhi, hpage]⟩

/-- What it gives up with the break is not mapped any more. -/
theorem OwnsMapped.moved {newBreak : Nat} (h : OwnsMapped s p) (hok : ProcOk s p) (hm : Moved s s' p newBreak)
    (ho : (s.processes p).originalBreak ≤ newBreak) (hl : newBreak < memsizeVirtual - pageSize)
    (hstart : procStartAddr ≤ (s.processes p).originalBreak) (hp : p ≠ 0) : OwnsMapped s' p := by
  have hpt : (s'.processes p).pPagetable = (s.processes p).pPagetable := by rw [hm.proc]
  have hbefore {a pn : Nat} (hhi : a < memsizeVirtual) (hpage : mappedPage s'.mem (s'.processes p).pPagetable a = some pn) :
      ¬GivenUp (s.processes p).programBreak newBreak a ∧ mappedPage s.mem (s.processes p).pPagetable a = some pn := by
    rw [hpt, hm.page hhi] at hpage
    split at hpage
    next => cases hpage
    next hup => exact ⟨hup, hpage⟩
  refine ⟨fun a pn hlo hhi hpage => ?_, fun a b pn hlo hhi hlo' hhi' hpage hpage' => ?_, fun pn howner => ?_⟩
  · obtain ⟨hup, hpage⟩ := hbefore hhi hpage
    obtain ⟨hlt, hinfo⟩ := h.info a pn hlo hhi hpage
    refine ⟨hlt, (hm.kept pn fun b hup' hpage' => hup ?_).trans hinfo⟩
    obtain ⟨hle, hlt'⟩ := hup'.range hok.lt hl
    have hsame := h.once b a pn (by omega) (Nat.lt_of_lt_of_le hlt' (Nat.sub_le _ _)) hlo hhi hpage' hpage
    exact hup'.page hok.lt hl hsame
  · exact h.once a b pn hlo hhi hlo' hhi' (hbefore hhi hpage).2 (hbefore hhi' hpage').2
  · by_cases hup : ∃ a, GivenUp (s.processes p).programBreak newBreak a ∧
        mappedPage s.mem (s.processes p).pPagetable a = some pn
    · obtain ⟨a, hup, hpage⟩ := hup
      rw [hm.freed a hup pn hpage] at howner
      exact absurd howner.symm (Int.natCast_ne_zero.mpr hp)
    · rw [hm.kept pn fun a hup' hpage => hup ⟨a, hup', hpage⟩] at howner
      rcases h.owned pn howner with ⟨a, ha, i, hi, hr, htable⟩ | ⟨a, hlo, hhi, hpage⟩
      · obtain ⟨hreach, hsame⟩ := hm.upper.path ha (Nat.le_of_lt_succ hi)
        exact .inl ⟨a, ha, i, hi, by rw [hpt]; exact hreach.mpr hr, by rw [hpt]; exact (hsame hr).trans htable⟩
      · refine .inr ⟨a, hlo, hhi, ?_⟩
        rw [hpt, hm.page hhi, if_neg fun hup' => hup ⟨a, hup', hpage⟩, hpage]

/-- The page of a fault is mapped where it is needed. -/
theorem OwnsMapped.mapPage {page : NewPage} {va : Nat} (h : OwnsMapped s p) (hok : ProcOk s p) (hfree : page.Free s)
    (hlo : procStartAddr ≤ va) (hhi : va < memsizeVirtual)
    (hr : Reaches (s.palloc page p).mem (s.processes p).pPagetable va 3)
    (hnone : mappedPage s.mem (s.processes p).pPagetable va = none) : OwnsMapped ((s.palloc page p).mapPage p va page.number) p := by
  have hkept := (palloc_untouched hfree p p).tables hok
  have hok' : ProcOk (s.palloc page p) p := hok.kept hkept fun _ => palloc_system hfree p
  have hpage {a : Nat} (ha : a < memsizeVirtual) : mappedPage ((s.palloc page p).mapPage p va page.number).mem
      (s.processes p).pPagetable a =
        if a / 4096 = va / 4096 then some page.number else mappedPage s.mem (s.processes p).pPagetable a := by
    rw [← hkept.mappedPage hok ha]
    exact mapPage_page hok' hhi hr hfree.2.1 ha
  have hnew {a pn : Nat} (halo : procStartAddr ≤ a) (ha : a < memsizeVirtual)
      (hmapped : mappedPage s.mem (s.processes p).pPagetable a = some pn) : pn ≠ page.number := by
    rintro rfl
    have hinfo := (h.info a _ halo ha hmapped).2
    have hzero := hfree.2.2
    rw [hinfo] at hzero
    exact absurd hzero (by decide : (1 : Int) ≠ 0)
  have hself : ((s.palloc page p).mapPage p va page.number).pageinfo page.number = ⟨p, 1⟩ := Function.update_self _ _ _
  have hothers {pn : Nat} (hne : pn ≠ page.number) :
      ((s.palloc page p).mapPage p va page.number).pageinfo pn = s.pageinfo pn := Function.update_of_ne hne _ _
  refine ⟨fun a pn halo ha hmapped => ?_, fun a b pn halo ha hblo hb hmapped hmapped' => ?_, fun pn howner => ?_⟩
  · have hmapped := (hpage ha).symm.trans hmapped
    split at hmapped
    next =>
      cases hmapped
      exact ⟨hfree.2.1, hself⟩
    next =>
      obtain ⟨hlt, hinfo⟩ := h.info a pn halo ha hmapped
      exact ⟨hlt, (hothers (hnew halo ha hmapped)).trans hinfo⟩
  · have hmapped := (hpage ha).symm.trans hmapped
    have hmapped' := (hpage hb).symm.trans hmapped'
    split at hmapped
    next hsame =>
      cases hmapped
      split at hmapped'
      next hsame' => exact hsame.trans hsame'.symm
      next => exact absurd rfl (hnew hblo hb hmapped')
    next =>
      split at hmapped'
      next =>
        cases hmapped'
        exact absurd rfl (hnew halo ha hmapped)
      next => exact h.once a b pn halo ha hblo hb hmapped hmapped'
  · by_cases heq : pn = page.number
    · subst heq
      exact .inr ⟨va, hlo, hhi, (hpage hhi).trans (if_pos rfl)⟩
    · rw [hothers heq] at howner
      rcases h.owned pn howner with ht | ⟨a, halo, ha, hmapped⟩
      · have ⟨a, ha, i, hi, hreach, htable⟩ := hkept.isTable_mp hok ht
        have hupper : SameUpper (s.palloc page p).mem ((s.palloc page p).mapPage p va page.number).mem
            (s.processes p).pPagetable memsizeVirtual := mapPage_upper hok' hhi hr
        obtain ⟨hreach', hsame⟩ := hupper.path ha (Nat.le_of_lt_succ hi)
        exact .inl ⟨a, ha, i, hi, hreach'.mpr hreach, (hsame hreach).trans htable⟩
      · refine .inr ⟨a, halo, ha, (hpage ha).trans ?_⟩
        rw [if_neg, hmapped]
        intro hsame
        rw [mappedPage_page hsame, hnone] at hmapped
        cases hmapped

end Steps

end WeensyOS.Kernel
