import WeensyOS.Kernel.RangeMapping
import WeensyOS.Kernel.Unmapping
import WeensyOS.RustKernel.Process

namespace WeensyOS.Kernel

open ByteMemory LibC ProgramBreak

variable {s s' : Machine} {p pt rdi newBreak : Nat} {difference : Int}

section Words

theorem roundUp_page {a : Nat} (ha : a < 2 ^ 63) : roundUp a pageSize = (a + 4095) / 4096 * 4096 := by
  simp only [roundUp, roundDown, pageSize]
  omega

theorem asWord_brk (hrdi : rdi < 2 ^ 64) (b : Nat) : asWord (b + asLong (asWord (rdi - b))) = rdi := by
  rw [asWord_add_asLong, asWord_eq, asWord_eq]
  omega

theorem asLong_bounds (z : Int) : -2 ^ 63 ≤ asLong z ∧ asLong z < 2 ^ 63 :=
  ⟨BitVec.le_toInt _, BitVec.toInt_lt⟩

/-- In the range that `sbrk` checks, the sign of the difference says whether the break goes down. -/
theorem asLong_neg_iff {b : Nat} (z : Int) (hb : b < memsizeVirtual - pageSize)
    (hnew : asWord (b + asLong z) < memsizeVirtual - pageSize) : asLong z < 0 ↔ asWord (b + asLong z) < b := by
  obtain ⟨hlo, hhi⟩ := asLong_bounds z
  rw [limit_eq] at hb hnew
  rw [asWord_eq] at hnew ⊢
  omega

theorem asLong_sbrk (b d : Nat) : asLong (asWord (((b + d) % 2 ^ 64 : Nat) - b)) = asLong d := by
  rw [asLong_eq, asLong_eq, asWord_eq]
  simp only [Int.bmod_def]
  omega

end Words

/-- What `sbrk` relies on in the heap range of a process: a tree of tables that maps
physical pages, through last-level tables that are not the page at address 0. -/
structure HeapTables (s : Machine) (p : Nat) : Prop where
  shape : Shape s.mem (s.processes p).pPagetable memsizeVirtual
  nonnull : ∀ a, (s.processes p).originalBreak ≤ a → a < memsizeVirtual - pageSize →
    mappedPage s.mem (s.processes p).pPagetable a ≠ none → tableAt s.mem (s.processes p).pPagetable a 3 ≠ 0
  physical : ∀ a, (s.processes p).originalBreak ≤ a → a < memsizeVirtual - pageSize →
    ∀ pn, mappedPage s.mem (s.processes p).pPagetable a = some pn → pn < npages

/-- The address is in one of the pages that a move of the break gives up. -/
def GivenUp (oldBreak newBreak a : Nat) : Prop := roundUp newBreak pageSize ≤ a ∧ a < roundUp oldBreak pageSize

instance (oldBreak newBreak a : Nat) : Decidable (GivenUp oldBreak newBreak a) := inferInstanceAs (Decidable (_ ∧ _))

/-- The break of `p` has been moved: the mapped pages that it gives up are unmapped
and freed, and nothing else has changed. -/
structure Moved (s s' : Machine) (p newBreak : Nat) : Prop where
  processes : s'.processes = Function.update s.processes p { s.processes p with programBreak := newBreak }
  upper : SameUpper s.mem s'.mem (s.processes p).pPagetable memsizeVirtual
  leaf : ∀ a < memsizeVirtual, leafEntry s'.mem (s.processes p).pPagetable a =
    if GivenUp (s.processes p).programBreak newBreak a ∧ mappedPage s.mem (s.processes p).pPagetable a ≠ none then some 0
    else leafEntry s.mem (s.processes p).pPagetable a
  unmapped : ∀ a, GivenUp (s.processes p).programBreak newBreak a →
    virtualMemoryLookup s'.mem (s.processes p).pPagetable a = .unmapped
  lookups : ∀ a < memsizeVirtual, ¬GivenUp (s.processes p).programBreak newBreak a →
    virtualMemoryLookup s'.mem (s.processes p).pPagetable a = virtualMemoryLookup s.mem (s.processes p).pPagetable a
  mem : ∀ x, (∀ a, GivenUp (s.processes p).programBreak newBreak a → mappedPage s.mem (s.processes p).pPagetable a ≠ none →
    x < tableAt s.mem (s.processes p).pPagetable a 3 + 8 * pageIndex a 3 ∨
      tableAt s.mem (s.processes p).pPagetable a 3 + 8 * pageIndex a 3 + 8 ≤ x) → s'.mem x = s.mem x
  freed : ∀ a, GivenUp (s.processes p).programBreak newBreak a →
    ∀ pn, mappedPage s.mem (s.processes p).pPagetable a = some pn → s'.pageinfo pn = ⟨poFree, 0⟩
  kept : ∀ pn, (∀ a, GivenUp (s.processes p).programBreak newBreak a →
    mappedPage s.mem (s.processes p).pPagetable a ≠ some pn) → s'.pageinfo pn = s.pageinfo pn

theorem Moved.up (hle : (s.processes p).programBreak ≤ newBreak) (hlt : newBreak < memsizeVirtual - pageSize) :
    Moved s (s.setBreak p newBreak) p newBreak := by
  have hnone (a : Nat) : ¬GivenUp (s.processes p).programBreak newBreak a := by
    rintro ⟨ha, ha'⟩
    rw [limit_eq] at hlt
    rw [roundUp_page (by omega)] at ha ha'
    omega
  exact ⟨rfl, SameUpper.refl s.mem _ _, fun a _ => (if_neg fun h => hnone a h.1).symm, fun a ha => absurd ha (hnone a),
    fun _ _ _ => rfl, fun _ _ => rfl, fun a ha => absurd ha (hnone a), fun _ _ => rfl⟩

/-- A break that goes down: the loop of `sbrk`. -/
theorem unmapPages_moved (H : HeapTables s p) (hle : (s.processes p).originalBreak ≤ newBreak)
    (hdown : newBreak < (s.processes p).programBreak) (hlt : (s.processes p).programBreak < memsizeVirtual - pageSize) :
    ∃ s', unmapPages (s.processes p).pPagetable
        ((roundUp (s.processes p).programBreak pageSize - roundUp newBreak pageSize) / pageSize) (s.setBreak p newBreak)
        (roundUp newBreak pageSize) = some s' ∧ Moved s s' p newBreak := by
  have hpage : pageSize = 4096 := rfl
  have hV : memsizeVirtual = 3145728 := rfl
  rw [limit_eq] at hlt
  have hnew : roundUp newBreak pageSize = (newBreak + 4095) / 4096 * 4096 := roundUp_page (by omega)
  have hold : roundUp (s.processes p).programBreak pageSize = ((s.processes p).programBreak + 4095) / 4096 * 4096 :=
    roundUp_page (by omega)
  have hsize : roundUp newBreak pageSize + 4096 *
      ((roundUp (s.processes p).programBreak pageSize - roundUp newBreak pageSize) / pageSize) =
        roundUp (s.processes p).programBreak pageSize := by
    rw [hnew, hold, hpage]
    omega
  have hrange (a : Nat) (ha : roundUp newBreak pageSize ≤ a) (ha' : a < roundUp (s.processes p).programBreak pageSize) :
      (s.processes p).originalBreak ≤ a ∧ a < memsizeVirtual - pageSize := by
    rw [limit_eq]
    omega
  have hloop : ∃ s', unmapPages (s.processes p).pPagetable
        ((roundUp (s.processes p).programBreak pageSize - roundUp newBreak pageSize) / pageSize) (s.setBreak p newBreak)
        (roundUp newBreak pageSize) = some s' ∧ Unmapped (s.setBreak p newBreak) s' (s.processes p).pPagetable memsizeVirtual
          (roundUp newBreak pageSize)
          ((roundUp (s.processes p).programBreak pageSize - roundUp newBreak pageSize) / pageSize) := by
    refine unmapPages_unmapped H.shape (by decide) (by omega) (by rw [hsize]; omega) (fun a ha ha' => ?_) fun a ha ha' => ?_
    · rw [hsize] at ha'
      exact H.physical a (hrange a ha ha').1 (hrange a ha ha').2
    · rw [hsize] at ha'
      exact H.nonnull a (hrange a ha ha').1 (hrange a ha ha').2
  obtain ⟨s', hrun, h⟩ := hloop
  have hin (a : Nat) : (roundUp newBreak pageSize ≤ a ∧ a < roundUp newBreak pageSize + 4096 *
      ((roundUp (s.processes p).programBreak pageSize - roundUp newBreak pageSize) / pageSize)) ↔
        GivenUp (s.processes p).programBreak newBreak a := by
    rw [hsize, GivenUp]
  refine ⟨s', hrun, h.processes, h.upper, fun a ha => ?_, fun a ha => ?_, fun a ha hout => ?_, fun x hx => ?_,
    fun a ha pn hpn => ?_, fun pn hpn => ?_⟩
  · rw [h.leaf a ha]
    exact if_congr (and_congr_left fun _ => hin a) rfl rfl
  · have haV : a < memsizeVirtual := Nat.lt_of_lt_of_le (hrange a ha.1 ha.2).2 (Nat.sub_le _ _)
    have hnone := h.page haV
    rw [if_pos ((hin a).mpr ha)] at hnone
    exact lookup_absent (mappedPage_eq_none.mp hnone)
  · refine h.upper.lookup ha ?_
    rw [h.leaf a ha, if_neg fun hc => hout ((hin a).mp hc.1)]
  · exact h.outside x fun a ha ha' hsome => hx a ((hin a).mp ⟨ha, ha'⟩) hsome
  · exact h.freed a ((hin a).mpr ha).1 ((hin a).mpr ha).2 pn hpn
  · exact h.kept pn fun a ha ha' => hpn a ((hin a).mp ⟨ha, ha'⟩)

theorem sbrk_fail (h : asWord ((s.processes p).programBreak + difference) < (s.processes p).originalBreak ∨
    memsizeVirtual - pageSize ≤ asWord ((s.processes p).programBreak + difference)) :
    sbrk s p difference = some (s, -1) := if_pos h

theorem sbrk_moved (H : HeapTables s p) (hlt : (s.processes p).programBreak < memsizeVirtual - pageSize) (z : Int)
    (ho : (s.processes p).originalBreak ≤ asWord ((s.processes p).programBreak + asLong z))
    (hl : asWord ((s.processes p).programBreak + asLong z) < memsizeVirtual - pageSize) :
    ∃ s', sbrk s p (asLong z) = some (s', 0) ∧ Moved s s' p (asWord ((s.processes p).programBreak + asLong z)) := by
  have hsign := asLong_neg_iff z hlt hl
  have hok : ¬(asWord ((s.processes p).programBreak + asLong z) < (s.processes p).originalBreak ∨
      memsizeVirtual - pageSize ≤ asWord ((s.processes p).programBreak + asLong z)) :=
    not_or.mpr ⟨Nat.not_lt.mpr ho, Nat.not_le.mpr hl⟩
  by_cases hdown : asLong z < 0
  · obtain ⟨s', hrun, h⟩ := unmapPages_moved H ho (hsign.mp hdown) hlt
    refine ⟨s', ?_, h⟩
    rw [sbrk, if_neg hok, if_pos hdown]
    exact congrArg (Option.map fun s => (s, (0 : Int))) hrun
  · refine ⟨s.setBreak p (asWord ((s.processes p).programBreak + asLong z)), ?_, Moved.up ?_ hl⟩
    · rw [sbrk, if_neg hok, if_neg hdown]
    · exact Nat.le_of_not_lt fun h => hdown (hsign.mpr h)

theorem sysBrk_moved (H : HeapTables s p) (hlt : (s.processes p).programBreak < memsizeVirtual - pageSize)
    (ho : (s.processes p).originalBreak ≤ rdi) (hl : rdi < memsizeVirtual - pageSize) :
    ∃ s', sysBrk s p rdi = some (s', 0) ∧ Moved s s' p rdi := by
  have hrdi : rdi < 2 ^ 64 := Nat.lt_trans hl (by decide)
  have hnew := asWord_brk hrdi (s.processes p).programBreak
  obtain ⟨s', hrun, h⟩ := sbrk_moved H hlt (asWord (rdi - (s.processes p).programBreak)) (by rwa [hnew]) (by rwa [hnew])
  rw [hnew] at h
  refine ⟨s', ?_, h⟩
  rw [sysBrk, hrun]
  rfl

theorem sysBrk_fail (hrdi : rdi < 2 ^ 64) (h : rdi < (s.processes p).originalBreak ∨ memsizeVirtual - pageSize ≤ rdi) :
    sysBrk s p rdi = some (s, 2 ^ 64 - 1) := by
  have hnew := asWord_brk hrdi (s.processes p).programBreak
  rw [sysBrk, sbrk_fail (by rwa [hnew])]
  exact congrArg (fun r => some (s, r)) asWord_minusOne

theorem sbrk_ret {r : Int} (h : sbrk s p difference = some (s', r)) : r = 0 ∨ r = -1 := by
  rw [sbrk] at h
  split at h
  · cases h
    exact .inr rfl
  · split at h
    · obtain ⟨t, -, ht⟩ := Option.map_eq_some_iff.mp h
      cases ht
      exact .inl rfl
    · cases h
      exact .inl rfl

/-- The system call `sbrk` is `brk`, but for the value that it returns. -/
theorem sysSbrk_eq (s : Machine) (p rdi : Nat) : sysSbrk s p rdi =
    (sysBrk s p (((s.processes p).programBreak + rdi) % 2 ^ 64)).map fun (s', r) =>
      (s', if r = 0 then (s.processes p).programBreak else r) := by
  rw [sysSbrk, sysBrk, asLong_sbrk]
  cases hrun : sbrk s p (asLong rdi) with
  | none => rfl
  | some c =>
      obtain ⟨s', r⟩ := c
      rcases sbrk_ret hrun with rfl | rfl
      · rfl
      · have hne : asWord (-1) ≠ 0 := by decide
        have hret : ¬(-1 : Int) = 0 := by decide
        simp only [Option.map_some, if_neg hret, if_neg hne]

section Rust

theorem unmapPages_setBreak (s : Machine) (p newBreak n va : Nat) :
    unmapPages pt n (s.setBreak p newBreak) va = (unmapPages pt n s va).map fun s => s.setBreak p newBreak := by
  induction n generalizing s va with
  | zero => rfl
  | succ n ih =>
      have hmem : (s.setBreak p newBreak).mem = s.mem := rfl
      rw [unmapPages, unmapPages, hmem]
      split
      next =>
        split
        next =>
          cases hmap : virtualMemoryMap s.mem pt va 0 pageSize 0 with
          | none =>
              simp only [Machine.setOwner, Machine.setRefcount, Machine.setBreak, hmap]
              rfl
          | some c =>
              simp only [Machine.setOwner, Machine.setRefcount, Machine.setBreak, hmap, Option.map_some, Option.bind_some]
              exact ih ⟨c.2, _, s.processes⟩ _
        next => rfl
      next => exact ih s _

theorem rust_sbrk_eq (hlt : (s.processes p).programBreak < memsizeVirtual - pageSize) :
    RustKernel.sbrk s p difference = sbrk s p difference := by
  rw [RustKernel.sbrk, sbrk, RustKernel.asWord_asLong_add]
  by_cases hrange : asWord ((s.processes p).programBreak + difference) < (s.processes p).originalBreak ∨
      memsizeVirtual - pageSize ≤ asWord ((s.processes p).programBreak + difference)
  · rw [if_pos hrange, if_pos hrange]
  · rw [if_neg hrange, if_neg hrange]
    by_cases hdown : difference < 0
    · have hnew : asWord ((s.processes p).programBreak + difference) < memsizeVirtual - pageSize :=
        Nat.lt_of_not_le fun h => hrange (.inr h)
      rw [limit_eq] at hlt hnew
      have hend : roundUp (asWord ((s.processes p).programBreak + difference)) pageSize + 4096 *
          ((roundUp (s.processes p).programBreak pageSize -
            roundUp (asWord ((s.processes p).programBreak + difference)) pageSize) / pageSize) ≤ 2 ^ 52 := by
        have hpage : pageSize = 4096 := rfl
        rw [roundUp_page (by omega), roundUp_page (by omega), hpage]
        omega
      rw [if_pos hdown, if_pos hdown]
      simp only [unmapPages_setBreak, RustKernel.unmapPages_eq s hend, Option.map_map]
      rfl
    · rw [if_neg hdown, if_neg hdown]
      rfl

theorem rust_sysBrk_eq (hlt : (s.processes p).programBreak < memsizeVirtual - pageSize) (rdi : Nat) :
    RustKernel.sysBrk s p rdi = sysBrk s p rdi := by
  rw [RustKernel.sysBrk, sysBrk, RustKernel.asLong_sub, rust_sbrk_eq hlt, asWord_minusOne]

theorem rust_sysSbrk_eq (hlt : (s.processes p).programBreak < memsizeVirtual - pageSize) (rdi : Nat) :
    RustKernel.sysSbrk s p rdi = sysSbrk s p rdi := by
  rw [RustKernel.sysSbrk, sysSbrk, rust_sbrk_eq hlt, asWord_minusOne]

end Rust

/-- What the two system calls do with an argument, in both kernels. -/
structure BreakSpec (s : Machine) (p arg : Nat) : Prop where
  brk_ok : (s.processes p).originalBreak ≤ arg ∧ arg < memsizeVirtual - pageSize →
    ∃ s', sysBrk s p arg = some (s', 0) ∧ Moved s s' p arg
  brk_fail : ¬((s.processes p).originalBreak ≤ arg ∧ arg < memsizeVirtual - pageSize) →
    sysBrk s p arg = some (s, 2 ^ 64 - 1)
  sbrk : sysSbrk s p arg = (sysBrk s p (((s.processes p).programBreak + arg) % 2 ^ 64)).map fun (s', r) =>
    (s', if r = 0 then (s.processes p).programBreak else r)
  rust_brk : RustKernel.sysBrk s p arg = sysBrk s p arg
  rust_sbrk : RustKernel.sysSbrk s p arg = sysSbrk s p arg

theorem break_calls (s : Machine) (p arg : Nat) (H : HeapTables s p)
    (hlt : (s.processes p).programBreak < memsizeVirtual - pageSize) (harg : arg < 2 ^ 64) : BreakSpec s p arg where
  brk_ok h := sysBrk_moved H hlt h.1 h.2
  brk_fail h := sysBrk_fail harg (by omega)
  sbrk := sysSbrk_eq s p arg
  rust_brk := rust_sysBrk_eq hlt arg
  rust_sbrk := rust_sysSbrk_eq hlt arg

/-- The system call `sbrk` moves the break as `ProgramBreak.sbrk` says. -/
theorem sysSbrk_refines (H : HeapTables s p) (b : Breaks) (ho : (s.processes p).originalBreak = b.originalBreak)
    (hp : (s.processes p).programBreak = b.programBreak) (increment : Nat) :
    ∃ s', sysSbrk s p increment = some (s', (ProgramBreak.sbrk b increment).1) ∧
      (s'.processes p).originalBreak = (ProgramBreak.sbrk b increment).2.originalBreak ∧
        (s'.processes p).programBreak = (ProgramBreak.sbrk b increment).2.programBreak := by
  have hlt : (s.processes p).programBreak < memsizeVirtual - pageSize := hp ▸ b.programBreak_lt
  rw [sysSbrk_eq, hp]
  by_cases hin : b.originalBreak ≤ (b.programBreak + increment) % 2 ^ 64 ∧
      (b.programBreak + increment) % 2 ^ 64 < memsizeVirtual - pageSize
  · obtain ⟨s', hrun, h⟩ := sysBrk_moved H hlt (by rw [ho]; exact hin.1) hin.2
    refine ⟨s', ?_, ?_, ?_⟩
    · rw [hrun, ProgramBreak.sbrk_ok b hin.1 hin.2]
      rfl
    · rw [h.processes, Function.update_self, ProgramBreak.sbrk_ok b hin.1 hin.2, ho]
    · rw [h.processes, Function.update_self, ProgramBreak.sbrk_ok b hin.1 hin.2]
  · have hout : (b.programBreak + increment) % 2 ^ 64 < b.originalBreak ∨
        memsizeVirtual - pageSize ≤ (b.programBreak + increment) % 2 ^ 64 := by omega
    have hne : ¬2 ^ 64 - 1 = 0 := by decide
    refine ⟨s, ?_, ?_, ?_⟩
    · rw [sysBrk_fail (Nat.mod_lt _ (by decide)) (by rwa [ho]), ProgramBreak.sbrk_fail b hout]
      simp only [Option.map_some, if_neg hne]
    · rw [ProgramBreak.sbrk_fail b hout, ho]
    · rw [ProgramBreak.sbrk_fail b hout, hp]

/-- A process with one heap page, which is page 5 of physical memory. -/
def onePageHeap (leaf : Nat) : Machine where
  mem := singleTable leaf 0x5007
  pageinfo _ := ⟨1, 1⟩
  processes _ := ⟨4096, 0, .runnable, 0x1000⟩

theorem singleTable_mapped {leaf a pn : Nat} {value : PageEntry} (hdvd : 4096 ∣ leaf) (hlt : leaf < memsizePhysical)
    (hne : leaf ≠ 0x1000 ∧ leaf ≠ 0x2000 ∧ leaf ≠ 0x3000) (h : mappedPage (singleTable leaf value) 0x1000 a = some pn) :
    tableAt (singleTable leaf value) 0x1000 a 3 = leaf ∧ pn = pteAddr value / pageSize ∧ value &&& pteP ≠ 0 := by
  obtain ⟨hr, hpn⟩ := mappedPage_eq_some.mp h
  have hleaf := (singleTable_leaf value hdvd hlt hne (hr.mono (by decide))).1
  have hentry : levelEntry (singleTable leaf value) 0x1000 a 3 = if 0 = pageIndex a 3 then value else 0 := by
    rw [levelEntry, hleaf, singleTable, entry_setEntry hdvd hdvd (by decide) (pageIndex_lt a 3)]
    by_cases h0 : 0 = pageIndex a 3
    · rw [if_pos ⟨rfl, h0⟩, if_pos h0]
    · rw [if_neg fun h => h0 h.2, if_neg h0, entry_setEntry (by decide) hdvd (by decide) (pageIndex_lt a 3),
        entry_setEntry (by decide) hdvd (by decide) (pageIndex_lt a 3),
        entry_setEntry (by decide) hdvd (by decide) (pageIndex_lt a 3), entry_zero]
      simp only [h0, and_false, if_false]
  have hpresent := hr 3 (by decide)
  rw [tableAt_succ, hentry] at hpn
  rw [hentry] at hpresent
  by_cases h0 : 0 = pageIndex a 3
  · rw [if_pos h0] at hpn hpresent
    exact ⟨hleaf, hpn.symm, hpresent⟩
  · rw [if_neg h0] at hpresent
    exact absurd rfl hpresent

theorem onePageHeap_tables (p : Nat) : HeapTables (onePageHeap 0x4000) p where
  shape := (singleTable_tree 0x5007 (by decide) (by decide) (by decide)).toShape.mono (by decide)
  nonnull a _ _ hsome := by
    obtain ⟨pn, hpn⟩ := Option.ne_none_iff_exists'.mp hsome
    have htable := (singleTable_mapped (by decide) (by decide) (by decide) hpn).1
    exact fun h0 => absurd (htable.symm.trans h0) (by decide)
  physical a _ _ pn hpn := by
    rw [(singleTable_mapped (by decide) (by decide) (by decide) hpn).2.1]
    decide

/-- Giving up the page frees it. -/
theorem onePageHeap_freed : ∃ s', sysBrk (onePageHeap 0x4000) 1 0 = some (s', 0) ∧ s'.pageinfo 5 = ⟨poFree, 0⟩ := by
  have hspec := break_calls (onePageHeap 0x4000) 1 0 (onePageHeap_tables 1) (by decide) (by decide)
  obtain ⟨s', hrun, h⟩ := hspec.brk_ok (by decide)
  exact ⟨s', hrun, h.freed 0 (by decide) 5 (by decide +kernel)⟩

/-- A last-level table at address 0 is not found: the page is freed and stays mapped. -/
theorem null_table_keeps_page : ¬∀ (s : Machine) (p arg : Nat), (s.processes p).originalBreak % pageSize = 0 →
    (s.processes p).originalBreak ≤ (s.processes p).programBreak →
      (s.processes p).programBreak < memsizeVirtual - pageSize → arg < 2 ^ 64 → BreakSpec s p arg := by
  intro h
  obtain ⟨s', hrun, hmoved⟩ := (h (onePageHeap 0) 1 0 rfl (by decide) (by decide) (by decide)).brk_ok (by decide)
  have hpage := hmoved.unmapped 0 (by decide)
  have hlookup : (sysBrk (onePageHeap 0) 1 0).map (fun c => virtualMemoryLookup c.1.mem 0x1000 0) =
      some ⟨5, 0x5000, 7⟩ := by decide +kernel
  rw [hrun] at hlookup
  exact absurd (hpage.symm.trans (Option.some.inj hlookup)) (by decide)

end WeensyOS.Kernel
