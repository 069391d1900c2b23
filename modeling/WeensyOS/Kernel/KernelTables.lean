import WeensyOS.Kernel.HeapSteps
import WeensyOS.Kernel.TableEntries

namespace WeensyOS.Kernel

open ByteMemory LibC ProgramBreak

/-- The address of `kernel_pagetables[i]`. -/
def kernelPagetableAt (kernelPagetables i : Nat) : Nat := kernelPagetables + pageSize * i

/-- An entry for `kernel_pagetables[i]`. -/
def kernelEntry (kernelPagetables i : Nat) : PageEntry :=
  BitVec.ofNat 64 (kernelPagetableAt kernelPagetables i) ||| pteP ||| pteW ||| pteU

/-- The part of `virtual_memory_init` that connects the tables. -/
def connectTables (m : Memory) (kernelPagetables : Nat) : Memory :=
  let table := kernelPagetableAt kernelPagetables
  let m := memset m kernelPagetables 0 (5 * pageSize)
  let m := setEntry m (table 0) 0 (kernelEntry kernelPagetables 1)
  let m := setEntry m (table 1) 0 (kernelEntry kernelPagetables 2)
  let m := setEntry m (table 2) 0 (kernelEntry kernelPagetables 3)
  setEntry m (table 2) 1 (kernelEntry kernelPagetables 4)

variable {m m' : Memory} {kp a i j t : Nat} {path : List Nat} {entries : List (Nat × Nat)}

section Entries

theorem kernelEntry_eq (kp i : Nat) : kernelEntry kp i = leafValue (kernelPagetableAt kp i) heapPerm := by
  have hperm : permBits heapPerm &&& pteP ≠ 0 := by decide
  rw [leafValue, if_pos hperm, kernelEntry, BitVec.or_assoc, BitVec.or_assoc]
  rfl

/-- The entries of the upper three tables. -/
def upperEntry (kp j i : Nat) : PageEntry :=
  if (j = 0 ∨ j = 1 ∨ j = 2) ∧ i = 0 then kernelEntry kp (j + 1)
  else if j = 2 ∧ i = 1 then kernelEntry kp 4
  else 0

/-- The upper three of the kernel's tables are connected. -/
structure KernelTables (m : Memory) (kp : Nat) : Prop where
  aligned : 4096 ∣ kp
  pos : 0 < kp
  le : kp + 5 * pageSize ≤ procStartAddr
  upper : ∀ j < 3, ∀ i < 512, entry m (kernelPagetableAt kp j) i = upperEntry kp j i

theorem memset_entry (m : Memory) (hle : kp + 5 * pageSize ≤ procStartAddr) (hj : j < 5) (hi : i < 512) :
    entry (memset m kp 0 (5 * pageSize)) (kernelPagetableAt kp j) i = 0 := by
  have hpage : pageSize = 4096 := rfl
  have hstart : procStartAddr = 0x100000 := rfl
  have hzero : readLE (memset m kp 0 (5 * pageSize)) (kernelPagetableAt kp j + 8 * i) 8 =
      readLE (fun _ => 0) (kernelPagetableAt kp j + 8 * i) 8 := by
    refine readLE_congr fun x hx hx' => ?_
    rw [kernelPagetableAt, hpage] at hx hx'
    obtain ⟨d, rfl⟩ : ∃ d, x = kp + d := ⟨x - kp, by omega⟩
    exact memset_inside m (by omega) (by omega)
  rw [entry, hzero, readLE_zero]
  rfl

theorem kernelPagetableAt_dvd (h : 4096 ∣ kp) (j : Nat) : 4096 ∣ kernelPagetableAt kp j := by
  have hpage : pageSize = 4096 := rfl
  rw [kernelPagetableAt, hpage]
  omega

theorem kernelPagetableAt_inj (h : kernelPagetableAt kp i = kernelPagetableAt kp j) : i = j := by
  have hpage : pageSize = 4096 := rfl
  rw [kernelPagetableAt, kernelPagetableAt, hpage] at h
  omega

theorem connectTables_entry (m : Memory) (hdvd : 4096 ∣ kp) (hle : kp + 5 * pageSize ≤ procStartAddr) (hj : j < 5)
    (hi : i < 512) : entry (connectTables m kp) (kernelPagetableAt kp j) i = upperEntry kp j i := by
  have htable (k : Nat) := kernelPagetableAt_dvd hdvd k
  have hsame (k : Nat) : kernelPagetableAt kp k = kernelPagetableAt kp j ↔ k = j := ⟨kernelPagetableAt_inj, fun h => by rw [h]⟩
  rw [connectTables, entry_setEntry (htable 2) (htable j) (by decide) hi, entry_setEntry (htable 2) (htable j) (by decide) hi,
    entry_setEntry (htable 1) (htable j) (by decide) hi, entry_setEntry (htable 0) (htable j) (by decide) hi,
    memset_entry m hle hj hi, upperEntry]
  simp only [hsame]
  have hj' : j = 0 ∨ j = 1 ∨ j = 2 ∨ j = 3 ∨ j = 4 := by omega
  have hi' : i = 0 ∨ i = 1 ∨ (i ≠ 0 ∧ i ≠ 1 ∧ 0 ≠ i ∧ 1 ≠ i) := by omega
  rcases hi' with rfl | rfl | ⟨h0, h1, h0', h1'⟩
  · rcases hj' with rfl | rfl | rfl | rfl | rfl <;> simp
  · rcases hj' with rfl | rfl | rfl | rfl | rfl <;> simp
  · simp only [h0, h1, h0', h1', and_false, if_false]

theorem connectTables_outside (m : Memory) (hdvd : 4096 ∣ kp) (hle : kp + 5 * pageSize ≤ procStartAddr) {x : Nat}
    (hx : x < kp ∨ kp + 5 * pageSize ≤ x) : connectTables m kp x = m x := by
  have hpage : pageSize = 4096 := rfl
  have hstart : procStartAddr = 0x100000 := rfl
  have hout (k : Nat) (hk : k < 5) : x < kernelPagetableAt kp k ∨ kernelPagetableAt kp k + 4096 ≤ x := by
    rw [kernelPagetableAt, hpage]
    omega
  rw [connectTables, setEntry_outside _ _ (by decide) (hout 2 (by decide)), setEntry_outside _ _ (by decide) (hout 2 (by decide)),
    setEntry_outside _ _ (by decide) (hout 1 (by decide)), setEntry_outside _ _ (by decide) (hout 0 (by decide)),
    memset_outside m (by omega) hx]

theorem upperEntry_cases (h : upperEntry kp j i ≠ 0) :
    i < 2 ∧ (j < 2 → i = 0) ∧ upperEntry kp j i = kernelEntry kp (j + 1 + i) := by
  rw [upperEntry] at h ⊢
  by_cases h0 : (j = 0 ∨ j = 1 ∨ j = 2) ∧ i = 0
  · rw [if_pos h0, h0.2]
    exact ⟨by decide, fun _ => rfl, rfl⟩
  · rw [if_neg h0] at h ⊢
    by_cases h1 : j = 2 ∧ i = 1
    · rw [if_pos h1, h1.1, h1.2]
      exact ⟨by decide, fun hlt => absurd hlt (by decide), rfl⟩
    · rw [if_neg h1] at h
      exact absurd rfl h

end Entries

namespace KernelTables

theorem table_zero (kp : Nat) : kernelPagetableAt kp 0 = kp := Nat.add_zero kp

variable (h : KernelTables m kp)
include h

theorem page_lt (hi : i < 5) : ∃ pn < npages, 0 < pn ∧ kernelPagetableAt kp i = pn * pageSize := by
  have hpage : pageSize = 4096 := rfl
  have hstart : procStartAddr = 0x100000 := rfl
  have hsize : npages = 512 := rfl
  have hle := h.le
  have hpos := h.pos
  obtain ⟨k, rfl⟩ := h.aligned
  refine ⟨k + i, by omega, by omega, ?_⟩
  rw [kernelPagetableAt, hpage]
  omega

theorem entry_spec (hi : i < 5) : pteAddr (kernelEntry kp i) = kernelPagetableAt kp i ∧ kernelEntry kp i &&& pteP ≠ 0 ∧
    kernelEntry kp i &&& pteW ≠ 0 ∧ kernelEntry kp i &&& pteU ≠ 0 := by
  obtain ⟨pn, hpn, -, htable⟩ := h.page_lt hi
  have hpage : pageSize = 4096 := rfl
  have haddr := leafValue_heap_addr hpn
  have hdvd := pteAddr_dvd (leafValue (pn * pageSize) heapPerm)
  rw [kernelEntry_eq, htable]
  refine ⟨?_, leafValue_heap_present hpn, leafValue_heap_open hpn⟩
  rw [hpage] at haddr ⊢
  rw [hpage] at hdvd
  omega

theorem entry_cases (hj : j < 3) (hi : i < 512) (hne : entry m (kernelPagetableAt kp j) i ≠ 0) :
    i < 2 ∧ (j < 2 → i = 0) ∧ entry m (kernelPagetableAt kp j) i = kernelEntry kp (j + 1 + i) := by
  rw [h.upper j hj i hi] at hne ⊢
  exact upperEntry_cases hne

/-- A walk goes through the first entries of the tables, and at the third level through one of the first two. -/
theorem reaches (hi : i ≤ 3) (hr : Reaches m kp a i) : (∀ j < i, pageIndex a j < 2 ∧ (j < 2 → pageIndex a j = 0)) ∧
    tableAt m kp a i = kernelPagetableAt kp (if i = 3 then 3 + pageIndex a 2 else i) := by
  induction i with
  | zero => exact ⟨fun j hj => absurd hj (Nat.not_lt_zero j), (table_zero kp).symm⟩
  | succ i ih =>
      have hi' : i < 3 := hi
      obtain ⟨hr', hpresent⟩ := Reaches.succ.mp hr
      obtain ⟨hindex, htable⟩ := ih (Nat.le_of_lt hi') hr'
      rw [if_neg (Nat.ne_of_lt hi')] at htable
      have hne : entry m (kernelPagetableAt kp i) (pageIndex a i) ≠ 0 := by
        intro h0
        rw [levelEntry, htable, h0] at hpresent
        exact hpresent rfl
      obtain ⟨hlt, hzero, hentry⟩ := h.entry_cases hi' (pageIndex_lt a i) hne
      have haddr := (h.entry_spec (by omega : i + 1 + pageIndex a i < 5)).1
      refine ⟨fun j hj => ?_, ?_⟩
      · rcases Nat.lt_succ_iff_lt_or_eq.mp hj with hj | rfl
        · exact hindex j hj
        · exact ⟨hlt, hzero⟩
      · rw [tableAt_succ, levelEntry, htable, hentry, haddr]
        by_cases h3 : i + 1 = 3
        · obtain rfl : i = 2 := by omega
          rw [if_pos h3]
        · rw [if_neg h3, hzero (by omega), Nat.add_zero]

theorem tree : Tree m kp (2 ^ 48) where
  aligned := h.aligned
  physical a _ i hi hr := by
    have hphys : memsizePhysical = 2097152 := rfl
    have hpage : pageSize = 4096 := rfl
    have hsize : npages = 512 := rfl
    have hi' : i + 1 ≤ 3 := hi
    obtain ⟨hindex, htable⟩ := h.reaches hi' hr
    have hlt : (if i + 1 = 3 then 3 + pageIndex a 2 else i + 1) < 5 := by
      split
      next h3 =>
        have := (hindex 2 (by omega)).1
        omega
      next => omega
    obtain ⟨pn, hpn, -, hpn'⟩ := h.page_lt hlt
    rw [htable, hpn', hpage]
    omega
  upper a _ i hi hr := by
    obtain ⟨hindex, htable⟩ := h.reaches (Nat.le_of_lt hi) (hr.mono (Nat.le_succ i))
    have hpresent := hr i (Nat.lt_succ_self i)
    rw [if_neg (Nat.ne_of_lt hi)] at htable
    rw [levelEntry, htable] at hpresent ⊢
    have hne : entry m (kernelPagetableAt kp i) (pageIndex a i) ≠ 0 := by
      intro h0
      rw [h0] at hpresent
      exact hpresent rfl
    obtain ⟨hlt, hzero, hentry⟩ := h.entry_cases hi (pageIndex_lt a i) hne
    rw [hentry]
    exact (h.entry_spec (by omega)).2.2
  distinct a ha b hb hr hr' heq := by
    obtain ⟨hindex, htable⟩ := h.reaches (Nat.le_refl 3) hr
    obtain ⟨hindex', htable'⟩ := h.reaches (Nat.le_refl 3) hr'
    rw [htable, htable'] at heq
    have h2 := kernelPagetableAt_inj heq
    have h0 := (hindex 0 (by decide)).2 (by decide)
    have h1 := (hindex 1 (by decide)).2 (by decide)
    have h0' := (hindex' 0 (by decide)).2 (by decide)
    have h1' := (hindex' 1 (by decide)).2 (by decide)
    rw [if_pos rfl, if_pos rfl] at h2
    simp only [pageIndex] at h0 h1 h0' h1' h2
    omega
  leaf a _ b _ i hi hr hr' heq := by
    obtain ⟨-, htable⟩ := h.reaches (Nat.le_refl 3) hr
    obtain ⟨-, htable'⟩ := h.reaches (Nat.le_of_lt hi) hr'
    rw [htable, htable', if_pos rfl, if_neg (Nat.ne_of_lt hi)] at heq
    have h3 := kernelPagetableAt_inj heq
    omega

/-- The check of the ownership visits the five tables and nothing else. -/
theorem visits (hv : Visits m (kernelPagetableAt kp j) path t) (hlen : j + path.length ≤ 3 ∨ (j < 5 ∧ path = [])) :
    ∃ i < 5, t = kernelPagetableAt kp i := by
  generalize hpt : kernelPagetableAt kp j = pt at hv
  induction hv generalizing j with
  | nil pt => exact ⟨j, by simp only [List.length_nil] at hlen; omega, hpt.symm⟩
  | @cons pt i t path hi hne rest ih =>
      subst hpt
      have hlen' : j + (path.length + 1) ≤ 3 := hlen.resolve_right fun hc => by cases hc.2
      obtain ⟨hlt, hzero, hentry⟩ := h.entry_cases (by omega) hi hne
      refine @ih (j + 1 + i) ?_ ?_
      · by_cases hj : j < 2
        · rw [hzero hj]
          exact .inl (by omega)
        · exact .inr ⟨by omega, List.eq_nil_of_length_eq_zero (by omega)⟩
      · rw [hentry, (h.entry_spec (by omega)).1]

/-- The tables for the first 4 MB are there. -/
theorem reaches_low (ha : a < 2 ^ 22) (hi : i ≤ 3) : Reaches m kp a i := by
  induction i with
  | zero => exact reaches_zero m kp a
  | succ i ih =>
      have hi' : i < 3 := hi
      have hr := ih (Nat.le_of_lt hi')
      obtain ⟨-, htable⟩ := h.reaches (Nat.le_of_lt hi') hr
      rw [if_neg (Nat.ne_of_lt hi')] at htable
      refine Reaches.succ.mpr ⟨hr, ?_⟩
      rw [levelEntry, htable, h.upper i hi' _ (pageIndex_lt a i), upperEntry]
      have hcases : i = 0 ∨ i = 1 ∨ i = 2 := by omega
      have hindex : (pageIndex a 0 = 0 ∧ pageIndex a 1 = 0) ∧ (pageIndex a 2 = 0 ∨ pageIndex a 2 = 1) := by
        simp only [pageIndex]
        omega
      by_cases h0 : pageIndex a i = 0
      · rw [if_pos ⟨hcases, h0⟩]
        exact (h.entry_spec (by omega)).2.1
      · obtain rfl : i = 2 := by
          rcases hcases with rfl | rfl | rfl
          · exact absurd hindex.1.1 h0
          · exact absurd hindex.1.2 h0
          · rfl
        rw [if_neg fun hc => h0 hc.2, if_pos ⟨rfl, hindex.2.resolve_left h0⟩]
        exact (h.entry_spec (by decide)).2.1

theorem table_low (ha : a < memsizePhysical) : tableAt m kp a 3 = kernelPagetableAt kp 3 := by
  have hphys : memsizePhysical = 2097152 := rfl
  have htable := (h.reaches (Nat.le_refl 3) (h.reaches_low (by omega : a < 2 ^ 22) (Nat.le_refl 3))).2
  have hindex : pageIndex a 2 = 0 := by
    simp only [pageIndex]
    omega
  rw [htable, if_pos rfl, hindex]

theorem leafTable_low (ha : a < memsizePhysical) : leafTable m kp a ≠ 0 := by
  have hphys : memsizePhysical = 2097152 := rfl
  obtain ⟨pn, -, hpos, hpn⟩ := h.page_lt (by decide : 3 < 5)
  rw [leafTable, if_pos (h.reaches_low (by omega) (Nat.le_refl 3)), h.table_low ha, hpn]
  exact Nat.ne_of_gt (Nat.mul_pos hpos (by decide))

theorem tree_low : Tree m kp memsizeVirtual where
  toShape := h.tree.toShape.mono (by decide)
  upper a ha := h.tree.upper a (Nat.lt_trans ha (by decide))

/-- Only the bytes of the five tables matter. -/
theorem congr (hsame : ∀ i < 5, SamePage m m' (kernelPagetableAt kp i)) : KernelTables m' kp :=
  ⟨h.aligned, h.pos, h.le, fun j hj i hi => (entry_congr (hsame j (by omega)) hi).trans (h.upper j hj i hi)⟩

theorem leafEntry_congr (hsame : ∀ i < 5, SamePage m m' (kernelPagetableAt kp i)) (a : Nat) :
    leafEntry m' kp a = leafEntry m kp a := by
  have hlevel (j : Nat) (hj : j ≤ 3) (hr : Reaches m kp a j) :
      entry m' (tableAt m kp a j) (pageIndex a j) = levelEntry m kp a j := by
    obtain ⟨hindex, htable⟩ := h.reaches hj hr
    rw [levelEntry, htable]
    refine entry_congr (hsame _ ?_) (pageIndex_lt a j)
    split
    next h3 =>
      have := (hindex 2 (by omega)).1
      omega
    next => omega
  obtain ⟨hreach, htable⟩ := walk_congr (k := 3) fun j hj hr => hlevel j (Nat.le_of_lt hj) hr
  by_cases hr : Reaches m kp a 3
  · rw [leafEntry, leafEntry, if_pos hr, if_pos (hreach.mpr hr), ← hlevel 3 (Nat.le_refl 3) hr, levelEntry, htable hr]
  · rw [leafEntry, leafEntry, if_neg hr, if_neg fun hr' => hr (hreach.mp hr')]

end KernelTables

theorem connectTables_kernelTables (m : Memory) (hdvd : 4096 ∣ kp) (hpos : 0 < kp)
    (hle : kp + 5 * pageSize ≤ procStartAddr) : KernelTables (connectTables m kp) kp :=
  ⟨hdvd, hpos, hle, fun _ hj _ hi => connectTables_entry m hdvd hle (Nat.lt_trans hj (by decide)) hi⟩

theorem connectTables_high (m : Memory) (h : KernelTables (connectTables m kp) kp) (a : Nat) :
    leafEntry (connectTables m kp) kp a = none ∨ leafEntry (connectTables m kp) kp a = some 0 := by
  by_cases hr : Reaches (connectTables m kp) kp a 3
  · obtain ⟨hindex, htable⟩ := h.reaches (Nat.le_refl 3) hr
    have hlt := (hindex 2 (by decide)).1
    refine .inr ?_
    rw [leafEntry, if_pos hr, levelEntry, htable, if_pos rfl,
      connectTables_entry m h.aligned h.le (by omega) (pageIndex_lt a 3), upperEntry, if_neg (by omega), if_neg (by omega)]
  · exact .inl (if_neg hr)

/-- The tables are connected by the entries of a list: the first two of each of the upper three tables are there, and no others. -/
theorem KernelTables.of_entries (hdvd : 4096 ∣ kp) (hpos : 0 < kp) (hle : kp + 5 * pageSize ≤ procStartAddr)
    (hfirst : ∀ j < 3, ∀ i < 2, BitVec.ofNat 64 ((entries.lookup (kernelPagetableAt kp j + 8 * i)).getD 0) = upperEntry kp j i)
    (hothers : ∀ j < 3, ∀ e ∈ entries, e.1 < kernelPagetableAt kp j + 16 ∨ kernelPagetableAt kp j + 4096 ≤ e.1) :
    KernelTables (tableMemory entries) kp where
  aligned := hdvd
  pos := hpos
  le := hle
  upper j hj i hi := by
    rw [entry_tableMemory entries (kernelPagetableAt_dvd hdvd j)]
    by_cases hlow : i < 2
    · exact hfirst j hj i hlow
    · have hnone : entries.lookup (kernelPagetableAt kp j + 8 * i) = none := by
        refine List.lookup_eq_none_iff.mpr fun e he => bne_iff_ne.mpr ?_
        have hfar := hothers j hj e he
        omega
      rw [hnone, upperEntry, if_neg (by omega), if_neg (by omega)]
      rfl

/-- What is found below a root with two last-level tables, the first of which maps the pages. -/
def twoTables (root : Nat) (pages : List Nat) : Nat → List (List Nat × Nat)
  | 0 => [([], root)]
  | 1 => [([0], root + 0x1000)]
  | 2 => [([0, 0], root + 0x2000)]
  | 3 => [([0, 0, 0], root + 0x3000), ([0, 0, 1], root + 0x4000)]
  | _ => pages.map fun pn => ([0, 0, 0, pn], pn * 0x1000)

end WeensyOS.Kernel
