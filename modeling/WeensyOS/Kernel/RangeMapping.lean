import WeensyOS.Kernel.Mapping

namespace WeensyOS.Kernel

open ByteMemory ProgramBreak

variable {m m' : Memory} {pt va a t t' i j pa : Nat} {pe v : PageEntry} {perm : BitVec 32}

section Values

theorem perm_lt (h : 0 ≤ perm.toInt ∧ perm.toInt < 0x1000) : perm.toNat < 4096 := by
  have hlt := perm.isLt
  have hint := BitVec.toInt_eq_toNat_cond perm
  split at hint <;> omega

theorem permBits_toNat (h : 0 ≤ perm.toInt ∧ perm.toInt < 0x1000) : (permBits perm).toNat = perm.toNat := by
  have hlt := perm_lt h
  have hmsb : perm.msb = false := by
    rw [BitVec.msb_eq_decide]
    simp only [decide_eq_false_iff_not]
    omega
  rw [permBits, BitVec.signExtend_eq_setWidth_of_msb_false hmsb, BitVec.toNat_setWidth]
  omega

/-- An aligned address and the flags share no bits. -/
theorem toNat_ofNat_or (hpa : pa % 4096 = 0) (hlt : pa < 2 ^ 64) (hv : v.toNat < 4096) :
    (BitVec.ofNat 64 pa ||| v).toNat = pa + v.toNat := by
  have hmul : pa = 2 ^ 12 * (pa / 4096) := by omega
  rw [BitVec.toNat_or, BitVec.toNat_ofNat, Nat.mod_eq_of_lt hlt, hmul, ← Nat.two_pow_add_eq_or_of_lt hv]

theorem leafValue_toNat (hp : permBits perm &&& pteP ≠ 0) (hpa : pa % 4096 = 0) (hlt : pa < 2 ^ 64)
    (h : 0 ≤ perm.toInt ∧ perm.toInt < 0x1000) : (leafValue pa perm).toNat = pa + perm.toNat := by
  have hperm := permBits_toNat h
  have hbound := perm_lt h
  rw [leafValue, if_pos hp, toNat_ofNat_or hpa hlt (by omega), hperm]

theorem mappingOf_leafValue (hp : permBits perm &&& pteP ≠ 0) (hpa : pa % 4096 = 0) (hlt : pa < 2 ^ 64)
    (h : 0 ≤ perm.toInt ∧ perm.toInt < 0x1000) (va : Nat) :
    mappingOf va (some (leafValue pa perm)) = ⟨pageNumber (pa + pageOffset va), pa + pageOffset va, perm⟩ := by
  have hnat := leafValue_toNat hp hpa hlt h
  have hbound := perm_lt h
  have hpresent : leafValue pa perm &&& pteP ≠ 0 := by
    rw [ne_eq, and_pteP, Bool.not_eq_false] at hp ⊢
    rw [leafValue, if_pos (by rwa [ne_eq, and_pteP, Bool.not_eq_false]), BitVec.getLsbD_or, hp, Bool.or_true]
  have hoffset : pageOffset va < 4096 := Nat.mod_lt _ (by decide)
  have hnumber : (pa + perm.toNat) / 2 ^ 12 = (pa + pageOffset va) / 2 ^ 12 := by omega
  have haddr : (pa + perm.toNat) / 4096 * 4096 = pa := by omega
  have hflags : (pteFlags (leafValue pa perm)).setWidth 32 = perm := by
    apply BitVec.eq_of_toNat_eq
    rw [BitVec.toNat_setWidth, pteFlags_eq, hnat]
    omega
  rw [mappingOf, if_neg hpresent, pteAddr_eq, hnat, haddr, hflags, pageNumber, hnumber]
  rfl

theorem mappingOf_leafValue_absent (hp : permBits perm &&& pteP = 0) (pa va : Nat) :
    mappingOf va (some (leafValue pa perm)) = .unmapped := by
  have hvalue : leafValue pa perm = permBits perm := if_neg (not_not_intro hp)
  rw [mappingOf, hvalue, if_pos hp]

end Values

/-- What a lookup finds in `m'`, when the range of `sz` bytes at `va` has been mapped to `pa` in `m`. -/
structure LookupFollows (m m' : Memory) (pt va pa sz : Nat) (perm : BitVec 32) : Prop where
  mapped : permBits perm &&& pteP ≠ 0 → ∀ x < sz,
    virtualMemoryLookup m' pt (va + x) = ⟨pageNumber (pa + x), pa + x, perm⟩
  unmapped : permBits perm &&& pteP = 0 → ∀ x < sz, virtualMemoryLookup m' pt (va + x) = .unmapped
  frame : ∀ a < 2 ^ 48, ¬(va ≤ a ∧ a < va + sz) → virtualMemoryLookup m' pt a = virtualMemoryLookup m pt a

/-- `virtual_memory_map` and `virtual_memory_lookup` fit together, where no
last-level table of the range is the page at address 0. -/
theorem map_then_lookup (m : Memory) (pt va pa sz : Nat) (perm : BitVec 32) (T : Tree m pt (2 ^ 48))
    (hargs : MapArgs pt va pa sz perm) (hend : va + sz ≤ 2 ^ 48)
    (hnull : ∀ a, va ≤ a → a < va + sz → Reaches m pt a 3 → tableAt m pt a 3 ≠ 0) :
    ∃ r m', virtualMemoryMap m pt va pa sz perm = some (r, m') ∧ (r = 0 → LookupFollows m m' pt va pa sz perm) := by
  have hpage : pageSize = 4096 := rfl
  have hphys : memsizePhysical = 2097152 := rfl
  have hva := hargs.va_aligned
  have hsz := hargs.sz_aligned
  rw [hpage] at hva hsz
  have hsize : 4096 * (sz / pageSize) = sz := by
    rw [hpage]
    omega
  have hpa (hp : permBits perm &&& pteP ≠ 0) : pa % 4096 = 0 ∧ pa + sz ≤ memsizePhysical := by
    have haligned := hargs.pa_aligned hp
    obtain ⟨hwrap, hle⟩ := hargs.pa_range hp
    rw [hpage] at haligned
    omega
  obtain ⟨r, m', hrun, h⟩ := (mapPages_mapped (n := sz / pageSize) T.toShape (Nat.le_refl _) hva (by rwa [hsize])
    (fun hp => by rw [hsize]; exact (hpa hp).2) (.inl rfl : Cached m pt (2 ^ 48) (-1) 0)).resolve_right
      fun hfail => hfail.2 (T.allows perm)
  have hin (x : Nat) (hx : x < sz) : va ≤ va + x ∧ va + x < va + 4096 * (sz / pageSize) := by
    rw [hsize]
    omega
  have T' : Tree m' pt (2 ^ 48) := Tree.congr h.upper T
  have hmap : virtualMemoryMap m pt va pa sz perm = some (r, m') := by rw [virtualMemoryMap, if_pos hargs, hrun]
  refine ⟨r, m', hmap, fun h0 => ⟨?_, ?_, ?_⟩⟩
  · intro hp x hx
    have hx' := hin x hx
    obtain ⟨haligned, hle⟩ := hpa hp
    have hoffset : pa + ((va + x) / 4096 * 4096 - va) + pageOffset (va + x) = pa + x := by
      simp only [pageOffset, hpage]
      omega
    rw [T'.lookup (by omega), h.leaf h0 _ (by omega), if_pos ⟨hx', h.present h0 hp _ hx'.1 hx'.2⟩,
      mappingOf_leafValue hp (by omega) (by omega) hargs.perm_range, hoffset]
  · intro hp x hx
    rw [T'.lookup (by omega), h.leaf h0 _ (by omega)]
    by_cases hl : leafTable m pt (va + x) = 0
    · have hr : ¬Reaches m pt (va + x) 3 := by
        intro hr
        rw [leafTable, if_pos hr] at hl
        exact hnull _ (by omega) (by omega) hr hl
      rw [if_neg fun hc => hc.2 hl, leafEntry, if_neg hr]
      rfl
    · rw [if_pos ⟨hin x hx, hl⟩, mappingOf_leafValue_absent hp]
  · intro a ha hout
    have hout' : ¬((va ≤ a ∧ a < va + 4096 * (sz / pageSize)) ∧ leafTable m pt a ≠ 0) := by
      rw [hsize]
      exact fun hc => hout hc.1
    rw [T'.lookup ha, T.lookup ha, h.leaf h0 a ha, if_neg hout']

/-- Tables at 0x1000, 0x2000 and 0x3000 that lead to one last-level table, and an
entry for page 0 in it. -/
def singleTable (leaf : Nat) (value : PageEntry) : Memory :=
  setEntry (setEntry (setEntry (setEntry (fun _ => 0) 0x1000 0 0x2007) 0x2000 0 0x3007) 0x3000 0
    (BitVec.ofNat 64 leaf ||| 7)) leaf 0 value

theorem entry_setEntry (ht : 4096 ∣ t) (ht' : 4096 ∣ t') (hi : i < 512) (hj : j < 512) :
    entry (setEntry m t i v) t' j = if t = t' ∧ i = j then v else entry m t' j := by
  by_cases htab : t = t'
  · subst htab
    by_cases hij : i = j
    · subst hij
      rw [if_pos ⟨rfl, rfl⟩, entry_setEntry_self]
    · rw [if_neg fun h => hij h.2, entry_setEntry_ne hij]
  · rw [if_neg fun h => htab h.1]
    exact entry_congr (samePage_setEntry ht ht' htab hi) hj

theorem entry_zero (t i : Nat) : entry (fun _ => 0) t i = 0 := by
  rw [entry, readLE_zero, BitVec.ofNat_eq_ofNat]

section SingleTable

variable {leaf : Nat} (value : PageEntry) (hdvd : 4096 ∣ leaf) (hlt : leaf < memsizePhysical)
  (hne : leaf ≠ 0x1000 ∧ leaf ≠ 0x2000 ∧ leaf ≠ 0x3000)
include hdvd hlt hne

omit hlt hne in
theorem singleTable_entry (ht : 4096 ∣ t) (hl : leaf ≠ t) (hi : i < 512) : entry (singleTable leaf value) t i =
    if 0x3000 = t ∧ 0 = i then BitVec.ofNat 64 leaf ||| 7
    else if 0x2000 = t ∧ 0 = i then 0x3007 else if 0x1000 = t ∧ 0 = i then 0x2007 else 0 := by
  rw [singleTable, entry_setEntry hdvd ht (by decide) hi, if_neg fun h => hl h.1, entry_setEntry (by decide) ht (by decide) hi,
    entry_setEntry (by decide) ht (by decide) hi, entry_setEntry (by decide) ht (by decide) hi, entry_zero]

omit hlt in
/-- Where an upper entry is present, it is the one that leads to the last-level table. -/
theorem singleTable_present (ht : t = 0x1000 ∨ t = 0x2000 ∨ t = 0x3000) (hi : i < 512)
    (hp : entry (singleTable leaf value) t i &&& pteP ≠ 0) :
    entry (singleTable leaf value) t i = entry (singleTable leaf value) t 0 ∧ i = 0 := by
  have hl : leaf ≠ t := by
    rcases ht with rfl | rfl | rfl
    · exact hne.1
    · exact hne.2.1
    · exact hne.2.2
  have hdvd' : 4096 ∣ t := by
    rcases ht with rfl | rfl | rfl <;> decide
  by_cases hi0 : 0 = i
  · exact ⟨by rw [← hi0], hi0.symm⟩
  · rw [singleTable_entry value hdvd hdvd' hl hi, if_neg fun h => hi0 h.2, if_neg fun h => hi0 h.2,
      if_neg fun h => hi0 h.2] at hp
    exact absurd rfl hp

omit hlt in
theorem singleTable_zero : entry (singleTable leaf value) 0x1000 0 = 0x2007 ∧ entry (singleTable leaf value) 0x2000 0 = 0x3007 ∧
    entry (singleTable leaf value) 0x3000 0 = BitVec.ofNat 64 leaf ||| 7 := by
  refine ⟨?_, ?_, ?_⟩
  · rw [singleTable_entry value hdvd (by decide) hne.1 (by decide)]
    simp
  · rw [singleTable_entry value hdvd (by decide) hne.2.1 (by decide)]
    simp
  · rw [singleTable_entry value hdvd (by decide) hne.2.2 (by decide)]
    simp

omit hlt in
theorem singleTable_level {i : Nat} (hi : i < 3) (hr : Reaches (singleTable leaf value) 0x1000 va (i + 1))
    (ht : tableAt (singleTable leaf value) 0x1000 va i = 0x1000 * (i + 1)) : pageIndex va i = 0 ∧
      levelEntry (singleTable leaf value) 0x1000 va i = entry (singleTable leaf value) (0x1000 * (i + 1)) 0 := by
  have hmem : 0x1000 * (i + 1) = 0x1000 ∨ 0x1000 * (i + 1) = 0x2000 ∨ 0x1000 * (i + 1) = 0x3000 := by omega
  have hp := hr i (Nat.lt_succ_self i)
  rw [levelEntry, ht] at hp ⊢
  have h := singleTable_present value hdvd hne hmem (pageIndex_lt va i) hp
  exact ⟨h.2, h.1⟩

omit hlt in
theorem singleTable_tableAt {i : Nat} (hi : i < 3) (hr : Reaches (singleTable leaf value) 0x1000 va i) :
    tableAt (singleTable leaf value) 0x1000 va i = 0x1000 * (i + 1) := by
  obtain ⟨h0, h1, -⟩ := singleTable_zero value hdvd hne
  induction i with
  | zero => rfl
  | succ i ih =>
      have hentry := (singleTable_level value hdvd hne (Nat.lt_of_succ_lt hi) hr
        (ih (Nat.lt_of_succ_lt hi) (hr.mono (Nat.le_succ i)))).2
      have hi' : i = 0 ∨ i = 1 := by omega
      rw [tableAt_succ, hentry]
      rcases hi' with rfl | rfl
      · rw [h0]
        rfl
      · rw [h1]
        rfl

/-- Only the addresses of the first 2 MB region have a last-level table. -/
theorem singleTable_leaf (hr : Reaches (singleTable leaf value) 0x1000 va 3) :
    tableAt (singleTable leaf value) 0x1000 va 3 = leaf ∧ va / 2 ^ 21 % 2 ^ 27 = 0 := by
  have hindex (i : Nat) (hi : i < 3) := singleTable_level value hdvd hne hi (hr.mono hi)
    (singleTable_tableAt value hdvd hne hi (hr.mono (Nat.le_of_lt hi)))
  have hphys : memsizePhysical = 2097152 := rfl
  have hseven : (7 : PageEntry).toNat = 7 := rfl
  constructor
  · rw [tableAt_succ, (hindex 2 (by decide)).2, (singleTable_zero value hdvd hne).2.2, pteAddr_eq,
      toNat_ofNat_or (by omega) (by omega) (by decide), hseven]
    omega
  · have h0 := (hindex 0 (by decide)).1
    have h1 := (hindex 1 (by decide)).1
    have h2 := (hindex 2 (by decide)).1
    simp only [pageIndex] at h0 h1 h2
    omega

theorem singleTable_tree : Tree (singleTable leaf value) 0x1000 (2 ^ 48) where
  aligned := by decide
  physical := by
    intro va _ i hi hr
    have hi' : i = 0 ∨ i = 1 ∨ i = 2 := by omega
    rcases hi' with rfl | rfl | rfl
    · rw [singleTable_tableAt value hdvd hne (by decide) hr]
      decide
    · rw [singleTable_tableAt value hdvd hne (by decide) hr]
      decide
    · rw [(singleTable_leaf value hdvd hlt hne hr).1]
      exact hlt
  upper := by
    intro va _ i hi hr
    obtain ⟨h0, h1, h2⟩ := singleTable_zero value hdvd hne
    have hentry := (singleTable_level value hdvd hne hi hr
      (singleTable_tableAt value hdvd hne hi (hr.mono (Nat.le_succ i)))).2
    have hi' : i = 0 ∨ i = 1 ∨ i = 2 := by omega
    rcases hi' with rfl | rfl | rfl
    · rw [hentry, h0]
      decide
    · rw [hentry, h1]
      decide
    · rw [hentry, h2]
      constructor
      · rw [ne_eq, and_pteW, BitVec.getLsbD_or, Bool.or_eq_false_iff]
        exact fun h => absurd h.2 (by decide)
      · rw [ne_eq, and_pteU, BitVec.getLsbD_or, Bool.or_eq_false_iff]
        exact fun h => absurd h.2 (by decide)
  distinct := by
    intro va hva va' hva' hr hr' _
    have h := (singleTable_leaf value hdvd hlt hne hr).2
    have h' := (singleTable_leaf value hdvd hlt hne hr').2
    omega
  leaf := by
    intro va _ va' _ i hi hr hr'
    rw [(singleTable_leaf value hdvd hlt hne hr).1, singleTable_tableAt value hdvd hne hi hr']
    omega

end SingleTable

/-- Mapping page 0 of a process whose last-level table is at 0x4000. -/
theorem first_page_mapped : ∃ m', virtualMemoryMap (singleTable 0x4000 0) 0x1000 0 0x5000 4096 7 = some (0, m') ∧
    virtualMemoryLookup m' 0x1000 5 = ⟨5, 0x5005, 7⟩ := by
  have hne : (0x4000 : Nat) ≠ 0x1000 ∧ (0x4000 : Nat) ≠ 0x2000 ∧ (0x4000 : Nat) ≠ 0x3000 := by decide
  obtain ⟨r, m', hrun, h⟩ := map_then_lookup (singleTable 0x4000 0) 0x1000 0 0x5000 4096 7
    (singleTable_tree 0 (by decide) (by decide) hne) (by decide) (by decide) fun a _ _ hr => by
      rw [(singleTable_leaf 0 (by decide) (by decide) hne hr).1]
      decide
  have hret : (virtualMemoryMap (singleTable 0x4000 0) 0x1000 0 0x5000 4096 7).map Prod.fst = some 0 := by decide +kernel
  rw [hrun] at hret
  obtain rfl : r = 0 := Option.some.inj hret
  exact ⟨m', hrun, (h rfl).mapped (by decide) 5 (by decide)⟩

/-- A last-level table at address 0 is taken for a missing one: unmapping its page
returns 0 and leaves the page mapped. -/
theorem null_table_skipped : ¬∀ (m : Memory) (pt va pa sz : Nat) (perm : BitVec 32), Tree m pt (2 ^ 48) →
    MapArgs pt va pa sz perm → va + sz ≤ 2 ^ 48 → ∀ m', virtualMemoryMap m pt va pa sz perm = some (0, m') →
      LookupFollows m m' pt va pa sz perm := by
  intro h
  have T : Tree (singleTable 0 0x5007) 0x1000 (2 ^ 48) := singleTable_tree 0x5007 (by decide) (by decide) (by decide)
  have htable : leafTable (singleTable 0 0x5007) 0x1000 0 = 0 := by
    rcases leafTable_cases (singleTable 0 0x5007) 0x1000 0 with hl | ⟨hr, hl⟩
    · exact hl
    · exact hl.trans (singleTable_leaf 0x5007 (by decide) (by decide) (by decide) hr).1
  have hrun : virtualMemoryMap (singleTable 0 0x5007) 0x1000 0 0 4096 0 = some (0, singleTable 0 0x5007) := by
    have hva : 0 < 2 ^ 48 := by decide
    have hcache : Cached (singleTable 0 0x5007) 0x1000 (2 ^ 48) (-1) 0 := .inl rfl
    have hstep := (T.mapPages_succ 0 0 0 (Nat.le_refl _) hva hcache).resolve_right
      fun hfail => hfail.2 (T.allows 0)
    rw [virtualMemoryMap, if_pos (by decide), show 4096 / pageSize = 0 + 1 from rfl, hstep,
      if_neg (not_not_intro htable), if_neg (by decide)]
    rfl
  have hlookup := (h _ _ _ _ _ _ T (by decide) (by decide) _ hrun).unmapped (by decide) 0 (by decide)
  exact absurd hlookup (by decide +kernel)

end WeensyOS.Kernel
