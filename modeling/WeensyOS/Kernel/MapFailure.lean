import WeensyOS.Kernel.TableCache

namespace WeensyOS.Kernel

open ByteMemory ProgramBreak

variable {m m' : Memory} {pt va pa sz k : Nat} {perm : BitVec 32} {r : Int}

section Arguments

theorem MapArgs.fits (hargs : MapArgs pt va pa sz perm) (hva : va < 2 ^ 64) (hsz : sz < 2 ^ 64) :
    va + pageSize * (sz / pageSize) ≤ 2 ^ 64 := by
  have hpage : pageSize = 4096 := rfl
  have hrange := hargs.va_range
  rw [hpage]
  omega

theorem MapArgs.size (hargs : MapArgs pt va pa sz perm) : pageSize * (sz / pageSize) = sz :=
  Nat.mul_div_cancel' (Nat.dvd_of_mod_eq_zero hargs.sz_aligned)

theorem MapArgs.front (hargs : MapArgs pt va pa sz perm) (hva : va < 2 ^ 64) (hpa : pa < 2 ^ 64) (hsz : sz < 2 ^ 64)
    (hk : k < sz / pageSize) : MapArgs pt va pa (pageSize * k) perm where
  va_aligned := hargs.va_aligned
  sz_aligned := Nat.mul_mod_right pageSize k
  va_range := by
    have hpage : pageSize = 4096 := rfl
    have hrange := hargs.va_range
    rw [hpage] at hk ⊢
    omega
  pa_aligned := hargs.pa_aligned
  pa_range := by
    intro hp
    have hpage : pageSize = 4096 := rfl
    have hrange := hargs.pa_range hp
    have hphys : memsizePhysical = 2097152 := rfl
    rw [hpage] at hk ⊢
    omega
  perm_range := hargs.perm_range
  pagetable_aligned := hargs.pagetable_aligned

theorem virtualMemoryMap_by (hargs : MapArgs pt va pa sz perm) :
    virtualMemoryMap m pt va pa sz perm = mapPagesBy intIndex pt perm (sz / pageSize) m va pa (-1) 0 :=
  (if_pos hargs).trans (mapPages_eq_by pt perm _ m va pa (-1) 0)

theorem rust_virtualMemoryMap_by (hargs : MapArgs pt va pa sz perm) :
    RustKernel.virtualMemoryMap m pt va pa sz perm = mapPagesBy longIndex pt perm (sz / pageSize) m va pa (-1) 0 :=
  (if_pos hargs).trans (rust_mapPages_eq_by pt perm _ m va pa (-1) 0)

end Arguments

/-- The C kernel's number for the first region of the range is not the initial `last_index123`. -/
def ClearOfSentinel (va sz : Nat) : Prop := sz = 0 ∨ va / 2 ^ 21 % 2 ^ 32 ≠ 2 ^ 32 - 1

theorem kernels_map_alike (hva : va < 2 ^ 64) (hsz : sz < 2 ^ 64) (h : ClearOfSentinel va sz) :
    RustKernel.virtualMemoryMap m pt va pa sz perm = virtualMemoryMap m pt va pa sz perm := by
  by_cases hargs : MapArgs pt va pa sz perm
  case neg => rw [virtualMemoryMap, RustKernel.virtualMemoryMap, if_neg hargs, if_neg hargs]
  rw [virtualMemoryMap_by hargs, rust_virtualMemoryMap_by hargs]
  rcases h with rfl | h
  · rw [Nat.zero_div, mapPagesBy, mapPagesBy]
  · refine mapPagesBy_congr longIndex_tracks intIndex_tracks ?_ (hargs.fits hva hsz)
    exact iff_of_false (longIndex_ne hva) (mt (intIndex_sentinel va).mp h)

/-- The functions of the two kernels do the same, and they fail exactly when a page that is
to be mapped has no last-level table, one at address 0 counting as none. -/
theorem map_agrees (m : Memory) (pt va pa sz : Nat) (perm : BitVec 32) (hva : va < 2 ^ 64) (hsz : sz < 2 ^ 64)
    (hclear : ClearOfSentinel va sz) :
    RustKernel.virtualMemoryMap m pt va pa sz perm = virtualMemoryMap m pt va pa sz perm ∧
      ∀ r m', virtualMemoryMap m pt va pa sz perm = some (r, m') → (r = 0 ∨ r = -1) ∧
        (Separate m pt va (va + sz) → (r = -1 ↔ permBits perm &&& pteP ≠ 0 ∧
          ∃ k < sz / pageSize, ¬(Reaches m pt (va + pageSize * k) 3 ∧ tableAt m pt (va + pageSize * k) 3 ≠ 0))) := by
  refine ⟨kernels_map_alike hva hsz hclear, fun r m' h => ?_⟩
  have hargs : MapArgs pt va pa sz perm := by
    by_contra hargs
    rw [virtualMemoryMap, if_neg hargs] at h
    cases h
  have hfits := hargs.fits hva hsz
  rw [kernels_map_alike hva hsz hclear |>.symm, rust_virtualMemoryMap_by hargs] at h
  have hfailed := mapPagesBy_failed hfits h
  refine ⟨hfailed.imp_right And.left, fun hseparate => ?_⟩
  by_cases hp : permBits perm &&& pteP = 0
  · have hr : r = 0 := hfailed.resolve_right fun hfail => hfail.2.1 hp
    subst hr
    exact iff_of_false (by decide) fun hmissing => hmissing.1 hp
  · have hmissing := mapPagesBy_missing longIndex_tracks (Nat.dvd_of_mod_eq_zero hargs.pagetable_aligned) hp
      (by rwa [← hargs.size] at hseparate) (Nat.le_refl va) (Nat.le_refl _) hfits
      (fun hlast => absurd hlast (longIndex_ne hva)) h
    rw [hmissing, and_iff_right hp]
    apply exists_congr
    intro k
    apply and_congr_right
    intro _
    rw [leafTable]
    split
    next hr => exact ⟨fun h0 htable => htable.2 h0, fun htable => by_contra fun h0 => htable ⟨hr, h0⟩⟩
    next hr => exact iff_of_true rfl fun htable => hr htable.1

/-- Mapping the last page of a region that has no neighbour. -/
theorem map_agrees_single : ∃ m', virtualMemoryMap (singleTable 0x4000 0) 0x1000 0x1FF000 0x5000 4096 7 = some (0, m') ∧
    RustKernel.virtualMemoryMap (singleTable 0x4000 0) 0x1000 0x1FF000 0x5000 4096 7 = some (0, m') := by
  have hret : (virtualMemoryMap (singleTable 0x4000 0) 0x1000 0x1FF000 0x5000 4096 7).map Prod.fst = some 0 := by decide +kernel
  obtain ⟨hsame, -⟩ := map_agrees (singleTable 0x4000 0) 0x1000 0x1FF000 0x5000 4096 7 (by decide) (by decide) (.inr (by decide))
  obtain ⟨⟨r, m'⟩, hrun, rfl⟩ := Option.map_eq_some_iff.mp hret
  exact ⟨m', hrun, hsame.trans hrun⟩

/-- A table whose last-level table for some addresses is the upper table that leads to them. -/
def loopedTable : Memory :=
  setEntry (setEntry (setEntry (setEntry (fun _ => 0) 0x1000 0 0x2007) 0x1000 1 0x4007) 0x2000 511 0x3007) 0x3000 0 0x2007

/-- A present chain may end in the page at address 0, and a table may come to be while
the range is mapped. -/
theorem missing_table_differs :
    (¬∀ (m : Memory) (pt va pa sz : Nat) (perm : BitVec 32) (r : Int) (m' : Memory), va < 2 ^ 64 → sz < 2 ^ 64 →
      Separate m pt va (va + sz) → virtualMemoryMap m pt va pa sz perm = some (r, m') →
        (r = -1 ↔ permBits perm &&& pteP ≠ 0 ∧ ∃ k < sz / pageSize, ¬Reaches m pt (va + pageSize * k) 3)) ∧
    ¬∀ (m : Memory) (pt va pa sz : Nat) (perm : BitVec 32) (r : Int) (m' : Memory), va < 2 ^ 64 → sz < 2 ^ 64 →
      (∀ a, va ≤ a → a < va + sz → Reaches m pt a 3 → tableAt m pt a 3 ≠ 0) →
      virtualMemoryMap m pt va pa sz perm = some (r, m') →
        (r = -1 ↔ permBits perm &&& pteP ≠ 0 ∧ ∃ k < sz / pageSize, ¬Reaches m pt (va + pageSize * k) 3) := by
  constructor
  · intro h
    have T : Tree (singleTable 0 0) 0x1000 (2 ^ 48) := singleTable_tree 0 (by decide) (by decide) (by decide)
    have hseparate : Separate (singleTable 0 0) 0x1000 0 (0 + 4096) :=
      fun a b _ ha _ hb i hi hra hrb => T.leaf a (by omega) b (by omega) i hi hra hrb
    have hret : (virtualMemoryMap (singleTable 0 0) 0x1000 0 0x5000 4096 7).map Prod.fst = some (-1) := by decide +kernel
    obtain ⟨⟨r, m'⟩, hrun, hr⟩ := Option.map_eq_some_iff.mp hret
    obtain ⟨-, k, hk, hmissing⟩ := (h _ _ _ _ _ _ _ _ (by decide) (by decide) hseparate hrun).mp hr
    obtain rfl : k = 0 := Nat.lt_one_iff.mp hk
    exact hmissing (by decide +kernel)
  · intro h
    have hnull (a : Nat) (ha : 511 * 2 ^ 30 + 2 ^ 21 - 4096 ≤ a) (ha' : a < 511 * 2 ^ 30 + 2 ^ 21 - 4096 + 8192)
        (hr : Reaches loopedTable 0x1000 a 3) : tableAt loopedTable 0x1000 a 3 ≠ 0 := by
      rcases Nat.lt_or_ge a (511 * 2 ^ 30 + 2 ^ 21) with hlt | hge
      · have hregion : a / 2 ^ 21 = (511 * 2 ^ 30) / 2 ^ 21 := by omega
        rw [tableAt_region hregion _ _ (Nat.le_refl 3)]
        decide +kernel
      · have hregion : a / 2 ^ 21 = (511 * 2 ^ 30 + 2 ^ 21) / 2 ^ 21 := by omega
        exact absurd ((reaches_region hregion loopedTable 0x1000).mp hr) (by decide +kernel)
    have hret : (virtualMemoryMap loopedTable 0x1000 (511 * 2 ^ 30 + 2 ^ 21 - 4096) 0x1000 8192 7).map Prod.fst = some 0 := by
      decide +kernel
    obtain ⟨⟨r, m'⟩, hrun, rfl⟩ := Option.map_eq_some_iff.mp hret
    exact absurd ((h _ _ _ _ _ _ _ _ (by decide) (by decide) hnull hrun).mpr
      ⟨by decide, 1, by decide, by decide +kernel⟩) (by decide)

/-- What a failed call leaves behind is what a call for the first `k` pages makes of the
memory: in a tree, it wrote the last-level entries for these pages and nothing else. -/
structure StoppedAfter (map : Memory → Nat → Nat → Nat → Nat → BitVec 32 → Option (Int × Memory)) (m m' : Memory)
    (pt va pa k : Nat) (perm : BitVec 32) : Prop where
  front : map m pt va pa (pageSize * k) perm = some (0, m')
  written : ∀ V ≤ 2 ^ 48, Shape m pt V → va + pageSize * k ≤ V → Mapped m m' pt V va k pa perm 0

theorem front_pages (k : Nat) : pageSize * k / pageSize = k := Nat.mul_div_cancel_left k (by decide)

theorem virtualMemoryMap_mapped {V : Nat} (hV : V ≤ 2 ^ 48) (S : Shape m pt V) (hend : va + pageSize * k ≤ V)
    (hargs : MapArgs pt va pa (pageSize * k) perm) (hpa : pa < 2 ^ 64)
    (h : virtualMemoryMap m pt va pa (pageSize * k) perm = some (0, m')) : Mapped m m' pt V va k pa perm 0 := by
  have hpage : pageSize = 4096 := rfl
  have hphys : memsizePhysical = 2097152 := rfl
  rw [virtualMemoryMap, if_pos hargs, front_pages] at h
  have hpa' (hp : permBits perm &&& pteP ≠ 0) : pa + 4096 * k ≤ memsizePhysical := by
    have hrange := hargs.pa_range hp
    rw [hpage] at hrange hend
    omega
  rcases mapPages_mapped S hV hargs.va_aligned hend hpa' (.inl rfl) with ⟨r, m'', hrun, hmapped⟩ | ⟨hfail, -⟩
  · obtain ⟨rfl, rfl⟩ := Prod.mk.inj (Option.some.inj (hrun.symm.trans h))
    exact hmapped
  · rw [hfail] at h
    cases h

/-- A call that returns -1 has mapped the pages in front of the first one that has no last-level table. -/
theorem map_stops (m m' : Memory) (pt va pa sz : Nat) (perm : BitVec 32) (hva : va < 2 ^ 64) (hpa : pa < 2 ^ 64)
    (hsz : sz < 2 ^ 64) :
    (virtualMemoryMap m pt va pa sz perm = some (-1, m') → permBits perm &&& pteP ≠ 0 ∧ ∃ k < sz / pageSize,
      StoppedAfter virtualMemoryMap m m' pt va pa k perm ∧
        (ClearOfSentinel va sz → leafTable m' pt (va + pageSize * k) = 0)) ∧
    (RustKernel.virtualMemoryMap m pt va pa sz perm = some (-1, m') → permBits perm &&& pteP ≠ 0 ∧ ∃ k < sz / pageSize,
      StoppedAfter RustKernel.virtualMemoryMap m m' pt va pa k perm ∧ leafTable m' pt (va + pageSize * k) = 0) := by
  constructor
  · intro h
    have hargs : MapArgs pt va pa sz perm := by
      by_contra hargs
      rw [virtualMemoryMap, if_neg hargs] at h
      cases h
    rw [virtualMemoryMap_by hargs] at h
    obtain ⟨-, hp, k, hk, hrun, htable⟩ := (mapPagesBy_failed (hargs.fits hva hsz) h).resolve_left (by decide)
    have hfront := hargs.front hva hpa hsz hk
    have hcall : virtualMemoryMap m pt va pa (pageSize * k) perm = some (0, m') := by
      rw [virtualMemoryMap_by hfront, front_pages, hrun]
    refine ⟨hp, k, hk, ⟨hcall, fun V hV S hend => virtualMemoryMap_mapped hV S hend hfront hpa hcall⟩, fun hclear => ?_⟩
    have hpos : sz ≠ 0 := by
      rintro rfl
      exact absurd hk (Nat.not_lt_zero k)
    exact htable fun _ hlast => (hclear.resolve_left hpos) ((intIndex_sentinel va).mp hlast)
  · intro h
    have hargs : MapArgs pt va pa sz perm := by
      by_contra hargs
      rw [RustKernel.virtualMemoryMap, if_neg hargs] at h
      cases h
    rw [rust_virtualMemoryMap_by hargs] at h
    obtain ⟨-, hp, k, hk, hrun, htable⟩ := (mapPagesBy_failed (hargs.fits hva hsz) h).resolve_left (by decide)
    have hfront := hargs.front hva hpa hsz hk
    have hcall : RustKernel.virtualMemoryMap m pt va pa (pageSize * k) perm = some (0, m') := by
      rw [rust_virtualMemoryMap_by hfront, front_pages, hrun]
    refine ⟨hp, k, hk, ⟨hcall, fun V hV S hend => ?_⟩, htable fun _ => longIndex_ne hva⟩
    -- the addresses of a tree are far from the sentinel's region
    have hpage : pageSize = 4096 := rfl
    have hclear : ClearOfSentinel va (pageSize * k) := .inr (by omega)
    rw [kernels_map_alike hva (by rw [hpage] at hend ⊢; omega) hclear] at hcall
    exact virtualMemoryMap_mapped hV S hend hfront hpa hcall

/-- Mapping two pages, the second one in a region without a table. -/
def crossing (m : Memory) : Option (Int × Memory) := virtualMemoryMap m 0x1000 (2 ^ 21 - 4096) 0x5000 8192 7

theorem crossing_stops : ∃ m', crossing (singleTable 0x4000 0) = some (-1, m') ∧
    ∃ k < 2, StoppedAfter virtualMemoryMap (singleTable 0x4000 0) m' 0x1000 (2 ^ 21 - 4096) 0x5000 k 7 := by
  have hret : (crossing (singleTable 0x4000 0)).map Prod.fst = some (-1) := by decide +kernel
  obtain ⟨⟨r, m'⟩, hrun, rfl⟩ := Option.map_eq_some_iff.mp hret
  obtain ⟨-, k, hk, hstopped, -⟩ := (map_stops (singleTable 0x4000 0) m' 0x1000 (2 ^ 21 - 4096) 0x5000 8192 7
    (by decide) (by decide) (by decide)).1 hrun
  exact ⟨m', hrun, k, hk, hstopped⟩

/-- The entry for the first of the two pages stays written. -/
theorem failed_map_writes : ¬∀ (m : Memory) (pt va pa sz : Nat) (perm : BitVec 32) (m' : Memory), va < 2 ^ 64 →
    pa < 2 ^ 64 → sz < 2 ^ 64 → virtualMemoryMap m pt va pa sz perm = some (-1, m') →
      ∀ a < 2 ^ 48, ∀ i < 4, Reaches m pt a i → levelEntry m' pt a i = levelEntry m pt a i := by
  intro h
  have hret : (crossing (singleTable 0x4000 0)).map
      (fun p => (p.1, levelEntry p.2 0x1000 (2 ^ 21 - 4096) 3)) = some (-1, 0x5007) := by decide +kernel
  obtain ⟨⟨r, m'⟩, hrun, heq⟩ := Option.map_eq_some_iff.mp hret
  obtain ⟨rfl, hentry⟩ := Prod.mk.inj heq
  have hsame := h _ _ _ _ _ _ _ (by decide) (by decide) (by decide) hrun (2 ^ 21 - 4096) (by decide) 3 (by decide)
    (by decide +kernel)
  rw [hentry] at hsame
  exact absurd hsame (by decide +kernel)

end WeensyOS.Kernel
