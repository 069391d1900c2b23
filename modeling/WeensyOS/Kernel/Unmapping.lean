import WeensyOS.Kernel.Mapping
import WeensyOS.Kernel.Process

namespace WeensyOS.Kernel

open ByteMemory ProgramBreak

/-- The physical page that the table maps the address to. -/
def mappedPage (m : Memory) (pagetable va : Nat) : Option Nat :=
  (leafEntry m pagetable va).bind fun pe => if pe &&& pteP = 0 then none else some (pteAddr pe / pageSize)

section MappedPage

variable {m m' : Memory} {pt va a pn : Nat} {v : PageEntry} {V : Nat}

theorem mappedPage_eq_some : mappedPage m pt va = some pn ↔ Reaches m pt va 4 ∧ tableAt m pt va 4 / pageSize = pn := by
  have hsucc : Reaches m pt va 4 ↔ Reaches m pt va 3 ∧ levelEntry m pt va 3 &&& pteP ≠ 0 := Reaches.succ
  rw [hsucc, mappedPage, leafEntry]
  by_cases h3 : Reaches m pt va 3
  · by_cases h4 : levelEntry m pt va 3 &&& pteP = 0
    · simp [h3, h4]
    · simp [h3, tableAt_succ]
  · simp [h3]

theorem mappedPage_eq_none : mappedPage m pt va = none ↔ ¬Reaches m pt va 4 := by
  constructor
  · intro h hr
    rw [mappedPage_eq_some.mpr ⟨hr, rfl⟩] at h
    cases h
  · intro h
    cases hp : mappedPage m pt va with
    | none => rfl
    | some pn => exact absurd (mappedPage_eq_some.mp hp).1 h

theorem reaches_of_mapped (h : mappedPage m pt va ≠ none) : Reaches m pt va 3 := by
  by_contra hn
  exact h (mappedPage_eq_none.mpr fun h4 => hn (h4.mono (by decide)))

theorem lookup_pn (m : Memory) (pt va : Nat) :
    (virtualMemoryLookup m pt va).pn = (mappedPage m pt va).elim (-1) fun pn => asInt pn := by
  by_cases h : Reaches m pt va 4
  · have haddr : pteAddr (seen m pt va 4) = tableAt m pt va 4 := pteAddr_masked _ _
    have hpage : (seen m pt va 4).toNat / 2 ^ 12 = tableAt m pt va 4 / 4096 := by
      rw [← haddr, pteAddr_eq, Nat.mul_div_cancel _ (by decide : 0 < 4096)]
      rfl
    rw [mappedPage_eq_some.mpr ⟨h, rfl⟩, lookup_present h, pageNumber, hpage]
    rfl
  · rw [mappedPage_eq_none.mpr h, lookup_absent h]
    rfl

theorem lookup_pn_some (h : mappedPage m pt va = some pn) (hpn : pn < npages) : (virtualMemoryLookup m pt va).pn = pn := by
  have hsize : npages = 512 := rfl
  rw [lookup_pn, h]
  exact asInt_eq (by omega)

theorem lookup_pn_none (h : mappedPage m pt va = none) : (virtualMemoryLookup m pt va).pn = -1 := by
  rw [lookup_pn, h]
  rfl

theorem mappedPage_congr (h : leafEntry m' pt va = leafEntry m pt va) : mappedPage m' pt va = mappedPage m pt va := by
  rw [mappedPage, mappedPage, h]

theorem leafEntry_page (h : a / 4096 = va / 4096) (m : Memory) (pt : Nat) : leafEntry m pt a = leafEntry m pt va := by
  obtain ⟨hregion, hindex⟩ := same_page_iff.mp h
  rw [leafEntry, leafEntry, levelEntry, levelEntry, tableAt_region hregion m pt (Nat.le_refl 3), hindex]
  exact if_congr (reaches_region hregion m pt) rfl rfl

theorem mappedPage_page (h : a / 4096 = va / 4096) (m : Memory) (pt : Nat) : mappedPage m pt a = mappedPage m pt va := by
  rw [mappedPage, mappedPage, leafEntry_page h]

theorem Shape.mappedPage_write (S : Shape m pt V) (hva : va < V) (hr : Reaches m pt va 3) (ha : a < V) :
    mappedPage (setEntry m (tableAt m pt va 3) (pageIndex va 3) v) pt a =
      if a / 4096 = va / 4096 then (if v &&& pteP = 0 then none else some (pteAddr v / pageSize)) else mappedPage m pt a := by
  rw [mappedPage, S.leafEntry_write hva hr ha]
  split
  · rfl
  · rfl

theorem SameUpper.lookup (h : SameUpper m m' pt V) (ha : a < V) (hleaf : leafEntry m' pt a = leafEntry m pt a) :
    virtualMemoryLookup m' pt a = virtualMemoryLookup m pt a := by
  refine lookup_congr fun j hj hr => ?_
  rcases Nat.lt_succ_iff_lt_or_eq.mp hj with hj | rfl
  · exact entry_congr (h a ha j hj hr) (pageIndex_lt a j)
  · obtain ⟨hreach, htable⟩ := h.path ha (Nat.le_refl 3)
    rw [leafEntry, if_pos (hreach.mpr hr), leafEntry, if_pos hr, Kernel.levelEntry, htable hr] at hleaf
    exact Option.some.inj hleaf

end MappedPage

section OnePage

variable {m : Memory} {pt va pa V : Nat} {perm : BitVec 32}

theorem virtualMemoryMap_page (S : Shape m pt V) (hV : V ≤ 2 ^ 48) (hva : va < V) (hargs : MapArgs pt va pa pageSize perm) :
    virtualMemoryMap m pt va pa pageSize perm =
        (if leafTable m pt va ≠ 0 then some (0, setEntry m (leafTable m pt va) (pageIndex va 3) (leafValue pa perm))
        else if permBits perm &&& pteP ≠ 0 then some (-1, m) else some (0, m)) ∨
      (virtualMemoryMap m pt va pa pageSize perm = none ∧ ¬Allows m pt V perm) := by
  have hone : pageSize / pageSize = 0 + 1 := rfl
  rw [virtualMemoryMap, if_pos hargs, hone]
  exact S.mapPages_succ 0 pa perm hV hva (.inl rfl)

theorem mapArgs_zero (hpt : 4096 ∣ pt) (hva : va % 4096 = 0) (hlt : va < 2 ^ 48) : MapArgs pt va 0 pageSize 0 where
  va_aligned := hva
  sz_aligned := rfl
  va_range := by
    have hpage : pageSize = 4096 := rfl
    omega
  pa_aligned h := absurd rfl h
  pa_range h := absurd rfl h
  perm_range := by decide
  pagetable_aligned := Nat.mod_eq_zero_of_dvd hpt

theorem virtualMemoryMap_unmap (S : Shape m pt V) (hV : V ≤ 2 ^ 48) (hlt : va < V) (hva : va % 4096 = 0)
    (hr : Reaches m pt va 3) (hnull : tableAt m pt va 3 ≠ 0) :
    virtualMemoryMap m pt va 0 pageSize 0 = some (0, setEntry m (tableAt m pt va 3) (pageIndex va 3) 0) := by
  have hargs := mapArgs_zero S.aligned hva (Nat.lt_of_lt_of_le hlt hV)
  have htable : leafTable m pt va = tableAt m pt va 3 := if_pos hr
  have hmap := (virtualMemoryMap_page S hV hlt hargs).resolve_right fun hfail => hfail.2 (allows_zero m pt V)
  rw [htable, if_pos hnull] at hmap
  exact hmap

end OnePage

/-- What the loop of `sbrk` does to `n` pages from `start` on: their entries are
cleared and the mapped physical pages are freed, and nothing else changes. -/
structure Unmapped (s s' : Machine) (pt V start n : Nat) : Prop where
  processes : s'.processes = s.processes
  upper : SameUpper s.mem s'.mem pt V
  leaf : ∀ a < V, leafEntry s'.mem pt a =
    if (start ≤ a ∧ a < start + 4096 * n) ∧ mappedPage s.mem pt a ≠ none then some 0 else leafEntry s.mem pt a
  outside : ∀ x, (∀ a, start ≤ a → a < start + 4096 * n → mappedPage s.mem pt a ≠ none →
    x < tableAt s.mem pt a 3 + 8 * pageIndex a 3 ∨ tableAt s.mem pt a 3 + 8 * pageIndex a 3 + 8 ≤ x) →
      s'.mem x = s.mem x
  freed : ∀ a, start ≤ a → a < start + 4096 * n → ∀ pn, mappedPage s.mem pt a = some pn → s'.pageinfo pn = ⟨poFree, 0⟩
  kept : ∀ pn, (∀ a, start ≤ a → a < start + 4096 * n → mappedPage s.mem pt a ≠ some pn) →
    s'.pageinfo pn = s.pageinfo pn

section Unmapped

variable {s s' : Machine} {pt V start n pn : Nat}

theorem Unmapped.zero (s : Machine) (pt V start : Nat) : Unmapped s s pt V start 0 where
  processes := rfl
  upper := SameUpper.refl s.mem pt V
  leaf _ _ := (if_neg fun h => absurd h.1.2 (Nat.not_lt.mpr h.1.1)).symm
  outside _ _ := rfl
  freed _ ha ha' := absurd ha' (Nat.not_lt.mpr ha)
  kept _ _ := rfl

theorem Unmapped.page (h : Unmapped s s' pt V start n) {a : Nat} (ha : a < V) : mappedPage s'.mem pt a =
    if start ≤ a ∧ a < start + 4096 * n then none else mappedPage s.mem pt a := by
  rw [mappedPage, h.leaf a ha]
  by_cases hin : start ≤ a ∧ a < start + 4096 * n
  · rw [if_pos hin]
    by_cases hsome : mappedPage s.mem pt a = none
    · rw [if_neg fun hc => hc.2 hsome]
      exact hsome
    · rw [if_pos ⟨hin, hsome⟩]
      rfl
  · rw [if_neg hin, if_neg fun hc => hin hc.1]
    rfl

theorem Unmapped.skip (hstart : start % 4096 = 0) (hpage : mappedPage s.mem pt start = none)
    (h : Unmapped s s' pt V (start + 4096) n) : Unmapped s s' pt V start (n + 1) := by
  have hfirst (a : Nat) (ha : start ≤ a) (hsome : mappedPage s.mem pt a ≠ none) : start + 4096 ≤ a := by
    by_contra hlt
    exact hsome ((mappedPage_page (by omega : a / 4096 = start / 4096) s.mem pt).trans hpage)
  refine ⟨h.processes, h.upper, fun a ha => ?_, fun x hx => ?_, fun a ha ha' pn hpn => ?_, fun pn hpn => ?_⟩
  · rw [h.leaf a ha]
    refine if_congr (and_congr_left fun hsome => ⟨fun hr => ⟨by omega, by omega⟩, fun hr => ?_⟩) rfl rfl
    exact ⟨hfirst a hr.1 hsome, by omega⟩
  · exact h.outside x fun a ha ha' => hx a (by omega) (by omega)
  · have hsome : mappedPage s.mem pt a ≠ none := by rw [hpn]; exact Option.some_ne_none pn
    exact h.freed a (hfirst a ha hsome) (by omega) pn hpn
  · exact h.kept pn fun a ha ha' => hpn a (by omega) (by omega)

/-- The first page is mapped to `pn`: it is freed and unmapped. -/
def unmapOne (s : Machine) (pt va pn : Nat) : Machine :=
  { (s.setOwner pn poFree).setRefcount pn 0 with mem := setEntry s.mem (tableAt s.mem pt va 3) (pageIndex va 3) 0 }

theorem unmapOne_pageinfo (s : Machine) (pt va pn q : Nat) :
    (unmapOne s pt va pn).pageinfo q = if q = pn then ⟨poFree, 0⟩ else s.pageinfo q := by
  by_cases hq : q = pn
  · subst hq
    simp [unmapOne, Machine.setOwner, Machine.setRefcount]
  · simp [unmapOne, Machine.setOwner, Machine.setRefcount, hq]

theorem Unmapped.write (S : Shape s.mem pt V) (hstart : start % 4096 = 0) (hend : start + 4096 * (n + 1) ≤ V)
    (hpage : mappedPage s.mem pt start = some pn) (h : Unmapped (unmapOne s pt start pn) s' pt V (start + 4096) n) :
    Unmapped s s' pt V start (n + 1) := by
  have hlt : start < V := by omega
  have hr : Reaches s.mem pt start 3 := (mappedPage_eq_some.mp hpage).1.mono (by decide)
  have hupper : SameUpper s.mem (unmapOne s pt start pn).mem pt V := S.sameUpper_write hlt hr (pageIndex_lt start 3)
  have hmapped (a : Nat) (ha : a < V) : mappedPage (unmapOne s pt start pn).mem pt a =
      if a / 4096 = start / 4096 then none else mappedPage s.mem pt a := S.mappedPage_write hlt hr ha
  have hrest (a : Nat) (ha : start + 4096 ≤ a) (ha' : a < start + 4096 + 4096 * n) :
      mappedPage (unmapOne s pt start pn).mem pt a = mappedPage s.mem pt a := by
    rw [hmapped a (by omega), if_neg (by omega)]
  have hfirst (a : Nat) (ha : start ≤ a) (ha' : a < start + 4096) : mappedPage s.mem pt a = some pn :=
    (mappedPage_page (by omega : a / 4096 = start / 4096) s.mem pt).trans hpage
  refine ⟨h.processes, hupper.trans h.upper, fun a ha => ?_, fun x hx => ?_, fun a ha ha' q hq => ?_, fun q hq => ?_⟩
  · have hwrite : leafEntry (unmapOne s pt start pn).mem pt a =
        if a / 4096 = start / 4096 then some 0 else leafEntry s.mem pt a := S.leafEntry_write hlt hr ha
    rw [h.leaf a ha, hmapped a ha, hwrite]
    by_cases hin : a / 4096 = start / 4096
    · have hsome : mappedPage s.mem pt a ≠ none := by
        rw [hfirst a (by omega) (by omega)]
        exact Option.some_ne_none pn
      rw [if_pos hin, if_pos hin, if_neg fun hc => hc.2 rfl, if_pos ⟨by omega, hsome⟩]
    · rw [if_neg hin, if_neg hin]
      exact if_congr (and_congr_left fun _ => by omega) rfl rfl
  · have hone := hx start (Nat.le_refl _) (by omega) (by rw [hpage]; exact Option.some_ne_none pn)
    have hwrite : (unmapOne s pt start pn).mem x = s.mem x := writeLE_outside s.mem hone
    refine (h.outside x fun a ha ha' hsome => ?_).trans hwrite
    rw [hrest a ha ha'] at hsome
    rw [(hupper.path (by omega : a < V) (Nat.le_refl 3)).2 (reaches_of_mapped hsome)]
    exact hx a (by omega) (by omega) hsome
  · by_cases hin : a < start + 4096
    · have hpn : q = pn := Option.some.inj (hq.symm.trans (hfirst a ha hin))
      subst hpn
      by_cases hagain : ∃ b, (start + 4096 ≤ b ∧ b < start + 4096 + 4096 * n) ∧ mappedPage s.mem pt b = some q
      · obtain ⟨b, ⟨hb, hb'⟩, hbq⟩ := hagain
        exact h.freed b hb hb' q ((hrest b hb hb').trans hbq)
      · rw [h.kept q fun b hb hb' hbq => hagain ⟨b, ⟨hb, hb'⟩, (hrest b hb hb').symm.trans hbq⟩, unmapOne_pageinfo,
          if_pos rfl]
    · have ha₁ : start + 4096 ≤ a := Nat.le_of_not_lt hin
      have ha₂ : a < start + 4096 + 4096 * n := by omega
      exact h.freed a ha₁ ha₂ q ((hrest a ha₁ ha₂).trans hq)
  · have hne : q ≠ pn := by
      rintro rfl
      exact hq start (Nat.le_refl _) (by omega) hpage
    rw [h.kept q fun a ha ha' => by rw [hrest a ha ha']; exact hq a (by omega) (by omega), unmapOne_pageinfo, if_neg hne]

theorem unmapPages_unmapped (S : Shape s.mem pt V) (hV : V ≤ 2 ^ 48) (hstart : start % 4096 = 0)
    (hend : start + 4096 * n ≤ V)
    (hphys : ∀ a, start ≤ a → a < start + 4096 * n → ∀ pn, mappedPage s.mem pt a = some pn → pn < npages)
    (hnull : ∀ a, start ≤ a → a < start + 4096 * n → mappedPage s.mem pt a ≠ none → tableAt s.mem pt a 3 ≠ 0) :
    ∃ s', unmapPages pt n s start = some s' ∧ Unmapped s s' pt V start n := by
  induction n generalizing s start with
  | zero => exact ⟨s, rfl, Unmapped.zero s pt V start⟩
  | succ n ih =>
      have hlt : start < V := by omega
      have hnext : (start + pageSize) % 2 ^ 64 = start + 4096 := by
        simp only [pageSize]
        omega
      cases hpage : mappedPage s.mem pt start with
      | none =>
          have hrest : ∃ s', unmapPages pt n s (start + 4096) = some s' ∧ Unmapped s s' pt V (start + 4096) n :=
            ih S (by omega) (by omega) (fun a ha ha' => hphys a (by omega) (by omega))
              fun a ha ha' => hnull a (by omega) (by omega)
          obtain ⟨s', hrun, h⟩ := hrest
          refine ⟨s', ?_, h.skip hstart hpage⟩
          have hneg : ¬(0 : Int) ≤ -1 := by decide
          rw [unmapPages]
          simp only [lookup_pn_none hpage, if_neg hneg, Option.bind_some, hnext]
          exact hrun
      | some pn =>
          have hsome : mappedPage s.mem pt start ≠ none := by rw [hpage]; exact Option.some_ne_none pn
          have hpn := hphys start (Nat.le_refl _) (by omega) pn hpage
          have hr : Reaches s.mem pt start 3 := (mappedPage_eq_some.mp hpage).1.mono (by decide)
          have hmap := virtualMemoryMap_unmap S hV hlt hstart hr (hnull start (Nat.le_refl _) (by omega) hsome)
          have hupper : SameUpper s.mem (unmapOne s pt start pn).mem pt V :=
            S.sameUpper_write hlt hr (pageIndex_lt start 3)
          have hrest (a : Nat) (ha : start + 4096 ≤ a) (ha' : a < start + 4096 + 4096 * n) :
              mappedPage (unmapOne s pt start pn).mem pt a = mappedPage s.mem pt a := by
            have hwrite : mappedPage (unmapOne s pt start pn).mem pt a =
                if a / 4096 = start / 4096 then none else mappedPage s.mem pt a :=
              S.mappedPage_write hlt hr (by omega : a < V)
            rw [hwrite, if_neg (by omega)]
          have hnull' (a : Nat) (ha : start + 4096 ≤ a) (ha' : a < start + 4096 + 4096 * n)
              (hne : mappedPage (unmapOne s pt start pn).mem pt a ≠ none) :
              tableAt (unmapOne s pt start pn).mem pt a 3 ≠ 0 := by
            rw [hrest a ha ha'] at hne
            rw [(hupper.path (by omega : a < V) (Nat.le_refl 3)).2 (reaches_of_mapped hne)]
            exact hnull a (by omega) (by omega) hne
          have hafter : ∃ s', unmapPages pt n (unmapOne s pt start pn) (start + 4096) = some s' ∧
              Unmapped (unmapOne s pt start pn) s' pt V (start + 4096) n :=
            ih (Shape.congr hupper S) (by omega) (by omega)
              (fun a ha ha' => by rw [hrest a ha ha']; exact hphys a (by omega) (by omega)) hnull'
          obtain ⟨s', hrun, h⟩ := hafter
          refine ⟨s', ?_, h.write S hstart hend hpage⟩
          have hlookup := lookup_pn_some hpage hpn
          have hge : (0 : Int) ≤ (pn : Int) := Int.natCast_nonneg pn
          have hlt' : (pn : Int) < npages := Int.ofNat_lt.mpr hpn
          rw [unmapPages]
          simp only [hlookup, if_pos hge, if_pos hlt', Int.toNat_natCast, hnext]
          have hmem : ((s.setOwner pn poFree).setRefcount pn 0).mem = s.mem := rfl
          rw [hmem, hmap]
          exact hrun

end Unmapped

end WeensyOS.Kernel
