import WeensyOS.Kernel.RangeMapping
import WeensyOS.RustKernel.Process

namespace WeensyOS.Kernel

open ByteMemory LibC ProgramBreak

variable {m m' : Memory} {pt va a b t k n pa l4 lo hi : Nat} {perm : BitVec 32} {last r : Int} {index : Nat → Int}

/-- The last-level table that a round works with. -/
def cachedTable (index : Nat → Int) (m : Memory) (pt va : Nat) (perm : BitVec 32) (last : Int) (l4 : Nat) : Option Nat :=
  if index va ≠ last then lookupL4pagetable m pt va perm else some l4

/-- The memory after a round. -/
def writePage (m : Memory) (t va pa : Nat) (perm : BitVec 32) : Memory :=
  if t = 0 then m else setEntry m t (pageIndex va 3) (leafValue pa perm)

/-- The loop of `virtual_memory_map`, over the number that it gives to a region of 2 MB. -/
def mapPagesBy (index : Nat → Int) (pt : Nat) (perm : BitVec 32) : Nat → Memory → Nat → Nat → Int → Nat → Option (Int × Memory)
  | 0, m, _, _, _, _ => some (0, m)
  | n + 1, m, va, pa, last, l4 => (cachedTable index m pt va perm last l4).bind fun t =>
      if t = 0 ∧ permBits perm &&& pteP ≠ 0 then some (-1, m)
      else mapPagesBy index pt perm n (writePage m t va pa perm) ((va + pageSize) % 2 ^ 64) ((pa + pageSize) % 2 ^ 64)
        (index va) t

def intIndex (va : Nat) : Int := asInt (va / 2 ^ (12 + 9))

def longIndex (va : Nat) : Int := asLong (va / 2 ^ (12 + 9) : Nat)

section Loops

theorem round_cases (t : Nat) (perm : BitVec 32) (m : Memory) (va pa : Nat) (next : Memory → Option (Int × Memory)) :
    (if permBits perm &&& pteP ≠ 0 ∧ t ≠ 0 then next (setEntry m t (pageIndex va 3) (BitVec.ofNat 64 pa ||| permBits perm))
      else if t ≠ 0 then next (setEntry m t (pageIndex va 3) (permBits perm))
      else if permBits perm &&& pteP ≠ 0 then some (-1, m)
      else next m) =
    if t = 0 ∧ permBits perm &&& pteP ≠ 0 then some (-1, m) else next (writePage m t va pa perm) := by
  by_cases ht : t = 0 <;> by_cases hp : permBits perm &&& pteP = 0 <;>
    simp only [ht, hp, writePage, leafValue, ne_eq, not_true_eq_false, not_false_eq_true, and_true, and_false,
      if_true, if_false]

theorem mapPages_eq_by (pt : Nat) (perm : BitVec 32) (n : Nat) (m : Memory) (va pa : Nat) (last : Int) (l4 : Nat) :
    mapPages pt perm n m va pa last l4 = mapPagesBy intIndex pt perm n m va pa last l4 := by
  induction n generalizing m va pa last l4 with
  | zero => rfl
  | succ n ih =>
      rw [mapPages, mapPagesBy]
      simp only [ih]
      apply congrArg
      funext t
      exact round_cases t perm m va pa fun m => mapPagesBy intIndex pt perm n m _ _ _ t

theorem rust_mapPages_eq_by (pt : Nat) (perm : BitVec 32) (n : Nat) (m : Memory) (va pa : Nat) (last : Int) (l4 : Nat) :
    RustKernel.mapPages pt perm n m va pa last l4 = mapPagesBy longIndex pt perm n m va pa last l4 := by
  induction n generalizing m va pa last l4 with
  | zero => rfl
  | succ n ih =>
      rw [RustKernel.mapPages, mapPagesBy]
      simp only [ih]
      apply congrArg
      funext t
      exact round_cases t perm m va pa fun m => mapPagesBy longIndex pt perm n m _ _ _ t

end Loops

/-- From one page to the next, the number of the region changes when the region does. -/
def Tracks (index : Nat → Int) : Prop :=
  ∀ va, va + pageSize < 2 ^ 64 → (index (va + pageSize) = index va ↔ (va + pageSize) / 2 ^ 21 = va / 2 ^ 21)

section Tracks

theorem intIndex_tracks : Tracks intIndex := by
  intro va hva
  have hpage : pageSize = 4096 := rfl
  simp only [intIndex, asInt_eq_bmod, Int.bmod_def, hpage]
  omega

theorem longIndex_eq (hva : va < 2 ^ 64) : longIndex va = (va / 2 ^ 21 : Nat) := by
  have hlt : va / 2 ^ (12 + 9) < 2 ^ 63 := by omega
  exact RustKernel.asLong_natCast hlt

theorem longIndex_tracks : Tracks longIndex := by
  intro va hva
  rw [longIndex_eq hva, longIndex_eq (by omega), Int.natCast_inj]

theorem longIndex_ne (hva : va < 2 ^ 64) : longIndex va ≠ -1 := by
  rw [longIndex_eq hva]
  omega

/-- The sentinel of the C kernel is the number of one region in 2 ^ 32. -/
theorem intIndex_sentinel (va : Nat) : intIndex va = -1 ↔ va / 2 ^ 21 % 2 ^ 32 = 2 ^ 32 - 1 := by
  simp only [intIndex, asInt_eq_bmod, Int.bmod_def]
  omega

theorem nextPage_end (hend : va + pageSize * (n + 1) ≤ 2 ^ 64) : (va + pageSize) % 2 ^ 64 + pageSize * n ≤ 2 ^ 64 := by
  have hpage : pageSize = 4096 := rfl
  rw [hpage] at hend ⊢
  omega

/-- Two loops whose numbers track the regions make the same rounds. -/
theorem mapPagesBy_congr {index' : Nat → Int} {last' : Int} (ht : Tracks index) (ht' : Tracks index')
    (hlast : index va = last ↔ index' va = last') (hend : va + pageSize * n ≤ 2 ^ 64) :
    mapPagesBy index pt perm n m va pa last l4 = mapPagesBy index' pt perm n m va pa last' l4 := by
  have hpage : pageSize = 4096 := rfl
  induction n generalizing m va pa last last' l4 with
  | zero => rfl
  | succ n ih =>
      have hcached : cachedTable index m pt va perm last l4 = cachedTable index' m pt va perm last' l4 :=
        if_congr (not_congr hlast) rfl rfl
      rw [mapPagesBy, mapPagesBy, hcached]
      apply congrArg
      funext t
      split
      next => rfl
      next =>
        cases n with
        | zero => rfl
        | succ n =>
            have hlt : va + pageSize < 2 ^ 64 := by
              rw [hpage] at hend ⊢
              omega
            have hnext := nextPage_end hend
            rw [Nat.mod_eq_of_lt hlt] at hnext ⊢
            exact ih ((ht va hlt).trans (ht' va hlt).symm) hnext

end Tracks

section Failure

theorem lookupL4Levels_some (i : Nat) (is : List Nat) (h : lookupL4Levels m va perm (i :: is) (tableAt m pt va i) = some t) :
    (t = 0 ∧ levelEntry m pt va i &&& pteP = 0) ∨
      (levelEntry m pt va i &&& pteP ≠ 0 ∧ lookupL4Levels m va perm is (tableAt m pt va (i + 1)) = some t) := by
  by_cases hp : levelEntry m pt va i &&& pteP = 0
  · simp only [levelEntry] at hp
    simp only [lookupL4Levels, if_pos hp, Option.some.injEq] at h
    exact .inl ⟨h.symm, hp⟩
  · refine .inr ⟨hp, ?_⟩
    simp only [levelEntry] at hp
    simp only [lookupL4Levels, if_neg hp] at h
    split at h
    next => cases h
    next =>
      split at h
      next => cases h
      next =>
        split at h
        next => cases h
        next => exact h

theorem lookupL4pagetable_some (h : lookupL4pagetable m pt va perm = some t) : t = leafTable m pt va := by
  have habsent {i : Nat} (hi : i < 3) (hp : levelEntry m pt va i &&& pteP = 0) : 0 = leafTable m pt va :=
    (if_neg fun hr : Reaches m pt va 3 => hr i hi hp).symm
  rcases lookupL4Levels_some 0 [1, 2] h with ⟨rfl, h0⟩ | ⟨h0, h⟩
  · exact habsent (by decide) h0
  rcases lookupL4Levels_some 1 [2] h with ⟨rfl, h1⟩ | ⟨h1, h⟩
  · exact habsent (by decide) h1
  rcases lookupL4Levels_some 2 [] h with ⟨rfl, h2⟩ | ⟨h2, h⟩
  · exact habsent (by decide) h2
  have hr : Reaches m pt va 3 :=
    Reaches.succ.mpr ⟨Reaches.succ.mpr ⟨Reaches.succ.mpr ⟨reaches_zero m pt va, h0⟩, h1⟩, h2⟩
  rw [leafTable, if_pos hr]
  exact (Option.some.inj h).symm

theorem nextPage_add (hend : va + pageSize * (n + 1) ≤ 2 ^ 64) (hk : k < n) :
    (va + pageSize) % 2 ^ 64 + pageSize * k = va + pageSize * (k + 1) := by
  have hpage : pageSize = 4096 := rfl
  rw [hpage] at hend ⊢
  omega

/-- A run that fails has mapped the pages in front of the one that has no last-level
table, unless the first round takes the initial null pointer for the table. -/
theorem mapPagesBy_failed (hend : va + pageSize * n ≤ 2 ^ 64)
    (h : mapPagesBy index pt perm n m va pa last l4 = some (r, m')) : r = 0 ∨ (r = -1 ∧ permBits perm &&& pteP ≠ 0 ∧
      ∃ k < n, mapPagesBy index pt perm k m va pa last l4 = some (0, m') ∧
        ((l4 = 0 → index va ≠ last) → leafTable m' pt (va + pageSize * k) = 0)) := by
  induction n generalizing m va pa last l4 with
  | zero =>
      obtain ⟨rfl, rfl⟩ := Prod.mk.inj (Option.some.inj h)
      exact .inl rfl
  | succ n ih =>
      rw [mapPagesBy] at h
      cases hcached : cachedTable index m pt va perm last l4 with
      | none =>
          rw [hcached] at h
          cases h
      | some t =>
          rw [hcached, Option.bind_some] at h
          split at h
          next hmissing =>
            obtain ⟨rfl, hp⟩ := hmissing
            obtain ⟨rfl, rfl⟩ := Prod.mk.inj (Option.some.inj h)
            refine .inr ⟨rfl, hp, 0, Nat.succ_pos n, rfl, fun hfirst => ?_⟩
            rw [cachedTable] at hcached
            split at hcached
            next => exact (lookupL4pagetable_some hcached).symm
            next hsame => exact absurd (not_not.mp hsame) (hfirst (Option.some.inj hcached))
          next hround =>
            rcases ih (nextPage_end hend) h with rfl | ⟨rfl, hp, k, hk, hrun, htable⟩
            · exact .inl rfl
            · rw [nextPage_add hend hk] at htable
              refine .inr ⟨rfl, hp, k + 1, Nat.succ_lt_succ hk, ?_, fun _ => htable fun h0 => absurd ⟨h0, hp⟩ hround⟩
              rw [mapPagesBy, hcached, Option.bind_some, if_neg hround, hrun]

end Failure

/-- No last-level table of the addresses from `lo` to `hi` is an upper table of one of them. -/
def Separate (m : Memory) (pt lo hi : Nat) : Prop :=
  ∀ a b, lo ≤ a → a < hi → lo ≤ b → b < hi → ∀ i < 3, Reaches m pt a 3 → Reaches m pt b i →
    tableAt m pt a 3 ≠ tableAt m pt b i

section Separate

variable (S : Separate m pt lo hi) (hpt : 4096 ∣ pt) (hlo : lo ≤ va) (hhi : va < hi) (ht : leafTable m pt va ≠ 0)
include S hpt hlo hhi ht

theorem writePage_path (pa : Nat) (perm : BitVec 32) (hb : lo ≤ b ∧ b < hi) (hk : k ≤ 3) :
    (Reaches (writePage m (leafTable m pt va) va pa perm) pt b k ↔ Reaches m pt b k) ∧
      (Reaches m pt b k → tableAt (writePage m (leafTable m pt va) va pa perm) pt b k = tableAt m pt b k) := by
  obtain ⟨hr, heq⟩ := (leafTable_cases m pt va).resolve_left ht
  have hne : tableAt m pt va 3 ≠ 0 := heq ▸ ht
  rw [writePage, heq, if_neg hne]
  apply path_congr
  intro j hj hrj
  exact samePage_setEntry (tableAt_dvd hpt m va 3) (tableAt_dvd hpt m b j)
    (S va b hlo hhi hb.1 hb.2 j (Nat.lt_of_lt_of_le hj hk) hr hrj) (pageIndex_lt va 3)

theorem writePage_separate (pa : Nat) (perm : BitVec 32) : Separate (writePage m (leafTable m pt va) va pa perm) pt lo hi := by
  intro a b ha ha' hb hb' i hi hra hrb
  obtain ⟨hreach, htable⟩ := writePage_path S hpt hlo hhi ht pa perm ⟨ha, ha'⟩ (Nat.le_refl 3)
  obtain ⟨hreach', htable'⟩ := writePage_path S hpt hlo hhi ht pa perm ⟨hb, hb'⟩ (Nat.le_of_lt hi)
  rw [htable (hreach.mp hra), htable' (hreach'.mp hrb)]
  exact S a b ha ha' hb hb' i hi (hreach.mp hra) (hreach'.mp hrb)

theorem writePage_leafTable (pa : Nat) (perm : BitVec 32) (hb : lo ≤ b ∧ b < hi) :
    leafTable (writePage m (leafTable m pt va) va pa perm) pt b = leafTable m pt b := by
  obtain ⟨hreach, htable⟩ := writePage_path S hpt hlo hhi ht pa perm hb (Nat.le_refl 3)
  generalize writePage m (leafTable m pt va) va pa perm = m' at hreach htable ⊢
  by_cases hr : Reaches m pt b 3
  · rw [leafTable, if_pos (hreach.mpr hr), leafTable, if_pos hr, htable hr]
  · rw [leafTable, if_neg fun h => hr (hreach.mp h), leafTable, if_neg hr]

end Separate

/-- A run that is to map pages fails when one of them has no last-level table. -/
theorem mapPagesBy_missing (htracks : Tracks index) (hpt : 4096 ∣ pt) (hp : permBits perm &&& pteP ≠ 0)
    (S : Separate m pt lo hi) (hlo : lo ≤ va) (hhi : va + pageSize * n ≤ hi) (hend : hi ≤ 2 ^ 64)
    (hlast : index va = last → l4 = leafTable m pt va)
    (h : mapPagesBy index pt perm n m va pa last l4 = some (r, m')) :
    r = -1 ↔ ∃ k < n, leafTable m pt (va + pageSize * k) = 0 := by
  have hpage : pageSize = 4096 := rfl
  induction n generalizing m va pa last l4 with
  | zero =>
      obtain ⟨rfl, rfl⟩ := Prod.mk.inj (Option.some.inj h)
      exact iff_of_false (by decide) fun ⟨_, hk, _⟩ => absurd hk (Nat.not_lt_zero _)
  | succ n ih =>
      rw [mapPagesBy] at h
      cases hcached : cachedTable index m pt va perm last l4 with
      | none =>
          rw [hcached] at h
          cases h
      | some t =>
          have htable : t = leafTable m pt va := by
            rw [cachedTable] at hcached
            split at hcached
            next => exact lookupL4pagetable_some hcached
            next hsame => exact (Option.some.inj hcached).symm.trans (hlast (not_not.mp hsame))
          subst htable
          rw [hcached, Option.bind_some] at h
          have hva : va < hi := by
            rw [hpage] at hhi
            omega
          by_cases ht : leafTable m pt va = 0
          · rw [if_pos ⟨ht, hp⟩] at h
            obtain ⟨rfl, rfl⟩ := Prod.mk.inj (Option.some.inj h)
            exact iff_of_true rfl ⟨0, Nat.succ_pos n, ht⟩
          rw [if_neg fun hround => ht hround.1] at h
          have hkeep (b : Nat) (hb : lo ≤ b ∧ b < hi) := writePage_leafTable S hpt hlo hva ht pa perm hb
          rw [Nat.exists_lt_succ_left, Nat.mul_zero, Nat.add_zero, or_iff_right ht]
          cases n with
          | zero =>
              obtain ⟨rfl, rfl⟩ := Prod.mk.inj (Option.some.inj h)
              exact iff_of_false (by decide) fun ⟨_, hk, _⟩ => absurd hk (Nat.not_lt_zero _)
          | succ n =>
              have hlt : va + pageSize < 2 ^ 64 := by
                rw [hpage] at hhi ⊢
                omega
              have hnext : lo ≤ va + pageSize ∧ va + pageSize < hi := by
                rw [hpage] at hhi ⊢
                omega
              have hshift (k : Nat) : va + pageSize + pageSize * k = va + pageSize * (k + 1) := by
                rw [Nat.mul_succ, Nat.add_assoc, Nat.add_comm pageSize]
              have hsum : va + pageSize + pageSize * (n + 1) ≤ hi := (hshift (n + 1)).trans_le hhi
              rw [Nat.mod_eq_of_lt hlt] at h
              have hcache (hsame : index (va + pageSize) = index va) :
                  leafTable m pt va = leafTable (writePage m (leafTable m pt va) va pa perm) pt (va + pageSize) := by
                rw [hkeep _ hnext, leafTable_region ((htracks va hlt).mp hsame)]
              refine (ih (writePage_separate S hpt hlo hva ht pa perm) hnext.1 hsum hcache h).trans ?_
              apply exists_congr
              intro k
              apply and_congr_right
              intro hk
              have hpk : lo ≤ va + pageSize * (k + 1) ∧ va + pageSize * (k + 1) < hi := by
                rw [hpage] at hhi ⊢
                omega
              rw [hshift, hkeep _ hpk]

end WeensyOS.Kernel
