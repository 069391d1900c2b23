import WeensyOS.Kernel.VirtualMemory

namespace WeensyOS.Kernel

open ByteMemory ProgramBreak

/-- What the loop of `virtual_memory_lookup` makes of an entry, given the result for the level above. -/
def masked (above pe : PageEntry) : PageEntry := pe &&& ~~~(above &&& (pteW ||| pteU))

section Bits

variable (pe above : PageEntry)

theorem and_twoPow_eq_zero {w : Nat} (a : BitVec w) (i : Nat) (hi : i < w) :
    a &&& BitVec.twoPow w i = 0 ↔ a.getLsbD i = false := by
  rw [BitVec.and_twoPow]
  cases a.getLsbD i with
  | false => simp
  | true =>
      have hne : BitVec.twoPow w i ≠ 0 := by
        intro h
        have hbit := congrArg (fun b => b.getLsbD i) h
        simp [hi] at hbit
      simpa using hne

theorem and_pteP : pe &&& pteP = 0 ↔ pe.getLsbD 0 = false := and_twoPow_eq_zero pe 0 (Nat.zero_lt_succ _)

theorem and_pteW : pe &&& pteW = 0 ↔ pe.getLsbD 1 = false := and_twoPow_eq_zero pe 1 (by decide)

theorem and_pteU : pe &&& pteU = 0 ↔ pe.getLsbD 2 = false := and_twoPow_eq_zero pe 2 (by decide)

theorem getLsbD_masked {i : Nat} (hi : i < 64) :
    (masked above pe).getLsbD i = (pe.getLsbD i && !(above.getLsbD i && (pteW ||| pteU).getLsbD i)) := by
  simp only [masked, BitVec.getLsbD_and, BitVec.getLsbD_not, hi, decide_true, Bool.true_and]

theorem masked_present : masked above pe &&& pteP = 0 ↔ pe &&& pteP = 0 := by
  have hbit : (pteW ||| pteU).getLsbD 0 = false := by decide
  rw [and_pteP, and_pteP, getLsbD_masked _ _ (by decide), hbit, Bool.and_false, Bool.not_false, Bool.and_true]

theorem pteAddr_masked : pteAddr (masked above pe) = pteAddr pe := by
  have hlow : ∀ i < 64, (0xFFF#64).getLsbD i = false → (pteW ||| pteU).getLsbD i = false := by decide
  apply congrArg BitVec.toNat
  apply BitVec.eq_of_getLsbD_eq
  intro i hi
  rw [BitVec.getLsbD_and, getLsbD_masked _ _ hi, BitVec.getLsbD_and, BitVec.getLsbD_not]
  cases hbit : (0xFFF#64).getLsbD i with
  | true => simp
  | false => rw [hlow i hi hbit, Bool.and_false, Bool.not_false, Bool.and_true]

theorem pteAddr_eq : pteAddr pe = pe.toNat / 4096 * 4096 := by
  have hbits : pteAddr pe = (pe >>> 12 <<< 12).toNat := by
    apply congrArg BitVec.toNat
    apply BitVec.eq_of_getLsbD_eq
    intro i hi
    have hlow : ∀ i < 64, (0xFFF#64).getLsbD i = decide (i < 12) := by decide
    rw [BitVec.getLsbD_and, BitVec.getLsbD_not, hlow i hi, BitVec.getLsbD_shiftLeft, BitVec.getLsbD_ushiftRight]
    by_cases h12 : i < 12
    · simp [h12]
    · simp [h12, hi, show 12 + (i - 12) = i by omega]
  have hlt := pe.isLt
  rw [hbits, BitVec.toNat_shiftLeft, BitVec.toNat_ushiftRight, Nat.shiftRight_eq_div_pow, Nat.shiftLeft_eq]
  omega

theorem pteFlags_eq : (pteFlags pe).toNat = pe.toNat % 4096 := by
  rw [pteFlags, BitVec.toNat_and]
  exact Nat.and_two_pow_sub_one_eq_mod pe.toNat 12

end Bits

/-- The table at level `i` on the way to the page of `va`. -/
def tableAt (m : Memory) (pagetable va : Nat) : Nat → Nat
  | 0 => pagetable
  | i + 1 => pteAddr (entry m (tableAt m pagetable va i) (pageIndex va i))

/-- The entry that the hardware reads at level `i`. -/
def levelEntry (m : Memory) (pagetable va i : Nat) : PageEntry := entry m (tableAt m pagetable va i) (pageIndex va i)

/-- The entries above level `i` are present, so that there is a table at this level. -/
def Reaches (m : Memory) (pagetable va i : Nat) : Prop := ∀ j < i, levelEntry m pagetable va j &&& pteP ≠ 0

instance (m : Memory) (pagetable va i : Nat) : Decidable (Reaches m pagetable va i) :=
  inferInstanceAs (Decidable (∀ j < i, _))

/-- The variable `pe` of `virtual_memory_lookup` before level `i`. -/
def seen (m : Memory) (pagetable va : Nat) : Nat → PageEntry
  | 0 => pteW ||| pteU ||| pteP
  | i + 1 => masked (seen m pagetable va i) (levelEntry m pagetable va i)

variable {m m' : Memory} {pt va : Nat}

theorem tableAt_succ (m : Memory) (pt va i : Nat) : tableAt m pt va (i + 1) = pteAddr (levelEntry m pt va i) := rfl

theorem seen_zero_present (m : Memory) (pt va : Nat) : seen m pt va 0 &&& pteP ≠ 0 := by
  have h : (pteW ||| pteU ||| pteP) &&& pteP ≠ 0 := by decide
  exact h

theorem seen_present (m : Memory) (pt va i : Nat) : seen m pt va (i + 1) &&& pteP = 0 ↔ levelEntry m pt va i &&& pteP = 0 :=
  masked_present _ _

theorem lookupLevels_cons (m : Memory) (pt va i : Nat) (is : List Nat) (h : seen m pt va i &&& pteP ≠ 0) :
    lookupLevels m va (i :: is) (tableAt m pt va i, seen m pt va i) =
      lookupLevels m va is (tableAt m pt va (i + 1), seen m pt va (i + 1)) := by
  rw [lookupLevels, if_neg h, tableAt_succ, ← pteAddr_masked _ (seen m pt va i)]
  rfl

theorem lookupLevels_stop (m : Memory) (va : Nat) (is : List Nat) (c : Nat × PageEntry) (h : c.2 &&& pteP = 0) :
    lookupLevels m va is c = c := by
  cases is with
  | nil => rfl
  | cons i is => exact if_pos h

theorem Reaches.mono {i j : Nat} (h : Reaches m pt va i) (hji : j ≤ i) : Reaches m pt va j :=
  fun k hk => h k (Nat.lt_of_lt_of_le hk hji)

theorem lookupLevels_end (m : Memory) (pt va : Nat) : ∃ a pe,
    lookupLevels m va [0, 1, 2, 3] (pt, pteW ||| pteU ||| pteP) = (a, pe) ∧
      (Reaches m pt va 4 → pe = seen m pt va 4) ∧ (¬Reaches m pt va 4 → pe &&& pteP = 0) := by
  have hrun : lookupLevels m va [0, 1, 2, 3] (pt, pteW ||| pteU ||| pteP) =
      lookupLevels m va [1, 2, 3] (tableAt m pt va 1, seen m pt va 1) :=
    lookupLevels_cons m pt va 0 [1, 2, 3] (seen_zero_present m pt va)
  have hstop (i : Nat) (hi : i < 4) (is : List Nat) (hpe : levelEntry m pt va i &&& pteP = 0)
      (hrun : lookupLevels m va [0, 1, 2, 3] (pt, pteW ||| pteU ||| pteP) =
        lookupLevels m va is (tableAt m pt va (i + 1), seen m pt va (i + 1))) : ∃ a pe,
      lookupLevels m va [0, 1, 2, 3] (pt, pteW ||| pteU ||| pteP) = (a, pe) ∧
        (Reaches m pt va 4 → pe = seen m pt va 4) ∧ (¬Reaches m pt va 4 → pe &&& pteP = 0) := by
    have hzero := (seen_present m pt va i).mpr hpe
    refine ⟨_, _, hrun.trans (lookupLevels_stop m va is _ hzero), fun h => absurd hpe (h i hi), fun _ => hzero⟩
  by_cases h0 : levelEntry m pt va 0 &&& pteP = 0
  · exact hstop 0 (by decide) _ h0 hrun
  rw [lookupLevels_cons m pt va 1 _ (mt (seen_present m pt va 0).mp h0)] at hrun
  by_cases h1 : levelEntry m pt va 1 &&& pteP = 0
  · exact hstop 1 (by decide) _ h1 hrun
  rw [lookupLevels_cons m pt va 2 _ (mt (seen_present m pt va 1).mp h1)] at hrun
  by_cases h2 : levelEntry m pt va 2 &&& pteP = 0
  · exact hstop 2 (by decide) _ h2 hrun
  rw [lookupLevels_cons m pt va 3 _ (mt (seen_present m pt va 2).mp h2)] at hrun
  by_cases h3 : levelEntry m pt va 3 &&& pteP = 0
  · exact hstop 3 (by decide) _ h3 hrun
  refine ⟨_, _, hrun, fun _ => rfl, fun h => absurd (fun j hj => ?_) h⟩
  have hj' : j = 0 ∨ j = 1 ∨ j = 2 ∨ j = 3 := by omega
  rcases hj' with rfl | rfl | rfl | rfl
  · exact h0
  · exact h1
  · exact h2
  · exact h3

theorem lookup_present (h : Reaches m pt va 4) : virtualMemoryLookup m pt va =
    ⟨pageNumber (seen m pt va 4).toNat, tableAt m pt va 4 + pageOffset va, (pteFlags (seen m pt va 4)).setWidth 32⟩ := by
  obtain ⟨a, pe, hrun, hpe, -⟩ := lookupLevels_end m pt va
  have hne : seen m pt va 4 &&& pteP ≠ 0 := mt (seen_present m pt va 3).mp (h 3 (by decide))
  have haddr : pteAddr (seen m pt va 4) = tableAt m pt va 4 := pteAddr_masked _ _
  simp only [virtualMemoryLookup, hrun, hpe h, if_neg hne, haddr]

theorem lookup_absent (h : ¬Reaches m pt va 4) : virtualMemoryLookup m pt va = .unmapped := by
  obtain ⟨a, pe, hrun, -, hpe⟩ := lookupLevels_end m pt va
  simp only [virtualMemoryLookup, hrun, if_pos (hpe h)]

end WeensyOS.Kernel
