import WeensyOS.Kernel.PageTable

namespace WeensyOS.Kernel

open ByteMemory ProgramBreak

variable {m : Memory} {pt va : Nat}

theorem getLsbD_pteFlags (pe : PageEntry) {i : Nat} (hi : i < 12) : (pteFlags pe).getLsbD i = pe.getLsbD i := by
  have hmask : ∀ i < 12, (0xFFF#64).getLsbD i = true := by decide
  rw [pteFlags, BitVec.getLsbD_and, hmask i hi, Bool.and_true]

theorem getLsbD_permBits (pe : PageEntry) {i : Nat} (hi : i < 12) :
    (permBits ((pteFlags pe).setWidth 32)).getLsbD i = pe.getLsbD i := by
  have h32 : i < 32 := by omega
  have h64 : i < 64 := by omega
  rw [permBits, BitVec.getLsbD_signExtend, BitVec.getLsbD_setWidth, getLsbD_pteFlags pe hi]
  simp [h32, h64]

/-- A permission bit of the returned word: the entries of the first level have no part in it,
and those of the second and the third level only together. -/
theorem lookup_bit (h : Reaches m pt va 4) {k : Nat} (hk : k < 12) (hbit : (pteW ||| pteU).getLsbD k = true) :
    (permBits (virtualMemoryLookup m pt va).perm).getLsbD k =
      ((levelEntry m pt va 3).getLsbD k && (!(levelEntry m pt va 2).getLsbD k || (levelEntry m pt va 1).getLsbD k)) := by
  have h64 : k < 64 := by omega
  have hstart : (pteW ||| pteU ||| pteP).getLsbD k = true := by
    rw [BitVec.getLsbD_or, hbit, Bool.true_or]
  rw [lookup_present h, getLsbD_permBits _ hk]
  simp only [seen, getLsbD_masked _ _ h64, hbit, hstart]
  cases (levelEntry m pt va 3).getLsbD k <;> cases (levelEntry m pt va 2).getLsbD k <;>
    cases (levelEntry m pt va 1).getLsbD k <;> cases (levelEntry m pt va 0).getLsbD k <;> rfl

/-- The word that `virtual_memory_lookup` returns has the bit `b` exactly when all four levels have it. -/
def Reported (m : Memory) (pt va : Nat) (b : PageEntry) : Prop :=
  permBits (virtualMemoryLookup m pt va).perm &&& b ≠ 0 ↔ ∀ i < 4, levelEntry m pt va i &&& b ≠ 0

/-- The last level lacks the bit, or all levels have it, or the third one has it and the second one does not. -/
def Folded (m : Memory) (pt va : Nat) (b : PageEntry) : Prop :=
  levelEntry m pt va 3 &&& b = 0 ∨ (∀ i < 4, levelEntry m pt va i &&& b ≠ 0) ∨
    (levelEntry m pt va 2 &&& b ≠ 0 ∧ levelEntry m pt va 1 &&& b = 0)

instance (m : Memory) (pt va : Nat) (b : PageEntry) : Decidable (Reported m pt va b) :=
  inferInstanceAs (Decidable (_ ↔ _))

instance (m : Memory) (pt va : Nat) (b : PageEntry) : Decidable (Folded m pt va b) :=
  inferInstanceAs (Decidable (_ ∨ _))

theorem reported_iff_folded (h : Reaches m pt va 4) {b : PageEntry} {k : Nat} (hk : k < 12)
    (hbit : (pteW ||| pteU).getLsbD k = true) (hb : ∀ pe : PageEntry, pe &&& b = 0 ↔ pe.getLsbD k = false) :
    Reported m pt va b ↔ Folded m pt va b := by
  have hall : (∀ i < 4, levelEntry m pt va i &&& b ≠ 0) ↔ (levelEntry m pt va 0).getLsbD k = true ∧
      (levelEntry m pt va 1).getLsbD k = true ∧ (levelEntry m pt va 2).getLsbD k = true ∧
      (levelEntry m pt va 3).getLsbD k = true := by
    simp only [ne_eq, hb, Bool.not_eq_false]
    constructor
    · intro hl
      exact ⟨hl 0 (by decide), hl 1 (by decide), hl 2 (by decide), hl 3 (by decide)⟩
    · rintro ⟨h0, h1, h2, h3⟩ i hi
      have hi' : i = 0 ∨ i = 1 ∨ i = 2 ∨ i = 3 := by omega
      rcases hi' with rfl | rfl | rfl | rfl
      · exact h0
      · exact h1
      · exact h2
      · exact h3
  rw [Reported, Folded, hall]
  simp only [ne_eq, hb, lookup_bit h hk hbit]
  cases (levelEntry m pt va 3).getLsbD k <;> cases (levelEntry m pt va 2).getLsbD k <;>
    cases (levelEntry m pt va 1).getLsbD k <;> cases (levelEntry m pt va 0).getLsbD k <;> simp

/-- The permission word is the hardware's exactly when both of its bits are folded correctly. -/
theorem lookup_permissions_iff (m : Memory) (pt va : Nat) (h : Reaches m pt va 4) :
    (Reported m pt va pteW ∧ Reported m pt va pteU) ↔ (Folded m pt va pteW ∧ Folded m pt va pteU) :=
  and_congr (reported_iff_folded h (by decide) (by decide) and_pteW)
    (reported_iff_folded h (by decide) (by decide) and_pteU)

/-- A table at 0x1000 with one entry on each level, with the given flags; it maps page 0 to 0x5000. -/
def oneEntryTable (f₀ f₁ f₂ f₃ : PageEntry) : Memory :=
  setEntry (setEntry (setEntry (setEntry (fun _ => 0) 0x1000 0 (0x2000 ||| f₀)) 0x2000 0 (0x3000 ||| f₁)) 0x3000 0
    (0x4000 ||| f₂)) 0x4000 0 (0x5000 ||| f₃)

theorem full_table_permissions : Reported (oneEntryTable 7 7 7 7) 0x1000 0 pteW ∧
    Reported (oneEntryTable 7 7 7 7) 0x1000 0 pteU :=
  (lookup_permissions_iff _ _ _ (by decide +kernel)).mpr ⟨by decide +kernel, by decide +kernel⟩

/-- An entry of the first level that is not writable is not seen. -/
theorem first_level_ignored : ¬∀ (m : Memory) (pt va : Nat), Reaches m pt va 4 →
    Reported m pt va pteW ∧ Reported m pt va pteU := by
  intro h
  have hw := (h (oneEntryTable 5 7 7 7) 0x1000 0 (by decide +kernel)).1
  exact absurd hw (by decide +kernel)

end WeensyOS.Kernel
