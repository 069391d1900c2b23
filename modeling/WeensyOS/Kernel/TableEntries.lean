import WeensyOS.Kernel.TableWalks

namespace WeensyOS.Kernel

open ByteMemory

section Entries

/-- Physical memory with the given page-table entries. -/
def tableMemory (entries : List (Nat × Nat)) : Memory := wordMemory fun k => (entries.lookup (8 * k)).getD 0

theorem entry_tableMemory (entries : List (Nat × Nat)) {t : Nat} (ht : 4096 ∣ t) (i : Nat) :
    entry (tableMemory entries) t i = BitVec.ofNat 64 ((entries.lookup (t + 8 * i)).getD 0) := by
  obtain ⟨k, rfl⟩ := ht
  have hword : 4096 * k + 8 * i = 8 * (512 * k + i) := by omega
  have hread := readLE_wordMemory (fun k => (entries.lookup (8 * k)).getD 0) (512 * k + i) (Nat.le_refl (0 + 8))
  rw [entry, tableMemory, hword, ← Nat.add_zero (8 * (512 * k + i)), hread, Nat.pow_zero, Nat.div_one]
  apply BitVec.eq_of_toNat_eq
  rw [BitVec.toNat_ofNat, BitVec.toNat_ofNat]
  exact Nat.mod_mod _ _

theorem mem_of_lookup {es : List (Nat × Nat)} {a v : Nat} (h : es.lookup a = some v) : (a, v) ∈ es := by
  obtain ⟨before, after, rfl, -⟩ := List.lookup_eq_some_iff.mp h
  exact List.mem_append_cons_self

end Entries

/-- What is found below `pt`, by its depth, with the paths to it. -/
structure Explored (entries : List (Nat × Nat)) (pt : Nat) (found : Nat → List (List Nat × Nat)) : Prop where
  root : ([], pt) ∈ found 0
  aligned : ∀ j < 4, ∀ x ∈ found j, x.2 % 4096 = 0
  next : ∀ j < 4, ∀ x ∈ found j, ∀ e ∈ entries, e.1 < x.2 ∨ x.2 + 4096 ≤ e.1 ∨
    (x.1 ++ [(e.1 - x.2) / 8], pteAddr (BitVec.ofNat 64 e.2)) ∈ found (j + 1)

section Explored

variable {entries : List (Nat × Nat)} {found : Nat → List (List Nat × Nat)} {j pt t t' : Nat} {above path : List Nat}
  (h : Explored entries pt found)
include h

theorem Explored.below (hx : (above, t') ∈ found j) (hv : Visits (tableMemory entries) t' path t)
    (hlen : j + path.length ≤ 4) : (above ++ path, t) ∈ found (j + path.length) := by
  induction hv generalizing j above with
  | nil => simpa using hx
  | @cons t' i t path hi hne _ ih =>
      have hj : j < 4 := by
        rw [List.length_cons] at hlen
        omega
      rw [entry_tableMemory entries (Nat.dvd_of_mod_eq_zero (h.aligned j hj _ hx)) i] at hne ih
      cases hword : entries.lookup (t' + 8 * i) with
      | none =>
          rw [hword] at hne
          exact absurd rfl hne
      | some v =>
          have hindex : (t' + 8 * i - t') / 8 = i := by omega
          have hchild := h.next j hj _ hx _ (mem_of_lookup hword)
          simp only [hindex] at hchild
          rw [hword] at ih
          have hrest := ih ((hchild.resolve_left (by omega)).resolve_left (by omega)) (by rw [List.length_cons] at hlen; omega)
          rw [List.append_assoc, List.singleton_append] at hrest
          rw [List.length_cons, Nat.add_comm path.length 1, ← Nat.add_assoc]
          exact hrest

theorem Explored.visits (hv : Visits (tableMemory entries) pt path t) (hlen : path.length ≤ 4) :
    (path, t) ∈ found path.length := by
  have hfound := h.below h.root hv (by omega)
  rwa [List.nil_append, Nat.zero_add] at hfound

theorem Explored.owned {s : Machine} {owner : Int} (hmem : s.mem = tableMemory entries)
    (hok : ∀ j < 4, ∀ x ∈ found j, checkTable s owner 1 x.2 = true) : TablesOwned s pt owner 1 where
  top := checkTable_iff.mp (hok 0 (by decide) ([], pt) h.root)
  below path t hv _ hlen := by
    rw [hmem] at hv
    exact checkTable_iff.mp (hok path.length (Nat.lt_succ_of_le hlen) (path, t) (h.visits hv (Nat.le_succ_of_le hlen)))

theorem Explored.once (hok : ∀ j < 4, ∀ x ∈ found j, ∀ k < 4, ∀ y ∈ found k, x.2 ≠ y.2 ∨ x.1 = y.1) :
    VisitedOnce (tableMemory entries) pt := by
  intro path path' t hlen hlen' hv hv'
  have hsame := hok path.length (Nat.lt_succ_of_le hlen) (path, t) (h.visits hv (Nat.le_succ_of_le hlen)) path'.length
    (Nat.lt_succ_of_le hlen') (path', t) (h.visits hv' (Nat.le_succ_of_le hlen'))
  exact hsame.resolve_left fun hne => hne rfl

theorem Explored.mapped {a : Nat} (ha : mappedPage (tableMemory entries) pt a ≠ none) :
    ∃ x ∈ found 4, x.1 = [pageIndex a 0, pageIndex a 1, pageIndex a 2, pageIndex a 3] := by
  have hr : Reaches (tableMemory entries) pt a 4 := by
    by_contra hr
    exact ha (mappedPage_eq_none.mpr hr)
  exact ⟨_, h.visits (reaches_visits hr) (Nat.le_refl 4), rfl⟩

end Explored

end WeensyOS.Kernel
