import WeensyOS.CMalloc.Blocks
import WeensyOS.Lib.Coalesce

namespace WeensyOS.CMalloc

open ByteMemory Loop ProgramBreak Tiling Tiling.Layout BlockHeap

def BlockHeader.isFree (b : BlockHeader) : Bool := decide (b.state = BlockState.free.code)

variable {s : Heap} {bs xs ys : List BlockHeader} {b : BlockHeader} {m : Memory} {st e : Nat}

def merging : Merging format where
  free := BlockHeader.isFree
  withSize b n := { b with size := n }
  not_busy hfree hbusy := hbusy (of_decide_eq_true hfree)
  size_withSize _ _ := rfl
  free_withSize _ _ := rfl
  withSize_self _ := rfl
  valid_withSize := by
    intro b bs hfree hv hbs
    have htotal : format.total bs % 8 = 0 := WellFormed.total_mod hbs
    have hmod := hv.size_mod
    have hge := hv.size_ge
    refine ⟨hv.state, ?_, Nat.le_add_right_of_le hge, fun hne => absurd (of_decide_eq_true hfree) hne⟩
    change (b.size + format.total bs) % 8 = 0
    omega

theorem skipFree_eq (h : Region format m st (xs ++ b :: ys) e) (he : e < 2 ^ 32) :
    skipFree m e (st + format.total xs + b.size) = some (st + format.total xs + merging.grown b ys) := by
  have htail : layout.Tiles m (st + format.total xs + b.size) ys e := (tiles_append.mp h.tiles).2.2
  have hpos (c : BlockHeader) (hc : c ∈ ys) : 0 < layout.size c :=
    h.positive c (List.mem_append_right _ (List.mem_cons_of_mem _ hc))
  have hscan := htail.scan_eq hpos (by omega) (fun c => c.state = BlockState.free.code)
  rw [Merging.grown, ← Nat.add_assoc]
  exact hscan

theorem defragStep_round (h : Region format m st (xs ++ b :: ys) e) (he : e < 2 ^ 32) :
    ∃ r, defragStep e (m, st + format.total xs) = some r ∧ merging.Round m (st + format.total xs) b ys r := by
  have hat : format.At st (xs ++ b :: ys) (st + format.total xs) b := at_append.mpr (.inr (.inl ⟨rfl, rfl⟩))
  have hheader : headerAt m (st + format.total xs) = b := h.tiles.header hat
  have hgrown : merging.grown b ys = b.size + format.total (ys.takeWhile BlockHeader.isFree) := rfl
  have htotal := h.tiles.end_eq
  rw [total_append, total_cons, merging.total_split ys] at htotal
  have htake : format.total (ys.takeWhile merging.free) = format.total (ys.takeWhile BlockHeader.isFree) := rfl
  have hsize : format.size b = b.size := rfl
  have hnext : (st + format.total xs + b.size) % 2 ^ 64 = st + format.total xs + b.size := by omega
  by_cases hfree : b.state = BlockState.free.code
  · have hskip := skipFree_eq h he
    by_cases hnone : format.total (ys.takeWhile BlockHeader.isFree) = 0
    · have hsame : merging.grown b ys = b.size := by rw [hgrown, hnone, Nat.add_zero]
      refine ⟨_, ?_, .merge (decide_eq_true hfree) m ?_ fun x _ => rfl⟩
      · rw [hsame] at hskip ⊢
        simp only [defragStep, hheader, if_pos hfree, hnext, hskip, Option.bind_some, ne_eq, not_true_eq_false,
          if_false]
      · rw [hsame]
        exact hheader
    · have hset : headerAt (setSize m (st + format.total xs) (merging.grown b ys)) (st + format.total xs) =
          { b with size := merging.grown b ys } := by
        rw [headerAt_setSize, hheader, Nat.mod_eq_of_lt (by omega)]
      have hdiff : (st + format.total xs + merging.grown b ys + (2 ^ 64 - (st + format.total xs))) % 2 ^ 64 % 2 ^ 32 =
          merging.grown b ys := by omega
      have hne : st + format.total xs + merging.grown b ys ≠ st + format.total xs + b.size := by omega
      have hlt : (st + format.total xs + merging.grown b ys) % 2 ^ 64 = st + format.total xs + merging.grown b ys := by
        omega
      refine ⟨_, ?_, .merge (decide_eq_true hfree) (setSize m (st + format.total xs) (merging.grown b ys)) hset
        fun x hx => setSize_outside _ hx⟩
      simp only [defragStep, hheader, if_pos hfree, hnext, hskip, Option.bind_some]
      rw [if_pos hne, hdiff, hset]
      simp only
      rw [hlt]
  · refine ⟨_, ?_, .pass fun hf => hfree (of_decide_eq_true hf)⟩
    simp only [defragStep, hheader, if_neg hfree, hnext, hsize]

theorem defrag_spec (h : WellFormed s bs) :
    ∃ m', defrag s = some { s with mem := m' } ∧ WellFormed { s with mem := m' } (merging.coalesce bs) ∧
      s.Keeps busy bs { s with mem := m' } (merging.coalesce bs) := by
  have hlast := h.last_lt
  obtain ⟨⟨m', cur⟩, hrun, hregion, hkeeps⟩ := merging.coalesce_spec h.region (by omega)
    (defragStep s.lastValidAddress) fun m xs b ys hr => defragStep_round hr (by omega)
  refine ⟨m', ?_, h.withMem hregion, hkeeps⟩
  rw [defrag, hrun]
  rfl

/-- Where no two free blocks are neighbours, `defrag` changes nothing. -/
theorem defrag_idle (h : WellFormed s bs) (hsep : merging.Separated bs) : defrag s = some s := by
  have hlast := h.last_lt
  have hpass (xs : List BlockHeader) (b : BlockHeader) (ys : List BlockHeader) (hbs : bs = xs ++ b :: ys) :
      defragStep s.lastValidAddress (s.mem, s.managedMemoryStart + format.total xs) =
        some (s.mem, s.managedMemoryStart + format.total xs + format.size b) := by
    subst hbs
    have hregion := h.region
    have hat : format.At s.managedMemoryStart (xs ++ b :: ys) (s.managedMemoryStart + format.total xs) b :=
      at_append.mpr (.inr (.inl ⟨rfl, rfl⟩))
    have hheader : headerAt s.mem (s.managedMemoryStart + format.total xs) = b := h.header hat
    have hbd := hregion.bounds hat
    have hsize : format.size b = b.size := rfl
    have hnext : (s.managedMemoryStart + format.total xs + b.size) % 2 ^ 64 =
        s.managedMemoryStart + format.total xs + b.size := by omega
    by_cases hfree : b.state = BlockState.free.code
    · have htake := merging.takeWhile_of_separated (List.isChain_append.mp hsep).2.1 (decide_eq_true hfree)
      have hskip := skipFree_eq hregion (by omega)
      have hgrown : merging.grown b ys = b.size := by
        rw [Merging.grown, htake, total_nil, Nat.add_zero, hsize]
      rw [hgrown] at hskip
      simp only [defragStep, hheader, if_pos hfree, hnext, hskip, Option.bind_some, ne_eq, not_true_eq_false,
        if_false, hsize]
    · simp only [defragStep, hheader, if_neg hfree, hnext, hsize]
  have hrun := h.region.idle_spec (by omega) (defragStep s.lastValidAddress) hpass
  rw [defrag, hrun]
  rfl

end WeensyOS.CMalloc
