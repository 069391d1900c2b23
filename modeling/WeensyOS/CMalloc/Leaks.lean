import WeensyOS.CMalloc.CheckedInfo
import WeensyOS.CMalloc.Totals

namespace WeensyOS.CMalloc

open ByteMemory LibC ProgramBreak Tiling Tiling.Layout MergeSort FirstFit

variable {s s' : Heap} {bs bs' : List BlockHeader} {b : BlockHeader} {n a p q k : Nat} {ret : Int} {info : HeapInfo}

/-- The `BLOCK_USED` and `BLOCK_INTERNAL` blocks. -/
def nonFree (s : Heap) (bs : List BlockHeader) : Set (Nat × BlockHeader) := {x | s.At bs x.1 x.2 ∧ busy x.1 x.2}

section Calm

/-- A sort on a stocked heap does not move the program break. -/
theorem sort_calm (h : WellFormed s bs) (hi : s.initialized = true) (hpos : 0 < n) (hn : n < 2 ^ 32)
    (hstock : Stocked (blockSize (8 * n)) 2 s bs) (hrun : sortDescending p q n s = some s') :
    s'.breaks.programBreak = s.breaks.programBreak := by
  have hsize : 8 * n % 2 ^ 64 = 8 * n := by omega
  have hn' : 8 * n ≠ 0 := by omega
  rw [sortDescending, hsize] at hrun
  obtain ⟨⟨r, s₁⟩, hrun₁, hrun⟩ := Option.bind_eq_some_iff.mp hrun
  obtain ⟨⟨t, s₂⟩, hrun₂, hrun⟩ := Option.bind_eq_some_iff.mp hrun
  obtain ⟨m, -, hfreed⟩ := Option.bind_eq_some_iff.mp hrun
  obtain ⟨bs₁, hwf₁, hi₁, hstock₁, hbreak₁⟩ := malloc_stocked h hi hn' (sound_scratch hn s) hstock hrun₁
  obtain ⟨bs₂, -, -, -, hbreak₂⟩ := malloc_stocked hwf₁ hi₁ hn' (sound_scratch hn s₁) hstock₁ hrun₂
  rw [← Option.some.inj hfreed, free_breaks, free_breaks]
  exact hbreak₂.trans hbreak₁

theorem report_calm {a₁ a₂ : Nat} {b₁ b₂ : BlockHeader} (h : WellFormed s bs) (hi : s.initialized = true)
    (h₁ : ArrayBlock s bs n a₁ b₁) (h₂ : ArrayBlock s bs n a₂ b₂) (hne : a₁ ≠ a₂) (hpos : 0 < n)
    (hn : (usedBlocks s bs).length = n) (hstock : Stocked (blockSize (8 * n)) 2 s bs)
    (hrun : report n (a₁ + 8) (a₂ + 8) s = some (ret, info, s')) : s'.breaks.programBreak = s.breaks.programBreak := by
  have hle := h.count_le
  have hlast := h.last_lt
  obtain ⟨c, hfill, hc⟩ := fill_spec _ _ h (offHeaders h h₁ h₂) (h₁.apart h₂ hne) hn
  have hindex : c.index = n := hc.index_eq.trans hn
  obtain ⟨hwf, -⟩ := h.writeArrays [(a₁, b₁), (a₂, b₂)] (by simp [h₁, h₂]) hc.changed
  simp only [report, hfill, Option.bind_some, hindex, if_true, if_pos hpos] at hrun
  obtain ⟨s₁, hsort, hrun⟩ := Option.bind_eq_some_iff.mp hrun
  obtain ⟨-, hlast⟩ := Prod.mk.inj (Option.some.inj hrun)
  obtain ⟨-, rfl⟩ := Prod.mk.inj hlast
  have hcalm := sort_calm hwf hi hpos (by omega) hstock hsort
  exact hcalm

theorem heapInfo_calm (h : WellFormed s bs) (hi : s.initialized = true)
    (hstock : 0 < (usedBlocks s bs).length → Stocked (blockSize (8 * (usedBlocks s bs).length)) 4 s bs) :
    ∃ ret info s', heapInfo s = some (ret, info, s') ∧ s'.breaks.programBreak = s.breaks.programBreak := by
  have hle := h.count_le
  have hlast := h.last_lt
  obtain ⟨ret, info, s', -, hrun, -⟩ := heapInfo_spec h hi
  refine ⟨ret, info, s', hrun, ?_⟩
  by_cases hpos : 0 < (usedBlocks s bs).length
  · generalize hn : (usedBlocks s bs).length = n at *
    have hn' : 8 * n ≠ 0 := by omega
    have hge := blockSize_ge hn'
    obtain ⟨p, s₁, q, s₂, hrun₁, hrun₂, hcases⟩ := heapInfo_placed h hi hpos hn
    obtain ⟨bs₁, hwf₁, hi₁, hstock₁, hbreak₁⟩ := malloc_stocked h hi hn' (sound_scratch (by omega) s) (hstock hpos) hrun₁
    obtain ⟨bs₂, -, -, -, hbreak₂⟩ := malloc_stocked hwf₁ hi₁ hn' (sound_scratch (by omega) s₁) hstock₁ hrun₂
    have hbreak := hbreak₂.trans hbreak₁
    rcases hcases with hfail | ⟨hreport, bs₃, a₁, b₁, a₂, b₂, harr⟩
    · obtain ⟨-, hfreed⟩ := Prod.mk.inj (Option.some.inj (hfail.symm.trans hrun))
      obtain ⟨-, rfl⟩ := Prod.mk.inj hfreed
      rw [free_breaks, free_breaks, hbreak]
    · have hstock₃ : Stocked (blockSize (8 * n)) 2 (marked p q s₂) bs₃ := by
        refine (hstock hpos).of_slots (fun hslots => ?_) hbreak
        rw [← harr.left_eq]
        exact slots_carve (Nat.lt_of_lt_of_le (by decide) hge) hge hslots
      rw [hreport] at hrun
      obtain ⟨rfl, rfl⟩ := harr.pointers
      exact (report_calm harr.wellFormed harr.initialized harr.first harr.second harr.ne hpos harr.count hstock₃ hrun).trans
        hbreak
  · have hnone : (usedBlocks s bs).length = 0 := by omega
    obtain ⟨info', hempty, -⟩ := report_empty h hi hnone
    simp only [heapInfo, hi, Bool.true_eq_false, if_false, countUsed_eq h, Option.bind_some, hnone,
      Nat.lt_irrefl, hempty] at hrun
    obtain ⟨-, hsame⟩ := Prod.mk.inj (Option.some.inj hrun)
    obtain ⟨-, rfl⟩ := Prod.mk.inj hsame
    rfl

end Calm

section Release

/-- Freeing one of the library's own blocks adds to the stock. -/
theorem free_internal {need : Nat} (h : WellFormed s bs) (hb : s.At bs a b) (hint : b.state = BlockState.internal.code)
    (hneed : 0 < need) (hsize : need ≤ b.size) (hstock : Stocked need k s bs) :
    ∃ bs', WellFormed (free (a + 8) s) bs' ∧ Stocked need (k + 1) (free (a + 8) s) bs' ∧
      usedBlocks (free (a + 8) s) bs' = usedBlocks s bs ∧ s.Keeps (fun a' _ => a' ≠ a) bs (free (a + 8) s) bs' := by
  obtain ⟨bs', hwf, hat, hkeeps⟩ := free_spec h hb
  obtain ⟨xs, ys, rfl, rfl⟩ := At.split hb
  obtain rfl := hwf.blocks_unique (free_at h)
  refine ⟨_, hwf, hstock.of_slots (fun hslots => ?_) (congrArg _ (free_breaks _ s)), ?_, hkeeps⟩
  · have hdiv := Nat.div_pos hsize hneed
    have hbusy : b.state ≠ BlockState.free.code := by
      rw [hint]
      decide
    rw [freeSizes_append, freeSizes_busy hbusy, slots_append] at hslots
    rw [freeSizes_append, freeSizes_free rfl, slots_append, slots_cons]
    simp only
    omega
  · refine (usedBlocks_eq h hwf (Keeps.widen (R := fun a' => a' = s.managedMemoryStart + layout.total xs) ?_ ?_ ?_)).symm
    · exact hkeeps.mono fun a' _ hP => hP.2
    · rintro a' b' rfl hused hb'
      rw [h.unique hb' hb, hint] at hused
      exact absurd hused (by decide)
    · rintro a' b' rfl hused hb'
      rw [hwf.unique hb' hat] at hused
      exact absurd hused (by simp only; decide)

theorem arrays_freed {need : Nat} {a₁ a₂ : Nat} {b₁ b₂ : BlockHeader} (h : WellFormed s bs) (hne : a₁ ≠ a₂)
    (h₁ : s.At bs a₁ b₁) (h₂ : s.At bs a₂ b₂) (hint₁ : b₁.state = BlockState.internal.code)
    (hint₂ : b₂.state = BlockState.internal.code) (hneed : 0 < need) (hsize₁ : need ≤ b₁.size) (hsize₂ : need ≤ b₂.size)
    (hstock : Stocked need k s bs) :
    ∃ bs', WellFormed (free (a₂ + 8) (free (a₁ + 8) s)) bs' ∧ Stocked need (k + 2) (free (a₂ + 8) (free (a₁ + 8) s)) bs' ∧
      usedBlocks (free (a₂ + 8) (free (a₁ + 8) s)) bs' = usedBlocks s bs := by
  obtain ⟨bs₁, hwf₁, hstock₁, hused₁, hkeeps⟩ := free_internal h h₁ hint₁ hneed hsize₁ hstock
  obtain ⟨bs₂, hwf₂, hstock₂, hused₂, -⟩ := free_internal hwf₁ ((hkeeps.at_iff (Ne.symm hne)).mp h₂) hint₂ hneed hsize₂ hstock₁
  exact ⟨bs₂, hwf₂, hstock₂, hused₂.trans hused₁⟩

end Release

@[simp] theorem free_initialized (p : Nat) (s : Heap) : (free p s).initialized = s.initialized := by
  rw [free]
  split <;> rfl

/-- What a successful `heap_info` adds to the blocks that are not free. -/
inductive Added (s : Heap) (bs : List BlockHeader) (info : HeapInfo) (s' : Heap) (bs' : List BlockHeader) : Prop
  | nothing (hcount : (usedBlocks s bs).length = 0) (harrays : info.sizeArray = null ∧ info.ptrArray = null)
      (hsame : nonFree s' bs' = nonFree s bs)
  | arrays (x y : Nat × BlockHeader) (hcount : 0 < (usedBlocks s bs).length) (hne : x ≠ y)
      (hsizes : info.sizeArray = x.1 + sizeofHeader) (hptrs : info.ptrArray = y.1 + sizeofHeader)
      (hx : x.2.state = BlockState.internal.code) (hy : y.2.state = BlockState.internal.code)
      (hnew : x ∉ nonFree s bs ∧ y ∉ nonFree s bs) (hsame : nonFree s' bs' = insert x (insert y (nonFree s bs)))

theorem report_arrays (hrun : report n p q s = some (ret, info, s')) : info.sizeArray = p := by
  obtain ⟨c, -, hrun⟩ := Option.bind_eq_some_iff.mp hrun
  split at hrun
  next =>
    obtain ⟨s₁, -, hrun⟩ := Option.bind_eq_some_iff.mp hrun
    obtain ⟨-, hinfo⟩ := Prod.mk.inj (Option.some.inj hrun)
    rw [← (Prod.mk.inj hinfo).1]
  next => cases hrun

section Result

variable (hres : InfoResult s bs ret info s' bs')
include hres

theorem nonFree_iff (hp : a + 8 ≠ info.sizeArray) (hq : a + 8 ≠ info.ptrArray) :
    (a, b) ∈ nonFree s' bs' ↔ (a, b) ∈ nonFree s bs :=
  and_congr_left fun hbusy => (hres.keeps.at_iff ⟨hbusy, hp, hq⟩).symm

theorem nonFree_eq (hp : info.sizeArray = null) (hq : info.ptrArray = null) : nonFree s' bs' = nonFree s bs := by
  ext ⟨a, b⟩
  apply nonFree_iff hres
  · rw [hp]
    exact Nat.succ_ne_zero _
  · rw [hq]
    exact Nat.succ_ne_zero _

/-- The blocks of the two arrays are new, the others are the old ones. -/
theorem nonFree_listed {a₁ a₂ : Nat} {b₁ b₂ : BlockHeader} (hsizes : info.sizeArray = a₁ + 8)
    (hptrs : info.ptrArray = a₂ + 8) (h₁ : MetaBlock n s bs s' bs' a₁ b₁) (h₂ : MetaBlock n s bs s' bs' a₂ b₂) :
    (a₁, b₁) ∉ nonFree s bs ∧ (a₂, b₂) ∉ nonFree s bs ∧
      nonFree s' bs' = insert (a₁, b₁) (insert (a₂, b₂) (nonFree s bs)) := by
  have hbusy {a : Nat} {b : BlockHeader} (hm : MetaBlock n s bs s' bs' a b) : (a, b) ∈ nonFree s' bs' := by
    refine ⟨hm.at_block, ?_⟩
    rw [busy, hm.internal]
    decide
  have hnew {a : Nat} {b c : BlockHeader} (hm : MetaBlock n s bs s' bs' a b) : (a, c) ∉ nonFree s bs :=
    fun hold => hold.2 (hm.fresh c hold.1)
  refine ⟨hnew h₁, hnew h₂, ?_⟩
  ext ⟨a, b⟩
  rw [Set.mem_insert_iff, Set.mem_insert_iff]
  constructor
  · intro hb
    by_cases hp : a = a₁
    · subst hp
      exact .inl (congrArg (Prod.mk a) (hres.wellFormed.unique hb.1 h₁.at_block))
    by_cases hq : a = a₂
    · subst hq
      exact .inr (.inl (congrArg (Prod.mk a) (hres.wellFormed.unique hb.1 h₂.at_block)))
    exact .inr (.inr ((nonFree_iff hres (by omega) (by omega)).mp hb))
  · rintro (hb | hb | hb)
    · rw [hb]
      exact hbusy h₁
    · rw [hb]
      exact hbusy h₂
    · have hp : a ≠ a₁ := by
        rintro rfl
        exact hnew h₁ hb
      have hq : a ≠ a₂ := by
        rintro rfl
        exact hnew h₂ hb
      exact (nonFree_iff hres (by omega) (by omega)).mpr hb

end Result

/-- `heap_info` leaks nothing: it leaves the blocks in use alone when it fails, it adds its two arrays when
it succeeds, and once these are freed, in either order, it is repeated without growing the heap. -/
theorem heapInfo_leaks_nothing (s : Heap) (bs : List BlockHeader) (h : WellFormed s bs) (hi : s.initialized = true) :
    ∃ ret info s' bs', heapInfo s = some (ret, info, s') ∧ WellFormed s' bs' ∧
      (ret = -1 ∧ info = .zero ∧ nonFree s' bs' = nonFree s bs ∨ ret = 0 ∧ Added s bs info s' bs' ∧
        ∀ p q, (p = info.sizeArray ∧ q = info.ptrArray ∨ p = info.ptrArray ∧ q = info.sizeArray) →
          ∃ ret₂ info₂ s₂, heapInfo (free q (free p s')) = some (ret₂, info₂, s₂) ∧
            s₂.breaks.programBreak = s'.breaks.programBreak) := by
  obtain ⟨ret, info, s', bs', hrun, hres⟩ := heapInfo_spec h hi
  refine ⟨ret, info, s', bs', hrun, hres.wellFormed, ?_⟩
  have hbreak (p q : Nat) : (free q (free p s')).breaks.programBreak = s'.breaks.programBreak := by
    rw [free_breaks, free_breaks]
  have hinit (p q : Nat) : (free q (free p s')).initialized = true := by
    rw [free_initialized, free_initialized, hres.initialized]
  rcases hres.cases with ⟨rfl, rfl⟩ | ⟨rfl, hcount, hcases⟩
  case inl => exact .inl ⟨rfl, rfl, nonFree_eq hres rfl rfl⟩
  refine .inr ⟨rfl, ?_⟩
  have hused := (hres.listing h).used_eq
  rcases hcases with ⟨hzero, hsizes, hptrs⟩ | ⟨a₁, b₁, a₂, b₂, hsizes, hptrs, hne, h₁, h₂, -⟩
  · have hnone : (usedBlocks s bs).length = 0 := hcount.symm.trans hzero
    refine ⟨.nothing hnone ⟨hsizes, hptrs⟩ (nonFree_eq hres hsizes hptrs), fun p q hpq => ?_⟩
    obtain ⟨rfl, rfl⟩ : p = null ∧ q = null := by
      rw [hsizes, hptrs] at hpq
      exact hpq.elim id id
    rw [free_null, free_null]
    exact heapInfo_calm hres.wellFormed hres.initialized fun hpos => by
      rw [hused, hnone] at hpos
      exact absurd hpos (Nat.lt_irrefl 0)
  · have hpos : 0 < (usedBlocks s bs).length := by
      by_contra hpos
      rw [heapInfo, hi, if_neg (by decide), countUsed_eq h, Option.bind_some, if_neg hpos] at hrun
      exact absurd (hsizes.symm.trans (report_arrays hrun)) (Nat.succ_ne_zero _)
    obtain ⟨hx, hy, hsame⟩ := nonFree_listed hres hsizes hptrs h₁ h₂
    refine ⟨.arrays (a₁, b₁) (a₂, b₂) hpos (fun he => hne (congrArg Prod.fst he)) hsizes hptrs h₁.internal h₂.internal
      ⟨hx, hy⟩ hsame, fun p q hpq => ?_⟩
    obtain ⟨bs₁, hwf₁, -, hstock⟩ := heapInfo_totals h hi hrun
    obtain rfl := hres.wellFormed.blocks_unique hwf₁
    have hroom₁ := h₁.room
    have hroom₂ := h₂.room
    have hneed := blockSize_words (usedBlocks s bs).length
    rw [hcount] at hroom₁ hroom₂
    obtain ⟨bs₂, hwf₂, hstock₂, hused₂⟩ : ∃ bs₂, WellFormed (free q (free p s')) bs₂ ∧
        Stocked (blockSize (8 * (usedBlocks s bs).length)) 4 (free q (free p s')) bs₂ ∧
        usedBlocks (free q (free p s')) bs₂ = usedBlocks s' bs' := by
      rw [hsizes, hptrs] at hpq
      rcases hpq with ⟨rfl, rfl⟩ | ⟨rfl, rfl⟩
      · exact arrays_freed hres.wellFormed hne h₁.at_block h₂.at_block h₁.internal h₂.internal (by omega) (by omega)
          (by omega) (hstock hpos)
      · exact arrays_freed hres.wellFormed (Ne.symm hne) h₂.at_block h₁.at_block h₂.internal h₁.internal (by omega)
          (by omega) (by omega) (hstock hpos)
    rw [← hbreak p q]
    exact heapInfo_calm hwf₂ (hinit p q) fun _ => by rwa [hused₂, hused]

/-- Two allocations are reported twice, with the arrays of the first report freed in between. -/
theorem two_reports : ∃ s bs info s' bs', heapInfo s = some (0, info, s') ∧ Added s bs info s' bs' ∧
    ∃ ret₂ info₂ s₂, heapInfo (free info.ptrArray (free info.sizeArray s')) = some (ret₂, info₂, s₂) ∧
      s₂.breaks.programBreak = s'.breaks.programBreak := by
  obtain ⟨s, hreach, hi, hinfo⟩ := Allocator.Interface.reachable_of_any (A := library) SizeBound
    (start (fun _ => 0) sampleBreaks) [.call (.malloc 24), .call (.malloc 40)]
    (P := fun s => s.heap.initialized = true ∧ ((heapInfo s.heap).any fun r => decide (r.1 = 0)) = true) (by decide +kernel)
  obtain ⟨bs, hwf⟩ := (reach_inv (by decide) hreach).wf
  obtain ⟨ret, info, s', bs', hrun, -, hcases⟩ := heapInfo_leaks_nothing s.heap bs hwf hi
  rw [hrun] at hinfo
  obtain rfl : ret = 0 := of_decide_eq_true hinfo
  rcases hcases with ⟨hret, -⟩ | ⟨-, hadded, hagain⟩
  · cases hret
  · exact ⟨s.heap, bs, info, s', bs', hrun, hadded, hagain _ _ (.inl ⟨rfl, rfl⟩)⟩

end WeensyOS.CMalloc
