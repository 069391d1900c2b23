import WeensyOS.CMalloc.Defrag
import WeensyOS.CMalloc.HeapInfo
import WeensyOS.Lib.Inventory

namespace WeensyOS.CMalloc

open ByteMemory Loop WordArray LibC ProgramBreak Tiling Tiling.Layout MergeSort

variable {s s' : Heap} {bs bs' xs ys : List BlockHeader} {b : BlockHeader} {a n p q : Nat}

def usedBlocks (s : Heap) (bs : List BlockHeader) : List (Nat × BlockHeader) :=
  (layout.located s.managedMemoryStart bs).filter fun p => p.2.state = BlockState.used.code

def BlockHeader.isUsed (b : BlockHeader) : Bool := decide (b.state = BlockState.used.code)

theorem isUsed_iff : b.isUsed = true ↔ b.state = BlockState.used.code := decide_eq_true_iff

theorem usedBlocks_listed (s : Heap) (bs : List BlockHeader) :
    usedBlocks s bs = BlockHeap.listed format BlockHeader.isUsed s.managedMemoryStart bs := rfl

theorem mem_usedBlocks : (a, b) ∈ usedBlocks s bs ↔ s.At bs a b ∧ b.state = BlockState.used.code := by
  rw [usedBlocks_listed, BlockHeap.mem_listed, isUsed_iff]
  rfl

theorem usedBlocks_eq (h : WellFormed s bs) (h' : WellFormed s' bs')
    (hk : s.Keeps (fun _ b => b.state = BlockState.used.code) bs s' bs') : usedBlocks s bs = usedBlocks s' bs' :=
  BlockHeap.listed_eq h.region h'.region (hk.mono fun _ _ hused => isUsed_iff.mp hused)

theorem WellFormed.count_le (h : WellFormed s bs) : 8 * (usedBlocks s bs).length ≤ s.lastValidAddress := by
  rw [usedBlocks_listed]
  exact h.region.count_le

theorem countUsed_eq (h : WellFormed s bs) : countUsed s = some (usedBlocks s bs).length := by
  have hvisit := h.tiles.visit_eq h.positive (Nat.lt_trans h.last_lt (by omega))
    (fun (k : Nat) _ (b : BlockHeader) => if b.state = BlockState.used.code then k + 1 else k) 0
  have hcount := BlockHeap.foldl_count BlockHeader.isUsed (layout.located s.managedMemoryStart bs) 0
  simp only [isUsed_iff] at hcount
  rw [hcount, Nat.zero_add] at hvisit
  exact congrArg (fun r : Option (Nat × Nat) => r.bind fun c => some c.1) hvisit

/-- The result of an allocation as far as the block is concerned. -/
def Fresh (n : Nat) (s : Heap) (bs : List BlockHeader) (p : Nat) (s' : Heap) (bs' : List BlockHeader) : Prop :=
  p = null ∨ ∃ a b, p = a + 8 ∧ Allocated n s bs a b s' bs' ∧ n + 8 + b.slop = b.size

theorem Fresh.busy_ne (h : Fresh n s bs p s' bs') (hb : s.At bs a b) (hbusy : busy a b) : a + 8 ≠ p := by
  rcases h with rfl | ⟨a', b', rfl, hnew, -⟩
  · simp [null]
  · intro he
    obtain rfl : a = a' := by omega
    exact hbusy (hnew.fresh b hb)

theorem malloc_fresh (h : WellFormed s bs) (hn : n ≠ 0) (hmod : n % 8 = 0) (hsize : Sound n s) :
    ∃ p s' bs', malloc n s = some (p, s') ∧ WellFormed s' bs' ∧ s'.initialized = true ∧
      s.Keeps (fun a b => busy a b ∧ a + 8 ≠ p) bs s' bs' ∧ Fresh n s bs p s' bs' := by
  obtain ⟨p, s', bs', hrun, hres, hexact⟩ := malloc_spec h hn hsize
  refine ⟨p, s', bs', hrun, hres.wellFormed, hres.initialized, hres.keeps, ?_⟩
  rcases hres.cases with ⟨hp, -, -⟩ | ⟨a, b, hp, hnew⟩
  · exact .inl hp
  · exact .inr ⟨a, b, hp, hnew, (hexact a b hp hnew.at_new).mp (.inl hmod)⟩

/-- Two allocations in a row, as `heap_info` and `sort_descending` make them. -/
theorem malloc_pair (h : WellFormed s bs) (hn : n ≠ 0) (hmod : n % 8 = 0) (hsize : n < 2 ^ 63) :
    ∃ p s₁ q s₂ bs₂, malloc n s = some (p, s₁) ∧ malloc n s₁ = some (q, s₂) ∧ WellFormed s₂ bs₂ ∧
      s₂.initialized = true ∧ s.Keeps (fun a b => busy a b ∧ a + 8 ≠ p ∧ a + 8 ≠ q) bs s₂ bs₂ ∧
      Fresh n s bs p s₂ bs₂ ∧ Fresh n s bs q s₂ bs₂ ∧ (p = q → p = null) := by
  have hsound (s : Heap) : Sound n s := by
    have hb := blockSize_eq n
    have hlt := s.breaks.lt_limit
    simp only [Sound]
    omega
  obtain ⟨p, s₁, bs₁, hrun₁, hwf₁, -, hkeeps₁, hfresh₁⟩ := malloc_fresh h hn hmod (hsound s)
  obtain ⟨q, s₂, bs₂, hrun₂, hwf₂, hinit₂, hkeeps₂, hfresh₂⟩ := malloc_fresh hwf₁ hn hmod (hsound s₁)
  refine ⟨p, s₁, q, s₂, bs₂, hrun₁, hrun₂, hwf₂, hinit₂,
    (hkeeps₁.mono fun a b hP => ⟨hP.1, hP.2.1⟩).trans (hkeeps₂.mono fun a b hP => ⟨hP.1, hP.2.2⟩), ?_, ?_, ?_⟩
  · rcases hfresh₁ with hp | ⟨a, b, rfl, hnew, hexact⟩
    · exact .inl hp
    · have hbusy : busy a b := busy_of_used hnew.used a
      exact .inr ⟨a, b, rfl, ⟨(hkeeps₂.at_iff ⟨hbusy, hfresh₂.busy_ne hnew.at_new hbusy⟩).mp hnew.at_new,
        hnew.used, hnew.room, hnew.fresh⟩, hexact⟩
  · rcases hfresh₂ with hq | ⟨a, b, rfl, hnew, hexact⟩
    · exact .inl hq
    · refine .inr ⟨a, b, rfl, ⟨hnew.at_new, hnew.used, hnew.room, fun c hc => ?_⟩, hexact⟩
      by_contra hbusy
      exact hbusy (hnew.fresh c ((hkeeps₁.at_iff ⟨hbusy, hfresh₁.busy_ne hc hbusy⟩).mp hc))
  · rintro rfl
    rcases hfresh₁ with hp | ⟨a, b, rfl, hnew, -⟩
    · exact hp
    · have hbusy : busy a b := busy_of_used hnew.used a
      exact absurd rfl (hfresh₂.busy_ne hnew.at_new hbusy)

theorem free_fresh (h : WellFormed s bs) (hp : p = null ∨ ∃ a b, p = a + 8 ∧ s.At bs a b) :
    ∃ bs', WellFormed (free p s) bs' ∧ s.Keeps (fun a _ => a + 8 ≠ p) bs (free p s) bs' ∧
      ∀ a b, a + 8 = p → (free p s).At bs' a b → ¬busy a b := by
  rcases hp with rfl | ⟨a, b, rfl, hb⟩
  · rw [free_null]
    refine ⟨bs, h, Keeps.refl, fun a b ha => ?_⟩
    simp [null] at ha
  · obtain ⟨bs', hwf, hat, hkeeps⟩ := free_spec h hb
    refine ⟨bs', hwf, hkeeps.mono fun a' b' hne => by omega, fun a' b' ha' hb' hbusy => ?_⟩
    obtain rfl : a' = a := by omega
    rw [hwf.unique hb' hat] at hbusy
    exact hbusy rfl

theorem freePair (h : WellFormed s bs) (hp : p = null ∨ ∃ a b, p = a + 8 ∧ s.At bs a b)
    (hq : q = null ∨ ∃ a b, q = a + 8 ∧ s.At bs a b) (hpq : p = q → p = null) :
    ∃ bs', WellFormed (free q (free p s)) bs' ∧
      s.Keeps (fun a _ => a + 8 ≠ p ∧ a + 8 ≠ q) bs (free q (free p s)) bs' ∧
      ∀ a b, a + 8 = p ∨ a + 8 = q → (free q (free p s)).At bs' a b → ¬busy a b := by
  obtain ⟨bs₁, hwf₁, hkeeps₁, hfree₁⟩ := free_fresh h hp
  have hq₁ : q = null ∨ ∃ a b, q = a + 8 ∧ (free p s).At bs₁ a b := by
    rcases hq with hq | ⟨a, b, rfl, hb⟩
    · exact .inl hq
    · refine .inr ⟨a, b, rfl, (hkeeps₁.at_iff fun he => ?_).mp hb⟩
      have hnull := hpq he.symm
      rw [hnull, null] at he
      omega
  obtain ⟨bs₂, hwf₂, hkeeps₂, hfree₂⟩ := free_fresh hwf₁ hq₁
  refine ⟨bs₂, hwf₂, (hkeeps₁.mono fun a b hP => hP.1).trans (hkeeps₂.mono fun a b hP => hP.2), ?_⟩
  intro a b ha hb
  by_cases hq' : a + 8 = q
  · exact hfree₂ a b hq' hb
  · exact hfree₁ a b (ha.resolve_right hq') ((hkeeps₂.at_iff hq').mpr hb)

/-- What `heap_info` reports of a block at `p.1` with header `p.2`. -/
def entry (p : Nat × BlockHeader) : Nat × Nat := (usable p.2, payloadOf p.1)

def freeSizes (bs : List BlockHeader) : List Nat := (bs.filter BlockHeader.isFree).map BlockHeader.size

/-- Before a round of the second pass: what has been stored of the blocks before `cur`. -/
structure Filling (s : Heap) (sizeArray ptrArray n : Nat) (xs : List BlockHeader) (c : Pass) : Prop extends
    BlockHeap.Filling format BlockHeader.isUsed entry s.mem s.managedMemoryStart sizeArray ptrArray n xs c.mem c.index c.cur where
  freeSpace_eq : c.freeSpace = (freeSizes xs).sum
  largest_eq : c.largestFreeChunk = (freeSizes xs).foldl max 0

abbrev OffHeaders (s : Heap) (bs : List BlockHeader) (arrays : List Nat) (n : Nat) : Prop :=
  BlockHeap.OffHeaders format s.managedMemoryStart bs arrays n

theorem freeSizes_snoc (xs : List BlockHeader) (b : BlockHeader) :
    freeSizes (xs ++ [b]) = freeSizes xs ++ if b.isFree then [b.size] else [] := by
  simp only [freeSizes, List.filter_append, List.map_append]
  split
  next hfree => rw [List.filter_cons_of_pos hfree]; rfl
  next hfree => rw [List.filter_cons_of_neg (by simpa using hfree)]; rfl

section Round

variable {sizeArray ptrArray : Nat} {c : Pass}

theorem fillStep_used (hb : headerAt c.mem c.cur = b) (hused : b.state = BlockState.used.code)
    (hsame : headerAt (setPair c.mem sizeArray ptrArray c.index (usable b) (payloadOf c.cur)) c.cur = b) :
    fillStep sizeArray ptrArray c = ⟨setPair c.mem sizeArray ptrArray c.index (usable b) (payloadOf c.cur), c.index + 1,
      c.freeSpace, c.largestFreeChunk, (c.cur + b.size) % 2 ^ 64⟩ := by
  simp only [fillStep, hb, if_pos hused]
  exact congrArg (fun k => Pass.mk (setPair c.mem sizeArray ptrArray c.index (usable b) (payloadOf c.cur)) (c.index + 1)
    c.freeSpace c.largestFreeChunk ((c.cur + k) % 2 ^ 64)) (congrArg BlockHeader.size hsame)

theorem fillStep_free (hb : headerAt c.mem c.cur = b) (hfree : b.state = BlockState.free.code) :
    fillStep sizeArray ptrArray c = ⟨c.mem, c.index, c.freeSpace + b.size,
      if c.largestFreeChunk < b.size then b.size else c.largestFreeChunk, (c.cur + b.size) % 2 ^ 64⟩ := by
  have hused : b.state ≠ BlockState.used.code := by
    rw [hfree]
    decide
  simp only [fillStep, hb, if_neg hused, if_pos hfree]

theorem fillStep_internal (hb : headerAt c.mem c.cur = b) (hused : b.state ≠ BlockState.used.code)
    (hfree : b.state ≠ BlockState.free.code) :
    fillStep sizeArray ptrArray c = ⟨c.mem, c.index, c.freeSpace, c.largestFreeChunk, (c.cur + b.size) % 2 ^ 64⟩ := by
  simp only [fillStep, hb, if_neg hused, if_neg hfree]

/-- While the pass goes on there is a next block. -/
theorem Filling.next (h : WellFormed s (xs ++ ys)) (hc : Filling s sizeArray ptrArray n xs c)
    (hlt : c.cur < s.lastValidAddress) : ∃ b zs, ys = b :: zs := by
  have hcur := hc.cur_eq
  have htop := h.region.tiles.end_eq
  rw [total_append] at htop
  cases ys with
  | nil =>
      rw [total_nil] at htop
      omega
  | cons b zs => exact ⟨b, zs, rfl⟩

theorem Filling.step (h : WellFormed s (xs ++ b :: ys))
    (ho : OffHeaders s (xs ++ b :: ys) [sizeArray, ptrArray] n) (hd : Apart n sizeArray ptrArray)
    (hn : (usedBlocks s (xs ++ b :: ys)).length = n) (hc : Filling s sizeArray ptrArray n xs c) :
    Filling s sizeArray ptrArray n (xs ++ [b]) (fillStep sizeArray ptrArray c) := by
  have hat : s.At (xs ++ b :: ys) c.cur b := by
    rw [hc.cur_eq]
    exact at_append.mpr (.inr (.inl ⟨rfl, rfl⟩))
  have hbd := h.bounds hat
  have hlast := h.last_lt
  have hheader : headerAt c.mem c.cur = b := hc.header h.region ho
  have hnext : (c.cur + b.size) % 2 ^ 64 = c.cur + b.size := Nat.mod_eq_of_lt (by omega)
  have hsizes := freeSizes_snoc xs b
  by_cases hused : b.state = BlockState.used.code
  · have hnotFree : ¬b.isFree = true := by simp [BlockHeader.isFree, hused, BlockState.code]
    have hb := isUsed_iff.mpr hused
    have hstore := hc.store hd (hc.index_lt hn hb) hb rfl (Nat.mod_lt _ (by decide) : usable b < 2 ^ 64)
      (Nat.mod_lt _ (by decide) : payloadOf c.cur < 2 ^ 64)
    rw [if_neg hnotFree, List.append_nil] at hsizes
    rw [fillStep_used hheader hused (ho.header h.region hstore.changed hat), hnext]
    exact ⟨hstore, by rw [hsizes, hc.freeSpace_eq], by rw [hsizes, hc.largest_eq]⟩
  · have hpass := hc.pass (mt isUsed_iff.mp hused)
    by_cases hfree : b.state = BlockState.free.code
    · have hisFree : b.isFree = true := decide_eq_true hfree
      rw [if_pos hisFree] at hsizes
      rw [fillStep_free hheader hfree, hnext]
      refine ⟨hpass, by simp [hsizes, hc.freeSpace_eq], ?_⟩
      simp only [hsizes, hc.largest_eq, List.foldl_append, List.foldl_cons, List.foldl_nil]
      rw [Nat.max_def]
      split <;> split <;> omega
    · have hisFree : ¬b.isFree = true := fun hb => hfree (of_decide_eq_true hb)
      rw [if_neg hisFree, List.append_nil] at hsizes
      rw [fillStep_internal hheader hused hfree, hnext]
      exact ⟨hpass, by rw [hsizes, hc.freeSpace_eq], by rw [hsizes, hc.largest_eq]⟩

end Round

theorem fill_spec (sizeArray ptrArray : Nat) (h : WellFormed s bs)
    (ho : OffHeaders s bs [sizeArray, ptrArray] n) (hd : Apart n sizeArray ptrArray)
    (hn : (usedBlocks s bs).length = n) :
    ∃ c, fill sizeArray ptrArray s = some c ∧ Filling s sizeArray ptrArray n bs c := by
  have hstart : Filling s sizeArray ptrArray n [] ⟨s.mem, 0, 0, 0, s.managedMemoryStart⟩ :=
    ⟨BlockHeap.Filling.start, rfl, rfl⟩
  obtain ⟨c, hrun, ⟨xs, ys, rfl, hc⟩, hend⟩ := cwhile_rule
    (fun c : Pass => c.cur < s.lastValidAddress) (fun c => some (fillStep sizeArray ptrArray c))
    (fun c => ∃ xs ys, bs = xs ++ ys ∧ Filling s sizeArray ptrArray n xs c)
    (fun c => s.lastValidAddress - c.cur)
    (by
      rintro c ⟨xs, ys, rfl, hc⟩ hlt
      obtain ⟨b, ys, rfl⟩ := hc.next h hlt
      have hnext := hc.step h ho hd hn
      have hpos := h.region.positive b (by simp)
      have hcur := hc.cur_eq
      have hcur' := hnext.cur_eq
      rw [total_append, total_cons, total_nil] at hcur'
      exact ⟨_, rfl, ⟨xs ++ [b], ys, by simp, hnext⟩, by omega⟩)
    ⟨[], bs, rfl, hstart⟩ (by have := h.last_lt; omega)
  have hcur := hc.cur_eq
  have htop := h.region.tiles.end_eq
  rw [total_append] at htop
  cases ys with
  | nil => exact ⟨c, hrun, by rwa [List.append_nil]⟩
  | cons b ys =>
      have hpos := h.region.positive b (by simp)
      rw [total_cons] at htop
      omega

/-- A block in use whose payload has room for an array of `n` words. -/
abbrev ArrayBlock (s : Heap) (bs : List BlockHeader) (n a : Nat) (b : BlockHeader) : Prop :=
  BlockHeap.ArrayBlock format s.managedMemoryStart bs n a b

/-- The heap once the two arrays are marked as the library's own. -/
def marked (p q : Nat) (s : Heap) : Heap :=
  { s with mem := setState (setState s.mem (headerOf p) .internal) (headerOf q) .internal }

/-- The blocks of the two arrays have been marked, and the others are as they were. -/
structure MarkedPair (n : Nat) (s : Heap) (bs : List BlockHeader) (a₁ : Nat) (b₁ : BlockHeader) (a₂ : Nat) (b₂ : BlockHeader)
    (bs' : List BlockHeader) : Prop where
  wellFormed : WellFormed (marked (a₁ + 8) (a₂ + 8) s) bs'
  first : ArrayBlock (marked (a₁ + 8) (a₂ + 8) s) bs' n a₁ { b₁ with state := BlockState.internal.code }
  second : ArrayBlock (marked (a₁ + 8) (a₂ + 8) s) bs' n a₂ { b₂ with state := BlockState.internal.code }
  keeps : s.Keeps (fun a _ => a ≠ a₁ ∧ a ≠ a₂) bs (marked (a₁ + 8) (a₂ + 8) s) bs'

theorem markPair {a₁ a₂ : Nat} {b₁ b₂ : BlockHeader} (h : WellFormed s bs) (h₁ : ArrayBlock s bs n a₁ b₁)
    (h₂ : ArrayBlock s bs n a₂ b₂) (hne : a₁ ≠ a₂) : ∃ bs', MarkedPair n s bs a₁ b₁ a₂ b₂ bs' := by
  obtain ⟨bs₁, hwf₁, hat₁, hkeeps₁⟩ := h.setState h₁.at_block .internal fun _ =>
    (h.valid b₁ h₁.at_block.mem).slop_le h₁.busy
  have h₂' := (hkeeps₁.at_iff (Ne.symm hne)).mp h₂.at_block
  obtain ⟨bs₂, hwf₂, hat₂, hkeeps₂⟩ := hwf₁.setState h₂' .internal fun _ =>
    (h.valid b₂ h₂.at_block.mem).slop_le h₂.busy
  have hmarked : marked (a₁ + 8) (a₂ + 8) s = { s with mem := setState (setState s.mem a₁ .internal) a₂ .internal } := by
    rw [marked, h.headerOf_payload h₁.at_block, h.headerOf_payload h₂.at_block]
  have hkeeps : s.Keeps (fun a _ => a ≠ a₁ ∧ a ≠ a₂) bs (marked (a₁ + 8) (a₂ + 8) s) bs₂ := by
    rw [hmarked]
    exact (hkeeps₁.mono fun a b hP => hP.1).trans (hkeeps₂.mono fun a b hP => hP.2)
  refine ⟨bs₂, ?_, ⟨?_, busy_internal a₁ b₁, h₁.room⟩, ⟨?_, busy_internal a₂ b₂, h₂.room⟩, hkeeps⟩
  · rw [hmarked]
    exact hwf₂
  · rw [hmarked]
    exact (hkeeps₂.at_iff hne).mp hat₁
  · rw [hmarked]
    exact hat₂

/-- Two allocations that have both succeeded, before and after they are marked. -/
theorem Fresh.markPair {s₂ : Heap} {bs₂ : List BlockHeader} (h : WellFormed s₂ bs₂) (hp : Fresh (8 * n) s bs p s₂ bs₂)
    (hq : Fresh (8 * n) s bs q s₂ bs₂) (hpq : p = q → p = null) (hp₀ : p ≠ null) (hq₀ : q ≠ null) :
    ∃ a₁ b₁ a₂ b₂ bs₃, (p = a₁ + 8 ∧ Allocated (8 * n) s bs a₁ b₁ s₂ bs₂ ∧ 8 * n + 8 + b₁.slop = b₁.size) ∧
      (q = a₂ + 8 ∧ Allocated (8 * n) s bs a₂ b₂ s₂ bs₂ ∧ 8 * n + 8 + b₂.slop = b₂.size) ∧ a₁ ≠ a₂ ∧
        MarkedPair n s₂ bs₂ a₁ b₁ a₂ b₂ bs₃ := by
  obtain ⟨a₁, b₁, rfl, hnew₁, hexact₁⟩ := hp.resolve_left hp₀
  obtain ⟨a₂, b₂, rfl, hnew₂, hexact₂⟩ := hq.resolve_left hq₀
  have hne : a₁ ≠ a₂ := by
    rintro rfl
    exact hp₀ (hpq rfl)
  have h₁ : ArrayBlock s₂ bs₂ n a₁ b₁ :=
    ⟨hnew₁.at_new, busy_of_used hnew₁.used a₁, (by omega : 8 * n + 8 ≤ b₁.size)⟩
  have h₂ : ArrayBlock s₂ bs₂ n a₂ b₂ :=
    ⟨hnew₂.at_new, busy_of_used hnew₂.used a₂, (by omega : 8 * n + 8 ≤ b₂.size)⟩
  obtain ⟨bs₃, hmarked⟩ := CMalloc.markPair h h₁ h₂ hne
  exact ⟨a₁, b₁, a₂, b₂, bs₃, ⟨rfl, hnew₁, hexact₁⟩, ⟨rfl, hnew₂, hexact₂⟩, hne, hmarked⟩

theorem WellFormed.writeArrays (h : WellFormed s bs) {m' : Memory} (blocks : List (Nat × BlockHeader))
    (hblocks : ∀ p ∈ blocks, ArrayBlock s bs n p.1 p.2)
    (hm : ChangedAt (blocks.map fun p => p.1 + 8) 0 n s.mem m') :
    WellFormed { s with mem := m' } bs ∧
      s.Keeps (fun a _ => a ∉ blocks.map Prod.fst) bs { s with mem := m' } bs := by
  obtain ⟨hregion, hkeeps⟩ := h.region.writeArrays blocks hblocks hm
  exact ⟨h.withMem hregion, hkeeps⟩

section Sorting

variable {a₁ a₂ : Nat} {b₁ b₂ : BlockHeader} (h : WellFormed s bs) (h₁ : ArrayBlock s bs n a₁ b₁)
  (h₂ : ArrayBlock s bs n a₂ b₂) (hne : a₁ ≠ a₂) (hn : n < 2 ^ 32)
include h h₁ h₂ hne hn

theorem selection_spec :
    ∃ m', SelectionSort.selectionSort (exchange (a₁ + 8) (a₂ + 8)) (a₁ + 8) n s.mem = some m' ∧
      WellFormed { s with mem := m' } bs ∧
      s.Keeps (fun a _ => a ≠ a₁ ∧ a ≠ a₂) bs { s with mem := m' } bs ∧
      (slice m' (a₁ + 8) (a₂ + 8) 0 n).Perm (slice s.mem (a₁ + 8) (a₂ + 8) 0 n) ∧
      Descending (slice m' (a₁ + 8) (a₂ + 8) 0 n) := by
  have hapart := h₁.apart h₂ hne
  have hswap (m : Memory) (i j : Nat) (hi : i < n) (hj : j < n) : SelectionSort.Swapped (a₁ + 8) (a₂ + 8) n i j m
      (exchange (a₁ + 8) (a₂ + 8) m i j) := by
    by_cases hij : j = i
    · subst hij
      rw [exchange, if_neg (not_not.mpr rfl)]
      exact SelectionSort.Swapped.refl
    · rw [exchange, if_pos hij]
      exact SelectionSort.swapPair_swapped hapart hi hj
  obtain ⟨m', hrun, hchanged, hperm, hsorted⟩ :=
    SelectionSort.selectionSort_spec (m := s.mem) hswap (by omega)
  obtain ⟨hwf, hkeeps⟩ := h.writeArrays [(a₁, b₁), (a₂, b₂)] (by simp [h₁, h₂]) hchanged
  exact ⟨m', hrun, hwf, hkeeps.mono fun a b hP => by simpa using hP, hperm, hsorted⟩

theorem mergeSort_spec {a₃ a₄ : Nat} {b₃ b₄ : BlockHeader} (h₃ : ArrayBlock s bs n a₃ b₃)
    (h₄ : ArrayBlock s bs n a₄ b₄) (h13 : a₁ ≠ a₃) (h14 : a₁ ≠ a₄) (h23 : a₂ ≠ a₃) (h24 : a₂ ≠ a₄)
    (h34 : a₃ ≠ a₄) :
    ∃ m', mergeSortDescending ⟨a₁ + 8, a₂ + 8, a₃ + 8, a₄ + 8⟩ n 0 n s.mem = some m' ∧
      WellFormed { s with mem := m' } bs ∧
      s.Keeps (fun a _ => a ≠ a₁ ∧ a ≠ a₂ ∧ a ≠ a₃ ∧ a ≠ a₄) bs { s with mem := m' } bs ∧
      (slice m' (a₁ + 8) (a₂ + 8) 0 n).Perm (slice s.mem (a₁ + 8) (a₂ + 8) 0 n) ∧
      Descending (slice m' (a₁ + 8) (a₂ + 8) 0 n) := by
  have hapart : Arrays.Apart ⟨a₁ + 8, a₂ + 8, a₃ + 8, a₄ + 8⟩ n :=
    ⟨h₁.apart h₂ hne, h₁.apart h₃ h13, h₁.apart h₄ h14, h₂.apart h₃ h23, h₂.apart h₄ h24, h₃.apart h₄ h34⟩
  obtain ⟨m', hrun, hchanged, hslice⟩ := mergeSortDescending_spec (m := s.mem) hapart
    (by omega : n - 0 ≤ n) (Nat.zero_le n) (Nat.le_refl n) (by omega)
  obtain ⟨hwf, hkeeps⟩ := h.writeArrays [(a₁, b₁), (a₂, b₂), (a₃, b₃), (a₄, b₄)]
    (by simp [h₁, h₂, h₃, h₄]) hchanged
  refine ⟨m', hrun, hwf, hkeeps.mono fun a b hP => by simpa using hP, ?_, ?_⟩
  · rw [hslice]
    exact sortPairs_perm n _
  · have hsorted := sortPairs_sorted n (slice s.mem (a₁ + 8) (a₂ + 8) 0 n) (by simp)
    rw [hslice]
    exact hsorted.imp fun hpq => by simpa [geq] using hpq

/-- Whichever of the two scratch allocations fails, the arrays end up sorted and
the scratch blocks are free. -/
theorem sortDescending_spec (hpos : 0 < n) :
    ∃ s' bs', sortDescending (a₁ + 8) (a₂ + 8) n s = some s' ∧ WellFormed s' bs' ∧ s'.initialized = true ∧
      s.Keeps (fun a b => busy a b ∧ a ≠ a₁ ∧ a ≠ a₂) bs s' bs' ∧
      ArrayBlock s' bs' n a₁ b₁ ∧ ArrayBlock s' bs' n a₂ b₂ ∧
      (slice s'.mem (a₁ + 8) (a₂ + 8) 0 n).Perm (slice s.mem (a₁ + 8) (a₂ + 8) 0 n) ∧
      Descending (slice s'.mem (a₁ + 8) (a₂ + 8) 0 n) := by
  have hsize : 8 * n % 2 ^ 64 = 8 * n := by omega
  obtain ⟨p, s₁, q, s₂, bs₂, hrun₁, hrun₂, hwf₂, hinit₂, hkeeps₂, hp, hq, hpq⟩ :=
    malloc_pair (n := 8 * n) h (by omega) (by omega) (by omega)
  have hkept₁ : busy a₁ b₁ ∧ a₁ + 8 ≠ p ∧ a₁ + 8 ≠ q :=
    ⟨h₁.busy, hp.busy_ne h₁.at_block h₁.busy, hq.busy_ne h₁.at_block h₁.busy⟩
  have hkept₂ : busy a₂ b₂ ∧ a₂ + 8 ≠ p ∧ a₂ + 8 ≠ q :=
    ⟨h₂.busy, hp.busy_ne h₂.at_block h₂.busy, hq.busy_ne h₂.at_block h₂.busy⟩
  have hslice₂ : slice s₂.mem (a₁ + 8) (a₂ + 8) 0 n = slice s.mem (a₁ + 8) (a₂ + 8) 0 n :=
    slice_congr fun i _ hi => ⟨h₁.word_eq hkeeps₂ hkept₁ hi, h₂.word_eq hkeeps₂ hkept₂ hi⟩
  have h₁₂ := h₁.mono hkeeps₂ hkept₁
  have h₂₂ := h₂.mono hkeeps₂ hkept₂
  -- the sort itself, on the heap with the scratch blocks
  have hsort : ∃ m' bs₃, (if p ≠ null ∧ q ≠ null then
        mergeSortDescending ⟨a₁ + 8, a₂ + 8, p, q⟩ n 0 n
          (setState (setState s₂.mem (headerOf p) .internal) (headerOf q) .internal)
      else SelectionSort.selectionSort (exchange (a₁ + 8) (a₂ + 8)) (a₁ + 8) n s₂.mem) = some m' ∧
      WellFormed { s₂ with mem := m' } bs₃ ∧
      s₂.Keeps (fun a _ => a ≠ a₁ ∧ a ≠ a₂ ∧ a + 8 ≠ p ∧ a + 8 ≠ q) bs₂ { s₂ with mem := m' } bs₃ ∧
      ArrayBlock { s₂ with mem := m' } bs₃ n a₁ b₁ ∧ ArrayBlock { s₂ with mem := m' } bs₃ n a₂ b₂ ∧
      (p = null ∨ ∃ a b, p = a + 8 ∧ Heap.At { s₂ with mem := m' } bs₃ a b) ∧
      (q = null ∨ ∃ a b, q = a + 8 ∧ Heap.At { s₂ with mem := m' } bs₃ a b) ∧
      (slice m' (a₁ + 8) (a₂ + 8) 0 n).Perm (slice s₂.mem (a₁ + 8) (a₂ + 8) 0 n) ∧
      Descending (slice m' (a₁ + 8) (a₂ + 8) 0 n) := by
    by_cases hboth : p ≠ null ∧ q ≠ null
    · obtain ⟨a₃, b₃, a₄, b₄, bs₃, ⟨rfl, -⟩, ⟨rfl, -⟩, h34, hmarked⟩ := hp.markPair hwf₂ hq hpq hboth.1 hboth.2
      have hne₁ : a₁ ≠ a₃ ∧ a₁ ≠ a₄ := by omega
      have hne₂ : a₂ ≠ a₃ ∧ a₂ ≠ a₄ := by omega
      have h₁₃ := h₁₂.mono hmarked.keeps hne₁
      have h₂₃ := h₂₂.mono hmarked.keeps hne₂
      obtain ⟨m', hrun, hwf, hkeeps, hperm, hsorted⟩ := mergeSort_spec hmarked.wellFormed h₁₃ h₂₃ hne hn
        hmarked.first hmarked.second hne₁.1 hne₁.2 hne₂.1 hne₂.2 h34
      refine ⟨m', bs₃, ?_, hwf, (hmarked.keeps.mono fun a b hP => by omega).trans
        (hkeeps.mono fun a b hP => by omega), ⟨h₁₃.at_block, h₁.busy, h₁.room⟩, ⟨h₂₃.at_block, h₂.busy, h₂.room⟩,
        .inr ⟨a₃, _, rfl, hmarked.first.at_block⟩, .inr ⟨a₄, _, rfl, hmarked.second.at_block⟩, ?_, hsorted⟩
      · rw [if_pos hboth]
        exact hrun
      · have hslice₃ : slice (marked (a₃ + 8) (a₄ + 8) s₂).mem (a₁ + 8) (a₂ + 8) 0 n = slice s₂.mem (a₁ + 8) (a₂ + 8) 0 n :=
          slice_congr fun i _ hi => ⟨h₁₂.word_eq hmarked.keeps hne₁ hi, h₂₂.word_eq hmarked.keeps hne₂ hi⟩
        rw [← hslice₃]
        exact hperm
    · obtain ⟨m', hrun, hwf, hkeeps, hperm, hsorted⟩ := selection_spec hwf₂ h₁₂ h₂₂ hne hn
      refine ⟨m', bs₂, by rw [if_neg hboth, hrun], hwf, hkeeps.mono fun a b hP => ⟨hP.1, hP.2.1⟩,
        ⟨h₁₂.at_block, h₁.busy, h₁.room⟩, ⟨h₂₂.at_block, h₂.busy, h₂.room⟩, ?_, ?_, hperm, hsorted⟩
      · exact hp.imp_right fun ⟨a, b, ha, hnew, _⟩ => ⟨a, b, ha, hnew.at_new⟩
      · exact hq.imp_right fun ⟨a, b, ha, hnew, _⟩ => ⟨a, b, ha, hnew.at_new⟩
  obtain ⟨m', bs₃, hrun, hwf₃, hkeeps₃, h₁₃, h₂₃, hp₃, hq₃, hperm, hsorted⟩ := hsort
  obtain ⟨bs₄, hwf₄, hkeeps₄, hfree⟩ := freePair hwf₃ hp₃ hq₃ hpq
  have hslice₄ : slice (free q (free p { s₂ with mem := m' })).mem (a₁ + 8) (a₂ + 8) 0 n =
      slice m' (a₁ + 8) (a₂ + 8) 0 n :=
    slice_congr fun i _ hi => ⟨h₁₃.word_eq hkeeps₄ hkept₁.2 hi, h₂₃.word_eq hkeeps₄ hkept₂.2 hi⟩
  have hinit₄ : (free q (free p { s₂ with mem := m' })).initialized = true := by
    have hinit (p : Nat) (s : Heap) : (free p s).initialized = s.initialized := by
      rw [free]
      split <;> rfl
    rw [hinit, hinit, hinit₂]
  refine ⟨_, bs₄, ?_, hwf₄, hinit₄, ?_, h₁₃.mono hkeeps₄ hkept₁.2, h₂₃.mono hkeeps₄ hkept₂.2, ?_, ?_⟩
  · simp only [sortDescending, hsize, hrun₁, hrun₂, Option.bind_some, hrun]
  · refine Keeps.widen (R := fun a => a + 8 = p ∨ a + 8 = q) ?_ (fun a b ha hP hb => ?_)
      (fun a b ha hP hb => hfree a b ha hb hP.1)
    · exact ((hkeeps₂.mono fun a b hP => ⟨hP.1.1, by omega⟩).trans
        (hkeeps₃.mono fun a b hP => by omega)).trans (hkeeps₄.mono fun a b hP => by omega)
    rcases ha with ha | ha
    · exact hp.busy_ne hb hP.1 ha
    · exact hq.busy_ne hb hP.1 ha
  · rw [hslice₄, ← hslice₂]
    exact hperm
  · rw [hslice₄]
    exact hsorted

end Sorting

/-- One of the two arrays that `heap_info` hands out. -/
structure MetaBlock (n : Nat) (s : Heap) (bs : List BlockHeader) (s' : Heap) (bs' : List BlockHeader) (a : Nat)
    (b : BlockHeader) : Prop where
  at_block : s'.At bs' a b
  internal : b.state = BlockState.internal.code
  room : 8 * n + 8 + b.slop = b.size
  fresh : ∀ c, s.At bs a c → c.state = BlockState.free.code

/-- The arrays of a report on the blocks `blocks`. -/
def Listed (s : Heap) (bs : List BlockHeader) (info : HeapInfo) (s' : Heap) (bs' : List BlockHeader) : Prop :=
  ∃ a₁ b₁ a₂ b₂, info.sizeArray = a₁ + 8 ∧ info.ptrArray = a₂ + 8 ∧ a₁ ≠ a₂ ∧
    MetaBlock info.numAllocs s bs s' bs' a₁ b₁ ∧ MetaBlock info.numAllocs s bs s' bs' a₂ b₂ ∧
    (slice s'.mem info.sizeArray info.ptrArray 0 info.numAllocs).Perm ((usedBlocks s bs).map entry) ∧
    Descending (slice s'.mem info.sizeArray info.ptrArray 0 info.numAllocs)

structure InfoResult (s : Heap) (bs : List BlockHeader) (ret : Int) (info : HeapInfo) (s' : Heap)
    (bs' : List BlockHeader) : Prop where
  wellFormed : WellFormed s' bs'
  initialized : s'.initialized = true
  keeps : s.Keeps (fun a b => busy a b ∧ a + 8 ≠ info.sizeArray ∧ a + 8 ≠ info.ptrArray) bs s' bs'
  cases : ret = -1 ∧ info = .zero ∨ ret = 0 ∧ info.numAllocs = (usedBlocks s bs).length ∧
    (info.numAllocs = 0 ∧ info.sizeArray = null ∧ info.ptrArray = null ∨ Listed s bs info s' bs')

theorem offHeaders {a₁ a₂ : Nat} {b₁ b₂ : BlockHeader} (h : WellFormed s bs) (h₁ : ArrayBlock s bs n a₁ b₁)
    (h₂ : ArrayBlock s bs n a₂ b₂) : OffHeaders s bs [a₁ + 8, a₂ + 8] n := BlockHeap.offHeaders h.region h₁ h₂

theorem usedBlocks_marked (a₁ a₂ : Nat) (h : WellFormed s bs) (h' : WellFormed s' bs')
    (hk : s.Keeps (fun a b => busy a b ∧ a ≠ a₁ ∧ a ≠ a₂) bs s' bs')
    (hold : ∀ a b, a = a₁ ∨ a = a₂ → s.At bs a b → b.state = BlockState.free.code)
    (hnew : ∀ a b, a = a₁ ∨ a = a₂ → s'.At bs' a b → b.state = BlockState.internal.code) :
    usedBlocks s bs = usedBlocks s' bs' := by
  have hused : s.Keeps (fun _ b => b.state = BlockState.used.code) bs s' bs' := by
    refine Keeps.widen (R := fun a => a = a₁ ∨ a = a₂) ?_ (fun a b ha hst hb => ?_) (fun a b ha hst hb => ?_)
    · exact hk.mono fun a b hP => ⟨busy_of_used hP.1 a, by omega⟩
    · exact absurd ((hold a b ha hb).symm.trans hst) (by decide)
    · exact absurd ((hnew a b ha hb).symm.trans hst) (by decide)
  exact usedBlocks_eq h h' hused

section MarkedPair

variable {s₂ : Heap} {bs₂ bs₃ : List BlockHeader} {a₁ a₂ : Nat} {b₁ b₂ : BlockHeader} (hm : MarkedPair n s₂ bs₂ a₁ b₁ a₂ b₂ bs₃)
  (hkeeps : s.Keeps (fun a b => busy a b ∧ a + 8 ≠ a₁ + 8 ∧ a + 8 ≠ a₂ + 8) bs s₂ bs₂)
include hm hkeeps

theorem MarkedPair.keeps_busy :
    s.Keeps (fun a b => busy a b ∧ a ≠ a₁ ∧ a ≠ a₂) bs (marked (a₁ + 8) (a₂ + 8) s₂) bs₃ :=
  (hkeeps.mono fun a b hP => ⟨hP.1, by omega⟩).trans (hm.keeps.mono fun a b hP => hP.2)

/-- The two new blocks take the place of free ones, and are not reported. -/
theorem MarkedPair.usedBlocks (h : WellFormed s bs) (hfresh₁ : ∀ c, s.At bs a₁ c → c.state = BlockState.free.code)
    (hfresh₂ : ∀ c, s.At bs a₂ c → c.state = BlockState.free.code) :
    CMalloc.usedBlocks s bs = CMalloc.usedBlocks (marked (a₁ + 8) (a₂ + 8) s₂) bs₃ := by
  refine usedBlocks_marked a₁ a₂ h hm.wellFormed (hm.keeps_busy hkeeps) (fun a b ha hb => ?_) fun a b ha hb => ?_
  · rcases ha with rfl | rfl
    · exact hfresh₁ b hb
    · exact hfresh₂ b hb
  · rcases ha with rfl | rfl
    · rw [hm.wellFormed.unique hb hm.first.at_block]
    · rw [hm.wellFormed.unique hb hm.second.at_block]

end MarkedPair

theorem report_empty (h : WellFormed s bs) (hi : s.initialized = true) (hnone : (usedBlocks s bs).length = 0) :
    ∃ info, report 0 null null s = some (0, info, s) ∧ InfoResult s bs 0 info s bs := by
  obtain ⟨c, hrun, hc⟩ := fill_spec null null h
    (fun a b _ x _ _ base _ => by omega) (.inl (Nat.le_refl _)) hnone
  have hmem : c.mem = s.mem := by
    funext x
    exact hc.changed x fun b _ => by omega
  have hindex : c.index = 0 := hc.index_eq.trans hnone
  refine ⟨⟨0, null, null, c.freeSpace, c.largestFreeChunk⟩, ?_, h, hi, Keeps.refl, .inr ⟨rfl, hnone.symm,
    .inl ⟨rfl, rfl, rfl⟩⟩⟩
  simp only [report, hrun, Option.bind_some, hindex, if_true, Nat.lt_irrefl, if_false, hmem]

theorem report_spec {a₁ a₂ : Nat} {b₁ b₂ : BlockHeader} (h : WellFormed s bs) (h₁ : ArrayBlock s bs n a₁ b₁)
    (h₂ : ArrayBlock s bs n a₂ b₂) (hne : a₁ ≠ a₂) (hpos : 0 < n) (hn : (usedBlocks s bs).length = n) :
    ∃ info s' bs', report n (a₁ + 8) (a₂ + 8) s = some (0, info, s') ∧ info.numAllocs = n ∧
      info.sizeArray = a₁ + 8 ∧ info.ptrArray = a₂ + 8 ∧ WellFormed s' bs' ∧ s'.initialized = true ∧
      s.Keeps (fun a b => busy a b ∧ a ≠ a₁ ∧ a ≠ a₂) bs s' bs' ∧ s'.At bs' a₁ b₁ ∧ s'.At bs' a₂ b₂ ∧
      (slice s'.mem (a₁ + 8) (a₂ + 8) 0 n).Perm ((usedBlocks s bs).map entry) ∧
      Descending (slice s'.mem (a₁ + 8) (a₂ + 8) 0 n) := by
  have hle := h.count_le
  have hlast := h.last_lt
  obtain ⟨c, hrun, hc⟩ := fill_spec _ _ h (offHeaders h h₁ h₂) (h₁.apart h₂ hne) hn
  have hindex : c.index = n := hc.index_eq.trans hn
  obtain ⟨hwf₁, hkeeps₁⟩ := h.writeArrays [(a₁, b₁), (a₂, b₂)] (by simp [h₁, h₂]) hc.changed
  obtain ⟨s', bs', hsort, hwf', hinit', hkeeps', hb₁, hb₂, hperm, hsorted⟩ := sortDescending_spec hwf₁
    ⟨h₁.at_block, h₁.busy, h₁.room⟩ ⟨h₂.at_block, h₂.busy, h₂.room⟩ hne (by omega) hpos
  have hstored : slice c.mem (a₁ + 8) (a₂ + 8) 0 c.index = (usedBlocks s bs).map entry := hc.stored
  rw [hindex] at hstored
  refine ⟨⟨n, a₁ + 8, a₂ + 8, c.freeSpace, c.largestFreeChunk⟩, s', bs', ?_, rfl, rfl, rfl, hwf', hinit',
    (hkeeps₁.mono fun a b hP => by simpa using hP.2).trans hkeeps', hb₁.at_block, hb₂.at_block, ?_, hsorted⟩
  · simp only [report, hrun, Option.bind_some, hindex, if_true, if_pos hpos, hsort]
  · rw [← hstored]
    exact hperm

/-- `heap_info` returns on every heap on which `init` has run. -/
theorem heapInfo_spec (h : WellFormed s bs) (hi : s.initialized = true) :
    ∃ ret info s' bs', heapInfo s = some (ret, info, s') ∧ InfoResult s bs ret info s' bs' := by
  have hle := h.count_le
  have hlast := h.last_lt
  have hcount := countUsed_eq h
  by_cases hpos : 0 < (usedBlocks s bs).length
  · let n := (usedBlocks s bs).length
    have hsize : 8 * n % 2 ^ 64 = 8 * n := by
      simp only [n]
      omega
    obtain ⟨p, s₁, q, s₂, bs₂, hrun₁, hrun₂, hwf₂, hinit₂, hkeeps₂, hp, hq, hpq⟩ :=
      malloc_pair (n := 8 * n) h (by omega) (by omega) (by omega)
    have hrun : heapInfo s =
        if p = null ∨ q = null then some (-1, .zero, free q (free p s₂))
        else report n p q { s₂ with
          mem := setState (setState s₂.mem (headerOf p) .internal) (headerOf q) .internal } := by
      simp only [heapInfo, hi, Bool.true_eq_false, if_false, hcount, Option.bind_some, if_pos hpos]
      rw [hsize, hrun₁]
      simp only [Option.bind_some, hrun₂]
      rfl
    by_cases hnull : p = null ∨ q = null
    · have hlocated {p : Nat} (hp : Fresh (8 * n) s bs p s₂ bs₂) :
          p = null ∨ ∃ a b, p = a + 8 ∧ s₂.At bs₂ a b :=
        hp.imp_right fun ⟨a, b, ha, hnew, _⟩ => ⟨a, b, ha, hnew.at_new⟩
      obtain ⟨bs₃, hwf₃, hkeeps₃, hfree₃⟩ := freePair hwf₂ (hlocated hp) (hlocated hq) hpq
      refine ⟨-1, .zero, _, bs₃, by rw [hrun, if_pos hnull], hwf₃, ?_, ?_, .inl ⟨rfl, rfl⟩⟩
      · have hinit (p : Nat) (s : Heap) : (free p s).initialized = s.initialized := by
          rw [free]
          split <;> rfl
        rw [hinit, hinit, hinit₂]
      · refine Keeps.widen (R := fun a => a + 8 = p ∨ a + 8 = q) ?_ (fun a b ha hP hb => ?_)
          (fun a b ha hP hb => hfree₃ a b ha hb hP.1)
        · exact (hkeeps₂.mono fun a b hP => ⟨hP.1.1, by omega⟩).trans (hkeeps₃.mono fun a b hP => by omega)
        · rcases ha with ha | ha
          · exact hp.busy_ne hb hP.1 ha
          · exact hq.busy_ne hb hP.1 ha
    · obtain ⟨hp₀, hq₀⟩ := not_or.mp hnull
      obtain ⟨a₁, b₁, a₂, b₂, bs₃, ⟨rfl, hnew₁, hexact₁⟩, ⟨rfl, hnew₂, hexact₂⟩, hne, hmarked⟩ := hp.markPair hwf₂ hq hpq hp₀ hq₀
      have hkeeps₁₃ := hmarked.keeps_busy hkeeps₂
      have hcount₃ := hmarked.usedBlocks hkeeps₂ h hnew₁.fresh hnew₂.fresh
      obtain ⟨info, s', bs', hreport, hnum, hsizes, hptrs, hwf', hinit', hkeeps', hb₁, hb₂, hperm, hsorted⟩ :=
        report_spec (n := n) hmarked.wellFormed hmarked.first hmarked.second hne hpos (by rw [← hcount₃])
      rw [← hcount₃] at hperm
      refine ⟨0, info, s', bs', ?_, hwf', hinit', ?_, .inr ⟨rfl, hnum, .inr ⟨a₁, _, a₂, _, hsizes, hptrs, hne,
        ⟨hb₁, rfl, ?_, hnew₁.fresh⟩, ⟨hb₂, rfl, ?_, hnew₂.fresh⟩, ?_, ?_⟩⟩⟩
      · rw [hrun, if_neg hnull]
        exact hreport
      · rw [hsizes, hptrs]
        refine (hkeeps₁₃.mono fun a b hP => ⟨hP.1, ?_⟩).trans (hkeeps'.mono fun a b hP => ⟨hP.1, ?_⟩)
        · omega
        · omega
      · rw [hnum]
        exact hexact₁
      · rw [hnum]
        exact hexact₂
      · rw [hnum, hsizes, hptrs]
        exact hperm
      · rw [hnum, hsizes, hptrs]
        exact hsorted
  · have hnone : (usedBlocks s bs).length = 0 := by omega
    obtain ⟨info, hrun, hres⟩ := report_empty h hi hnone
    refine ⟨0, info, s, bs, ?_, hres⟩
    simp only [heapInfo, hi, Bool.true_eq_false, if_false, hcount, Option.bind_some]
    rw [if_neg hpos, hnone, hrun]

end WeensyOS.CMalloc
