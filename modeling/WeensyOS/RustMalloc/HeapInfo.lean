import WeensyOS.RustMalloc.Calls

namespace WeensyOS.RustMalloc

open ByteMemory Loop WordArray LibC ProgramBreak Tiling Tiling.Layout BlockHeap

variable {s s' : Heap} {bs bs' : List Header} {a a₁ a₂ n : Nat} {b b₁ b₂ : Header}

def usedBlocks (s : Heap) (bs : List Header) : List (Nat × Header) := listed format Header.isUsed s.heapStart bs

/-- What `heap_info` reports of a block at `p.1` with header `p.2`. -/
def entry (p : Nat × Header) : Nat × Nat := (payloadSize p.2, payloadOf p.1)

theorem isUsed_iff : b.isUsed = true ↔ b.state = BlockState.used.code := decide_eq_true_iff

theorem count_le (h : WellFormed s bs) : 16 * (usedBlocks s bs).length < 3141632 :=
  Nat.lt_of_le_of_lt h.region.count_le h.end_lt

theorem asI32_eq (h : n < 2 ^ 31) : asI32 n = n := by
  rw [asI32, BitVec.toInt_ofNat', Int.bmod_eq_of_le (by omega) (by omega)]

theorem countBlocks_eq (h : WellFormed s bs) :
    ∃ c, countBlocks s = some c ∧ c.numAllocs = (usedBlocks s bs).length := by
  have hvisit := h.region.tiles.visit_eq h.region.positive (Nat.lt_trans h.end_lt (by omega))
    (fun (c : Counts) _ (b : Header) => c.add b) ⟨0, 0, 0⟩
  refine ⟨_, congrArg (fun r : Option (Counts × Nat) => r.bind fun c => some c.1) hvisit, ?_⟩
  have hadd (c : Counts) (p : Nat × Header) :
      (if p.2.isUsed then c.numAllocs + 1 else c.numAllocs) = (c.add p.2).numAllocs := by
    by_cases hused : p.2.state = BlockState.used.code
    · rw [Counts.add, if_pos (isUsed_iff.mpr hused), if_pos hused]
    · rw [Counts.add, if_neg (mt isUsed_iff.mp hused), if_neg hused]
      split <;> rfl
  have hcount := foldl_count Header.isUsed (format.located s.heapStart bs) 0
  rw [Nat.zero_add] at hcount
  exact (List.foldl_hom Counts.numAllocs hadd).symm.trans hcount

/-- Before a round of the second pass: the entries of the blocks `xs` are stored. -/
abbrev Filled (s : Heap) (sizeArray ptrArray n : Nat) (xs : List Header) (c : Pass) : Prop :=
  Filling format Header.isUsed entry s.mem s.heapStart sizeArray ptrArray n xs c.mem c.i c.block

theorem fillStep_used (sizeArray ptrArray : Nat) {c : Pass} (hb : headerAt c.mem c.block = b)
    (hused : b.state = BlockState.used.code) :
    fillStep sizeArray ptrArray c =
      ⟨setPair c.mem sizeArray ptrArray c.i (payloadSize b) (payloadOf c.block),
        nextBlock (setPair c.mem sizeArray ptrArray c.i (payloadSize b) (payloadOf c.block)) c.block, c.i + 1⟩ := by
  simp only [fillStep, hb, if_pos hused, setPair]

theorem fillStep_other (sizeArray ptrArray : Nat) {c : Pass} (hb : headerAt c.mem c.block = b)
    (hused : b.state ≠ BlockState.used.code) :
    fillStep sizeArray ptrArray c = ⟨c.mem, nextBlock c.mem c.block, c.i⟩ := by
  simp only [fillStep, hb, if_neg hused]

theorem Filled.step {sizeArray ptrArray : Nat} {xs ys : List Header} {c : Pass} (h : WellFormed s (xs ++ b :: ys))
    (ho : OffHeaders format s.heapStart (xs ++ b :: ys) [sizeArray, ptrArray] n) (hd : Apart n sizeArray ptrArray)
    (hn : (usedBlocks s (xs ++ b :: ys)).length = n) (hc : Filled s sizeArray ptrArray n xs c) :
    Filled s sizeArray ptrArray n (xs ++ [b]) (fillStep sizeArray ptrArray c) := by
  have hat : s.At (xs ++ b :: ys) c.block b := by
    rw [hc.cur_eq]
    simp [Heap.At]
  have hbd := h.bounds hat
  have hend := h.end_lt
  have hheader : headerAt c.mem c.block = b := hc.header h.region ho
  have hnext (m : Memory) (hm : headerAt m c.block = b) : nextBlock m c.block = c.block + b.size := by
    rw [nextBlock, hm, Nat.mod_eq_of_lt (by omega)]
  by_cases hused : b.state = BlockState.used.code
  · have hb := isUsed_iff.mpr hused
    have hlt := hc.index_lt hn hb
    have hstore := hc.store hd hlt hb rfl (Nat.mod_lt _ (by omega) : payloadSize b < 2 ^ 64)
      (Nat.mod_lt _ (by omega) : payloadOf c.block < 2 ^ 64)
    have hsame := ho.header h.region hstore.changed hat
    rw [fillStep_used _ _ hheader hused, hnext _ hsame]
    exact hstore
  · rw [fillStep_other _ _ hheader hused, hnext _ hheader]
    exact hc.pass (mt isUsed_iff.mp hused)

theorem fill_spec (h : WellFormed s bs) (h₁ : ArrayBlock format s.heapStart bs n a₁ b₁)
    (h₂ : ArrayBlock format s.heapStart bs n a₂ b₂) (hne : a₁ ≠ a₂) (hn : (usedBlocks s bs).length = n) :
    ∃ c, fill (a₁ + 16) (a₂ + 16) n s = some c ∧ ChangedAt [a₁ + 16, a₂ + 16] 0 n s.mem c.mem ∧
      slice c.mem (a₁ + 16) (a₂ + 16) 0 n = (usedBlocks s bs).map entry := by
  have hend := h.end_lt
  have hoff : OffHeaders format s.heapStart bs [a₁ + 16, a₂ + 16] n := offHeaders h.region h₁ h₂
  have hapart : Apart n (a₁ + 16) (a₂ + 16) := h₁.apart h₂ hne
  have hstart : Filled s (a₁ + 16) (a₂ + 16) n [] ⟨s.mem, s.heapStart, 0⟩ := Filling.start
  obtain ⟨c, hrun, ⟨xs, ys, rfl, hc⟩, hstop⟩ := cwhile_rule
    (fun c : Pass => c.block < s.heapEnd ∧ c.i < n) (fun c => some (fillStep (a₁ + 16) (a₂ + 16) c))
    (fun c => ∃ xs ys, bs = xs ++ ys ∧ Filled s (a₁ + 16) (a₂ + 16) n xs c)
    (fun c => s.heapEnd - c.block)
    (by
      rintro c ⟨xs, ys, rfl, hc⟩ ⟨hlt, -⟩
      have hcur := hc.cur_eq
      have htop := h.region.tiles.end_eq
      rw [total_append] at htop
      cases ys with
      | nil =>
          rw [total_nil] at htop
          omega
      | cons b ys =>
          have hnext := Filled.step h hoff hapart hn hc
          have hpos := h.region.positive b (by simp)
          have hcur' := hnext.cur_eq
          rw [total_append, total_cons, total_nil] at hcur'
          rw [total_cons] at htop
          exact ⟨_, rfl, ⟨xs ++ [b], ys, by simp, hnext⟩, by omega⟩)
    ⟨[], bs, rfl, hstart⟩ (by simp only; omega)
  have hindex : c.i = n := by
    have hle : c.i ≤ n := by
      rw [hc.index_eq, ← hn, usedBlocks, listed, listed, located_append, List.filter_append, List.length_append]
      exact Nat.le_add_right _ _
    have hcur := hc.cur_eq
    have htop := h.region.tiles.end_eq
    rw [total_append] at htop
    cases ys with
    | nil =>
        rw [List.append_nil] at hn
        rw [hc.index_eq]
        exact hn
    | cons b ys =>
        have hpos := h.region.positive b (by simp)
        rw [total_cons] at htop
        omega
  refine ⟨c, hrun, hc.changed, ?_⟩
  rw [Filled, hindex] at hc
  exact hc.full hn

/-- The heap once the two arrays are marked as the library's own. -/
def marked (p q : Nat) (s : Heap) : Heap :=
  { s with mem := setState (setState s.mem (blockOf p) .internal) (blockOf q) .internal }

/-- The blocks of the two arrays have been marked, and the others are as they were. -/
structure MarkedPair (n : Nat) (s : Heap) (bs : List Header) (a₁ : Nat) (b₁ : Header) (a₂ : Nat) (b₂ : Header)
    (bs' : List Header) : Prop where
  wellFormed : WellFormed (marked (a₁ + 16) (a₂ + 16) s) bs'
  first : ArrayBlock format s.heapStart bs' n a₁ { b₁ with state := BlockState.internal.code }
  second : ArrayBlock format s.heapStart bs' n a₂ { b₂ with state := BlockState.internal.code }
  keeps : s.Keeps (fun a _ => a ≠ a₁ ∧ a ≠ a₂) bs (marked (a₁ + 16) (a₂ + 16) s) bs'

theorem busy_internal (b : Header) : format.busy { b with state := BlockState.internal.code } := by
  have hne : BlockState.internal.code ≠ BlockState.free.code := by decide
  exact hne

theorem markPair (h : WellFormed s bs) (h₁ : ArrayBlock format s.heapStart bs n a₁ b₁)
    (h₂ : ArrayBlock format s.heapStart bs n a₂ b₂) (hne : a₁ ≠ a₂) : ∃ bs', MarkedPair n s bs a₁ b₁ a₂ b₂ bs' := by
  obtain ⟨bs₁, hwf₁, hat₁, hkeeps₁⟩ := h.setState h₁.at_block .internal
  obtain ⟨bs₂, hwf₂, hat₂, hkeeps₂⟩ := hwf₁.setState ((hkeeps₁ a₂ b₂ (Ne.symm hne)).1.mp h₂.at_block) .internal
  have hmarked : marked (a₁ + 16) (a₂ + 16) s = { s with mem := setState (setState s.mem a₁ .internal) a₂ .internal } := by
    rw [marked, h.blockOf_payload h₁.at_block, h.blockOf_payload h₂.at_block]
  refine ⟨bs₂, ?_, ⟨(hkeeps₂ a₁ _ hne).1.mp hat₁, busy_internal b₁, h₁.room⟩, ⟨hat₂, busy_internal b₂, h₂.room⟩, ?_⟩
  · rw [hmarked]
    exact hwf₂
  · rw [hmarked]
    exact (hkeeps₁.mono fun a b hP => hP.1).trans (hkeeps₂.mono fun a b hP => hP.2)

theorem fill_sort_spec (h : WellFormed s bs) (h₁ : ArrayBlock format s.heapStart bs n a₁ b₁)
    (h₂ : ArrayBlock format s.heapStart bs n a₂ b₂) (hne : a₁ ≠ a₂) (hn : (usedBlocks s bs).length = n) :
    ∃ m', ((fill (a₁ + 16) (a₂ + 16) n s).bind fun p => sortDescending (a₁ + 16) (a₂ + 16) n p.mem) = some m' ∧
      WellFormed { s with mem := m' } bs ∧
      s.Keeps (fun a _ => a ≠ a₁ ∧ a ≠ a₂) bs { s with mem := m' } bs ∧
      (slice m' (a₁ + 16) (a₂ + 16) 0 n).Perm ((usedBlocks s bs).map entry) ∧
      Descending (slice m' (a₁ + 16) (a₂ + 16) 0 n) := by
  have hle := count_le h
  obtain ⟨c, hfill, hchanged, hslice⟩ := fill_spec h h₁ h₂ hne hn
  obtain ⟨m', hsort, hchanged', hperm, hsorted⟩ := SelectionSort.selectionSort_spec (m := c.mem)
    (fun m i j hi hj => SelectionSort.swapPair_swapped (h₁.apart h₂ hne) hi hj) (by omega)
  have hall := hchanged.trans hchanged'
  obtain ⟨hregion, hkeeps⟩ := h.region.writeArrays [(a₁, b₁), (a₂, b₂)] (by simp [h₁, h₂]) hall
  refine ⟨m', by rw [hfill]; exact hsort, h.withMem hregion, hkeeps.mono fun a b hP => by simpa using hP, ?_, hsorted⟩
  rw [← hslice]
  exact hperm

/-- One of the two arrays that `heap_info` hands out. -/
structure MetaBlock (n : Nat) (s : Heap) (bs : List Header) (s' : Heap) (bs' : List Header) (a : Nat) (b : Header) :
    Prop where
  at_block : s'.At bs' a b
  internal : b.state = BlockState.internal.code
  room : 8 * n + 16 ≤ b.size
  fresh : ∀ c, s.At bs a c → ¬format.busy c

theorem MetaBlock.busy (h : MetaBlock n s bs s' bs' a b) : format.busy b := by
  intro hfree
  exact absurd (h.internal.symm.trans hfree) (by decide)

/-- The arrays of a report on the blocks `bs`. -/
def Listed (s : Heap) (bs : List Header) (info : HeapInfo) (s' : Heap) (bs' : List Header) : Prop :=
  ∃ a₁ b₁ a₂ b₂, info.sizeArray = a₁ + 16 ∧ info.ptrArray = a₂ + 16 ∧ a₁ ≠ a₂ ∧
    MetaBlock (usedBlocks s bs).length s bs s' bs' a₁ b₁ ∧ MetaBlock (usedBlocks s bs).length s bs s' bs' a₂ b₂ ∧
    (slice s'.mem info.sizeArray info.ptrArray 0 (usedBlocks s bs).length).Perm ((usedBlocks s bs).map entry) ∧
    Descending (slice s'.mem info.sizeArray info.ptrArray 0 (usedBlocks s bs).length)

structure InfoResult (s : Heap) (bs : List Header) (ret : Int) (info : HeapInfo) (s' : Heap) (bs' : List Header) :
    Prop where
  wellFormed : WellFormed s' bs'
  keeps : s.Keeps (fun a b => busy a b ∧ a + 16 ≠ info.sizeArray ∧ a + 16 ≠ info.ptrArray) bs s' bs'
  cases : ret = -1 ∧ info = ⟨0, 0, 0, 0, 0⟩ ∨ ret = 0 ∧ info.numAllocs = (usedBlocks s bs).length ∧
    (info.numAllocs = 0 ∧ info.sizeArray = 0 ∧ info.ptrArray = 0 ∨ Listed s bs info s' bs')

theorem usedBlocks_marked (h : WellFormed s bs) (h' : WellFormed s' bs')
    (hk : s.Keeps (fun a b => busy a b ∧ a ≠ a₁ ∧ a ≠ a₂) bs s' bs')
    (hold : ∀ a b, a = a₁ ∨ a = a₂ → s.At bs a b → ¬format.busy b)
    (hnew : ∀ a b, a = a₁ ∨ a = a₂ → s'.At bs' a b → b.state = BlockState.internal.code) :
    usedBlocks s bs = usedBlocks s' bs' := by
  refine listed_eq h.region h'.region (Keeps.widen (R := fun a => a = a₁ ∨ a = a₂) ?_ ?_ ?_)
  · refine hk.mono fun a b hP => ⟨fun hfree => ?_, by omega⟩
    exact absurd ((isUsed_iff.mp hP.1).symm.trans hfree) (by decide)
  · intro a b ha hused hb
    refine hold a b ha hb fun hfree => ?_
    exact absurd ((isUsed_iff.mp hused).symm.trans hfree) (by decide)
  · intro a b ha hused hb
    exact absurd ((isUsed_iff.mp hused).symm.trans (hnew a b ha hb)) (by decide)

section MarkedPair

variable {s₂ : Heap} {bs₂ bs₃ : List Header} (hm : MarkedPair n s₂ bs₂ a₁ b₁ a₂ b₂ bs₃)
  (hkeeps : s.Keeps (fun a b => busy a b ∧ a + 16 ≠ a₁ + 16 ∧ a + 16 ≠ a₂ + 16) bs s₂ bs₂)
include hm hkeeps

theorem MarkedPair.keeps_busy :
    s.Keeps (fun a b => busy a b ∧ a ≠ a₁ ∧ a ≠ a₂) bs (marked (a₁ + 16) (a₂ + 16) s₂) bs₃ :=
  (hkeeps.mono fun a b hP => ⟨hP.1, by omega⟩).trans (hm.keeps.mono fun a b hP => hP.2)

/-- The two new blocks take the place of free ones, and are not reported. -/
theorem MarkedPair.usedBlocks (h : WellFormed s bs) (hfresh₁ : ∀ c, s.At bs a₁ c → ¬format.busy c)
    (hfresh₂ : ∀ c, s.At bs a₂ c → ¬format.busy c) :
    RustMalloc.usedBlocks s bs = RustMalloc.usedBlocks (marked (a₁ + 16) (a₂ + 16) s₂) bs₃ := by
  refine usedBlocks_marked h hm.wellFormed (hm.keeps_busy hkeeps) (fun a b ha hb => ?_) fun a b ha hb => ?_
  · rcases ha with rfl | rfl
    · exact hfresh₁ b hb
    · exact hfresh₂ b hb
  · rcases ha with rfl | rfl
    · rw [hm.wellFormed.region.unique hb hm.first.at_block]
    · rw [hm.wellFormed.region.unique hb hm.second.at_block]

end MarkedPair

theorem heapInfo_listed {s₂ : Heap} {bs₂ : List Header} {p q : Nat} (h : WellFormed s bs) (h₂ : WellFormed s₂ bs₂)
    (hstart : s₂.heapStart ≠ 0) (hk : s.Keeps (fun a b => busy a b ∧ a + 16 ≠ p ∧ a + 16 ≠ q) bs s₂ bs₂)
    (hp : Fresh format (Allocated (8 * n)) s.heapStart bs p s₂.heapStart bs₂)
    (hq : Fresh format (Allocated (8 * n)) s.heapStart bs q s₂.heapStart bs₂) (hp0 : p ≠ 0) (hq0 : q ≠ 0)
    (hpq : p ≠ q) (hn : (usedBlocks s bs).length = n) (x y : Int) :
    ∃ s' bs', (let t := heapBounds { s₂ with mem := setState (setState s₂.mem (blockOf p) .internal) (blockOf q) .internal }
        (fill p q n t).bind fun c => (sortDescending p q n c.mem).bind fun m =>
          some ((0 : Int), (⟨asI32 n, p, q, x, y⟩ : HeapInfo), { t with mem := m })) =
        some (0, ⟨asI32 n, p, q, x, y⟩, s') ∧ InfoResult s bs 0 ⟨asI32 n, p, q, x, y⟩ s' bs' := by
  have hle := count_le h
  rcases hp with hp | ⟨a₁, b₁, rfl, hb₁, hnew₁, hfresh₁⟩
  · exact absurd hp hp0
  rcases hq with hq | ⟨a₂, b₂, rfl, hb₂, hnew₂, hfresh₂⟩
  · exact absurd hq hq0
  rw [format_width] at *
  have hne : a₁ ≠ a₂ := by omega
  obtain ⟨bs₃, hmarked⟩ := markPair (n := n) h₂ ⟨hb₁, hnew₁.busy, hnew₁.2⟩ ⟨hb₂, hnew₂.busy, hnew₂.2⟩ hne
  let t := marked (a₁ + 16) (a₂ + 16) s₂
  have hbounds : heapBounds t = t := heapBounds_eq hstart
  have hkeeps := hmarked.keeps_busy hk
  have hcount := hmarked.usedBlocks hk h hfresh₁ hfresh₂
  obtain ⟨m', hrun, hwf', hkeeps', hperm, hsorted⟩ := fill_sort_spec (n := n) hmarked.wellFormed hmarked.first
    hmarked.second hne (by rw [← hcount, hn])
  obtain ⟨c, hfill, hsort⟩ := Option.bind_eq_some_iff.mp hrun
  refine ⟨{ t with mem := m' }, bs₃, ?_, hwf', ?_, .inr ⟨rfl, ?_, .inr ⟨a₁, _, a₂, _, rfl, rfl, hne,
    ⟨hmarked.first.at_block, rfl, ?_, hfresh₁⟩, ⟨hmarked.second.at_block, rfl, ?_, hfresh₂⟩, ?_, ?_⟩⟩⟩
  · simp only
    have ht : heapBounds { s₂ with
        mem := setState (setState s₂.mem (blockOf (a₁ + 16)) .internal) (blockOf (a₂ + 16)) .internal } = t := hbounds
    rw [ht, hfill, Option.bind_some, hsort]
    rfl
  · refine (hkeeps.mono fun a b hP => ⟨hP.1, ?_⟩).trans (hkeeps'.mono fun a b hP => ?_)
    · have hP2 := hP.2
      simp only at hP2
      omega
    · have hP2 := hP.2
      simp only at hP2
      omega
  · rw [hn]
    exact asI32_eq (by omega)
  · rw [hn]
    exact hnew₁.2
  · rw [hn]
    exact hnew₂.2
  · rw [hn, hcount]
    exact hperm
  · rw [hn]
    exact hsorted

/-- `heap_info` returns on every heap. -/
theorem heapInfo_spec (h : WellFormed s bs) :
    ∃ ret info s' bs', heapInfo s = some (ret, info, s') ∧ InfoResult s bs ret info s' bs' := by
  have hwf := h.heapBounds
  have hle := count_le hwf
  have hused : usedBlocks (heapBounds s) bs = usedBlocks s bs :=
    (listed_eq h.region hwf.region (heapBounds_keeps h _)).symm
  have hstart := heapBounds_keeps h fun a b => busy a b
  obtain ⟨c, hrun, hcount⟩ := countBlocks_eq hwf
  rw [hused] at hcount hle
  by_cases hzero : c.numAllocs = 0
  · refine ⟨0, ⟨0, 0, 0, asI32 c.freeSpace, asI32 c.largestFreeChunk⟩, heapBounds s, bs, ?_, hwf,
      heapBounds_keeps h _, .inr ⟨rfl, ?_, .inl ⟨rfl, rfl, rfl⟩⟩⟩
    · simp only [heapInfo, hrun, Option.bind_some, if_pos hzero]
    · simp only [← hcount, hzero]
      rfl
  · have hmul : c.numAllocs * 8 % 2 ^ 64 = 8 * c.numAllocs := by omega
    have hn : 8 * c.numAllocs ≠ 0 := by omega
    have hsound (t : Heap) : Sound (8 * c.numAllocs) t := by
      have hlt := t.breaks.lt_limit
      simp only [Sound, pageCeil, needed]
      omega
    obtain ⟨p, s₁, bs₁, hrun₁, hres₁⟩ := malloc_spec hwf hn (hsound _)
    by_cases hp0 : p = 0
    · refine ⟨-1, ⟨0, 0, 0, 0, 0⟩, s₁, bs₁, ?_, hres₁.wellFormed, ?_, .inl ⟨rfl, rfl⟩⟩
      · simp only [heapInfo, hrun, Option.bind_some, if_neg hzero, hmul, hrun₁, if_pos hp0, failHeapInfo]
      · exact (heapBounds_keeps h _).trans (hres₁.keeps.mono fun a b hP => ⟨hP.1, by omega⟩)
    · obtain ⟨q, s₂, bs₂, hrun₂, hres₂⟩ := malloc_spec hres₁.wellFormed hn (hsound _)
      obtain ⟨hkeeps, hp, hq, hpq⟩ := Fresh.pair (fun b => Allocated.busy) hres₁.keeps hres₂.keeps hres₁.fresh hres₂.fresh
      by_cases hq0 : q = 0
      · have hlocated : p = 0 ∨ ∃ a b, p = a + 16 ∧ s₂.At bs₂ a b := by
          refine hp.imp_right ?_
          rintro ⟨a, b, ha, hb, -⟩
          exact ⟨a, b, ha, hb⟩
        obtain ⟨bs₃, hwf₃, hkeeps₃, hfree₃⟩ := free_keeps hres₂.wellFormed hlocated
        refine ⟨-1, ⟨0, 0, 0, 0, 0⟩, free p s₂, bs₃, ?_, hwf₃, ?_, .inl ⟨rfl, rfl⟩⟩
        · simp only [heapInfo, hrun, Option.bind_some, if_neg hzero, hmul, hrun₁, if_neg hp0, hrun₂, if_pos hq0,
            failHeapInfo]
        · refine (heapBounds_keeps h _).trans (Keeps.mono (P := fun _ b => format.busy b) ?_ fun a b hP => hP.1)
          refine Keeps.widen (R := fun a => a + 16 = p) ?_ (fun a b ha hbusy hb => ?_) fun a b ha hbusy hb => ?_
          · refine (hkeeps.mono fun a b hP => ⟨hP.1, hP.2, ?_⟩).trans (hkeeps₃.mono fun a b hP => hP.2)
            rw [hq0]
            exact Nat.succ_ne_zero _
          · exact hp.busy_ne hb hbusy ha
          · exact hfree₃ a b ha hb hbusy
      · have hstart₂ := hres₂.started
        have hfirst (r : Nat) (hr : Fresh format (Allocated (8 * c.numAllocs)) (heapBounds s).heapStart bs r s₂.heapStart bs₂) :
            Fresh format (Allocated (8 * c.numAllocs)) s.heapStart bs r s₂.heapStart bs₂ := by
          refine hr.imp_right ?_
          rintro ⟨a, b, ha, hb, hnew, hfresh⟩
          exact ⟨a, b, ha, hb, hnew, fun d hd => hfresh d ((heapBounds_at h a d).mpr hd)⟩
        obtain ⟨s', bs', hrest, hres⟩ := heapInfo_listed h hres₂.wellFormed hstart₂
          ((heapBounds_keeps h _).trans hkeeps) (hfirst p hp) (hfirst q hq) hp0 hq0 (fun he => hp0 (hpq he)) hcount.symm
          (asI32 c.freeSpace) (asI32 c.largestFreeChunk)
        refine ⟨0, _, s', bs', ?_, hres⟩
        simp only [heapInfo, hrun, Option.bind_some, if_neg hzero, hmul, hrun₁, if_neg hp0, hrun₂, if_neg hq0]
        exact hrest

end WeensyOS.RustMalloc
