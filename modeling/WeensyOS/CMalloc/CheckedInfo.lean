import WeensyOS.CMalloc.Runs

namespace WeensyOS.CMalloc

open ByteMemory Loop WordArray LibC ProgramBreak Tiling Tiling.Layout MergeSort

-- `heap_info` with every store to an array checked against the block that the array lies in.
namespace Checked

/-- `base[i] = v`, stopped unless element `i` lies in the payload of the block at `base`. -/
def setWord (m : Memory) (base i v : Nat) : Option Memory :=
  if 8 ≤ base ∧ base + 8 * (i + 1) ≤ headerOf base + (headerAt m (headerOf base)).size
    then some (WordArray.setWord m base i v) else none

def copyPair (m : Memory) (dstSizes dstPtrs k srcSizes srcPtrs i : Nat) : Option Memory :=
  (setWord m dstSizes k (word m srcSizes i)).bind fun m => setWord m dstPtrs k (word m srcPtrs i)

def takeLeft (a : Arrays) (c : Cursor) : Option Cursor :=
  (copyPair c.mem a.tmpSizes a.tmpPtrs c.k a.sizes a.ptrs c.i).bind fun m => some ⟨m, c.i + 1, c.j, c.k + 1⟩

def takeRight (a : Arrays) (c : Cursor) : Option Cursor :=
  (copyPair c.mem a.tmpSizes a.tmpPtrs c.k a.sizes a.ptrs c.j).bind fun m => some ⟨m, c.i, c.j + 1, c.k + 1⟩

def copyBack (a : Arrays) (lo hi : Nat) (m : Memory) : Option Memory :=
  (cwhile (fun c : Memory × Nat => c.2 < hi)
    (fun c => (copyPair c.1 a.sizes a.ptrs c.2 a.tmpSizes a.tmpPtrs c.2).bind fun m => some (m, c.2 + 1))
    (m, lo)).bind fun c => some c.1

def merge (a : Arrays) (lo mid hi : Nat) (m : Memory) : Option Memory :=
  (cwhile (fun c : Cursor => c.i < mid ∧ c.j < hi)
    (fun c => if signed (word c.mem a.sizes c.j) ≤ signed (word c.mem a.sizes c.i)
      then takeLeft a c else takeRight a c) ⟨m, lo, mid, lo⟩).bind fun c =>
  (cwhile (fun c : Cursor => c.i < mid) (takeLeft a) c).bind fun c =>
  (cwhile (fun c : Cursor => c.j < hi) (takeRight a) c).bind fun c =>
  copyBack a lo hi c.mem

def mergeSortDescending (a : Arrays) : Nat → Nat → Nat → Memory → Option Memory
  | 0, lo, hi, m => if hi - lo ≤ 1 then some m else none
  | depth + 1, lo, hi, m =>
      if hi - lo ≤ 1 then some m
      else
        let mid := lo + (hi - lo) / 2
        (mergeSortDescending a depth lo mid m).bind fun m =>
        (mergeSortDescending a depth mid hi m).bind fun m =>
        merge a lo mid hi m

def exchange (sizes ptrs : Nat) (m : Memory) (i maxIdx : Nat) : Option Memory :=
  if maxIdx ≠ i then
    let ts := word m sizes i
    (setWord m sizes i (word m sizes maxIdx)).bind fun m =>
    (setWord m sizes maxIdx ts).bind fun m =>
    let tp := word m ptrs i
    (setWord m ptrs i (word m ptrs maxIdx)).bind fun m =>
    setWord m ptrs maxIdx tp
  else some m

def selectionSort (sizes ptrs n : Nat) (m : Memory) : Option Memory :=
  (cwhile (fun c : Memory × Nat => c.2 < n)
    (fun c => (SelectionSort.largestFrom c.1 sizes n c.2).bind fun largest =>
      (exchange sizes ptrs c.1 c.2 largest).bind fun m => some (m, c.2 + 1)) (m, 0)).bind fun c => some c.1

def sortDescending (sizes ptrs n : Nat) (s : Heap) : Option Heap :=
  (malloc (8 * n % 2 ^ 64) s).bind fun (tmpSizes, s) =>
  (malloc (8 * n % 2 ^ 64) s).bind fun (tmpPtrs, s) =>
  (if tmpSizes ≠ null ∧ tmpPtrs ≠ null then
    let m := setState s.mem (headerOf tmpSizes) .internal
    let m := setState m (headerOf tmpPtrs) .internal
    mergeSortDescending ⟨sizes, ptrs, tmpSizes, tmpPtrs⟩ n 0 n m
  else selectionSort sizes ptrs n s.mem).bind fun m =>
  some (free tmpPtrs (free tmpSizes { s with mem := m }))

def fillStep (sizeArray ptrArray : Nat) (c : Pass) : Option Pass :=
  let h := headerAt c.mem c.cur
  (if h.state = BlockState.used.code then
    (setWord c.mem sizeArray c.index (usable h)).bind fun m =>
    (setWord m ptrArray c.index (payloadOf c.cur)).bind fun m =>
    some { c with mem := m, index := c.index + 1 }
  else if h.state = BlockState.free.code then
    some { c with
      freeSpace := c.freeSpace + h.size
      largestFreeChunk := if c.largestFreeChunk < h.size then h.size else c.largestFreeChunk }
  else some c).bind fun c =>
  some { c with cur := (c.cur + (headerAt c.mem c.cur).size) % 2 ^ 64 }

def fill (sizeArray ptrArray : Nat) (s : Heap) : Option Pass :=
  cwhile (fun c : Pass => c.cur < s.lastValidAddress) (fillStep sizeArray ptrArray)
    ⟨s.mem, 0, 0, 0, s.managedMemoryStart⟩

def report (numAllocs sizeArray ptrArray : Nat) (s : Heap) : Option (Int × HeapInfo × Heap) :=
  (fill sizeArray ptrArray s).bind fun c =>
  if c.index = numAllocs then
    (if 0 < numAllocs then sortDescending sizeArray ptrArray numAllocs { s with mem := c.mem }
      else some { s with mem := c.mem }).bind fun s =>
    some (0, ⟨numAllocs, sizeArray, ptrArray, c.freeSpace, c.largestFreeChunk⟩, s)
  else none

def heapInfo (s : Heap) : Option (Int × HeapInfo × Heap) :=
  if s.initialized = false then some (-1, .zero, s)
  else
    (countUsed s).bind fun numAllocs =>
    if 0 < numAllocs then
      (malloc (8 * numAllocs % 2 ^ 64) s).bind fun (sizeArray, s) =>
      (malloc (8 * numAllocs % 2 ^ 64) s).bind fun (ptrArray, s) =>
      if sizeArray = null ∨ ptrArray = null then
        some (-1, .zero, free ptrArray (free sizeArray s))
      else
        let m := setState s.mem (headerOf sizeArray) .internal
        let m := setState m (headerOf ptrArray) .internal
        report numAllocs sizeArray ptrArray { s with mem := m }
    else report numAllocs null null s

/-- The blocks of the arrays have room for `n` words, also after stores to these arrays. -/
def Sheltered (bases : List Nat) (n : Nat) (m : Memory) : Prop :=
  ∀ m', ChangedAt bases 0 n m m' → ∀ base ∈ bases, 8 ≤ base ∧ base < 2 ^ 64 ∧
    8 * n + 8 ≤ (headerAt m' (headerOf base)).size

variable {m m' : Memory} {bases : List Nat} {a : Arrays} {n base i k lo mid hi dS dP : Nat}

theorem Sheltered.changed (h : Sheltered bases n m) (hm : ChangedAt bases 0 n m m') : Sheltered bases n m' :=
  fun _ hm' => h _ (hm.trans hm')

theorem Sheltered.setWord_eq (h : Sheltered bases n m) (hbase : base ∈ bases) (hi : i < n) (v : Nat) :
    setWord m base i v = some (WordArray.setWord m base i v) := by
  obtain ⟨hge, hlt, hroom⟩ := h m ChangedAt.refl base hbase
  have hheader : headerOf base = base - 8 := by
    simp only [headerOf, sizeofHeader]
    omega
  rw [setWord, if_pos ⟨hge, by omega⟩]

theorem Sheltered.setWord (h : Sheltered bases n m) (hbase : base ∈ bases) (hi : i < n) (v : Nat) :
    Sheltered bases n (WordArray.setWord m base i v) := by
  apply h.changed
  intro x hx
  have hout := hx base hbase
  exact setWord_outside _ (by omega)

theorem Sheltered.copyPair_eq (h : Sheltered bases n m) (hS : dS ∈ bases) (hP : dP ∈ bases) (hk : k < n)
    (sS sP i : Nat) : copyPair m dS dP k sS sP i = some (MergeSort.copyPair m dS dP k sS sP i) := by
  rw [copyPair, h.setWord_eq hS hk, Option.bind_some, (h.setWord hS hk _).setWord_eq hP hk]
  rfl

theorem Sheltered.copyPair (h : Sheltered bases n m) (hS : dS ∈ bases) (hP : dP ∈ bases) (hk : k < n)
    (sS sP i : Nat) : Sheltered bases n (MergeSort.copyPair m dS dP k sS sP i) :=
  (h.setWord hS hk _).setWord hP hk _

theorem takeLeft_checked {c : Cursor} (h : Sheltered a.all n c.mem) (hrange : InRange lo mid hi c) (hhi : hi ≤ n)
    (hi' : c.i < mid) : takeLeft a c = some (MergeSort.takeLeft a c) ∧ Sheltered a.all n (MergeSort.takeLeft a c).mem := by
  have hj := hrange.j_le
  have hk := hrange.k_eq
  have hS : a.tmpSizes ∈ a.all := by simp [Arrays.all]
  have hP : a.tmpPtrs ∈ a.all := by simp [Arrays.all]
  refine ⟨?_, h.copyPair hS hP (by omega) _ _ _⟩
  rw [takeLeft, h.copyPair_eq hS hP (by omega)]
  rfl

theorem takeRight_checked {c : Cursor} (h : Sheltered a.all n c.mem) (hrange : InRange lo mid hi c) (hhi : hi ≤ n)
    (hj' : c.j < hi) : takeRight a c = some (MergeSort.takeRight a c) ∧ Sheltered a.all n (MergeSort.takeRight a c).mem := by
  have hi' := hrange.i_le
  have hk := hrange.k_eq
  have hS : a.tmpSizes ∈ a.all := by simp [Arrays.all]
  have hP : a.tmpPtrs ∈ a.all := by simp [Arrays.all]
  refine ⟨?_, h.copyPair hS hP (by omega) _ _ _⟩
  rw [takeRight, h.copyPair_eq hS hP (by omega)]
  rfl

theorem copyBack_checked (h : Sheltered a.all n m) (hhi : hi ≤ n) :
    copyBack a lo hi m = MergeSort.copyBack a lo hi m ∧
      ∀ m', MergeSort.copyBack a lo hi m = some m' → Sheltered a.all n m' := by
  have hS : a.sizes ∈ a.all := by simp [Arrays.all]
  have hP : a.ptrs ∈ a.all := by simp [Arrays.all]
  refine MergeSort.copyBack_checked (fun m x hm hx => ?_) h
  have hlt := Nat.lt_of_lt_of_le hx hhi
  exact ⟨by simp only [hm.copyPair_eq hS hP hlt, Option.bind_some], hm.copyPair hS hP hlt _ _ _⟩

theorem merge_checked (h : Sheltered a.all n m) (hlo : lo ≤ mid) (hmid : mid ≤ hi) (hhi : hi ≤ n) :
    merge a lo mid hi m = MergeSort.merge a lo mid hi m ∧
      ∀ m', MergeSort.merge a lo mid hi m = some m' → Sheltered a.all n m' := by
  refine MergeSort.merge_checked (fun c hc hrange hi' => takeLeft_checked hc hrange hhi hi')
    (fun c hc hrange hj' => takeRight_checked hc hrange hhi hj') (fun c hc hrange hi' hj' => ?_)
    (fun m hm => copyBack_checked hm hhi) hlo hmid h
  split
  · exact (takeLeft_checked hc hrange hhi hi').1
  · exact (takeRight_checked hc hrange hhi hj').1

theorem mergeSort_checked {depth : Nat} (h : Sheltered a.all n m) (hlo : lo ≤ hi) (hhi : hi ≤ n) :
    mergeSortDescending a depth lo hi m = MergeSort.mergeSortDescending a depth lo hi m :=
  (MergeSort.mergeSortDescending_checked (fun _ _ _ => rfl) (fun _ _ _ _ => rfl)
    (fun _ _ _ _ hlo hmid hhi hm => merge_checked hm hlo hmid hhi) hlo hhi h).1

theorem exchange_checked {sizes ptrs : Nat} (h : Sheltered [sizes, ptrs] n m) (hi : i < n) (hk : k < n) :
    exchange sizes ptrs m i k = some (CMalloc.exchange sizes ptrs m i k) ∧
      Sheltered [sizes, ptrs] n (CMalloc.exchange sizes ptrs m i k) := by
  have hS : sizes ∈ [sizes, ptrs] := by simp
  have hP : ptrs ∈ [sizes, ptrs] := by simp
  by_cases hne : k ≠ i
  · rw [exchange, CMalloc.exchange, if_pos hne, if_pos hne]
    have h₁ := h.setWord hS hi (word m sizes k)
    have h₂ := h₁.setWord hS hk (word m sizes i)
    have h₃ := h₂.setWord hP hi (word (WordArray.setWord (WordArray.setWord m sizes i (word m sizes k)) sizes k
      (word m sizes i)) ptrs k)
    constructor
    · simp only [h.setWord_eq hS hi, Option.bind_some, h₁.setWord_eq hS hk, h₂.setWord_eq hP hi,
        h₃.setWord_eq hP hk]
      rfl
    · exact h₃.setWord hP hk _
  · rw [exchange, CMalloc.exchange, if_neg hne, if_neg hne]
    exact ⟨rfl, h⟩

theorem selectionSort_checked {sizes ptrs : Nat} (h : Sheltered [sizes, ptrs] n m) (hn : n ≤ 2 ^ 64) :
    selectionSort sizes ptrs n m = SelectionSort.selectionSort (CMalloc.exchange sizes ptrs) sizes n m := by
  refine SelectionSort.selectionSort_checked (Sheltered [sizes, ptrs] n) (fun m i largest hm hi hlargest hrun => ?_) hn h
  obtain ⟨heq, hkept⟩ := exchange_checked hm hi hlargest
  exact ⟨by simp only [hrun, heq, Option.bind_some], hkept⟩

variable {s s' : Heap} {bs bs' : List BlockHeader}

theorem sheltered_of_blocks (h : WellFormed s bs) (blocks : List (Nat × BlockHeader))
    (hblocks : ∀ p ∈ blocks, ArrayBlock s bs n p.1 p.2) : Sheltered (blocks.map fun p => p.1 + 8) n s.mem := by
  intro m' hm' base hbase
  obtain ⟨p, hp, rfl⟩ := List.mem_map.mp hbase
  have hwf := (h.writeArrays blocks hblocks hm').1
  have hat := (hblocks p hp).at_block
  have hbd := h.bounds hat
  have hlast := h.last_lt
  rw [h.headerOf_payload hat, hwf.header hat]
  have hroom : 8 * n + 8 ≤ p.2.size := (hblocks p hp).room
  omega

theorem fill_checked {sizeArray ptrArray : Nat} (h : WellFormed s bs)
    (ho : OffHeaders s bs [sizeArray, ptrArray] n) (hd : Apart n sizeArray ptrArray)
    (hn : (usedBlocks s bs).length = n) (hs : 0 < n → Sheltered [sizeArray, ptrArray] n s.mem) :
    fill sizeArray ptrArray s = CMalloc.fill sizeArray ptrArray s := by
  refine cwhile_congr _ _ (fun c => ∃ xs ys, bs = xs ++ ys ∧ Filling s sizeArray ptrArray n xs c) ?_ ?_
    ⟨[], bs, rfl, BlockHeap.Filling.start, rfl, rfl⟩
  · rintro c c' ⟨xs, ys, rfl, hc⟩ hlt hc'
    obtain ⟨b, ys, rfl⟩ := hc.next h hlt
    rw [Option.some.injEq] at hc'
    exact ⟨xs ++ [b], ys, by simp, hc' ▸ hc.step h ho hd hn⟩
  · rintro c ⟨xs, ys, rfl, hc⟩ hlt
    obtain ⟨b, ys, rfl⟩ := hc.next h hlt
    have hheader : headerAt c.mem c.cur = b := hc.header h.region ho
    simp only [fillStep, CMalloc.fillStep, hheader]
    by_cases hused : b.state = BlockState.used.code
    · have hindex := hc.index_lt hn (isUsed_iff.mpr hused)
      have hc' := (hs (by omega)).changed hc.changed
      have hS : sizeArray ∈ [sizeArray, ptrArray] := by simp
      have hP : ptrArray ∈ [sizeArray, ptrArray] := by simp
      simp only [if_pos hused, hc'.setWord_eq hS hindex, Option.bind_some, (hc'.setWord hS hindex _).setWord_eq hP hindex]
    · simp only [if_neg hused]
      by_cases hfree : b.state = BlockState.free.code
      · simp only [if_pos hfree, Option.bind_some]
      · simp only [if_neg hfree, Option.bind_some]

section Arrays

variable {a₁ a₂ : Nat} {b₁ b₂ : BlockHeader} (h : WellFormed s bs) (h₁ : ArrayBlock s bs n a₁ b₁)
  (h₂ : ArrayBlock s bs n a₂ b₂)
include h h₁ h₂

theorem sort_checked (hn : n < 2 ^ 32) (hpos : 0 < n) :
    sortDescending (a₁ + 8) (a₂ + 8) n s = CMalloc.sortDescending (a₁ + 8) (a₂ + 8) n s := by
  have hsize : 8 * n % 2 ^ 64 = 8 * n := by omega
  obtain ⟨p, s₁, q, s₂, bs₂, hrun₁, hrun₂, hwf₂, -, hkeeps₂, hp, hq, hpq⟩ :=
    malloc_pair (n := 8 * n) h (by omega) (by omega) (by omega)
  have hkept₁ : busy a₁ b₁ ∧ a₁ + 8 ≠ p ∧ a₁ + 8 ≠ q :=
    ⟨h₁.busy, hp.busy_ne h₁.at_block h₁.busy, hq.busy_ne h₁.at_block h₁.busy⟩
  have hkept₂ : busy a₂ b₂ ∧ a₂ + 8 ≠ p ∧ a₂ + 8 ≠ q :=
    ⟨h₂.busy, hp.busy_ne h₂.at_block h₂.busy, hq.busy_ne h₂.at_block h₂.busy⟩
  have h₁₂ := h₁.mono hkeeps₂ hkept₁
  have h₂₂ := h₂.mono hkeeps₂ hkept₂
  simp only [sortDescending, CMalloc.sortDescending, hsize, hrun₁, hrun₂, Option.bind_some]
  congr 1
  by_cases hboth : p ≠ null ∧ q ≠ null
  · obtain ⟨a₃, b₃, a₄, b₄, bs₃, ⟨rfl, -⟩, ⟨rfl, -⟩, h34, hmarked⟩ := hp.markPair hwf₂ hq hpq hboth.1 hboth.2
    have hne₁ : a₁ ≠ a₃ ∧ a₁ ≠ a₄ := by omega
    have hne₂ : a₂ ≠ a₃ ∧ a₂ ≠ a₄ := by omega
    rw [if_pos hboth, if_pos hboth]
    refine mergeSort_checked ?_ (Nat.zero_le n) (Nat.le_refl n)
    exact sheltered_of_blocks hmarked.wellFormed [(a₁, b₁), (a₂, b₂), (a₃, _), (a₄, _)] (by
      simp only [List.forall_mem_cons]
      exact ⟨h₁₂.mono hmarked.keeps hne₁, h₂₂.mono hmarked.keeps hne₂, hmarked.first, hmarked.second, by simp⟩)
  · rw [if_neg hboth, if_neg hboth]
    exact selectionSort_checked (sheltered_of_blocks hwf₂ [(a₁, b₁), (a₂, b₂)] (by simp [h₁₂, h₂₂])) (by omega)

theorem report_checked (hne : a₁ ≠ a₂) (hpos : 0 < n) (hn : (usedBlocks s bs).length = n) :
    report n (a₁ + 8) (a₂ + 8) s = CMalloc.report n (a₁ + 8) (a₂ + 8) s := by
  have hle := h.count_le
  have hlast := h.last_lt
  have ho := offHeaders h h₁ h₂
  have hapart := h₁.apart h₂ hne
  obtain ⟨c, hrun, hc⟩ := fill_spec _ _ h ho hapart hn
  obtain ⟨hwf₁, -⟩ := h.writeArrays [(a₁, b₁), (a₂, b₂)] (by simp [h₁, h₂]) hc.changed
  have hsort := sort_checked hwf₁ ⟨h₁.at_block, h₁.busy, h₁.room⟩ ⟨h₂.at_block, h₂.busy, h₂.room⟩
    (by omega) hpos
  rw [report, CMalloc.report, fill_checked h ho hapart hn fun _ =>
    sheltered_of_blocks h [(a₁, b₁), (a₂, b₂)] (by simp [h₁, h₂])]
  simp only [hrun, Option.bind_some, if_pos hpos, hsort]

end Arrays

theorem report_empty_checked (h : WellFormed s bs) (hnone : (usedBlocks s bs).length = 0) :
    report 0 null null s = CMalloc.report 0 null null s := by
  have hfill : fill null null s = CMalloc.fill null null s :=
    fill_checked h (fun a b _ x _ _ base _ => by omega) (.inl (Nat.le_refl _)) hnone
      fun hpos => absurd hpos (Nat.lt_irrefl 0)
  rw [report, CMalloc.report, hfill]
  simp only [Nat.lt_irrefl, if_false]

/-- No check of a store fails: `heap_info` writes its arrays in their own blocks. -/
theorem heapInfo_checked (h : WellFormed s bs) : heapInfo s = CMalloc.heapInfo s := by
  have hle := h.count_le
  have hlast := h.last_lt
  have hcount := countUsed_eq h
  simp only [heapInfo, CMalloc.heapInfo, hcount, Option.bind_some]
  congr 1
  by_cases hpos : 0 < (usedBlocks s bs).length
  · simp only [if_pos hpos]
    let n := (usedBlocks s bs).length
    have hsize : 8 * n % 2 ^ 64 = 8 * n := by
      simp only [n]
      omega
    obtain ⟨p, s₁, q, s₂, bs₂, hrun₁, hrun₂, hwf₂, -, hkeeps₂, hp, hq, hpq⟩ :=
      malloc_pair (n := 8 * n) h (by omega) (by omega) (by omega)
    rw [hsize, hrun₁]
    simp only [Option.bind_some]
    rw [hrun₂]
    simp only [Option.bind_some]
    split
    next => rfl
    next hnull =>
      obtain ⟨hp₀, hq₀⟩ := not_or.mp hnull
      obtain ⟨a₁, b₁, a₂, b₂, bs₃, ⟨rfl, hnew₁, -⟩, ⟨rfl, hnew₂, -⟩, hne, hmarked⟩ := hp.markPair hwf₂ hq hpq hp₀ hq₀
      have hcount₃ := hmarked.usedBlocks hkeeps₂ h hnew₁.fresh hnew₂.fresh
      exact report_checked (n := n) hmarked.wellFormed hmarked.first hmarked.second hne hpos
        (congrArg List.length hcount₃).symm
  · have hnone : (usedBlocks s bs).length = 0 := by omega
    rw [hnone]
    simp only [Nat.lt_irrefl, if_false]
    exact report_empty_checked h hnone

end Checked

variable {s s' : Heap} {bs bs' : List BlockHeader} {b : BlockHeader} {a : Nat}

/-- What the two arrays are to say of a block at `p.1` with header `p.2`. -/
def liveEntry (p : Nat × BlockHeader) : Nat × Nat := (p.2.size - sizeofHeader - p.2.slop, p.1 + sizeofHeader)

theorem entry_eq (h : WellFormed s bs) (hb : s.At bs a b) (hused : b.state = BlockState.used.code) :
    entry (a, b) = liveEntry (a, b) := by
  have hbd := h.bounds hb
  have hlast := h.last_lt
  have hslop := (h.valid b hb.mem).slop_le (by rw [hused]; decide)
  simp only [entry, liveEntry, usable, payloadOf, sizeofHeader, Prod.mk.injEq]
  omega

theorem entries_eq (h : WellFormed s bs) : (usedBlocks s bs).map entry = (usedBlocks s bs).map liveEntry := by
  apply List.map_congr_left
  rintro ⟨a, b⟩ hp
  obtain ⟨hat, hused⟩ := mem_usedBlocks.mp hp
  exact entry_eq h hat hused

/-- An array of `n` words that fills the payload of a block of the library's own. -/
def OwnArray (s : Heap) (bs : List BlockHeader) (n p : Nat) : Prop :=
  ∃ a b, p = a + 8 ∧ s.At bs a b ∧ b.state = BlockState.internal.code ∧ b.size - sizeofHeader - b.slop = 8 * n

/-- The report `info` of the heap `s`, as it is found in the heap `s'`. -/
structure LiveListing (s : Heap) (bs : List BlockHeader) (info : HeapInfo) (s' : Heap) (bs' : List BlockHeader) :
    Prop where
  wellFormed : WellFormed s' bs'
  count_eq : info.numAllocs = (usedBlocks s bs).length
  arrays : info.numAllocs = 0 ∧ info.sizeArray = null ∧ info.ptrArray = null ∨ info.sizeArray ≠ info.ptrArray ∧
    OwnArray s' bs' info.numAllocs info.sizeArray ∧ OwnArray s' bs' info.numAllocs info.ptrArray
  pairs : (slice s'.mem info.sizeArray info.ptrArray 0 info.numAllocs).Perm ((usedBlocks s bs).map liveEntry)
  sorted : (slice s'.mem info.sizeArray info.ptrArray 0 info.numAllocs).Pairwise fun p q => q.1 ≤ p.1
  used_eq : usedBlocks s' bs' = usedBlocks s bs

theorem MetaBlock.ownArray {n : Nat} (h : MetaBlock n s bs s' bs' a b) : OwnArray s' bs' n (a + 8) := by
  have hroom := h.room
  refine ⟨a, b, rfl, h.at_block, h.internal, ?_⟩
  simp only [sizeofHeader]
  omega

theorem sorted_of_descending {l : List (Nat × Nat)} (h : WellFormed s bs)
    (hperm : l.Perm ((usedBlocks s bs).map liveEntry)) (hsorted : Descending l) :
    l.Pairwise fun p q => q.1 ≤ p.1 := by
  have hsmall (p : Nat × Nat) (hp : p ∈ l) : p.1 < 2 ^ 63 := by
    obtain ⟨⟨a, b⟩, hab, rfl⟩ := List.mem_map.mp (hperm.mem_iff.mp hp)
    have hbd := h.bounds (mem_usedBlocks.mp hab).1
    have hlast := h.last_lt
    simp only [liveEntry]
    omega
  have hsigned (v : Nat) (hv : v < 2 ^ 63) : signed v = v := by
    have hval : (BitVec.ofNat 64 v).toNat = v := BitVec.toNat_ofNat v 64 ▸ Nat.mod_eq_of_lt (by omega)
    rw [signed, BitVec.toInt_eq_toNat_of_lt (by omega), hval]
  refine hsorted.imp_of_mem fun {p q} hp hq hle => ?_
  rw [hsigned p.1 (hsmall p hp), hsigned q.1 (hsmall q hq)] at hle
  exact Int.ofNat_le.mp hle

theorem InfoResult.listing {info : HeapInfo} (h : WellFormed s bs) (hres : InfoResult s bs 0 info s' bs') :
    LiveListing s bs info s' bs' := by
  rcases hres.cases with ⟨hret, -⟩ | ⟨-, hcount, ⟨hzero, hsizes, hptrs⟩ | hlisted⟩
  · cases hret
  · have hempty : usedBlocks s bs = [] := List.eq_nil_of_length_eq_zero (by omega)
    refine ⟨hres.wellFormed, hcount, .inl ⟨hzero, hsizes, hptrs⟩, ?_, ?_, ?_⟩
    · rw [hzero, slice_empty _ _ _ (Nat.le_refl _), hempty]
      exact .refl _
    · rw [hzero, slice_empty _ _ _ (Nat.le_refl _)]
      exact .nil
    · refine (usedBlocks_eq h hres.wellFormed (hres.keeps.mono fun a b hused => ⟨busy_of_used hused a, ?_⟩)).symm
      rw [hsizes, hptrs, null]
      omega
  · obtain ⟨a₁, b₁, a₂, b₂, hsizes, hptrs, hne, hmeta₁, hmeta₂, hperm, hsorted⟩ := hlisted
    rw [entries_eq h] at hperm
    refine ⟨hres.wellFormed, hcount, .inr ⟨by omega, ?_, ?_⟩, hperm, sorted_of_descending h hperm hsorted, ?_⟩
    · rw [hsizes]
      exact hmeta₁.ownArray
    · rw [hptrs]
      exact hmeta₂.ownArray
    · refine (usedBlocks_marked a₁ a₂ h hres.wellFormed (hres.keeps.mono fun a b hP => ⟨hP.1, by omega⟩)
        (fun a b ha hb => ?_) (fun a b ha hb => ?_)).symm
      · rcases ha with rfl | rfl
        · exact hmeta₁.fresh b hb
        · exact hmeta₂.fresh b hb
      · rcases ha with rfl | rfl
        · rw [hres.wellFormed.unique hb hmeta₁.at_block, hmeta₁.internal]
        · rw [hres.wellFormed.unique hb hmeta₂.at_block, hmeta₂.internal]

/-- `heap_info` lists exactly the live blocks, and every store to an array lies in the array's block. -/
theorem heapInfo_lists_live (s : Heap) (bs : List BlockHeader) (h : WellFormed s bs) (hi : s.initialized = true) :
    Checked.heapInfo s = heapInfo s ∧ ∃ ret info s', heapInfo s = some (ret, info, s') ∧
      (ret = 0 → ∃ bs', LiveListing s bs info s' bs') := by
  obtain ⟨ret, info, s', bs', hrun, hres⟩ := heapInfo_spec h hi
  refine ⟨Checked.heapInfo_checked h, ret, info, s', hrun, ?_⟩
  rintro rfl
  exact ⟨bs', hres.listing h⟩

/-- A report on two allocations. -/
theorem two_blocks_listed : ∃ s bs info s' bs', heapInfo s = some (0, info, s') ∧ Checked.heapInfo s = some (0, info, s') ∧
    info.numAllocs = 2 ∧ LiveListing s bs info s' bs' := by
  obtain ⟨s, hreach, hi, hinfo⟩ := Allocator.Interface.reachable_of_any (A := library) SizeBound
    (start (fun _ => 0) sampleBreaks) [.call (.malloc 24), .call (.malloc 40)]
    (P := fun s => s.heap.initialized = true ∧
      ((heapInfo s.heap).any fun r => decide (r.1 = 0 ∧ r.2.1.numAllocs = 2)) = true) (by decide +kernel)
  obtain ⟨bs, hwf⟩ := (reach_inv (by decide) hreach).wf
  obtain ⟨hchecked, ret, info, s', hrun, hlist⟩ := heapInfo_lists_live s.heap bs hwf hi
  rw [hrun] at hinfo hchecked
  obtain ⟨rfl, hnum⟩ := of_decide_eq_true hinfo
  obtain ⟨bs', hl⟩ := hlist rfl
  exact ⟨s.heap, bs, info, s', bs', hrun, hchecked, hnum, hl⟩

end WeensyOS.CMalloc
