import WeensyOS.RustMalloc.Runs
import WeensyOS.Lib.FirstFit

namespace WeensyOS.RustMalloc

open ByteMemory Loop WordArray LibC ProgramBreak Tiling Tiling.Layout BlockHeap FirstFit

variable {s s' : Heap} {bs bs' xs ys : List Header} {b : Header} {L L₁ L₂ : List Nat} {need n p q : Nat}

def freeSizes (bs : List Header) : List Nat := (bs.filter Header.isFree).map Header.size

@[simp] theorem freeSizes_append : freeSizes (xs ++ ys) = freeSizes xs ++ freeSizes ys := by
  simp [freeSizes]

theorem freeSizes_free (hb : b.state = BlockState.free.code) : freeSizes (b :: bs) = b.size :: freeSizes bs := by
  rw [freeSizes, List.filter_cons_of_pos (by simpa [Header.isFree] using hb), List.map_cons, freeSizes]

theorem freeSizes_busy (hb : b.state ≠ BlockState.free.code) : freeSizes (b :: bs) = freeSizes bs := by
  rw [freeSizes, List.filter_cons_of_neg (by simpa [Header.isFree] using hb), freeSizes]

theorem mem_freeSizes {size : Nat} : size ∈ freeSizes bs ↔ ∃ b ∈ bs, b.state = BlockState.free.code ∧ b.size = size := by
  simp [freeSizes, Header.isFree, and_assoc]

theorem freeSizes_small : (∀ size ∈ freeSizes bs, size < n) ↔ ∀ b ∈ bs, ¬fits n b := by
  constructor
  · intro h b hb hfit
    exact Nat.not_le_of_lt (h b.size (mem_freeSizes.mpr ⟨b, hb, hfit.1, rfl⟩)) hfit.2
  · intro h size hsize
    obtain ⟨b, hb, hfree, rfl⟩ := mem_freeSizes.mp hsize
    exact Nat.lt_of_not_le fun hle => h b hb ⟨hfree, hle⟩

theorem freeSizes_sum_le : (freeSizes bs).sum ≤ format.total bs := by
  induction bs with
  | nil => exact Nat.le_refl _
  | cons b bs ih =>
      by_cases hb : b.state = BlockState.free.code
      · rw [freeSizes_free hb, List.sum_cons, total_cons]
        exact Nat.add_le_add_left ih _
      · rw [freeSizes_busy hb, total_cons]
        exact Nat.le_trans ih (Nat.le_add_left _ _)

theorem freeSizes_listed (start : Nat) :
    freeSizes bs = (listed format Header.isFree start bs).map fun p => p.2.size := by
  induction bs generalizing start with
  | nil => rfl
  | cons b bs ih =>
      by_cases hb : b.state = BlockState.free.code
      · rw [freeSizes_free hb, listed, located, List.filter_cons_of_pos (by simpa [Header.isFree] using hb),
          List.map_cons, ih (start + b.size)]
        rfl
      · rw [freeSizes_busy hb, listed, located, List.filter_cons_of_neg (by simpa [Header.isFree] using hb),
          ih (start + b.size)]
        rfl

/-- What the pages of a new block leave of a request. -/
def leftover (need : Nat) : List Nat := if need + minSplit ≤ pageCeil need then [pageCeil need - need] else []

/-- One request that succeeds on free blocks of the sizes `L`. -/
inductive Allotted (need : Nat) : List Nat → List Nat → Prop
  | served {L before after : List Nat} {taken : Nat} (h : serve need minSplit L = some (before, taken, after)) :
      Allotted need L (before ++ after)
  | grown {L : List Nat} (h : serve need minSplit L = none) : Allotted need L (L ++ leftover need)

theorem freeSizes_carve {total : Nat} :
    freeSizes (carve need total) = if need + minSplit ≤ total then [total - need] else [] := by
  rw [carve]
  split <;> simp [freeSizes, Header.isFree, BlockState.code]

theorem malloc_allotted (h : WellFormed s bs) (hs : s.heapStart ≠ 0) (hn : n ≠ 0) (hsize : Sound n s) :
    ∃ p s', malloc n s = some (p, s') ∧ (p ≠ 0 → ∃ bs', WellFormed s' bs' ∧
      Allotted (needed n) (freeSizes bs) (freeSizes bs')) := by
  obtain ⟨hroom, hdvd⟩ := needed_spec n
  have hceil := (pageCeil_spec (needed n)).1
  have hexact : (roundUp n 8 + headerSize) % 2 ^ 64 = needed n := by
    simp only [Sound] at hsize
    exact needed_exact (by omega)
  rcases malloc_search h hs hn hexact with ⟨hnone, hrun⟩ | ⟨xs, b, ys, rfl, hxs, ⟨hfree, hfit⟩, hrun⟩
  · rcases growHeap_spec h hs (by omega : 16 ≤ needed n) hsize with hgrow | ⟨s₁, hgrow, hst, hwf, -⟩
    · rw [hgrow] at hrun
      exact ⟨0, s, hrun, fun hne => absurd rfl hne⟩
    · rw [hgrow] at hrun
      have htop : s₁.heapStart + format.total bs = s.heapEnd := by rw [hst, h.region.tiles.end_eq]
      obtain ⟨m', hsplit, hwf', -⟩ := hwf.splitOrUse rfl hceil (by omega) hdvd
      rw [← htop] at hrun
      simp only [hsplit] at hrun
      refine ⟨_, _, hrun, fun _ => ⟨_, hwf', ?_⟩⟩
      rw [freeSizes_append, freeSizes_append, freeSizes_carve]
      have hgrown : Allotted (needed n) (freeSizes bs) (freeSizes bs ++ leftover (needed n)) :=
        .grown (serve_eq_none minSplit (freeSizes_small.mpr hnone))
      rw [leftover] at hgrown
      simpa [freeSizes] using hgrown
  · obtain ⟨m', hsplit, hwf', -⟩ := h.splitOrUse hfree hfit (by omega) hdvd
    simp only [hsplit] at hrun
    refine ⟨_, _, hrun, fun _ => ⟨_, hwf', ?_⟩⟩
    have hserve : serve (needed n) minSplit (freeSizes (xs ++ b :: ys)) =
        (serve (needed n) minSplit (b.size :: freeSizes ys)).map fun r => (freeSizes xs ++ r.1, r.2) := by
      rw [freeSizes_append, freeSizes_free hfree]
      exact serve_append (freeSizes_small.mpr hxs)
    have hsizes : freeSizes (xs ++ (carve (needed n) b.size ++ ys)) = freeSizes xs ++
        ((if needed n + minSplit ≤ b.size then [b.size - needed n] else []) ++ freeSizes ys) := by
      rw [freeSizes_append, freeSizes_append, freeSizes_carve]
    rw [hsizes]
    by_cases hwhole : b.size < needed n + minSplit
    · rw [serve, if_pos hfit, if_pos hwhole, Option.map_some] at hserve
      rw [if_neg (Nat.not_le_of_lt hwhole)]
      simpa using Allotted.served hserve
    · rw [serve, if_pos hfit, if_neg hwhole, Option.map_some] at hserve
      rw [if_pos (Nat.le_of_not_lt hwhole)]
      simpa using Allotted.served hserve

/-- The rest of the pages is a block for the same request, and taken whole, in one case only. -/
theorem leftover_cases (h8 : 8 ∣ need) :
    (leftover need = [] ∧ need ≠ 2048 ∧ (4096 ∣ need ∨ 4096 ∣ need + 8)) ∨
      ∃ rest, leftover need = [rest] ∧ minSplit ≤ rest ∧ ¬(4096 ∣ need ∨ 4096 ∣ need + 8) ∧
        (need ≤ rest ∧ rest < need + minSplit ↔ need = 2048) ∧ (need = 2048 → rest = 2048) := by
  by_cases hsplit : need + minSplit ≤ pageCeil need
  · refine .inr ⟨pageCeil need - need, if_pos hsplit, ?_⟩
    simp only [minSplit, headerSize, pageCeil] at *
    omega
  · refine .inl ⟨if_neg hsplit, ?_⟩
    simp only [minSplit, headerSize, pageCeil] at *
    omega

/-- The totals of the free sizes before two requests are those after them. -/
abbrev SameTotals (L L₂ : List Nat) : Prop := L.sum = L₂.sum ∧ largest L = largest L₂

/-- When two requests for `need`, on free blocks of the sizes `L`, leave the totals as they are. -/
def Unchanged (need : Nat) (L : List Nat) : Prop :=
  (∀ size ∈ L, size < need) ∧ (4096 ∣ need ∨ 4096 ∣ need + 8 ∨ need = 2048) ∨
    need = 2048 ∧ (L.filter fun size => 2048 ≤ size) = [2048]

theorem slots_filter (need : Nat) (L : List Nat) : slots need L = slots need (L.filter fun size => need ≤ size) := by
  induction L with
  | nil => rfl
  | cons size L ih =>
      by_cases hle : need ≤ size
      · rw [List.filter_cons_of_pos (by simpa using hle), slots_cons, slots_cons, ih]
      · rw [List.filter_cons_of_neg (by simpa using hle), slots_cons, Nat.div_eq_of_lt (by omega), ih, Nat.zero_add]

theorem mem_of_filter {size : Nat} (h : (L.filter fun size => 2048 ≤ size) = [2048]) (hmem : size ∈ L) (hle : 2048 ≤ size) :
    size = 2048 := by
  have hin : size ∈ L.filter fun size => 2048 ≤ size := List.mem_filter.mpr ⟨hmem, by simpa using hle⟩
  rw [h] at hin
  exact List.mem_singleton.mp hin

theorem not_unchanged_small (h : ∀ size ∈ L, size < 2048) : (L.filter fun size => 2048 ≤ size) ≠ [2048] := by
  intro hfilter
  have hin : 2048 ∈ L.filter fun size => 2048 ≤ size := by simp [hfilter]
  exact absurd (h 2048 (List.mem_filter.mp hin).1) (Nat.lt_irrefl _)

theorem served_served {before after before' after' : List Nat} {taken taken' : Nat} (hge : 24 ≤ need)
    (h : serve need minSplit L = some (before, taken, after))
    (h' : serve need minSplit (before ++ after) = some (before', taken', after')) :
    SameTotals L (before' ++ after') ↔ Unchanged need L := by
  have hspare : minSplit ≤ need := by
    simp only [minSplit, headerSize]
    omega
  have hsum := (serve_some h).sum_eq
  have hsum' := (serve_some h').sum_eq
  have hslots := (serve_some h).slots_eq (by omega) hspare
  have hslots' := (serve_some h').slots_eq (by omega) hspare
  have htaken : 0 < taken := by
    cases serve_some h <;> omega
  constructor
  · rintro ⟨heq, -⟩
    rw [List.sum_append] at hsum' heq
    omega
  · rw [slots_append] at hslots'
    rintro (⟨hsmall, -⟩ | ⟨rfl, hfilter⟩)
    · have hzero := slots_eq_zero hsmall
      omega
    · have hone := slots_filter 2048 L
      rw [hfilter] at hone
      simp only [slots_cons, slots_nil] at hone
      omega

theorem served_grown {before after : List Nat} {taken : Nat} (h8 : 8 ∣ need) (hge : 24 ≤ need)
    (h : serve need minSplit L = some (before, taken, after)) (h' : serve need minSplit (before ++ after) = none) :
    SameTotals L (before ++ after ++ leftover need) ↔ Unchanged need L := by
  have hsmall := serve_none h'
  have hserved := serve_some h
  have hsum := hserved.sum_eq
  have htaken : need ≤ taken := by
    cases hserved with
    | whole _ _ _ _ hle _ => exact hle
    | split => exact Nat.le_refl _
  have hnot : ¬∀ size ∈ L, size < need := fun hall => by
    rw [serve_eq_none minSplit hall] at h
    cases h
  rcases leftover_cases h8 with ⟨hnil, hne, -⟩ | ⟨rest, hrest, hmin, -, hwhole, hexact⟩
  · rw [hnil, List.append_nil]
    constructor
    · rintro ⟨heq, -⟩
      rw [List.sum_append] at heq
      omega
    · rintro (⟨hall, -⟩ | ⟨heq, -⟩)
      · exact absurd hall hnot
      · exact absurd heq hne
  · rw [hrest]
    have htotal : (before ++ after ++ [rest]).sum = before.sum + after.sum + rest := by
      rw [List.sum_append, List.sum_append, List.sum_singleton]
    cases hserved with
    | whole _ _ size hbefore hle hlt =>
        constructor
        · rintro ⟨heq, -⟩
          obtain rfl : taken = rest := by omega
          have hneed := hwhole.mp ⟨hle, hlt⟩
          obtain rfl := hexact hneed
          refine .inr ⟨hneed, ?_⟩
          have hnone (xs : List Nat) (hxs : ∀ c ∈ xs, c < need) : (xs.filter fun size => 2048 ≤ size) = [] := by
            rw [List.filter_eq_nil_iff]
            intro c hc
            have hlt := hxs c hc
            simp only [decide_eq_true_eq]
            omega
          rw [List.filter_append, List.filter_cons_of_pos (by simp), hnone before hbefore,
            hnone after fun c hc => hsmall c (List.mem_append_right _ hc)]
          rfl
        · rintro (⟨hall, -⟩ | ⟨hneed, hfilter⟩)
          · exact absurd hall hnot
          · obtain rfl := hexact hneed
            obtain rfl := mem_of_filter hfilter (by simp : taken ∈ before ++ taken :: after) (by omega)
            have hmax (c : Nat) (hc : c ∈ before ++ 2048 :: after) : c ≤ 2048 := by
              by_contra hgt
              exact hgt (Nat.le_of_eq (mem_of_filter hfilter hc (by omega)))
            refine ⟨by omega, ?_⟩
            rw [largest_eq (by simp) hmax]
            refine (largest_eq (by simp) fun c hc => hmax c ?_).symm
            simp only [List.mem_append, List.mem_cons, List.not_mem_nil, or_false] at hc ⊢
            tauto
    | split _ after size hbefore hle =>
        constructor
        · rintro ⟨heq, hlargest⟩
          have hsixteen : minSplit = 16 := rfl
          have hneed := hwhole.mp (by omega)
          have hrest' := hexact hneed
          have hsize := le_largest (by simp : size ∈ before ++ size :: after)
          have hmem := largest_mem (by simp : before ++ (size - need) :: after ++ [rest] ≠ [])
          rw [← hlargest, List.mem_append, List.mem_singleton] at hmem
          rcases hmem with hmem | hmem
          · have hlt := hsmall _ hmem
            omega
          · simp only [minSplit, headerSize] at hle
            omega
        · rintro (⟨hall, -⟩ | ⟨hneed, hfilter⟩)
          · exact absurd hall hnot
          · have hsize := mem_of_filter hfilter (by simp : size ∈ before ++ size :: after) (by omega)
            simp only [minSplit, headerSize] at hle
            omega

theorem grown_served {before after : List Nat} {taken : Nat} (h8 : 8 ∣ need)
    (h : serve need minSplit L = none) (h' : serve need minSplit (L ++ leftover need) = some (before, taken, after)) :
    SameTotals L (before ++ after) ↔ Unchanged need L := by
  have hsmall := serve_none h
  rcases leftover_cases h8 with ⟨hnil, -, -⟩ | ⟨rest, hrest, hmin, hpages, hwhole, hexact⟩
  · rw [hnil, List.append_nil, h] at h'
    cases h'
  · have hle : need ≤ rest := by
      by_contra hlt
      rw [hrest, serve_append hsmall, serve_eq_none minSplit (by simpa using Nat.lt_of_not_le hlt)] at h'
      cases h'
    rw [hrest, serve_append hsmall, serve, if_pos hle] at h'
    by_cases hlt : rest < need + minSplit
    · rw [if_pos hlt, Option.map_some, Option.some.injEq, Prod.mk.injEq, Prod.mk.injEq, List.append_nil] at h'
      obtain ⟨rfl, -, rfl⟩ := h'
      rw [List.append_nil]
      have hneed := hwhole.mp ⟨hle, hlt⟩
      exact ⟨fun _ => .inl ⟨hsmall, .inr (.inr hneed)⟩, fun _ => ⟨rfl, rfl⟩⟩
    · rw [if_neg hlt, Option.map_some, Option.some.injEq, Prod.mk.injEq, Prod.mk.injEq, List.append_nil] at h'
      obtain ⟨rfl, -, rfl⟩ := h'
      simp only [minSplit, headerSize] at hlt
      constructor
      · rintro ⟨heq, -⟩
        rw [List.sum_append, List.sum_singleton] at heq
        omega
      · rintro (⟨-, hcases⟩ | ⟨rfl, hfilter⟩)
        · omega
        · exact absurd hfilter (not_unchanged_small hsmall)

theorem grown_grown (h8 : 8 ∣ need) (h : serve need minSplit L = none)
    (h' : serve need minSplit (L ++ leftover need) = none) :
    SameTotals L (L ++ leftover need ++ leftover need) ↔ Unchanged need L := by
  have hsmall := serve_none h
  have hsmall' := serve_none h'
  rcases leftover_cases h8 with ⟨hnil, -, hpages⟩ | ⟨rest, hrest, hmin, hpages, hwhole, hexact⟩
  · rw [hnil, List.append_nil, List.append_nil]
    constructor
    · intro _
      exact .inl ⟨hsmall, by tauto⟩
    · intro _
      exact ⟨rfl, rfl⟩
  · have hlt := hsmall' rest (by simp [hrest])
    rw [hrest]
    constructor
    · rintro ⟨heq, -⟩
      simp only [List.sum_append, List.sum_singleton, minSplit, headerSize] at heq hmin
      omega
    · rintro (⟨-, hcases⟩ | ⟨rfl, hfilter⟩)
      · omega
      · exact absurd hfilter (not_unchanged_small hsmall)

/-- Two requests leave the totals of the free sizes as they are exactly if `Unchanged`. -/
theorem sameTotals_iff (h8 : 8 ∣ need) (hge : 24 ≤ need) (h : Allotted need L L₁)
    (h' : Allotted need L₁ L₂) : SameTotals L L₂ ↔ Unchanged need L := by
  cases h with
  | served hserve =>
      cases h' with
      | served hserve' => exact served_served hge hserve hserve'
      | grown hserve' => exact served_grown h8 hge hserve hserve'
  | grown hserve =>
      cases h' with
      | served hserve' => exact grown_served h8 hserve hserve'
      | grown hserve' => exact grown_grown h8 hserve hserve'

theorem foldl_add (start : Nat) (c : Counts) :
    (format.located start bs).foldl (fun c p => c.add p.2) c =
      ⟨c.numAllocs + (listed format Header.isUsed start bs).length, c.freeSpace + (freeSizes bs).sum,
        (freeSizes bs).foldl max c.largestFreeChunk⟩ := by
  induction bs generalizing start c with
  | nil => rfl
  | cons b bs ih =>
      rw [located, List.foldl_cons, ih, listed, listed, located, Counts.add]
      by_cases hused : b.state = BlockState.used.code
      · have hbusy : b.state ≠ BlockState.free.code := by
          rw [hused]
          decide
        rw [if_pos hused, freeSizes_busy hbusy, List.filter_cons_of_pos (by simpa [Header.isUsed] using hused),
          List.length_cons]
        simp only [Counts.mk.injEq, and_true]
        exact Nat.add_right_comm _ _ _
      · rw [if_neg hused, List.filter_cons_of_neg (by simpa [Header.isUsed] using hused)]
        by_cases hfree : b.state = BlockState.free.code
        · rw [if_pos hfree, freeSizes_free hfree, List.sum_cons, List.foldl_cons, Nat.add_assoc]
        · rw [if_neg hfree, freeSizes_busy hfree]

theorem countBlocks_totals (h : WellFormed s bs) :
    countBlocks s = some ⟨(usedBlocks s bs).length, (freeSizes bs).sum, largest (freeSizes bs)⟩ := by
  have hvisit := h.region.tiles.visit_eq h.region.positive (Nat.lt_trans h.end_lt (by omega))
    (fun (c : Counts) _ (b : Header) => c.add b) ⟨0, 0, 0⟩
  rw [foldl_add, Nat.zero_add, Nat.zero_add] at hvisit
  exact congrArg (fun r : Option (Counts × Nat) => r.bind fun c => some c.1) hvisit

theorem totals_small (h : WellFormed s bs) : (freeSizes bs).sum < 2 ^ 31 ∧ largest (freeSizes bs) < 2 ^ 31 := by
  have hle : (freeSizes bs).sum ≤ format.total bs := freeSizes_sum_le
  have hlargest := largest_le_sum (freeSizes bs)
  have hend := h.region.tiles.end_eq
  have hlt := h.end_lt
  omega

/-- The report `info` has the totals of the free blocks of a heap. -/
def DescribesFree (info : HeapInfo) (bs : List Header) : Prop :=
  info.freeSpace = ((freeSizes bs).sum : Int) ∧ info.largestFreeChunk = (largest (freeSizes bs) : Int)

theorem freeSizes_marked {a₁ a₂ n : Nat} {b₁ b₂ : Header} (h : WellFormed s bs) (h₁ : ArrayBlock format s.heapStart bs n a₁ b₁)
    (h₂ : ArrayBlock format s.heapStart bs n a₂ b₂) (hm : MarkedPair n s bs a₁ b₁ a₂ b₂ bs') : freeSizes bs = freeSizes bs' := by
  rw [freeSizes_listed s.heapStart, freeSizes_listed s.heapStart]
  congr 1
  refine listed_eq h.region hm.wellFormed.region (Keeps.widen (R := fun a => a = a₁ ∨ a = a₂) ?_ ?_ ?_)
  · exact hm.keeps.mono fun a b hP => by omega
  · intro a b ha hfree hb
    have hfree' := of_decide_eq_true hfree
    rcases ha with rfl | rfl
    · rw [h.region.unique hb h₁.at_block] at hfree'
      exact h₁.busy hfree'
    · rw [h.region.unique hb h₂.at_block] at hfree'
      exact h₂.busy hfree'
  · intro a b ha hfree hb
    have hfree' := of_decide_eq_true hfree
    rcases ha with rfl | rfl
    · rw [hm.wellFormed.region.unique hb hm.first.at_block] at hfree'
      exact hm.first.busy hfree'
    · rw [hm.wellFormed.region.unique hb hm.second.at_block] at hfree'
      exact hm.second.busy hfree'

/-- The totals that `heap_info` takes before it allocates its arrays are those of the heap that it leaves:
there is nothing to report, or the two arrays leave the totals of the free blocks as they are. -/
def TotalsHold (s : Heap) (bs : List Header) : Prop :=
  (usedBlocks s bs).length = 0 ∨ Unchanged (needed (8 * (usedBlocks s bs).length)) (freeSizes bs)

/-- What a `heap_info` that returns 0 reports, and the free sizes that it leaves. -/
theorem heapInfo_totals {info : HeapInfo} (h : WellFormed s bs) (hrun : heapInfo s = some (0, info, s')) :
    info.freeSpace = ((freeSizes bs).sum : Int) ∧ info.largestFreeChunk = (largest (freeSizes bs) : Int) ∧
      ∃ bs', WellFormed s' bs' ∧ ((usedBlocks s bs).length = 0 ∧ freeSizes bs' = freeSizes bs ∨
        0 < (usedBlocks s bs).length ∧ ∃ L₁, Allotted (needed (8 * (usedBlocks s bs).length)) (freeSizes bs) L₁ ∧
          Allotted (needed (8 * (usedBlocks s bs).length)) L₁ (freeSizes bs')) := by
  have hwf := h.heapBounds
  have hle := count_le hwf
  have hused : usedBlocks (heapBounds s) bs = usedBlocks s bs :=
    (listed_eq h.region hwf.region (heapBounds_keeps h _)).symm
  have hcount := countBlocks_totals hwf
  obtain ⟨hsum, hlargest⟩ := totals_small h
  rw [hused] at hcount hle
  simp only [heapInfo, hcount, Option.bind_some, asI32_eq hsum, asI32_eq hlargest] at hrun
  generalize hn : (usedBlocks s bs).length = n at *
  by_cases hzero : n = 0
  · simp only [if_pos hzero, Option.some.injEq, Prod.mk.injEq, true_and] at hrun
    obtain ⟨rfl, rfl⟩ := hrun
    exact ⟨rfl, rfl, bs, hwf, .inl ⟨hzero, rfl⟩⟩
  · have hmul : n * 8 % 2 ^ 64 = 8 * n := by omega
    have hn0 : 8 * n ≠ 0 := by omega
    have hsound (t : Heap) : Sound (8 * n) t := by
      have hlt := t.breaks.lt_limit
      simp only [Sound, pageCeil, needed]
      omega
    have hfail (t : Heap) : failHeapInfo t ≠ some (0, info, s') := by
      intro hret
      simp [failHeapInfo] at hret
    obtain ⟨p, s₁, bs₁, hrun₁, hres₁⟩ := malloc_spec hwf hn0 (hsound _)
    obtain ⟨p', s₁', hrun₁', hallotted₁⟩ := malloc_allotted hwf h.started hn0 (hsound _)
    obtain ⟨rfl, rfl⟩ := Prod.mk.inj (Option.some.inj (hrun₁.symm.trans hrun₁'))
    simp only [if_neg hzero, hmul, hrun₁, Option.bind_some] at hrun
    by_cases hp0 : p = 0
    · rw [if_pos hp0] at hrun
      exact absurd hrun (hfail _)
    · obtain ⟨q, s₂, bs₂, hrun₂, hres₂⟩ := malloc_spec hres₁.wellFormed hn0 (hsound _)
      obtain ⟨q', s₂', hrun₂', hallotted₂⟩ := malloc_allotted hres₁.wellFormed hres₁.started hn0 (hsound _)
      obtain ⟨rfl, rfl⟩ := Prod.mk.inj (Option.some.inj (hrun₂.symm.trans hrun₂'))
      rw [if_neg hp0] at hrun
      simp only [hrun₂, Option.bind_some] at hrun
      by_cases hq0 : q = 0
      · rw [if_pos hq0] at hrun
        exact absurd hrun (hfail _)
      · rw [if_neg hq0] at hrun
        obtain ⟨cs₁, hcs₁, hstep₁⟩ := hallotted₁ hp0
        obtain rfl := hres₁.wellFormed.region.blocks_unique hcs₁.region
        obtain ⟨cs₂, hcs₂, hstep₂⟩ := hallotted₂ hq0
        obtain rfl := hres₂.wellFormed.region.blocks_unique hcs₂.region
        obtain ⟨hkeeps, hp, hq, hpq⟩ := Fresh.pair (fun b => Allocated.busy) hres₁.keeps hres₂.keeps hres₁.fresh
          hres₂.fresh
        rcases hp with hp | ⟨a₁, b₁, rfl, hb₁, hnew₁, hfresh₁⟩
        · exact absurd hp hp0
        rcases hq with hq | ⟨a₂, b₂, rfl, hb₂, hnew₂, hfresh₂⟩
        · exact absurd hq hq0
        rw [format_width] at *
        have hne : a₁ ≠ a₂ := by
          rintro rfl
          exact hp0 (hpq rfl)
        have hb₁' : ArrayBlock format s₂.heapStart bs₂ n a₁ b₁ := ⟨hb₁, hnew₁.busy, hnew₁.2⟩
        have hb₂' : ArrayBlock format s₂.heapStart bs₂ n a₂ b₂ := ⟨hb₂, hnew₂.busy, hnew₂.2⟩
        obtain ⟨bs₃, hmarked⟩ := markPair hcs₂ hb₁' hb₂' hne
        have hbounds : heapBounds { s₂ with
            mem := setState (setState s₂.mem (blockOf (a₁ + 16)) .internal) (blockOf (a₂ + 16)) .internal } =
              marked (a₁ + 16) (a₂ + 16) s₂ := heapBounds_eq hres₂.started
        have hcount₃ := hmarked.usedBlocks hkeeps hwf hfresh₁ hfresh₂
        obtain ⟨m', hsorted, hwf', -⟩ := fill_sort_spec (n := n) hmarked.wellFormed hmarked.first hmarked.second hne
          (by rw [← hcount₃, hused, hn])
        have hsizes := freeSizes_marked hcs₂ hb₁' hb₂' hmarked
        obtain ⟨c, hfill, hsort⟩ := Option.bind_eq_some_iff.mp hsorted
        rw [hbounds, hfill, Option.bind_some, hsort, Option.bind_some, Option.some.injEq, Prod.mk.injEq,
          Prod.mk.injEq] at hrun
        obtain ⟨-, rfl, rfl⟩ := hrun
        exact ⟨rfl, rfl, bs₃, hwf', .inr ⟨Nat.pos_of_ne_zero hzero, _, hstep₁, hsizes ▸ hstep₂⟩⟩

/-- `heap_info` reports the totals of the heap that it leaves exactly if `TotalsHold`. -/
theorem reported_totals_iff (s : Heap) (bs : List Header) (h : WellFormed s bs) (info : HeapInfo) (s' : Heap)
    (hrun : heapInfo s = some (0, info, s')) :
    (∃ bs', WellFormed s' bs' ∧ DescribesFree info bs') ↔ TotalsHold s bs := by
  obtain ⟨hspace, hlargest, bs', hwf, hcases⟩ := heapInfo_totals h hrun
  have hunique : (∃ bs', WellFormed s' bs' ∧ DescribesFree info bs') ↔ SameTotals (freeSizes bs) (freeSizes bs') := by
    constructor
    · rintro ⟨bs₁, hwf₁, hd⟩
      obtain rfl := hwf.region.blocks_unique hwf₁.region
      rw [DescribesFree, hspace, hlargest] at hd
      exact ⟨Int.ofNat_inj.mp hd.1, Int.ofNat_inj.mp hd.2⟩
    · rintro ⟨hsum, hmax⟩
      refine ⟨bs', hwf, ?_⟩
      rw [DescribesFree, hspace, hlargest, hsum, hmax]
      exact ⟨rfl, rfl⟩
  rw [hunique, TotalsHold]
  rcases hcases with ⟨hzero, hsame⟩ | ⟨hpos, L₁, hstep₁, hstep₂⟩
  · rw [hsame]
    exact ⟨fun _ => .inl hzero, fun _ => ⟨rfl, rfl⟩⟩
  · obtain ⟨hroom, hdvd⟩ := needed_spec (8 * (usedBlocks s bs).length)
    rw [sameTotals_iff hdvd (by omega) hstep₁ hstep₂]
    constructor
    · intro hunchanged
      exact .inr hunchanged
    · rintro (hzero | hunchanged)
      · omega
      · exact hunchanged

/-- The blocks that a walk over the heap meets. -/
def Heap.blocks (s : Heap) : Option (List Header) :=
  (format.visit (fun met _ b => met ++ [b]) s.mem s.heapEnd ([], s.heapStart)).map Prod.fst

theorem WellFormed.blocks_eq (h : WellFormed s bs) : s.blocks = some bs := by
  have hvisit := h.region.tiles.visit_eq h.region.positive (Nat.lt_trans h.end_lt (by omega))
    (fun met _ b => met ++ [b]) []
  have hfold (l : List (Nat × Header)) (met : List Header) :
      l.foldl (fun met p => met ++ [p.2]) met = met ++ l.map Prod.snd := by
    induction l generalizing met with
    | nil => simp
    | cons p l ih => simp [ih]
  rw [Heap.blocks, hvisit, Option.map_some, hfold, List.nil_append, located_map_snd]

/-- With one allocation of 3000 bytes there is a free block for the arrays, and the totals do not hold. -/
theorem live_block_totals : ∃ s info s', WellFormed s [⟨1, 3016⟩, ⟨0, 1080⟩] ∧ heapInfo s = some (0, info, s') ∧
    info.numAllocs = 1 ∧ info.freeSpace = 1080 ∧ ¬∃ bs', WellFormed s' bs' ∧ DescribesFree info bs' := by
  obtain ⟨s, hreach, hblocks, hinfo⟩ := Allocator.Interface.reachable_of_any (A := library) SizeBound
    (start (fun _ => 0) sampleBreaks) [.call (.malloc 3000)]
    (P := fun s => s.heap.blocks = some [⟨1, 3016⟩, ⟨0, 1080⟩] ∧
      ((heapInfo s.heap).any fun r => decide (r.1 = 0 ∧ r.2.1.numAllocs = 1 ∧ r.2.1.freeSpace = 1080)) = true)
    (by decide +kernel)
  obtain ⟨bs, hwf⟩ := (reach_inv (by decide) (by decide) hreach).wf
  obtain ⟨r, hr⟩ := Option.isSome_iff_exists.mp (Option.isSome_of_any hinfo)
  obtain ⟨ret, info, s'⟩ := r
  rw [hr] at hinfo
  obtain ⟨rfl, hallocs, hspace⟩ := of_decide_eq_true hinfo
  obtain rfl := Option.some.inj (hwf.blocks_eq.symm.trans hblocks)
  refine ⟨s.heap, info, s', hwf, hr, hallocs, hspace, (reported_totals_iff _ _ hwf _ _ hr).not.mpr ?_⟩
  have hused : (usedBlocks s.heap [⟨1, 3016⟩, ⟨0, 1080⟩]).length = 1 := rfl
  have hneed : needed (8 * 1) = 24 := rfl
  have hfree : freeSizes [⟨1, 3016⟩, ⟨0, 1080⟩] = [1080] := rfl
  rw [TotalsHold, hused, hneed, hfree, Unchanged]
  decide

/-- After one allocation of 3000 bytes `heap_info` counts the bytes that it takes for its arrays as free. -/
theorem arrays_counted_free : ∃ s bs info s', WellFormed s bs ∧ heapInfo s = some (0, info, s') ∧
    ¬∃ bs', WellFormed s' bs' ∧ DescribesFree info bs' := by
  obtain ⟨s, hreach, hinfo⟩ := Allocator.Interface.reachable_of_any (A := library) SizeBound
    (start (fun _ => 0) sampleBreaks) [.call (.malloc 3000)]
    (P := fun s => ((heapInfo s.heap).any fun r => decide (r.1 = 0 ∧ r.2.1.freeSpace = 1080 ∧
      (r.2.2.blocks.any fun bs => decide (freeSizes bs = [1032])) = true)) = true) (by decide +kernel)
  obtain ⟨bs, hwf⟩ := (reach_inv (by decide) (by decide) hreach).wf
  obtain ⟨r, hr⟩ := Option.isSome_iff_exists.mp (Option.isSome_of_any hinfo)
  obtain ⟨ret, info, s'⟩ := r
  rw [hr] at hinfo
  obtain ⟨rfl, hspace, hsizes⟩ := of_decide_eq_true hinfo
  refine ⟨s.heap, bs, info, s', hwf, hr, ?_⟩
  rintro ⟨bs', hwf', hsum, -⟩
  rw [hwf'.blocks_eq] at hsizes
  rw [of_decide_eq_true hsizes] at hsum
  exact absurd (hspace.symm.trans hsum) (by decide)

end WeensyOS.RustMalloc
