import WeensyOS.Lib.Loop
import WeensyOS.Lib.WordArray

namespace WeensyOS.CMalloc.MergeSort

open ByteMemory Loop WordArray

/-- The four array arguments of `merge`. -/
structure Arrays where
  sizes : Nat
  ptrs : Nat
  tmpSizes : Nat
  tmpPtrs : Nat

structure Cursor where
  mem : Memory
  i : Nat
  j : Nat
  k : Nat

/-- `dsts[k] = srcs[i]` in both parallel arrays. -/
def copyPair (m : Memory) (dstSizes dstPtrs k srcSizes srcPtrs i : Nat) : Memory :=
  let m := setWord m dstSizes k (word m srcSizes i)
  setWord m dstPtrs k (word m srcPtrs i)

def takeLeft (a : Arrays) (c : Cursor) : Cursor :=
  ⟨copyPair c.mem a.tmpSizes a.tmpPtrs c.k a.sizes a.ptrs c.i, c.i + 1, c.j, c.k + 1⟩

def takeRight (a : Arrays) (c : Cursor) : Cursor :=
  ⟨copyPair c.mem a.tmpSizes a.tmpPtrs c.k a.sizes a.ptrs c.j, c.i, c.j + 1, c.k + 1⟩

def copyBack (a : Arrays) (lo hi : Nat) (m : Memory) : Option Memory :=
  (cwhile (fun c => c.2 < hi)
    (fun c => some (copyPair c.1 a.sizes a.ptrs c.2 a.tmpSizes a.tmpPtrs c.2, c.2 + 1)) (m, lo)).bind
    fun c => some c.1

def merge (a : Arrays) (lo mid hi : Nat) (m : Memory) : Option Memory :=
  (cwhile (fun c => c.i < mid ∧ c.j < hi)
    (fun c => some (if signed (word c.mem a.sizes c.j) ≤ signed (word c.mem a.sizes c.i)
      then takeLeft a c else takeRight a c)) ⟨m, lo, mid, lo⟩).bind fun c =>
  (cwhile (fun c => c.i < mid) (fun c => some (takeLeft a c)) c).bind fun c =>
  (cwhile (fun c => c.j < hi) (fun c => some (takeRight a c)) c).bind fun c =>
  copyBack a lo hi c.mem

/-- The depth of the recursion is at most `hi - lo`. -/
def mergeSortDescending (a : Arrays) : Nat → Nat → Nat → Memory → Option Memory
  | 0, lo, hi, m => if hi - lo ≤ 1 then some m else none
  | depth + 1, lo, hi, m =>
      if hi - lo ≤ 1 then some m
      else
        let mid := lo + (hi - lo) / 2
        (mergeSortDescending a depth lo mid m).bind fun m =>
        (mergeSortDescending a depth mid hi m).bind fun m =>
        merge a lo mid hi m

structure Arrays.Apart (a : Arrays) (n : Nat) : Prop where
  sizes_ptrs : WordArray.Apart n a.sizes a.ptrs
  sizes_tmpSizes : WordArray.Apart n a.sizes a.tmpSizes
  sizes_tmpPtrs : WordArray.Apart n a.sizes a.tmpPtrs
  ptrs_tmpSizes : WordArray.Apart n a.ptrs a.tmpSizes
  ptrs_tmpPtrs : WordArray.Apart n a.ptrs a.tmpPtrs
  tmpSizes_tmpPtrs : WordArray.Apart n a.tmpSizes a.tmpPtrs

variable {m m' : Memory} {n dS dP k sS sP i lo hi mid : Nat} {a : Arrays}

theorem copyPair_changed : ChangedAt [dS, dP] k (k + 1) m (copyPair m dS dP k sS sP i) := setPair_changed

theorem slice_copyPair (hd : Apart n dS dP) (hs : Apart n dS sP) (hk : k < n) (hi : i < n) (hlo : lo ≤ k) :
    slice (copyPair m dS dP k sS sP i) dS dP lo (k + 1) =
      slice m dS dP lo k ++ [(word m sS i, word m sP i)] := by
  have hread : word (setWord m dS k (word m sS i)) sP i = word m sP i := hs.word_setWord _ hk hi
  rw [← hread]
  exact slice_setPair hd hk hlo (word_lt _ _ _) (word_lt _ _ _)

/-- The order of the merge: a pair goes first when its size is at least the other's. -/
def geq (p q : Nat × Nat) : Bool := decide (signed q.1 ≤ signed p.1)

/-- Kept by the three loops of `merge`: the scratch arrays hold the part of the
merged list that is written, the sources hold the rest. -/
structure Merging (a : Arrays) (n lo mid hi : Nat) (m₀ : Memory) (c : Cursor) : Prop where
  i_mem : lo ≤ c.i ∧ c.i ≤ mid
  j_mem : mid ≤ c.j ∧ c.j ≤ hi
  k_eq : c.k + mid = c.i + c.j
  changed : ChangedAt [a.tmpSizes, a.tmpPtrs] lo hi m₀ c.mem
  merged : slice c.mem a.tmpSizes a.tmpPtrs lo c.k ++
    List.merge (slice m₀ a.sizes a.ptrs c.i mid) (slice m₀ a.sizes a.ptrs c.j hi) geq =
    List.merge (slice m₀ a.sizes a.ptrs lo mid) (slice m₀ a.sizes a.ptrs mid hi) geq

theorem Arrays.Apart.sizes_word (ha : a.Apart n) (h : ChangedAt [a.tmpSizes, a.tmpPtrs] lo hi m m')
    (hhi : hi ≤ n) (hi' : i < n) :
    word m' a.sizes i = word m a.sizes i ∧ word m' a.ptrs i = word m a.ptrs i := by
  have h1 := ha.sizes_tmpSizes
  have h2 := ha.sizes_tmpPtrs
  have h3 := ha.ptrs_tmpSizes
  have h4 := ha.ptrs_tmpPtrs
  unfold WordArray.Apart at h1 h2 h3 h4
  constructor <;> refine h.word_eq fun b hb => ?_ <;>
    rcases List.mem_pair.mp hb with rfl | rfl <;> omega

/-- One more pair in the scratch arrays, whichever side it comes from. -/
theorem Merging.emit (ha : a.Apart n) {m₀ : Memory} {c : Cursor} (h : Merging a n lo mid hi m₀ c)
    (hhi : hi ≤ n) (hk : c.k < hi) (hi' : i < n) :
    ChangedAt [a.tmpSizes, a.tmpPtrs] lo hi m₀ (copyPair c.mem a.tmpSizes a.tmpPtrs c.k a.sizes a.ptrs i) ∧
      slice (copyPair c.mem a.tmpSizes a.tmpPtrs c.k a.sizes a.ptrs i) a.tmpSizes a.tmpPtrs lo (c.k + 1) =
        slice c.mem a.tmpSizes a.tmpPtrs lo c.k ++ [(word m₀ a.sizes i, word m₀ a.ptrs i)] := by
  have hi_mem := h.i_mem
  have hj_mem := h.j_mem
  have hk_eq := h.k_eq
  have hw := ha.sizes_word h.changed hhi hi'
  constructor
  · exact h.changed.trans (copyPair_changed.mono (List.Subset.refl _) (by omega) hk)
  · rw [slice_copyPair ha.tmpSizes_tmpPtrs ha.ptrs_tmpSizes.symm (by omega) hi' (by omega), hw.1, hw.2]

theorem Merging.takeLeft (ha : a.Apart n) {m₀ : Memory} {c : Cursor} (h : Merging a n lo mid hi m₀ c)
    (hhi : hi ≤ n) (hi' : c.i < mid)
    (hfirst : c.j = hi ∨ signed (word m₀ a.sizes c.j) ≤ signed (word m₀ a.sizes c.i)) :
    Merging a n lo mid hi m₀ (takeLeft a c) := by
  have hi_mem := h.i_mem
  have hj_mem := h.j_mem
  have hk_eq := h.k_eq
  obtain ⟨hchanged, hslice⟩ := h.emit ha hhi (by omega) (by omega : c.i < n)
  refine ⟨⟨?_, ?_⟩, hj_mem, ?_, hchanged, ?_⟩
  · exact Nat.le_succ_of_le hi_mem.1
  · exact hi'
  · simp only [MergeSort.takeLeft]
    omega
  · have hm := h.merged
    simp only [MergeSort.takeLeft, hslice]
    rw [slice_cons _ _ _ hi'] at hm
    rcases Nat.lt_or_ge c.j hi with hj | hj
    · rw [slice_cons _ _ _ hj] at hm ⊢
      rw [List.cons_merge_cons_pos _ _ _ (by simpa [geq] using hfirst.resolve_left (by omega))] at hm
      rw [← hm, List.append_assoc]
      rfl
    · rw [slice_empty _ _ _ hj] at hm ⊢
      simpa [List.merge_right] using hm

theorem Merging.takeRight (ha : a.Apart n) {m₀ : Memory} {c : Cursor} (h : Merging a n lo mid hi m₀ c)
    (hhi : hi ≤ n) (hj' : c.j < hi)
    (hfirst : c.i = mid ∨ signed (word m₀ a.sizes c.i) < signed (word m₀ a.sizes c.j)) :
    Merging a n lo mid hi m₀ (takeRight a c) := by
  have hi_mem := h.i_mem
  have hj_mem := h.j_mem
  have hk_eq := h.k_eq
  obtain ⟨hchanged, hslice⟩ := h.emit ha hhi (by omega) (by omega : c.j < n)
  refine ⟨hi_mem, ⟨?_, ?_⟩, ?_, hchanged, ?_⟩
  · exact Nat.le_succ_of_le hj_mem.1
  · exact hj'
  · simp only [MergeSort.takeRight]
    omega
  · have hm := h.merged
    simp only [MergeSort.takeRight, hslice]
    rw [slice_cons _ _ _ hj'] at hm
    rcases Nat.lt_or_ge c.i mid with hi | hi
    · rw [slice_cons _ _ _ hi] at hm ⊢
      rw [List.cons_merge_cons_neg _ _ _ (by simpa [geq] using hfirst.resolve_left (by omega))] at hm
      rw [← hm, List.append_assoc]
      rfl
    · rw [slice_empty _ _ _ hi] at hm ⊢
      simpa using hm

theorem copyBack_spec (ha : a.Apart n) (hlo : lo ≤ hi) (hhi : hi ≤ n) (hn : n ≤ 2 ^ 64) :
    ∃ m', copyBack a lo hi m = some m' ∧ ChangedAt [a.sizes, a.ptrs] lo hi m m' ∧
      slice m' a.sizes a.ptrs lo hi = slice m a.tmpSizes a.tmpPtrs lo hi := by
  let Inv : Memory × Nat → Prop := fun c => lo ≤ c.2 ∧ c.2 ≤ hi ∧
    ChangedAt [a.sizes, a.ptrs] lo hi m c.1 ∧
    slice c.1 a.sizes a.ptrs lo c.2 = slice m a.tmpSizes a.tmpPtrs lo c.2
  obtain ⟨⟨m', x⟩, hrun, ⟨_, hx, hchanged, hslice⟩, hc⟩ := cwhile_rule
    (fun c : Memory × Nat => c.2 < hi)
    (fun c => some (copyPair c.1 a.sizes a.ptrs c.2 a.tmpSizes a.tmpPtrs c.2, c.2 + 1))
    Inv (fun c => hi - c.2)
    (by
      rintro ⟨m₁, x⟩ ⟨hlox, hxhi, hchanged, hslice⟩ hc
      have hlt : x < hi := hc
      have hw : word m₁ a.tmpSizes x = word m a.tmpSizes x ∧ word m₁ a.tmpPtrs x = word m a.tmpPtrs x := by
        have h1 := ha.sizes_tmpSizes
        have h2 := ha.sizes_tmpPtrs
        have h3 := ha.ptrs_tmpSizes
        have h4 := ha.ptrs_tmpPtrs
        unfold WordArray.Apart at h1 h2 h3 h4
        constructor <;> refine hchanged.word_eq fun b hb => ?_ <;>
          rcases List.mem_pair.mp hb with rfl | rfl <;> omega
      refine ⟨_, rfl, ⟨by simp only; omega, hlt, ?_, ?_⟩, by simp only; omega⟩
      · exact hchanged.trans (copyPair_changed.mono (List.Subset.refl _) hlox hlt)
      · simp only
        rw [slice_copyPair ha.sizes_ptrs ha.sizes_tmpPtrs (by omega) (by omega) hlox, hslice,
          slice_snoc _ _ _ hlox, hw.1, hw.2])
    (s := (m, lo)) ⟨Nat.le_refl _, hlo, ChangedAt.refl, by rw [slice_empty _ _ _ (Nat.le_refl _), slice_empty _ _ _ (Nat.le_refl _)]⟩
    (by simp only; omega)
  obtain rfl : x = hi := by
    simp only at hc hx
    omega
  exact ⟨m', by rw [copyBack, hrun]; rfl, hchanged, hslice⟩

def Arrays.all (a : Arrays) : List Nat := [a.sizes, a.ptrs, a.tmpSizes, a.tmpPtrs]

/-- `merge` leaves the merged list in the two arrays and changes, besides them,
only the scratch arrays. -/
theorem merge_spec (ha : a.Apart n) (hlo : lo ≤ mid) (hmid : mid ≤ hi) (hhi : hi ≤ n) (hn : n ≤ 2 ^ 63) :
    ∃ m', merge a lo mid hi m = some m' ∧ ChangedAt a.all lo hi m m' ∧
      slice m' a.sizes a.ptrs lo hi =
        List.merge (slice m a.sizes a.ptrs lo mid) (slice m a.sizes a.ptrs mid hi) geq := by
  have hsize (c : Cursor) (h : Merging a n lo mid hi m c) (j : Nat) (hj : j < hi) :
      word c.mem a.sizes j = word m a.sizes j :=
    (ha.sizes_word h.changed hhi (by omega)).1
  have hstart : Merging a n lo mid hi m ⟨m, lo, mid, lo⟩ :=
    ⟨⟨Nat.le_refl _, hlo⟩, ⟨Nat.le_refl _, hmid⟩, by simp, ChangedAt.refl,
      by rw [slice_empty _ _ _ (Nat.le_refl _), List.nil_append]⟩
  obtain ⟨c₁, hrun₁, h₁, hc₁⟩ := cwhile_rule
    (fun c : Cursor => c.i < mid ∧ c.j < hi) (fun c => some (if signed (word c.mem a.sizes c.j) ≤ signed (word c.mem a.sizes c.i)
      then takeLeft a c else takeRight a c))
    (Merging a n lo mid hi m) (fun c => (mid - c.i) + (hi - c.j))
    (by
      intro c h ⟨hi', hj'⟩
      refine ⟨_, rfl, ?_, ?_⟩
      · rw [hsize c h c.i (by omega), hsize c h c.j hj']
        split
        next hle => exact h.takeLeft ha hhi hi' (.inr hle)
        next hlt => exact h.takeRight ha hhi hj' (.inr (by omega))
      · split
        next => simp only [takeLeft]; omega
        next => simp only [takeRight]; omega)
    hstart (by simp only; omega)
  have hend₁ : c₁.i = mid ∨ c₁.j = hi := by
    have hi_mem := h₁.i_mem
    have hj_mem := h₁.j_mem
    omega
  obtain ⟨c₂, hrun₂, ⟨h₂, hend₂⟩, hc₂⟩ := cwhile_rule
    (fun c : Cursor => c.i < mid) (fun c => some (takeLeft a c))
    (fun c => Merging a n lo mid hi m c ∧ (c.i = mid ∨ c.j = hi)) (fun c => mid - c.i)
    (by
      rintro c ⟨h, hend⟩ hi'
      have hj : c.j = hi := by omega
      exact ⟨_, rfl, ⟨h.takeLeft ha hhi hi' (.inl hj), .inr hj⟩, by simp only [takeLeft]; omega⟩)
    (s := c₁) ⟨h₁, hend₁⟩ (by have := h₁.i_mem; omega)
  obtain ⟨c₃, hrun₃, ⟨h₃, hend₃⟩, hc₃⟩ := cwhile_rule
    (fun c : Cursor => c.j < hi) (fun c => some (takeRight a c))
    (fun c => Merging a n lo mid hi m c ∧ c.i = mid) (fun c => hi - c.j)
    (by
      rintro c ⟨h, hend⟩ hj'
      exact ⟨_, rfl, ⟨h.takeRight ha hhi hj' (.inl hend), hend⟩, by simp only [takeRight]; omega⟩)
    (s := c₂)
    ⟨h₂, by
      have := h₂.i_mem
      omega⟩
    (by have := h₂.j_mem; omega)
  have hj : c₃.j = hi := by
    have := h₃.j_mem
    omega
  have hk : c₃.k = hi := by
    have := h₃.k_eq
    omega
  have hmerged := h₃.merged
  rw [hend₃, hj, hk, slice_empty _ _ _ (Nat.le_refl mid), slice_empty _ _ _ (Nat.le_refl hi),
    List.nil_merge, List.append_nil] at hmerged
  obtain ⟨m', hrun, hchanged, hslice⟩ := copyBack_spec (m := c₃.mem) ha (Nat.le_trans hlo hmid) hhi (by omega)
  refine ⟨m', ?_, ?_, hslice.trans hmerged⟩
  · rw [merge, hrun₁, Option.bind_some, hrun₂, Option.bind_some, hrun₃, Option.bind_some, hrun]
  · exact (h₃.changed.mono (by simp [Arrays.all]) (Nat.le_refl _) (Nat.le_refl _)).trans
      (hchanged.mono (by simp [Arrays.all]) (Nat.le_refl _) (Nat.le_refl _))

/-- The list that `mergeSortDescending` computes. -/
def sortPairs : Nat → List (Nat × Nat) → List (Nat × Nat)
  | 0, ps => ps
  | depth + 1, ps =>
      if ps.length ≤ 1 then ps
      else List.merge (sortPairs depth (ps.take (ps.length / 2))) (sortPairs depth (ps.drop (ps.length / 2))) geq

theorem sortPairs_perm (depth : Nat) (ps : List (Nat × Nat)) : (sortPairs depth ps).Perm ps := by
  induction depth generalizing ps with
  | zero => exact .refl _
  | succ depth ih =>
      rw [sortPairs]
      split
      next => exact .refl _
      next =>
        refine (List.merge_perm_append geq).trans (((ih _).append (ih _)).trans ?_)
        rw [List.take_append_drop]

theorem sortPairs_sorted (depth : Nat) (ps : List (Nat × Nat)) (h : ps.length ≤ depth) :
    (sortPairs depth ps).Pairwise (fun p q => geq p q) := by
  induction depth generalizing ps with
  | zero =>
      rw [List.length_eq_zero_iff.mp (by omega : ps.length = 0)]
      exact .nil
  | succ depth ih =>
      rw [sortPairs]
      split
      next hshort =>
        match ps, hshort with
        | [], _ => exact .nil
        | [p], _ => exact List.pairwise_singleton _ _
      next hlong =>
        refine List.pairwise_merge (fun p q r hpq hqr => ?_) (fun p q => ?_) _ _ (ih _ ?_) (ih _ ?_)
        · simp only [geq, decide_eq_true_eq] at *
          omega
        · simp only [geq, Bool.or_eq_true, decide_eq_true_eq]
          omega
        · rw [List.length_take]
          omega
        · rw [List.length_drop]
          omega

theorem sortPairs_descending (depth : Nat) (ps : List (Nat × Nat)) (h : ps.length ≤ depth) :
    Descending (sortPairs depth ps) := by
  refine (sortPairs_sorted depth ps h).imp fun hpq => ?_
  simpa only [geq, decide_eq_true_eq] using hpq

/-- A merge of sorted lists keeps the pairs of one size in their order, those of the first list in front. -/
theorem filter_merge (v : Nat) (ps qs : List (Nat × Nat)) (hps : Descending ps) :
    (List.merge ps qs geq).filter (·.1 = v) = ps.filter (·.1 = v) ++ qs.filter (·.1 = v) := by
  induction ps generalizing qs with
  | nil => simp
  | cons p ps ihp =>
      induction qs with
      | nil => simp
      | cons q qs ihq =>
          by_cases hpq : geq p q = true
          · rw [List.cons_merge_cons_pos _ _ _ hpq, List.filter_cons, List.filter_cons, ihp _ hps.of_cons]
            split <;> rfl
          · rw [List.cons_merge_cons_neg _ _ _ hpq, List.filter_cons, ihq]
            split
            next hq =>
              -- nothing of the first list is as large as `q`
              have hnone : (p :: ps).filter (·.1 = v) = [] := by
                apply List.filter_eq_nil_iff.mpr
                intro r hr hrv
                have hlt : signed p.1 < signed q.1 := by simpa [geq] using hpq
                have hle : signed r.1 ≤ signed p.1 := by
                  rcases List.mem_cons.mp hr with rfl | hr
                  · exact Int.le_refl _
                  · exact List.rel_of_pairwise_cons hps hr
                rw [of_decide_eq_true hrv, ← of_decide_eq_true hq] at hle
                omega
              rw [hnone, List.filter_cons, if_pos hq]
              rfl
            next hq => rw [List.filter_cons_of_neg (p := (·.1 = v)) (a := q) hq]

theorem sortPairs_stable (depth : Nat) (ps : List (Nat × Nat)) (h : ps.length ≤ depth) (v : Nat) :
    (sortPairs depth ps).filter (·.1 = v) = ps.filter (·.1 = v) := by
  induction depth generalizing ps with
  | zero => rfl
  | succ depth ih =>
      rw [sortPairs]
      split
      next => rfl
      next hlong =>
        have hfirst : (ps.take (ps.length / 2)).length ≤ depth := by
          rw [List.length_take]
          omega
        have hsecond : (ps.drop (ps.length / 2)).length ≤ depth := by
          rw [List.length_drop]
          omega
        rw [filter_merge v _ _ (sortPairs_descending depth _ hfirst), ih _ hfirst, ih _ hsecond,
          ← List.filter_append, List.take_append_drop]

/-- Elements outside the sorted index range are left alone. -/
theorem slice_frame (ha : a.Apart n) (h : ChangedAt a.all lo hi m m') {lo' hi' : Nat} (hhi : hi ≤ n)
    (hhi' : hi' ≤ n) (hout : ∀ i, lo' ≤ i → i < hi' → i < lo ∨ hi ≤ i) :
    slice m' a.sizes a.ptrs lo' hi' = slice m a.sizes a.ptrs lo' hi' := by
  have h1 := ha.sizes_ptrs
  have h2 := ha.sizes_tmpSizes
  have h3 := ha.sizes_tmpPtrs
  have h4 := ha.ptrs_tmpSizes
  have h5 := ha.ptrs_tmpPtrs
  unfold WordArray.Apart at h1 h2 h3 h4 h5
  refine slice_congr fun i hi₁ hi₂ => ?_
  have hi := hout i hi₁ hi₂
  constructor <;> refine h.word_eq fun b hb => ?_ <;>
    simp only [Arrays.all, List.mem_cons, List.not_mem_nil, or_false] at hb <;>
    rcases hb with rfl | rfl | rfl | rfl <;> omega

theorem mergeSortDescending_spec (ha : a.Apart n) {depth : Nat} (hdepth : hi - lo ≤ depth)
    (hlo : lo ≤ hi) (hhi : hi ≤ n) (hn : n ≤ 2 ^ 63) :
    ∃ m', mergeSortDescending a depth lo hi m = some m' ∧ ChangedAt a.all lo hi m m' ∧
      slice m' a.sizes a.ptrs lo hi = sortPairs depth (slice m a.sizes a.ptrs lo hi) := by
  induction depth generalizing lo hi m with
  | zero =>
      obtain rfl : lo = hi := by omega
      exact ⟨m, by simp [mergeSortDescending], ChangedAt.refl, rfl⟩
  | succ depth ih =>
      by_cases hshort : hi - lo ≤ 1
      · exact ⟨m, by rw [mergeSortDescending, if_pos hshort], ChangedAt.refl,
          by rw [sortPairs, slice_length, if_pos hshort]⟩
      · let mid := lo + (hi - lo) / 2
        have hmid : lo ≤ mid ∧ mid ≤ hi ∧ mid - lo = (hi - lo) / 2 := by
          simp only [mid]
          omega
        have hmn : mid ≤ n := Nat.le_trans hmid.2.1 hhi
        obtain ⟨m₁, hrun₁, hch₁, hs₁⟩ := ih (m := m) (by omega : mid - lo ≤ depth) hmid.1 hmn
        obtain ⟨m₂, hrun₂, hch₂, hs₂⟩ := ih (m := m₁) (by omega : hi - mid ≤ depth) hmid.2.1 hhi
        obtain ⟨m₃, hrun₃, hch₃, hs₃⟩ := merge_spec (m := m₂) ha hmid.1 hmid.2.1 hhi hn
        have hfirst : slice m₂ a.sizes a.ptrs lo mid = slice m₁ a.sizes a.ptrs lo mid :=
          slice_frame ha hch₂ hhi (by omega) fun i hi' hi'' => .inl hi''
        have hsecond : slice m₁ a.sizes a.ptrs mid hi = slice m a.sizes a.ptrs mid hi :=
          slice_frame ha hch₁ (by omega) hhi fun i hi' hi'' => .inr hi'
        have hall := slice_append m a.sizes a.ptrs hmid.1 hmid.2.1
        have hlen : (slice m a.sizes a.ptrs lo mid).length = (hi - lo) / 2 := by rw [slice_length, hmid.2.2]
        refine ⟨m₃, ?_, ?_, ?_⟩
        · rw [mergeSortDescending, if_neg hshort]
          simp only [mid] at hrun₁ hrun₂ hrun₃
          simp only [hrun₁, hrun₂, hrun₃, Option.bind_some]
        · exact ((hch₁.mono (List.Subset.refl _) (Nat.le_refl _) hmid.2.1).trans
            (hch₂.mono (List.Subset.refl _) hmid.1 (Nat.le_refl _))).trans hch₃
        · rw [hs₃, hfirst, hs₁, hs₂, hsecond, sortPairs, slice_length, if_neg hshort, hall, ← hlen,
            List.take_left, List.drop_left]

/-- Kept by the loops of `merge`: the indices stay in the range that is merged. -/
structure InRange (lo mid hi : Nat) (c : Cursor) : Prop where
  i_le : c.i ≤ mid
  j_le : c.j ≤ hi
  k_eq : c.k + mid = c.i + c.j

theorem InRange.takeLeft {c : Cursor} (h : InRange lo mid hi c) (hi' : c.i < mid) : InRange lo mid hi (takeLeft a c) := by
  refine ⟨hi', h.j_le, ?_⟩
  have hk := h.k_eq
  simp only [MergeSort.takeLeft]
  omega

theorem InRange.takeRight {c : Cursor} (h : InRange lo mid hi c) (hj' : c.j < hi) : InRange lo mid hi (takeRight a c) := by
  refine ⟨h.i_le, hj', ?_⟩
  have hk := h.k_eq
  simp only [MergeSort.takeRight]
  omega

-- Versions of the sort with checks, which change nothing where an invariant of the memory makes the checks hold.
section Checked

variable {I : Memory → Prop}

theorem copyBack_checked {round : Memory × Nat → Option (Memory × Nat)}
    (hround : ∀ m x, I m → x < hi → round (m, x) = some (copyPair m a.sizes a.ptrs x a.tmpSizes a.tmpPtrs x, x + 1) ∧
      I (copyPair m a.sizes a.ptrs x a.tmpSizes a.tmpPtrs x)) (hm : I m) :
    ((cwhile (fun c : Memory × Nat => c.2 < hi) round (m, lo)).bind fun c => some c.1) = copyBack a lo hi m ∧
      ∀ m', copyBack a lo hi m = some m' → I m' := by
  obtain ⟨heq, hkeeps⟩ := cwhile_checked (fun c : Memory × Nat => c.2 < hi) round
    (fun c => (copyPair c.1 a.sizes a.ptrs c.2 a.tmpSizes a.tmpPtrs c.2, c.2 + 1)) (fun c => I c.1)
    (fun c hc hlt => hround c.1 c.2 hc hlt) (s := (m, lo)) hm
  constructor
  · rw [heq, copyBack]
  · intro m' hm'
    rw [copyBack, Option.bind_eq_some_iff] at hm'
    obtain ⟨c, hc, hm'⟩ := hm'
    exact Option.some.inj hm' ▸ hkeeps c hc

theorem merge_checked {both left right : Cursor → Option Cursor} {back : Memory → Option Memory}
    (hleft : ∀ c, I c.mem → InRange lo mid hi c → c.i < mid → left c = some (takeLeft a c) ∧ I (takeLeft a c).mem)
    (hright : ∀ c, I c.mem → InRange lo mid hi c → c.j < hi → right c = some (takeRight a c) ∧ I (takeRight a c).mem)
    (hboth : ∀ c, I c.mem → InRange lo mid hi c → c.i < mid → c.j < hi →
      both c = some (if signed (word c.mem a.sizes c.j) ≤ signed (word c.mem a.sizes c.i) then takeLeft a c else takeRight a c))
    (hback : ∀ m, I m → back m = copyBack a lo hi m ∧ ∀ m', copyBack a lo hi m = some m' → I m')
    (hlo : lo ≤ mid) (hmid : mid ≤ hi) (hm : I m) :
    ((cwhile (fun c : Cursor => c.i < mid ∧ c.j < hi) both ⟨m, lo, mid, lo⟩).bind fun c =>
      (cwhile (fun c : Cursor => c.i < mid) left c).bind fun c =>
      (cwhile (fun c : Cursor => c.j < hi) right c).bind fun c => back c.mem) = merge a lo mid hi m ∧
      ∀ m', merge a lo mid hi m = some m' → I m' := by
  let Inv : Cursor → Prop := fun c => I c.mem ∧ InRange lo mid hi c
  obtain ⟨heq₁, hkeeps₁⟩ := cwhile_checked (fun c : Cursor => c.i < mid ∧ c.j < hi) both
    (fun c => if signed (word c.mem a.sizes c.j) ≤ signed (word c.mem a.sizes c.i) then takeLeft a c else takeRight a c) Inv
    (by
      rintro c ⟨hc, hrange⟩ ⟨hi', hj'⟩
      refine ⟨hboth c hc hrange hi' hj', ?_⟩
      split
      · exact ⟨(hleft c hc hrange hi').2, hrange.takeLeft hi'⟩
      · exact ⟨(hright c hc hrange hj').2, hrange.takeRight hj'⟩)
    (s := ⟨m, lo, mid, lo⟩) ⟨hm, hlo, hmid, rfl⟩
  have htakeLeft (c : Cursor) (hc : Inv c) := cwhile_checked (fun c : Cursor => c.i < mid) left (takeLeft a) Inv
    (fun c hc hlt => ⟨(hleft c hc.1 hc.2 hlt).1, (hleft c hc.1 hc.2 hlt).2, hc.2.takeLeft hlt⟩) hc
  have htakeRight (c : Cursor) (hc : Inv c) := cwhile_checked (fun c : Cursor => c.j < hi) right (takeRight a) Inv
    (fun c hc hlt => ⟨(hright c hc.1 hc.2 hlt).1, (hright c hc.1 hc.2 hlt).2, hc.2.takeRight hlt⟩) hc
  constructor
  · rw [heq₁, merge]
    refine bind_congr fun c₁ hc₁ => ?_
    rw [(htakeLeft c₁ (hkeeps₁ c₁ hc₁)).1]
    refine bind_congr fun c₂ hc₂ => ?_
    have h₂ := (htakeLeft c₁ (hkeeps₁ c₁ hc₁)).2 c₂ hc₂
    rw [(htakeRight c₂ h₂).1]
    exact bind_congr fun c₃ hc₃ => (hback c₃.mem ((htakeRight c₂ h₂).2 c₃ hc₃).1).1
  · intro m' hm'
    simp only [merge, Option.bind_eq_some_iff] at hm'
    obtain ⟨c₁, hc₁, c₂, hc₂, c₃, hc₃, hm'⟩ := hm'
    have h₂ := (htakeLeft c₁ (hkeeps₁ c₁ hc₁)).2 c₂ hc₂
    exact (hback c₃.mem ((htakeRight c₂ h₂).2 c₃ hc₃).1).2 m' hm'

/-- `sort` follows the recursion of `mergeSortDescending`, with merges of its own. -/
theorem mergeSortDescending_checked {sort : Nat → Nat → Nat → Memory → Option Memory}
    {merge' : Nat → Nat → Nat → Memory → Option Memory}
    (hzero : ∀ lo hi m, sort 0 lo hi m = if hi - lo ≤ 1 then some m else none)
    (hsucc : ∀ depth lo hi m, sort (depth + 1) lo hi m = if hi - lo ≤ 1 then some m
      else (sort depth lo (lo + (hi - lo) / 2) m).bind fun m => (sort depth (lo + (hi - lo) / 2) hi m).bind fun m =>
        merge' lo (lo + (hi - lo) / 2) hi m)
    (hmerge : ∀ lo mid hi m, lo ≤ mid → mid ≤ hi → hi ≤ n → I m → merge' lo mid hi m = merge a lo mid hi m ∧
      ∀ m', merge a lo mid hi m = some m' → I m')
    {depth : Nat} (hlo : lo ≤ hi) (hhi : hi ≤ n) (hm : I m) :
    sort depth lo hi m = mergeSortDescending a depth lo hi m ∧
      ∀ m', mergeSortDescending a depth lo hi m = some m' → I m' := by
  induction depth generalizing lo hi m with
  | zero =>
      refine ⟨hzero lo hi m, fun m' hm' => ?_⟩
      rw [mergeSortDescending] at hm'
      split at hm'
      · exact Option.some.inj hm' ▸ hm
      · cases hm'
  | succ depth ih =>
      rw [hsucc, mergeSortDescending]
      by_cases hshort : hi - lo ≤ 1
      · rw [if_pos hshort, if_pos hshort]
        exact ⟨rfl, fun m' hm' => Option.some.inj hm' ▸ hm⟩
      · rw [if_neg hshort, if_neg hshort]
        have hmid : lo ≤ lo + (hi - lo) / 2 ∧ lo + (hi - lo) / 2 ≤ hi := by omega
        obtain ⟨heq₁, hkeeps₁⟩ := ih hmid.1 (Nat.le_trans hmid.2 hhi) hm
        constructor
        · simp only [heq₁]
          refine bind_congr fun m₁ hm₁ => ?_
          obtain ⟨heq₂, hkeeps₂⟩ := ih hmid.2 hhi (hkeeps₁ m₁ hm₁)
          rw [heq₂]
          exact bind_congr fun m₂ hm₂ => (hmerge _ _ _ _ hmid.1 hmid.2 hhi (hkeeps₂ m₂ hm₂)).1
        · intro m' hm'
          simp only [Option.bind_eq_some_iff] at hm'
          obtain ⟨m₁, hm₁, m₂, hm₂, hm'⟩ := hm'
          have h₂ := (ih hmid.2 hhi (hkeeps₁ m₁ hm₁)).2 m₂ hm₂
          exact (hmerge _ _ _ _ hmid.1 hmid.2 hhi h₂).2 m' hm'

end Checked

end WeensyOS.CMalloc.MergeSort
