import WeensyOS.CMalloc.FirstFit
import WeensyOS.Lib.FirstFit

namespace WeensyOS.CMalloc

open ByteMemory Loop WordArray LibC ProgramBreak Tiling Tiling.Layout MergeSort FirstFit

variable {s s' : Heap} {bs bs' pre xs ys zs rest : List BlockHeader} {b u v : BlockHeader} {n a p q : Nat}

@[simp] theorem freeSizes_nil : freeSizes [] = [] := rfl

@[simp] theorem freeSizes_append : freeSizes (xs ++ ys) = freeSizes xs ++ freeSizes ys := by
  simp [freeSizes]

@[simp] theorem freeSizes_free (hb : b.state = BlockState.free.code) :
    freeSizes (b :: bs) = b.size :: freeSizes bs := by
  rw [freeSizes, List.filter_cons_of_pos (by simpa [BlockHeader.isFree] using hb), List.map_cons, freeSizes]

@[simp] theorem freeSizes_busy (hb : b.state ≠ BlockState.free.code) : freeSizes (b :: bs) = freeSizes bs := by
  rw [freeSizes, List.filter_cons_of_neg (by simpa [BlockHeader.isFree] using hb), freeSizes]

theorem freeSizes_used (hb : b.state = BlockState.used.code) : freeSizes (b :: bs) = freeSizes bs :=
  freeSizes_busy (by rw [hb]; decide)

theorem mem_freeSizes {size : Nat} : size ∈ freeSizes bs ↔ ∃ b ∈ bs, b.state = BlockState.free.code ∧ b.size = size := by
  simp [freeSizes, BlockHeader.isFree, and_assoc]

theorem freeSizes_small : (∀ size ∈ freeSizes bs, size < n) ↔ ∀ b ∈ bs, ¬fits n b := by
  constructor
  · intro h b hb hfit
    exact Nat.not_le_of_lt (h b.size (mem_freeSizes.mpr ⟨b, hb, hfit.1, rfl⟩)) hfit.2
  · intro h size hsize
    obtain ⟨b, hb, hfree, rfl⟩ := mem_freeSizes.mp hsize
    exact Nat.lt_of_not_le fun hle => h b hb ⟨hfree, hle⟩

/-- The block `u` that `malloc` has made of the blocks `ys`, behind the blocks `pre`. -/
structure Put (n : Nat) (s : Heap) (pre ys : List BlockHeader) (p : Nat) (s' : Heap) (zs : List BlockHeader)
    (u : BlockHeader) (rest : List BlockHeader) : Prop where
  pointer : p = s.managedMemoryStart + layout.total (pre ++ zs) + 8
  wellFormed : WellFormed s' (pre ++ (zs ++ u :: rest))
  initialized : s'.initialized = true
  start_eq : s'.managedMemoryStart = s.managedMemoryStart
  used : u.state = BlockState.used.code
  unfit : ∀ c ∈ zs, ¬fits (blockSize n) c
  sizes : ∃ g, Requested (blockSize n) 16 (freeSizes ys) (freeSizes zs) u.size (freeSizes rest) g ∧
    s'.breaks.programBreak = s.breaks.programBreak + g * blockSize n ∧
    (g ≠ 0 → s.breaks.programBreak + blockSize n < memsizeVirtual - pageSize)

theorem malloc_put (pre : List BlockHeader) (h : WellFormed s (pre ++ ys)) (hi : s.initialized = true) (hn : n ≠ 0) (hsize : Sound n s)
    (hpre : ∀ c ∈ pre, ¬fits (blockSize n) c) :
    (∃ p s' zs u rest, malloc n s = some (p, s') ∧ Put n s pre ys p s' zs u rest) ∨
      malloc n s = some (null, s) ∧ serve (blockSize n) 16 (freeSizes ys) = none ∧
        memsizeVirtual - pageSize ≤ s.breaks.programBreak + blockSize n := by
  have hlast := h.last_eq hi
  rcases scan_cases (fun b => ¬fits (blockSize n) b) ys with ⟨hnone, -⟩ | ⟨zs, b, tail, rfl, -, hzs, hb⟩
  · have hserve := serve_eq_none 16 (freeSizes_small.mpr hnone)
    have hall (c : BlockHeader) (hc : c ∈ pre ++ ys) : ¬fits (blockSize n) c :=
      (List.mem_append.mp hc).elim (hpre c) (hnone c)
    obtain ⟨hgrow, hfail⟩ := malloc_unfitted h hn hsize hall
    by_cases hroom : s.breaks.programBreak + blockSize n < memsizeVirtual - pageSize
    · obtain ⟨p, s', hrun, hgrown⟩ := hgrow hroom
      have hend := h.tiles.end_eq
      refine .inl ⟨p, s', ys, ⟨BlockState.used.code, padding n, blockSize n⟩, [], hrun, ?_, ?_, ?_, ?_, rfl, hnone,
        1, .grown hserve, by rw [hgrown.break_eq, Nat.one_mul], fun _ => hroom⟩
      · rw [hgrown.pointer, ← hend, hlast]
      · rw [← List.append_assoc]
        exact hgrown.blocks
      · by_contra hi'
        have hnil := hgrown.blocks.blocks_nil (by simpa using hi')
        simp at hnil
      · have hend' := hgrown.blocks.tiles.end_eq
        rw [hgrown.last_eq, hgrown.break_eq, ← hlast, hend] at hend'
        simp only [total_append, total_cons, total_nil, layout_size] at hend'
        omega
    · rw [init_eq hi] at hfail
      exact .inr ⟨hfail (by omega), hserve, by omega⟩
  · have hb' := Decidable.not_not.mp hb
    have hxs (c : BlockHeader) (hc : c ∈ pre ++ zs) : ¬fits (blockSize n) c :=
      (List.mem_append.mp hc).elim (hpre c) (hzs c)
    have hserve : serve (blockSize n) 16 (freeSizes (zs ++ b :: tail)) = (serve (blockSize n) 16
        (b.size :: freeSizes tail)).map fun r => (freeSizes zs ++ r.1, r.2) := by
      rw [freeSizes_append, freeSizes_free hb'.1]
      exact serve_append (freeSizes_small.mpr hzs)
    rw [← List.append_assoc] at h
    obtain ⟨p, s', hrun, ht⟩ := malloc_taken h hn hsize hxs hb'
    have hput (u : BlockHeader) (rest : List BlockHeader) (hwf : WellFormed s' (pre ++ zs ++ u :: rest))
        (hu : u.state = BlockState.used.code)
        (hs : serve (blockSize n) 16 (b.size :: freeSizes tail) = some ([], u.size, freeSizes rest)) :
        Put n s pre (zs ++ b :: tail) p s' zs u rest := by
      refine ⟨ht.pointer, by rwa [← List.append_assoc], ?_, ht.start_eq, hu, hzs,
        0, .served (by rw [hserve, hs]; simp), by rw [ht.breaks_eq, Nat.zero_mul, Nat.add_zero],
        fun hne => absurd rfl hne⟩
      by_contra hi'
      have hnil := hwf.blocks_nil (by simpa using hi')
      simp at hnil
    have hle := hb'.2
    by_cases hwhole : b.size - blockSize n < 16
    · refine .inl ⟨p, s', zs, _, tail, hrun, hput _ _ (ht.whole hwhole) rfl ?_⟩
      rw [serve, if_pos hle, if_pos (by omega)]
    · obtain ⟨old, hwf⟩ := ht.split (by omega)
      refine .inl ⟨p, s', zs, _, _, hrun, hput _ _ hwf rfl ?_⟩
      rw [serve, if_pos hle, if_neg (by omega), freeSizes_free rfl]

/-- The free blocks have room for `k` requests, or the heap is too close to its limit to grow by one. -/
def Stocked (need k : Nat) (s : Heap) (bs : List BlockHeader) : Prop :=
  k ≤ slots need (freeSizes bs) ∨ memsizeVirtual - pageSize ≤ s.breaks.programBreak + need

theorem Stocked.of_slots {need k k' : Nat} (h : Stocked need k s bs)
    (hslots : k ≤ slots need (freeSizes bs) → k' ≤ slots need (freeSizes bs'))
    (hbreak : s'.breaks.programBreak = s.breaks.programBreak) : Stocked need k' s' bs' :=
  h.imp hslots fun hlimit => by rwa [hbreak]

theorem malloc_refused (h : WellFormed s bs) (hi : s.initialized = true) (hn : n ≠ 0) (hsize : Sound n s)
    (hrun : malloc n s = some (null, s')) :
    s' = s ∧ memsizeVirtual - pageSize ≤ s.breaks.programBreak + blockSize n := by
  rcases malloc_put [] h hi hn hsize (by simp) with ⟨p, s₁, zs, u, rest, hrun₁, hput⟩ | ⟨hrun₁, -, hlimit⟩
  · obtain ⟨rfl, rfl⟩ := Prod.mk.inj (Option.some.inj (hrun₁.symm.trans hrun))
    exact absurd hput.pointer.symm (Nat.succ_ne_zero _)
  · obtain ⟨-, rfl⟩ := Prod.mk.inj (Option.some.inj (hrun₁.symm.trans hrun))
    exact ⟨rfl, hlimit⟩

theorem malloc_stocked {k : Nat} (h : WellFormed s bs) (hi : s.initialized = true) (hn : n ≠ 0) (hsize : Sound n s)
    (hstock : Stocked (blockSize n) (k + 1) s bs) (hrun : malloc n s = some (p, s')) :
    ∃ bs', WellFormed s' bs' ∧ s'.initialized = true ∧ Stocked (blockSize n) k s' bs' ∧
      s'.breaks.programBreak = s.breaks.programBreak := by
  have hge := blockSize_ge hn
  rcases malloc_put [] h hi hn hsize (by simp) with ⟨p, s₁, zs, u, rest, hrun₁, hput⟩ | ⟨hrun₁, -, hlimit⟩
  · obtain ⟨rfl, rfl⟩ := Prod.mk.inj (Option.some.inj (hrun₁.symm.trans hrun))
    obtain ⟨g, hreq, hbreak, hroom⟩ := hput.sizes
    have hstay : s₁.breaks.programBreak = s.breaks.programBreak := by
      have hzero : g = 0 := by
        rcases hstock with hslots | hlimit
        · exact (hreq.stock (Nat.lt_of_lt_of_le (by decide) hge) hge hslots).1
        · by_contra hg
          exact absurd (hroom hg) (Nat.not_lt.mpr hlimit)
      rw [hbreak, hzero, Nat.zero_mul, Nat.add_zero]
    refine ⟨_, hput.wellFormed, hput.initialized, hstock.of_slots (fun hslots => ?_) hstay, hstay⟩
    have hleft := (hreq.stock (Nat.lt_of_lt_of_le (by decide) hge) hge hslots).2
    rwa [List.nil_append, freeSizes_append, freeSizes_used hput.used]
  · obtain ⟨-, rfl⟩ := Prod.mk.inj (Option.some.inj (hrun₁.symm.trans hrun))
    exact ⟨bs, h, hi, .inr hlimit, rfl⟩

/-- The free sizes `all` once two requests on free blocks of the sizes `L` have been released
again: what the requests have split, and what they have added to the heap. -/
def Released (need : Nat) (s : Heap) (L all : List Nat) : Prop :=
  ∃ g, all = shred need 16 2 L ++ List.replicate g need ∧
    (g = 0 ↔ 2 ≤ slots need L ∨ memsizeVirtual - pageSize ≤ s.breaks.programBreak + need)

/-- Two blocks `u` and `v` that two requests have made of the blocks `bs`. -/
structure PutTwice (n : Nat) (s : Heap) (bs : List BlockHeader) (p q : Nat) (s₂ : Heap) (xs : List BlockHeader)
    (u : BlockHeader) (zs : List BlockHeader) (v : BlockHeader) (rest : List BlockHeader) : Prop where
  pointers : p = s₂.managedMemoryStart + layout.total xs + 8 ∧
    q = s₂.managedMemoryStart + layout.total (xs ++ u :: zs) + 8
  wellFormed : WellFormed s₂ (xs ++ u :: (zs ++ v :: rest))
  used : u.state = BlockState.used.code ∧ v.state = BlockState.used.code
  left_eq : carve (blockSize n) 16 2 (freeSizes bs) = freeSizes xs ++ (freeSizes zs ++ freeSizes rest)
  released : Released (blockSize n) s (freeSizes bs)
    (freeSizes xs ++ u.size :: (freeSizes zs ++ v.size :: freeSizes rest))
  break_eq : s₂.breaks.programBreak =
    s.breaks.programBreak + (2 - slots (blockSize n) (freeSizes bs)) * blockSize n

/-- One block `u` of the first request, the second one having failed. -/
structure PutOnce (n : Nat) (s : Heap) (bs : List BlockHeader) (p : Nat) (s₂ : Heap) (xs : List BlockHeader)
    (u : BlockHeader) (rest : List BlockHeader) : Prop where
  pointer : p = s₂.managedMemoryStart + layout.total xs + 8
  wellFormed : WellFormed s₂ (xs ++ u :: rest)
  used : u.state = BlockState.used.code
  released : Released (blockSize n) s (freeSizes bs) (freeSizes xs ++ u.size :: freeSizes rest)

section Pair

variable (hn : n ≠ 0) (hsound : ∀ s, Sound n s)
include hn hsound

/-- The second request behind the block that the first one has made. -/
theorem Put.next {p : Nat} (h : Put n s [] bs p s' xs u rest) :
    (∃ q s₂ zs v tail, malloc n s' = some (q, s₂) ∧ PutTwice n s bs p q s₂ xs u zs v tail) ∨
      malloc n s' = some (null, s') ∧ PutOnce n s bs p s' xs u rest := by
  have hge := blockSize_ge hn
  have hwf : WellFormed s' (xs ++ [u] ++ rest) := by
    rw [List.append_assoc]
    exact h.wellFormed
  have hunfit (c : BlockHeader) (hc : c ∈ xs ++ [u]) : ¬fits (blockSize n) c := by
    rcases List.mem_append.mp hc with hc | hc
    · exact h.unfit c hc
    · rw [List.mem_singleton.mp hc]
      exact fun hfit => absurd (h.used.symm.trans hfit.1) (by decide)
  have hpointer : p = s'.managedMemoryStart + layout.total xs + 8 := by
    rw [h.pointer, h.start_eq, List.nil_append]
  obtain ⟨g, hreq, hbreak, hgrown⟩ := h.sizes
  rcases malloc_put _ hwf h.initialized hn (hsound s') hunfit with
    ⟨q, s₂, zs, v, tail, hrun, hput⟩ | ⟨hrun, hserve, hlimit⟩
  · obtain ⟨g', hreq', hbreak', hgrown'⟩ := hput.sizes
    obtain ⟨hleft, hall, hcount⟩ := hreq.twice (by omega) hge hreq'
    refine .inl ⟨q, s₂, zs, v, tail, hrun, ⟨?_, ?_⟩, ?_, ⟨h.used, hput.used⟩, hleft, ⟨g + g', hall, ?_⟩, ?_⟩
    · rw [hput.start_eq]
      exact hpointer
    · rw [hput.pointer, hput.start_eq, List.append_assoc]
      rfl
    · have hwf₂ := hput.wellFormed
      rwa [List.append_assoc] at hwf₂
    · constructor
      · intro hzero
        omega
      · rintro (hslots | hlimit)
        · omega
        · by_contra hne
          by_cases hg : g = 0
          · have hroom := hgrown' (by omega)
            rw [hbreak, hg] at hroom
            omega
          · have hroom := hgrown hg
            omega
    · rw [hbreak', hbreak, ← hcount, Nat.add_mul]
      omega
  · obtain ⟨hall, hcount⟩ := hreq.once (by omega) hge hserve
    refine .inr ⟨hrun, hpointer, h.wellFormed, h.used, g, hall, ?_⟩
    constructor
    · rintro rfl
      omega
    · rintro (hslots | hlimit')
      · omega
      · by_contra hg
        have hroom := hgrown hg
        omega

theorem malloc_twice (h : WellFormed s bs) (hi : s.initialized = true) :
    ∃ p s₁ q s₂, malloc n s = some (p, s₁) ∧ malloc n s₁ = some (q, s₂) ∧
      ((∃ xs u zs v rest, PutTwice n s bs p q s₂ xs u zs v rest) ∨
        (q = null ∧ ∃ xs u rest, PutOnce n s bs p s₂ xs u rest) ∨
        p = null ∧ q = null ∧ s₂ = s ∧ Released (blockSize n) s (freeSizes bs) (freeSizes bs)) := by
  rcases malloc_put [] h hi hn (hsound s) (by simp) with
    ⟨p, s₁, xs, u, rest, hrun, hput⟩ | ⟨hrun, hserve, hlimit⟩
  · rcases hput.next hn hsound with ⟨q, s₂, zs, v, tail, hrun', htwice⟩ | ⟨hrun', honce⟩
    · exact ⟨p, s₁, q, s₂, hrun, hrun', .inl ⟨xs, u, zs, v, tail, htwice⟩⟩
    · exact ⟨p, s₁, null, s₁, hrun, hrun', .inr (.inl ⟨rfl, xs, u, rest, honce⟩)⟩
  · refine ⟨null, s, null, s, hrun, hrun, .inr (.inr ⟨rfl, rfl, rfl, 0, ?_, ?_⟩)⟩
    · rw [shred_none hserve, List.replicate_zero, List.append_nil]
    · simp [hlimit]

end Pair

theorem at_first (s : Heap) (xs : List BlockHeader) (u : BlockHeader) (rest : List BlockHeader) :
    s.At (xs ++ u :: rest) (s.managedMemoryStart + layout.total xs) u := by
  simp [Heap.At]

theorem at_second (s : Heap) (xs : List BlockHeader) (u : BlockHeader) (zs : List BlockHeader) (v : BlockHeader)
    (rest : List BlockHeader) :
    s.At (xs ++ u :: (zs ++ v :: rest)) (s.managedMemoryStart + layout.total (xs ++ u :: zs)) v := by
  have happend : xs ++ u :: (zs ++ v :: rest) = xs ++ u :: zs ++ v :: rest := by simp
  rw [happend]
  exact at_first s _ v rest

theorem first_ne_second (h : WellFormed s (xs ++ u :: (zs ++ v :: rest))) :
    s.managedMemoryStart + layout.total xs ≠ s.managedMemoryStart + layout.total (xs ++ u :: zs) := by
  have hu := h.positive u (at_first s xs u _).mem
  simp only [total_append, total_cons]
  omega

theorem PutTwice.mark {s₂ : Heap} (h : PutTwice n s bs p q s₂ xs u zs v rest) :
    WellFormed { s₂ with mem := setState (setState s₂.mem (headerOf p) .internal) (headerOf q) .internal }
      (xs ++ { u with state := BlockState.internal.code } ::
        (zs ++ { v with state := BlockState.internal.code } :: rest)) := by
  have hslop {c : BlockHeader} (hc : c ∈ xs ++ u :: (zs ++ v :: rest)) (hused : c.state = BlockState.used.code) :
      c.slop + 8 ≤ c.size := (h.wellFormed.valid c hc).slop_le (by rw [hused]; decide)
  have hfirst := at_first s₂ xs u (zs ++ v :: rest)
  have hsecond := at_second s₂ xs u zs v rest
  have h₁ := h.wellFormed.setState_at .internal fun _ => hslop hfirst.mem h.used.1
  have happend : xs ++ { u with state := BlockState.internal.code } :: (zs ++ v :: rest) =
      xs ++ { u with state := BlockState.internal.code } :: zs ++ v :: rest := by simp
  rw [happend] at h₁
  have h₂ := h₁.setState_at .internal fun _ => hslop hsecond.mem h.used.2
  rw [List.append_assoc] at h₂
  rw [h.pointers.1, h.pointers.2, h.wellFormed.headerOf_payload hfirst, h.wellFormed.headerOf_payload hsecond]
  simpa using h₂

@[simp] theorem free_start (p : Nat) (s : Heap) : (free p s).managedMemoryStart = s.managedMemoryStart := by
  rw [free]
  split <;> rfl

@[simp] theorem free_breaks (p : Nat) (s : Heap) : (free p s).breaks = s.breaks := by
  rw [free]
  split <;> rfl

theorem free_twice (h : WellFormed s (xs ++ u :: (zs ++ v :: rest))) :
    WellFormed (free (s.managedMemoryStart + layout.total (xs ++ u :: zs) + 8)
        (free (s.managedMemoryStart + layout.total xs + 8) s))
      (xs ++ { u with state := BlockState.free.code } :: (zs ++ { v with state := BlockState.free.code } :: rest)) := by
  have h₁ := free_at h
  have happend : xs ++ { u with state := BlockState.free.code } :: (zs ++ v :: rest) =
      xs ++ { u with state := BlockState.free.code } :: zs ++ v :: rest := by simp
  rw [happend] at h₁
  have h₂ := free_at h₁
  simpa using h₂

theorem freeSizes_released :
    freeSizes (xs ++ { u with state := BlockState.free.code } :: (zs ++ { v with state := BlockState.free.code } :: rest)) =
      freeSizes xs ++ u.size :: (freeSizes zs ++ v.size :: freeSizes rest) := by
  rw [freeSizes_append, freeSizes_free rfl, freeSizes_append, freeSizes_free rfl]

theorem sound_scratch (hn : n < 2 ^ 32) (s : Heap) : Sound (8 * n) s := by
  have hb := blockSize_eq (8 * n)
  have hlt := s.breaks.lt_limit
  simp only [Sound]
  omega

theorem Fresh.room (h : Fresh n s bs p s' bs') (hne : p ≠ null) {a : Nat} (hp : p = a + 8) :
    ∃ b, s'.At bs' a b ∧ n + 8 + b.slop = b.size := by
  obtain ⟨a', b, hp', hnew, hexact⟩ := h.resolve_left hne
  obtain rfl : a' = a := by omega
  exact ⟨b, hnew.at_new, hexact⟩

theorem Fresh.free_at (h : Fresh n s bs p s' bs') (hne : p ≠ null) {a : Nat} (hp : p = a + 8) (hb : s.At bs a b) :
    b.state = BlockState.free.code := by
  obtain ⟨a', b', hp', hnew, -⟩ := h.resolve_left hne
  obtain rfl : a' = a := by omega
  exact hnew.fresh b hb

theorem blockSize_words (n : Nat) : blockSize (8 * n) = 8 * n + 8 := by
  simp only [blockSize]
  omega

theorem slots_released {need c d : Nat} {xs ys zs : List Nat} (hneed : 0 < need) (hc : need ≤ c) (hd : need ≤ d) :
    2 ≤ slots need (xs ++ c :: (ys ++ d :: zs)) := by
  have hc' := Nat.div_pos hc hneed
  have hd' := Nat.div_pos hd hneed
  rw [slots_append, slots_cons, slots_append, slots_cons]
  omega

theorem second_refused {s₁ s₂ : Heap} (h : WellFormed s bs) (hn : n ≠ 0) (hmod : n % 8 = 0)
    (hsound : ∀ s, Sound n s) (hrun : malloc n s = some (p, s₁)) (hrun' : malloc n s₁ = some (null, s₂)) :
    memsizeVirtual - pageSize ≤ s₂.breaks.programBreak + blockSize n := by
  obtain ⟨p', s₁', bs₁, hrun₁, hwf₁, hinit₁, -⟩ := malloc_fresh h hn hmod (hsound s)
  obtain ⟨-, rfl⟩ := Prod.mk.inj (Option.some.inj (hrun₁.symm.trans hrun))
  obtain ⟨rfl, hlimit⟩ := malloc_refused hwf₁ hinit₁ hn (hsound _) hrun'
  exact hlimit

/-- What the sort leaves of the free blocks: its scratch arrays have been carved out of them, or added to
the heap, and are free again. -/
theorem sort_sizes {a₁ a₂ : Nat} {b₁ b₂ : BlockHeader} (h : WellFormed s bs) (hi : s.initialized = true)
    (h₁ : ArrayBlock s bs n a₁ b₁) (h₂ : ArrayBlock s bs n a₂ b₂) (hne : a₁ ≠ a₂) (hn : n < 2 ^ 32) (hpos : 0 < n) :
    ∃ s' bs', sortDescending (a₁ + 8) (a₂ + 8) n s = some s' ∧ WellFormed s' bs' ∧
      Released (blockSize (8 * n)) s (freeSizes bs) (freeSizes bs') ∧ Stocked (blockSize (8 * n)) 2 s' bs' := by
  have hsize : 8 * n % 2 ^ 64 = 8 * n := by omega
  have hn' : 8 * n ≠ 0 := by omega
  obtain ⟨p, s₁, q, s₂, bs₂, hrun₁, hrun₂, hwf₂, -, hkeeps₂, hp, hq, -⟩ :=
    malloc_pair h hn' (by omega) (by omega)
  have hkept₁ : busy a₁ b₁ ∧ a₁ + 8 ≠ p ∧ a₁ + 8 ≠ q :=
    ⟨h₁.busy, hp.busy_ne h₁.at_block h₁.busy, hq.busy_ne h₁.at_block h₁.busy⟩
  have hkept₂ : busy a₂ b₂ ∧ a₂ + 8 ≠ p ∧ a₂ + 8 ≠ q :=
    ⟨h₂.busy, hp.busy_ne h₂.at_block h₂.busy, hq.busy_ne h₂.at_block h₂.busy⟩
  have h₁₂ := h₁.mono hkeeps₂ hkept₁
  have h₂₂ := h₂.mono hkeeps₂ hkept₂
  have hsort : sortDescending (a₁ + 8) (a₂ + 8) n s =
      (if p ≠ null ∧ q ≠ null then
        mergeSortDescending ⟨a₁ + 8, a₂ + 8, p, q⟩ n 0 n
          (setState (setState s₂.mem (headerOf p) .internal) (headerOf q) .internal)
      else SelectionSort.selectionSort (exchange (a₁ + 8) (a₂ + 8)) (a₁ + 8) n s₂.mem).bind fun m =>
      some (free q (free p { s₂ with mem := m })) := by
    simp only [sortDescending, hsize, hrun₁, hrun₂, Option.bind_some]
  obtain ⟨p', s₁', q', s₂', hrun₁', hrun₂', hcases⟩ := malloc_twice hn' (sound_scratch hn) h hi
  obtain ⟨rfl, rfl⟩ := Prod.mk.inj (Option.some.inj (hrun₁.symm.trans hrun₁'))
  obtain ⟨rfl, rfl⟩ := Prod.mk.inj (Option.some.inj (hrun₂.symm.trans hrun₂'))
  rw [hsort]
  rcases hcases with ⟨xs, u, zs, v, rest, htwice⟩ | ⟨hq', xs, u, rest, honce⟩ | ⟨hp', hq', hs, hreleased⟩
  · obtain rfl := hwf₂.blocks_unique htwice.wellFormed
    have hfirst := at_first s₂ xs u (zs ++ v :: rest)
    have hsecond := at_second s₂ xs u zs v rest
    have h34 := first_ne_second hwf₂
    obtain ⟨hpu, hqv⟩ := htwice.pointers
    have hboth : p ≠ null ∧ q ≠ null := by
      simp only [null]
      omega
    obtain ⟨u', hatu, hroomu⟩ := hp.room hboth.1 hpu
    obtain ⟨v', hatv, hroomv⟩ := hq.room hboth.2 hqv
    obtain rfl := hwf₂.unique hfirst hatu
    obtain rfl := hwf₂.unique hsecond hatv
    have hu : ArrayBlock s₂ _ n _ u := ⟨hfirst, busy_of_used htwice.used.1 0, (by omega : 8 * n + 8 ≤ u.size)⟩
    have hv : ArrayBlock s₂ _ n _ v := ⟨hsecond, busy_of_used htwice.used.2 0, (by omega : 8 * n + 8 ≤ v.size)⟩
    obtain ⟨bs₃, hmarked⟩ := markPair hwf₂ hu hv h34
    have hwf₃ := hmarked.wellFormed
    rw [← hpu, ← hqv] at hwf₃
    obtain rfl := hwf₃.blocks_unique htwice.mark
    have h₁₃ := h₁₂.mono hmarked.keeps (by omega)
    have h₂₃ := h₂₂.mono hmarked.keeps (by omega)
    obtain ⟨m', hrun, hwf, -⟩ := mergeSort_spec hmarked.wellFormed h₁₃ h₂₃ hne hn hmarked.first hmarked.second
      (by omega) (by omega) (by omega) (by omega) h34
    have hfreed := free_twice hwf
    refine ⟨_, _, ?_, hfreed, ?_, .inl ?_⟩
    · simp only [marked] at hrun
      rw [if_pos hboth, hpu, hqv, hrun, Option.bind_some]
      simp only [marked, total_append, total_cons, layout_size]
    · rw [freeSizes_released]
      exact htwice.released
    · rw [freeSizes_released, blockSize_words]
      simp only
      exact slots_released (by omega) (by omega) (by omega)
  · obtain rfl := hwf₂.blocks_unique honce.wellFormed
    obtain ⟨m', hrun, hwf, -⟩ := selection_spec hwf₂ h₁₂ h₂₂ hne hn
    have hfreed := free_at hwf
    have hlimit := second_refused h hn' (by omega) (sound_scratch hn) hrun₁ (hq' ▸ hrun₂)
    refine ⟨_, _, ?_, hfreed, ?_, .inr ?_⟩
    · rw [if_neg (by simp [hq']), hrun, Option.bind_some, hq', free_null, honce.pointer]
    · rw [freeSizes_append, freeSizes_free rfl]
      exact honce.released
    · rw [free_breaks]
      exact hlimit
  · subst hs
    obtain ⟨m', hrun, hwf, -⟩ := selection_spec hwf₂ h₁₂ h₂₂ hne hn
    obtain rfl := hwf₂.blocks_unique h
    have hlimit := second_refused h hn' (by omega) (sound_scratch hn) hrun₁ (hq' ▸ hrun₂)
    refine ⟨{ s₂ with mem := m' }, _, ?_, hwf, hreleased, .inr hlimit⟩
    rw [if_neg (by simp [hq']), hrun, Option.bind_some, hp', hq', free_null, free_null]

/-- The free sizes of a heap with `n` blocks to report, once the two result arrays are placed. -/
def placedSizes (n : Nat) (bs : List BlockHeader) : List Nat := carve (blockSize (8 * n)) 16 2 (freeSizes bs)

/-- The program break once the two result arrays are placed. -/
def placedBreak (n : Nat) (s : Heap) (bs : List BlockHeader) : Nat :=
  s.breaks.programBreak + (2 - slots (blockSize (8 * n)) (freeSizes bs)) * blockSize (8 * n)

/-- What `heap_info` reports of the free blocks, and what becomes of them. -/
inductive Totals (s : Heap) (bs : List BlockHeader) (info : HeapInfo) (bs' : List BlockHeader) : Prop
  | idle (hcount : (usedBlocks s bs).length = 0) (hspace : info.freeSpace = (freeSizes bs').sum)
      (hlargest : info.largestFreeChunk = largest (freeSizes bs'))
  | sorted (hcount : 0 < (usedBlocks s bs).length)
      (hspace : info.freeSpace = (placedSizes (usedBlocks s bs).length bs).sum)
      (hlargest : info.largestFreeChunk = largest (placedSizes (usedBlocks s bs).length bs)) (g : Nat)
      (hsizes : freeSizes bs' = shred (blockSize (8 * (usedBlocks s bs).length)) 16 2
        (placedSizes (usedBlocks s bs).length bs) ++ List.replicate g (blockSize (8 * (usedBlocks s bs).length)))
      (hgrown : g = 0 ↔ 2 ≤ slots (blockSize (8 * (usedBlocks s bs).length)) (placedSizes (usedBlocks s bs).length bs) ∨
        memsizeVirtual - pageSize ≤ placedBreak (usedBlocks s bs).length s bs + blockSize (8 * (usedBlocks s bs).length))

theorem report_totals {a₁ a₂ : Nat} {b₁ b₂ : BlockHeader} (h : WellFormed s bs) (hi : s.initialized = true)
    (h₁ : ArrayBlock s bs n a₁ b₁) (h₂ : ArrayBlock s bs n a₂ b₂) (hne : a₁ ≠ a₂) (hpos : 0 < n)
    (hn : (usedBlocks s bs).length = n) :
    ∃ info s' bs', report n (a₁ + 8) (a₂ + 8) s = some (0, info, s') ∧ WellFormed s' bs' ∧
      info.freeSpace = (freeSizes bs).sum ∧ info.largestFreeChunk = largest (freeSizes bs) ∧
      Released (blockSize (8 * n)) s (freeSizes bs) (freeSizes bs') ∧ Stocked (blockSize (8 * n)) 2 s' bs' := by
  have hle := h.count_le
  have hlast := h.last_lt
  obtain ⟨c, hrun, hc⟩ := fill_spec _ _ h (offHeaders h h₁ h₂) (h₁.apart h₂ hne) hn
  have hindex : c.index = n := hc.index_eq.trans hn
  obtain ⟨hwf₁, -⟩ := h.writeArrays [(a₁, b₁), (a₂, b₂)] (by simp [h₁, h₂]) hc.changed
  obtain ⟨s', bs', hsort, hwf', hreleased⟩ := sort_sizes hwf₁ hi
    ⟨h₁.at_block, h₁.busy, h₁.room⟩ ⟨h₂.at_block, h₂.busy, h₂.room⟩ hne (by omega) hpos
  refine ⟨⟨n, a₁ + 8, a₂ + 8, c.freeSpace, c.largestFreeChunk⟩, s', bs', ?_, hwf', hc.freeSpace_eq, hc.largest_eq,
    hreleased⟩
  simp only [report, hrun, Option.bind_some, hindex, if_true, if_pos hpos, hsort]

/-- The blocks `bs` once `heap_info` has placed and marked the arrays for its `n` entries. -/
structure Arranged (n : Nat) (s : Heap) (bs : List BlockHeader) (p q : Nat) (s₂ : Heap) (bs₃ : List BlockHeader)
    (a₁ : Nat) (b₁ : BlockHeader) (a₂ : Nat) (b₂ : BlockHeader) : Prop where
  pointers : p = a₁ + 8 ∧ q = a₂ + 8
  ne : a₁ ≠ a₂
  wellFormed : WellFormed (marked p q s₂) bs₃
  initialized : s₂.initialized = true
  first : ArrayBlock (marked p q s₂) bs₃ n a₁ b₁
  second : ArrayBlock (marked p q s₂) bs₃ n a₂ b₂
  count : (usedBlocks (marked p q s₂) bs₃).length = n
  left_eq : placedSizes n bs = freeSizes bs₃
  break_eq : placedBreak n s bs = s₂.breaks.programBreak

/-- `heap_info` on a heap with something to report: one of its arrays is refused, or it goes on with both. -/
theorem heapInfo_placed (h : WellFormed s bs) (hi : s.initialized = true) (hpos : 0 < n)
    (hn : (usedBlocks s bs).length = n) : ∃ p s₁ q s₂, malloc (8 * n) s = some (p, s₁) ∧ malloc (8 * n) s₁ = some (q, s₂) ∧
      (heapInfo s = some (-1, .zero, free q (free p s₂)) ∨ heapInfo s = report n p q (marked p q s₂) ∧
        ∃ bs₃ a₁ b₁ a₂ b₂, Arranged n s bs p q s₂ bs₃ a₁ b₁ a₂ b₂) := by
  have hle := h.count_le
  have hlast := h.last_lt
  have hsize : 8 * n % 2 ^ 64 = 8 * n := by omega
  have hn' : 8 * n ≠ 0 := by omega
  obtain ⟨p, s₁, q, s₂, bs₂, hrun₁, hrun₂, hwf₂, hinit₂, hkeeps₂, hp, hq, -⟩ :=
    malloc_pair h hn' (by omega) (by omega)
  obtain ⟨p', s₁', q', s₂', hrun₁', hrun₂', hcases⟩ := malloc_twice hn' (sound_scratch (by omega)) h hi
  obtain ⟨rfl, rfl⟩ := Prod.mk.inj (Option.some.inj (hrun₁.symm.trans hrun₁'))
  obtain ⟨rfl, rfl⟩ := Prod.mk.inj (Option.some.inj (hrun₂.symm.trans hrun₂'))
  have hrun : heapInfo s = if p = null ∨ q = null then some (-1, .zero, free q (free p s₂))
      else report n p q (marked p q s₂) := by
    simp only [heapInfo, hi, Bool.true_eq_false, if_false, countUsed_eq h, hn, Option.bind_some, if_pos hpos, hsize,
      hrun₁, hrun₂]
    rfl
  refine ⟨p, s₁, q, s₂, hrun₁, hrun₂, ?_⟩
  rw [hrun]
  rcases hcases with ⟨xs, u, zs, v, rest, htwice⟩ | ⟨hq', -⟩ | ⟨-, hq', -⟩
  case inr.inl => exact .inl (if_pos (.inr hq'))
  case inr.inr => exact .inl (if_pos (.inr hq'))
  obtain rfl := hwf₂.blocks_unique htwice.wellFormed
  have hfirst := at_first s₂ xs u (zs ++ v :: rest)
  have hsecond := at_second s₂ xs u zs v rest
  have hne := first_ne_second hwf₂
  obtain ⟨hpu, hqv⟩ := htwice.pointers
  have hboth : p ≠ null ∧ q ≠ null := by
    simp only [null]
    omega
  obtain ⟨u', hatu, hroomu⟩ := hp.room hboth.1 hpu
  obtain ⟨v', hatv, hroomv⟩ := hq.room hboth.2 hqv
  obtain rfl := hwf₂.unique hfirst hatu
  obtain rfl := hwf₂.unique hsecond hatv
  have hu : ArrayBlock s₂ _ n _ u := ⟨hfirst, busy_of_used htwice.used.1 0, (by omega : 8 * n + 8 ≤ u.size)⟩
  have hv : ArrayBlock s₂ _ n _ v := ⟨hsecond, busy_of_used htwice.used.2 0, (by omega : 8 * n + 8 ≤ v.size)⟩
  obtain ⟨bs₃, hmarked⟩ := markPair hwf₂ hu hv hne
  have hwf₃ := hmarked.wellFormed
  rw [← hpu, ← hqv] at hwf₃
  obtain rfl := hwf₃.blocks_unique htwice.mark
  rw [hpu, hqv] at hkeeps₂
  have hused := hmarked.usedBlocks hkeeps₂ h (fun c hc => hp.free_at hboth.1 hpu hc) fun c hc => hq.free_at hboth.2 hqv hc
  have hfirst' := hmarked.first
  have hsecond' := hmarked.second
  rw [← hpu, ← hqv] at hfirst' hsecond' hused
  refine .inr ⟨if_neg fun hnull => hnull.elim hboth.1 hboth.2, _, _, _, _, _, htwice.pointers, hne, hwf₃, hinit₂, hfirst',
    hsecond', ?_, ?_, htwice.break_eq.symm⟩
  · rw [← hused, hn]
  · rw [placedSizes, htwice.left_eq, freeSizes_append, freeSizes_busy (busy_internal 0 u), freeSizes_append,
      freeSizes_busy (busy_internal 0 v)]

theorem heapInfo_totals {info : HeapInfo} (h : WellFormed s bs) (hi : s.initialized = true)
    (hrun : heapInfo s = some (0, info, s')) : ∃ bs', WellFormed s' bs' ∧ Totals s bs info bs' ∧
      (0 < (usedBlocks s bs).length → Stocked (blockSize (8 * (usedBlocks s bs).length)) 2 s' bs') := by
  by_cases hpos : 0 < (usedBlocks s bs).length
  · obtain ⟨p, s₁, q, s₂, -, -, hcases⟩ := heapInfo_placed h hi hpos rfl
    rcases hcases with hfail | ⟨hreport, bs₃, a₁, b₁, a₂, b₂, harr⟩
    · rw [hfail, Option.some.injEq, Prod.mk.injEq] at hrun
      exact absurd hrun.1 (by decide)
    · obtain ⟨info', s'', bs', hreport', hwf', hspace, hlargest, ⟨g, hsizes, hgrown⟩, hstock⟩ := report_totals
        harr.wellFormed harr.initialized harr.first harr.second harr.ne hpos harr.count
      rw [hreport, harr.pointers.1, harr.pointers.2] at hrun
      rw [harr.pointers.1, harr.pointers.2, hrun, Option.some.injEq, Prod.mk.injEq, Prod.mk.injEq] at hreport'
      obtain ⟨-, rfl, rfl⟩ := hreport'
      have hbreak : (marked p q s₂).breaks.programBreak = placedBreak (usedBlocks s bs).length s bs := harr.break_eq.symm
      rw [← harr.left_eq] at hspace hlargest hsizes hgrown
      rw [hbreak] at hgrown
      exact ⟨bs', hwf', .sorted hpos hspace hlargest g hsizes hgrown, fun _ => hstock⟩
  · have hnone : (usedBlocks s bs).length = 0 := by omega
    simp only [heapInfo, hi, Bool.true_eq_false, if_false, countUsed_eq h, Option.bind_some, if_neg hpos] at hrun
    obtain ⟨c, hfill, hc⟩ := fill_spec null null h (fun a b _ x _ _ base _ => by omega) (.inl (Nat.le_refl _)) hnone
    have hmem : c.mem = s.mem := by
      funext x
      exact hc.changed x fun b _ => by omega
    have hindex : c.index = 0 := hc.index_eq.trans hnone
    rw [hnone] at hrun
    simp only [report, hfill, Option.bind_some, hindex, if_true, Nat.lt_irrefl, if_false, hmem, Option.some.injEq,
      Prod.mk.injEq, true_and] at hrun
    obtain ⟨rfl, rfl⟩ := hrun
    exact ⟨bs, h, .idle hnone hc.freeSpace_eq hc.largest_eq, fun hlt => absurd hlt hpos⟩

/-- The totals that `heap_info` reports are those of the heap that it leaves: there is nothing to report;
or no scratch array of the sort has grown the heap, and none has split all of the largest free blocks. -/
def TotalsHold (s : Heap) (bs : List BlockHeader) : Prop :=
  let n := (usedBlocks s bs).length
  let need := blockSize (8 * n)
  n = 0 ∨ (2 ≤ slots need (placedSizes n bs) ∨ memsizeVirtual - pageSize ≤ placedBreak n s bs + need) ∧
    (placedSizes n bs = [] ∨ ∃ xs size ys, placedSizes n bs = xs ++ size :: ys ∧
      (∀ c ∈ placedSizes n bs, c ≤ size) ∧ (2 ≤ slots need xs ∨ size < need + 16))

/-- The free blocks of a heap have the totals of the report `info`. -/
def DescribesFree (info : HeapInfo) (bs : List BlockHeader) : Prop :=
  info.freeSpace = (freeSizes bs).sum ∧ info.largestFreeChunk = largest (freeSizes bs)

/-- `heap_info` reports the totals of the heap that it leaves exactly if `TotalsHold`. -/
theorem totals_describe_iff (s : Heap) (bs : List BlockHeader) (h : WellFormed s bs) (hi : s.initialized = true)
    (info : HeapInfo) (s' : Heap) (hrun : heapInfo s = some (0, info, s')) :
    (∃ bs', WellFormed s' bs' ∧ DescribesFree info bs') ↔ TotalsHold s bs := by
  obtain ⟨bs', hwf, htotals, -⟩ := heapInfo_totals h hi hrun
  have hunique : (∃ bs', WellFormed s' bs' ∧ DescribesFree info bs') ↔ DescribesFree info bs' := by
    constructor
    · rintro ⟨bs₁, hwf₁, hd⟩
      obtain rfl := hwf.blocks_unique hwf₁
      exact hd
    · intro hd
      exact ⟨bs', hwf, hd⟩
  rw [hunique]
  cases htotals with
  | idle hcount hspace hlargest =>
      constructor
      · intro _
        exact .inl hcount
      · intro _
        exact ⟨hspace, hlargest⟩
  | sorted hcount hspace hlargest g hsizes hgrown =>
      have hge := blockSize_ge (n := 8 * (usedBlocks s bs).length) (by omega)
      rw [DescribesFree, hspace, hlargest, hsizes,
        shred_totals_iff (Nat.lt_of_lt_of_le (by decide) hge) hge (by decide), hgrown, TotalsHold]
      constructor
      · intro hholds
        exact .inr hholds
      · rintro (hzero | hholds)
        · omega
        · exact hholds

/-- The blocks that a walk over the heap meets. -/
def Heap.blocks (s : Heap) : Option (List BlockHeader) :=
  (layout.visit (fun met _ b => met ++ [b]) s.mem s.lastValidAddress ([], s.managedMemoryStart)).map Prod.fst

theorem WellFormed.blocks_eq (h : WellFormed s bs) : s.blocks = some bs := by
  have hvisit := h.tiles.visit_eq h.positive (Nat.lt_trans h.last_lt (by omega)) (fun met _ b => met ++ [b]) []
  have hfold (l : List (Nat × BlockHeader)) (met : List BlockHeader) :
      l.foldl (fun met p => met ++ [p.2]) met = met ++ l.map Prod.snd := by
    induction l generalizing met with
    | nil => simp
    | cons p l ih => simp [ih]
  rw [Heap.blocks, hvisit, Option.map_some, hfold, List.nil_append, located_map_snd]

/-- With four free blocks of 16 bytes, which hold the result arrays and the scratch arrays, the totals hold. -/
theorem exact_blocks_described : ∃ s bs info s', WellFormed s bs ∧ heapInfo s = some (0, info, s') ∧
    info.freeSpace = 32 ∧ TotalsHold s bs ∧ ∃ bs', WellFormed s' bs' ∧ DescribesFree info bs' := by
  obtain ⟨s, hreach, hi, hblocks, hinfo⟩ := Allocator.Interface.reachable_of_any (A := library) SizeBound
    (start (fun _ => 0) sampleBreaks)
    [.call (.malloc 8), .call (.malloc 8), .call (.malloc 8), .call (.malloc 8), .call (.malloc 8),
      .call (.free 0x110008), .call (.free 0x110018), .call (.free 0x110028), .call (.free 0x110038)]
    (P := fun s => s.heap.initialized = true ∧
      s.heap.blocks = some [⟨0, 0, 16⟩, ⟨0, 0, 16⟩, ⟨0, 0, 16⟩, ⟨0, 0, 16⟩, ⟨2, 0, 16⟩] ∧
      ((heapInfo s.heap).any fun r => decide (r.1 = 0 ∧ r.2.1.freeSpace = 32)) = true) (by decide +kernel)
  obtain ⟨bs, hwf⟩ := (reach_inv (by decide) hreach).wf
  obtain ⟨r, hr⟩ := Option.isSome_iff_exists.mp (Option.isSome_of_any hinfo)
  obtain ⟨ret, info, s'⟩ := r
  rw [hr] at hinfo
  obtain ⟨rfl, hspace⟩ := of_decide_eq_true hinfo
  obtain rfl := Option.some.inj (hwf.blocks_eq.symm.trans hblocks)
  have hholds : TotalsHold s.heap [⟨0, 0, 16⟩, ⟨0, 0, 16⟩, ⟨0, 0, 16⟩, ⟨0, 0, 16⟩, ⟨2, 0, 16⟩] := by
    have hone : (usedBlocks s.heap [⟨0, 0, 16⟩, ⟨0, 0, 16⟩, ⟨0, 0, 16⟩, ⟨0, 0, 16⟩, ⟨2, 0, 16⟩]).length = 1 := rfl
    rw [TotalsHold, hone]
    exact .inr ⟨.inl (by decide), .inr ⟨[], 16, [16], by decide, by decide, .inr (by decide)⟩⟩
  exact ⟨s.heap, _, info, s', hwf, hr, hspace, hholds, (totals_describe_iff _ _ hwf hi _ _ hr).mpr hholds⟩

/-- After one allocation `heap_info` reports no free space, and it leaves two free blocks of 16 bytes. -/
theorem scratch_not_counted : ∃ s bs info s', WellFormed s bs ∧ s.initialized = true ∧
    heapInfo s = some (0, info, s') ∧ ¬∃ bs', WellFormed s' bs' ∧ DescribesFree info bs' := by
  obtain ⟨s, hreach, hi, hinfo⟩ := Allocator.Interface.reachable_of_any (A := library) SizeBound
    (start (fun _ => 0) sampleBreaks) [.call (.malloc 24)]
    (P := fun s => s.heap.initialized = true ∧ ((heapInfo s.heap).any fun r => decide (r.1 = 0 ∧
      r.2.1.freeSpace = 0 ∧ (r.2.2.blocks.any fun bs => decide (freeSizes bs = [16, 16])) = true)) = true)
    (by decide +kernel)
  obtain ⟨bs, hwf⟩ := (reach_inv (by decide) hreach).wf
  obtain ⟨r, hr⟩ := Option.isSome_iff_exists.mp (Option.isSome_of_any hinfo)
  obtain ⟨ret, info, s'⟩ := r
  rw [hr] at hinfo
  obtain ⟨rfl, hspace, hsizes⟩ := of_decide_eq_true hinfo
  refine ⟨s.heap, bs, info, s', hwf, hi, hr, ?_⟩
  rintro ⟨bs', hwf', hsum, -⟩
  rw [hwf'.blocks_eq] at hsizes
  rw [of_decide_eq_true hsizes] at hsum
  exact absurd (hspace.symm.trans hsum) (by decide)

end WeensyOS.CMalloc
