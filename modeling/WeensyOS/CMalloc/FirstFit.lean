import WeensyOS.CMalloc.Runs

namespace WeensyOS.CMalloc

open ByteMemory LibC ProgramBreak Tiling Tiling.Layout Allocator

variable {s s' : Heap} {bs xs ys : List BlockHeader} {b : BlockHeader} {n a p : Nat}

/-- What `malloc` makes of the free block `b`, with the blocks `xs` before it and `ys` after it. -/
structure Taken (n : Nat) (s : Heap) (xs : List BlockHeader) (b : BlockHeader) (ys : List BlockHeader) (p : Nat)
    (s' : Heap) : Prop where
  pointer : p = s.managedMemoryStart + layout.total xs + 8
  start_eq : s'.managedMemoryStart = s.managedMemoryStart
  last_eq : s'.lastValidAddress = s.lastValidAddress
  breaks_eq : s'.breaks = s.breaks
  frame : ∀ x, x < s.managedMemoryStart + layout.total xs ∨ s.managedMemoryStart + layout.total xs + b.size ≤ x →
    s'.mem x = s.mem x
  whole : b.size - blockSize n < 16 →
    WellFormed s' (xs ++ ⟨BlockState.used.code, b.size - blockSize n, b.size⟩ :: ys)
  split : 16 ≤ b.size - blockSize n → ∃ old, WellFormed s' (xs ++ ⟨BlockState.used.code, padding n, blockSize n⟩ ::
    ⟨BlockState.free.code, old, b.size - blockSize n⟩ :: ys)

/-- What `malloc` adds to the heap when no free block is large enough. -/
structure Grown (n : Nat) (s : Heap) (bs : List BlockHeader) (p : Nat) (s' : Heap) : Prop where
  pointer : p = s.breaks.programBreak + 8
  break_eq : s'.breaks.programBreak = s.breaks.programBreak + blockSize n
  original_eq : s'.breaks.originalBreak = s.breaks.originalBreak
  last_eq : s'.lastValidAddress = s'.breaks.programBreak
  frame : ∀ x, x < s.breaks.programBreak → s'.mem x = s.mem x
  blocks : WellFormed s' (bs ++ [⟨BlockState.used.code, padding n, blockSize n⟩])

theorem takeWhile_first {q : BlockHeader → Bool} (hxs : ∀ c ∈ xs, q c = true) (hb : ¬q b = true) :
    (xs ++ b :: ys).takeWhile q = xs := by
  rw [List.takeWhile_append_of_pos hxs, List.takeWhile_cons_of_neg hb, List.append_nil]

theorem place_taken (h : WellFormed s (xs ++ b :: ys)) (hroom : blockSize n ≤ b.size) {x : Nat}
    (hx : x < s.managedMemoryStart + layout.total xs ∨ s.managedMemoryStart + layout.total xs + b.size ≤ x) :
    place s.mem (s.managedMemoryStart + layout.total xs) (blockSize n) (padding n) x = s.mem x := by
  have hat : s.At (xs ++ b :: ys) (s.managedMemoryStart + layout.total xs) b := by simp [Heap.At]
  have hheader := h.header hat
  have hbd := h.bounds hat
  have hlast := h.last_lt
  have hge := (h.valid b hat.mem).size_ge
  obtain ⟨hsum, -, hpad⟩ := blockSize_eq n
  by_cases hsplit : blockSize n + 16 ≤ b.size
  · exact (place_split (padding n) hheader (by omega) hsplit (by omega) (by omega) (by omega)).2.2 x hx
  · exact (place_whole (padding n) hheader (by omega) hroom (by omega) (by omega)).2 x hx

theorem malloc_taken (h : WellFormed s (xs ++ b :: ys)) (hn : n ≠ 0) (hsize : Sound n s)
    (hxs : ∀ c ∈ xs, ¬fits (blockSize n) c) (hb : fits (blockSize n) b) :
    ∃ p s', malloc n s = some (p, s') ∧ Taken n s xs b ys p s' := by
  have hi : s.initialized = true := by
    by_contra hi
    have hnil := h.blocks_nil (by simpa using hi)
    simp at hnil
  have htake : (xs ++ b :: ys).takeWhile (fun c => decide ¬fits (blockSize n) c) = xs :=
    takeWhile_first (fun c hc => decide_eq_true (hxs c hc)) (by simpa using hb)
  have hmem : b ∈ xs ++ b :: ys := by simp
  -- the outcome is about the same block
  have hsame {xs' ys' : List BlockHeader} {b' : BlockHeader} (hbs : xs ++ b :: ys = xs' ++ b' :: ys')
      (hxs' : ∀ c ∈ xs', ¬fits (blockSize n) c) (hb' : fits (blockSize n) b') : xs' = xs ∧ b' = b ∧ ys' = ys := by
    have hfirst := htake
    rw [hbs, takeWhile_first (fun c hc => decide_eq_true (hxs' c hc)) (by simpa using hb')] at hfirst
    subst hfirst
    have htail := List.append_cancel_left hbs
    rw [List.cons.injEq] at htail
    exact ⟨rfl, htail.1.symm, htail.2.symm⟩
  obtain ⟨p, s', bs', hrun, hout, hwf, -⟩ := malloc_cases h hi hn hsize
  refine ⟨p, s', hrun, ?_⟩
  cases hout with
  | refused hnone _ => exact absurd hb (hnone b hmem)
  | grown hnone _ => exact absurd hb (hnone b hmem)
  | split xs' b' ys' hbs hxs' hfree' hroom old =>
      obtain ⟨rfl, rfl, rfl⟩ := hsame hbs hxs' ⟨hfree', by omega⟩
      refine ⟨rfl, rfl, rfl, rfl, fun x hx => place_taken h hb.2 hx, fun hfull => ?_, fun _ => ⟨old, hwf⟩⟩
      omega
  | whole xs' b' ys' hbs hxs' hfree' hroom hfull =>
      obtain ⟨rfl, rfl, rfl⟩ := hsame hbs hxs' ⟨hfree', hroom⟩
      refine ⟨rfl, rfl, rfl, rfl, fun x hx => place_taken h hb.2 hx, fun _ => hwf, fun hsplit => ?_⟩
      omega

theorem malloc_unfitted (h : WellFormed s bs) (hn : n ≠ 0) (hsize : Sound n s)
    (hnone : ∀ b ∈ bs, ¬fits (blockSize n) b) :
    (s.breaks.programBreak + blockSize n < memsizeVirtual - pageSize →
      ∃ p s', malloc n s = some (p, s') ∧ Grown n s bs p s') ∧
    (memsizeVirtual - pageSize ≤ s.breaks.programBreak + blockSize n → malloc n s = some (null, init s)) := by
  have hinit := init_initialized s
  have hlast := h.init.last_eq hinit
  rw [init_breaks] at hlast
  have hsize' : Sound n (init s) := by rwa [Sound, init_breaks]
  have hge := blockSize_ge hn
  have hlim := limit_eq
  obtain ⟨p, s', bs', hrun, hout, hwf, -⟩ := malloc_cases h.init hinit hn hsize'
  rw [malloc_init hn, hrun]
  cases hout with
  | refused _ hlimit =>
      rw [init_breaks] at hlimit
      exact ⟨fun hroom => by omega, fun _ => rfl⟩
  | grown _ hlimit =>
      rw [init_breaks] at hlimit
      constructor
      · intro _
        refine ⟨_, _, rfl, by rw [hlast], by simp only [init_breaks], by simp only [init_breaks],
          by simp only [hlast, init_breaks], ?_, hwf⟩
        intro x hx
        simp only [init_mem]
        rw [hlast, setSize_outside _ (.inl hx), setSlop_outside _ (.inl hx), setState_outside _ _ (.inl hx)]
      · intro hroom
        omega
  | split xs' b' ys' hbs _ hfree' hroom _ => exact absurd ⟨hfree', by omega⟩ (hnone b' (by simp [hbs]))
  | whole xs' b' ys' hbs _ hfree' hroom _ => exact absurd ⟨hfree', hroom⟩ (hnone b' (by simp [hbs]))

/-- A block of enough capacity that has just been freed is used again, or an earlier one is. -/
theorem malloc_after_free (h : WellFormed s bs) (hb : s.At bs a b) (hn : n ≠ 0) (hle : n ≤ 2 ^ 63 - 16)
    (hcap : n ≤ b.size - 8) :
    ∃ p s', malloc n (free (a + 8) s) = some (p, s') ∧ p ≠ null ∧ s'.breaks = s.breaks := by
  obtain ⟨bs', hwf, hat, -⟩ := free_spec h hb
  have hv := hwf.valid _ hat.mem
  have hmod := hv.size_mod
  have hge := hv.size_ge
  have hfit : fits (blockSize n) { b with state := BlockState.free.code } := by
    refine ⟨rfl, ?_⟩
    simp only [blockSize] at *
    omega
  have hbreaks : (free (a + 8) s).breaks = s.breaks := by
    rw [free]
    split <;> rfl
  rcases scan_cases (fun c => ¬fits (blockSize n) c) bs' with ⟨hall, -⟩ | ⟨xs, c, ys, rfl, -, hxs, hc⟩
  · exact absurd hfit (hall _ hat.mem)
  · obtain ⟨p, s', hrun, htaken⟩ := malloc_taken hwf hn (sound_of_le hle _) hxs (Decidable.not_not.mp hc)
    refine ⟨p, s', hrun, ?_, by rw [htaken.breaks_eq, hbreaks]⟩
    rw [htaken.pointer]
    exact Nat.succ_ne_zero _

/-- `malloc` is exact first fit, with minimal growth and a clean failure. -/
theorem malloc_first_fit (s : Heap) (bs : List BlockHeader) (h : WellFormed s bs) (n : Nat) (hn : 1 ≤ n)
    (hle : n ≤ 2 ^ 63 - 16) :
    (∀ xs b ys, bs = xs ++ b :: ys → (∀ c ∈ xs, ¬fits (blockSize n) c) → fits (blockSize n) b →
      ∃ p s', malloc n s = some (p, s') ∧ Taken n s xs b ys p s') ∧
    ((∀ b ∈ bs, ¬fits (blockSize n) b) →
      (s.breaks.programBreak + blockSize n < memsizeVirtual - pageSize →
        ∃ p s', malloc n s = some (p, s') ∧ Grown n s bs p s') ∧
      (memsizeVirtual - pageSize ≤ s.breaks.programBreak + blockSize n →
        malloc n s = some (null, init s) ∧ WellFormed (init s) bs ∧ (init s).mem = s.mem ∧
          (init s).breaks = s.breaks ∧ (s.initialized = true → init s = s))) ∧
    ∀ a b, s.At bs a b → n ≤ b.size - 8 →
      ∃ p s', malloc n (free (a + 8) s) = some (p, s') ∧ p ≠ null ∧ s'.breaks = s.breaks := by
  have hn0 : n ≠ 0 := Nat.ne_of_gt hn
  have hsize := sound_of_le hle s
  refine ⟨?_, ?_, ?_⟩
  · rintro xs b ys rfl hxs hb
    exact malloc_taken h hn0 hsize hxs hb
  · intro hnone
    obtain ⟨hgrow, hfail⟩ := malloc_unfitted h hn0 hsize hnone
    exact ⟨hgrow, fun hlimit => ⟨hfail hlimit, h.init, init_mem s, init_breaks s, init_eq⟩⟩
  · intro a b hb hcap
    exact malloc_after_free h hb hn0 hle hcap

/-- A heap with a freed block of 32 bytes serves a request of 17 bytes from it. -/
theorem reuse_first_fit : ∃ s bs, WellFormed s bs ∧ s.breaks.programBreak = 0x110020 ∧
    ∃ b, s.At bs 0x110000 b ∧ b.size = 32 ∧
      ∃ p s', malloc 17 (free 0x110008 s) = some (p, s') ∧ p ≠ null ∧ s'.breaks = s.breaks := by
  obtain ⟨s, hreach, hlive, hbreak, hheader⟩ := Interface.reachable_of_any (A := library) SizeBound
    (start (fun _ => 0) sampleBreaks) [.call (.malloc 24)]
    (P := fun s => s.live = [⟨0x110008, 24, .user⟩] ∧ s.heap.breaks.programBreak = 0x110020 ∧
      (headerAt s.heap.mem 0x110000).size = 32) (by decide +kernel)
  have hinv := reach_inv (by decide) hreach
  obtain ⟨bs, hwf⟩ := hinv.wf
  obtain ⟨a, b, hb, hholds⟩ := (hinv.owns ⟨0x110008, 24, .user⟩ (by rw [hlive]; exact List.mem_cons_self)).block hwf
  obtain rfl : a = 0x110000 := by
    have hptr : 0x110008 = a + 8 := hholds.ptr
    omega
  rw [hwf.header hb] at hheader
  exact ⟨s.heap, bs, hwf, hbreak, b, hb, hheader,
    (malloc_first_fit _ bs hwf 17 (by decide) (by decide)).2.2 _ b hb (by rw [hheader]; decide)⟩

/-- On a heap that no allocation has used yet, a `malloc` that fails changes `last_valid_address`. -/
theorem failed_malloc_sets_end : ∃ s, WellFormed s [] ∧ ∃ s', malloc (2 ^ 62) s = some (null, s') ∧
    memsizeVirtual - pageSize ≤ s.breaks.programBreak + blockSize (2 ^ 62) ∧
    s'.lastValidAddress ≠ s.lastValidAddress := by
  have hwf : WellFormed ⟨fun _ => 0, false, null, null, sampleBreaks⟩ [] :=
    ⟨rfl, by simp, (fun hi => by cases hi), fun _ => ⟨rfl, rfl⟩, by decide⟩
  exact ⟨_, hwf, _, (malloc_unfitted hwf (by decide) (sound_of_le (by decide) _) (by simp)).2 (by decide), by decide, by decide⟩

end WeensyOS.CMalloc
