import WeensyOS.CMalloc.Runs

namespace WeensyOS.CMalloc

open ByteMemory LibC ProgramBreak Tiling Tiling.Layout Allocator

variable {s s' : Heap} {bs : List BlockHeader} {n p : Nat}

/-- The heap that a call may leave when it returns `NULL`: the same one, except
that `realloc(p, 0)` is `free(p)`. -/
def afterNull (s : Heap) : Call → Heap
  | .realloc q 0 => free q s
  | _ => s

/-- The memory, the bounds of the heap and the program break are the same. -/
structure Unchanged (s s' : Heap) : Prop where
  mem : s'.mem = s.mem
  start : s'.managedMemoryStart = s.managedMemoryStart
  last : s'.lastValidAddress = s.lastValidAddress
  breaks : s'.breaks = s.breaks

/-- A block with room for `n` bytes at `p`, in a heap that still ends at the break. -/
def Served (n p : Nat) (s : Heap) : Prop :=
  ∃ bs, layout.Tiles s.mem s.managedMemoryStart bs s.lastValidAddress ∧
    s.lastValidAddress = s.breaks.programBreak ∧ 8 ≤ p ∧ ∃ b, s.At bs (p - 8) b ∧ n + 8 ≤ b.size

/-- The outcome of a request for `n` bytes that cannot do harm: `NULL` and an
unchanged heap, or a block. -/
def Safe (c : Call) (n : Nat) (s : Heap) : Prop :=
  ∃ p s', exec c s = some (.pointer p, s') ∧
    (p = null ∧ Unchanged (afterNull s c) s' ∨ p ≠ null ∧ Served n p s')

/-- The sizes for which the arithmetic of `malloc` does no harm: the heap has room for
them up to the limit of the break, or it already ends at the break, as it does from the first call
on, and nothing wraps up to the new break, or there is a wrap that `sbrk` happens to refuse. -/
def FineSize (n : Nat) (s : Heap) (bs : List BlockHeader) : Prop :=
  n = 0 ∨ s.breaks.programBreak + blockSize n < memsizeVirtual - pageSize ∨
    s.lastValidAddress = s.breaks.programBreak ∧
      (Sound n s ∨ 2 ^ 64 - 8 < n ∧ (∀ b ∈ bs, b.state ≠ BlockState.free.code) ∧
        memsizeVirtual - pageSize ≤ s.breaks.programBreak + 8)

def Fine (c : Call) (n : Nat) (s : Heap) (bs : List BlockHeader) : Prop :=
  match c with
  | .calloc num sz => 2 ^ 64 ≤ num * sz ∨ FineSize n s bs
  | _ => FineSize n s bs

/-- The arguments that can be passed: 64-bit words, and as a pointer `NULL` or
the payload of a block in use. -/
def WellTyped (c : Call) (s : Heap) (bs : List BlockHeader) : Prop :=
  match c with
  | .malloc n => n < 2 ^ 64
  | .calloc num sz => num < 2 ^ 64 ∧ sz < 2 ^ 64
  | .realloc q n => n < 2 ^ 64 ∧ (q = null ∨ ∃ a b, q = a + 8 ∧ s.At bs a b ∧ busy a b)
  | _ => False

theorem payloadOf_ne_null {a : Nat} (ha : a < 2 ^ 32) : payloadOf a ≠ null := by
  simp only [payloadOf, sizeofHeader, null]
  omega

theorem grow_ok (blockSz slop : Nat) (ho : s.breaks.originalBreak ≤ (s.breaks.programBreak + blockSz) % 2 ^ 64)
    (hl : (s.breaks.programBreak + blockSz) % 2 ^ 64 < memsizeVirtual - pageSize) :
    ∃ s', grow blockSz slop s = (payloadOf s.lastValidAddress, s') := by
  have hne : s.breaks.programBreak ≠ 2 ^ 64 - 1 := by
    have hbreak := s.breaks.lt_limit
    omega
  exact ⟨_, by simp only [grow, sbrk, sbrk_ok s.breaks ho hl, if_neg hne]; rfl⟩

theorem grow_fail {blockSz : Nat} (slop : Nat)
    (h : (s.breaks.programBreak + blockSz) % 2 ^ 64 < s.breaks.originalBreak ∨
      memsizeVirtual - pageSize ≤ (s.breaks.programBreak + blockSz) % 2 ^ 64) :
    grow blockSz slop s = (null, s) := by
  simp only [grow, sbrk, sbrk_fail s.breaks h, if_true]

theorem sound_of_room (h : s.breaks.programBreak + blockSize n < memsizeVirtual - pageSize) : Sound n s := by
  rw [limit_eq] at h
  rw [Sound]
  omega

theorem not_fineSize (hn : n ≠ 0) (hwrap : ¬Sound n s) (hnot : ¬(2 ^ 64 - 8 < n ∧
    (∀ b ∈ bs, b.state ≠ BlockState.free.code) ∧ memsizeVirtual - pageSize ≤ s.breaks.programBreak + 8)) :
    ¬FineSize n s bs := by
  rintro (h0 | hroom | ⟨-, hsound | hrefused⟩)
  · exact hn h0
  · exact hwrap (sound_of_room hroom)
  · exact hwrap hsound
  · exact hnot hrefused

theorem malloc_wrapped (h : WellFormed s bs) (hi : s.initialized = true) (hn : n ≠ 0) (hlt : n < 2 ^ 64)
    (hwrap : ¬Sound n s) :
    (∃ p s', malloc n s = some (p, s') ∧ p ≠ null ∧ ¬FineSize n s bs) ∨
      malloc n s = some (null, s) ∧ FineSize n s bs := by
  have hlast := h.last_lt
  have hend := h.last_eq hi
  have hbreak := s.breaks.lt_limit
  have hle := s.breaks.le_programBreak
  have hlim := limit_eq
  have hstart : s.managedMemoryStart ≤ s.lastValidAddress := by
    have hend := h.tiles.end_eq
    omega
  have hsize : 2 ^ 64 ≤ blockSize n + (s.breaks.programBreak - s.breaks.originalBreak) := Nat.le_of_not_lt hwrap
  simp only [blockSize] at hsize
  rcases malloc_walk h hi hn rfl rfl with ⟨hnone, hrun⟩ | ⟨xs, b, ys, rfl, -, hfit, hrun⟩
  · by_cases hbig : 2 ^ 64 - 8 < n
    · have hB : (roundUp n align + sizeofHeader) % 2 ^ 64 = 8 := by
        simp only [roundUp, align, sizeofHeader]
        omega
      have hnofree : ∀ b ∈ bs, b.state ≠ BlockState.free.code := by
        intro b hb hfree
        refine hnone b hb ⟨hfree, ?_⟩
        have hge := (h.valid b hb).size_ge
        omega
      rw [hB] at hrun
      by_cases hfull : memsizeVirtual - pageSize ≤ s.breaks.programBreak + 8
      · rw [grow_fail _ (by omega)] at hrun
        exact .inr ⟨hrun, .inr (.inr ⟨hend, .inr ⟨hbig, hnofree, hfull⟩⟩)⟩
      · obtain ⟨s', hgrow⟩ := grow_ok (s := s) 8
          ((roundUp n align + (2 ^ 64 - n)) % 2 ^ 64 % 2 ^ 8) (by omega) (by omega)
        rw [hgrow] at hrun
        exact .inl ⟨_, _, hrun, payloadOf_ne_null (by omega), not_fineSize hn hwrap fun hr => hfull hr.2.2⟩
    · have hB : (roundUp n align + sizeofHeader) % 2 ^ 64 = ((n + 7) / 8 * 8 + 8) % 2 ^ 64 := by
        simp only [roundUp, align, sizeofHeader]
        omega
      rw [hB] at hrun
      obtain ⟨s', hgrow⟩ := grow_ok (s := s) (((n + 7) / 8 * 8 + 8) % 2 ^ 64)
        ((roundUp n align + (2 ^ 64 - n)) % 2 ^ 64 % 2 ^ 8) (by omega) (by omega)
      rw [hgrow] at hrun
      exact .inl ⟨_, _, hrun, payloadOf_ne_null (by omega), not_fineSize hn hwrap fun hr => hbig hr.1⟩
  · have hat : s.At (xs ++ b :: ys) (s.managedMemoryStart + layout.total xs) b := by simp [Heap.At]
    have hbd := h.bounds hat
    refine .inl ⟨_, _, hrun, payloadOf_ne_null (by omega), not_fineSize hn hwrap fun hr => ?_⟩
    exact hr.2.1 b (List.mem_append_right _ List.mem_cons_self) hfit.1

theorem big_of_wrap (hwrap : ¬Sound n s) : 2 ^ 32 ≤ n := by
  have hb := blockSize_eq n
  have hbreak := s.breaks.lt_limit
  simp only [Sound] at hwrap
  omega

theorem not_served (hwrap : ¬Sound n s) : ¬Served n p s' := by
  rintro ⟨bs', htiles, -, -, b, hb, hroom⟩
  have hbig := big_of_wrap hwrap
  have hsize : b.size < 256 ^ 4 := by
    rw [← htiles.header hb]
    exact readLE_lt _ _ _
  omega

theorem Result.served {P : Nat → BlockHeader → Prop} {bs' : List BlockHeader} (hres : Result P n s bs p s' bs')
    (hp : p ≠ null) : Served n p s' := by
  rcases hres.cases with ⟨hnull, -, -⟩ | ⟨a, b, rfl, hnew⟩
  · exact absurd hnull hp
  · have hroom := hnew.room
    refine ⟨bs', hres.wellFormed.tiles, hres.wellFormed.last_eq hres.initialized, by omega, b, ?_, by omega⟩
    rw [Nat.add_sub_cancel]
    exact hnew.at_new

section Requests

variable (h : WellFormed s bs)
include h

theorem last_eq_of_mem {b : BlockHeader} (hb : b ∈ bs) : s.lastValidAddress = s.breaks.programBreak := by
  cases hi : s.initialized with
  | true => exact h.last_eq hi
  | false =>
      rw [h.blocks_nil hi] at hb
      cases hb

/-- The first call sets the bounds of the heap. -/
theorem unchanged_init_iff : Unchanged s (init s) ↔ s.lastValidAddress = s.breaks.programBreak := by
  cases hi : s.initialized with
  | true =>
      rw [init_eq hi]
      exact iff_of_true ⟨rfl, rfl, rfl, rfl⟩ (h.last_eq hi)
  | false =>
      obtain ⟨hstart, hlast⟩ := h.unused hi
      rw [init_eq' hi]
      exact ⟨fun hu => hu.last.symm, fun heq => ⟨rfl, heq.symm.trans (hlast.trans hstart.symm), heq.symm, rfl⟩⟩

/-- What the answer of `malloc` says about the size. -/
theorem malloc_fine (hn : n ≠ 0) (hlt : n < 2 ^ 64) (hrun : malloc n s = some (p, s')) :
    (p = null → s' = init s) ∧
      (FineSize n s bs ↔ (p = null → s.lastValidAddress = s.breaks.programBreak) ∧ (p ≠ null → Sound n s)) := by
  rw [malloc_init hn] at hrun
  by_cases hs : Sound n s
  · have hused (heq : s.lastValidAddress = s.breaks.programBreak) : FineSize n s bs := .inr (.inr ⟨heq, .inl hs⟩)
    have hs' : Sound n (init s) := by rwa [Sound, init_breaks]
    obtain ⟨q, t, bs', hrun', hout, -, -⟩ := malloc_cases h.init (init_initialized s) hn hs'
    obtain ⟨rfl, rfl⟩ : q = p ∧ t = s' := by simpa [hrun'] using hrun
    cases hout with
    | refused hnone hlimit =>
        rw [init_breaks] at hlimit
        refine ⟨fun _ => rfl, ⟨fun hfine => ⟨fun _ => ?_, fun hne => absurd rfl hne⟩, fun hans => hused (hans.1 rfl)⟩⟩
        rcases hfine with h0 | hroom | ⟨heq, -⟩
        · exact absurd h0 hn
        · omega
        · exact heq
    | grown hnone hlimit =>
        rw [init_breaks] at hlimit
        exact ⟨fun hp => by rw [null] at hp; omega, iff_of_true (.inr (.inl hlimit))
          ⟨fun hp => by rw [null] at hp; omega, fun _ => hs⟩⟩
    | split xs b ys hbs | whole xs b ys hbs =>
        have heq := last_eq_of_mem h (b := b) (by rw [hbs]; simp)
        exact ⟨fun hp => by rw [null] at hp; omega, iff_of_true (hused heq) ⟨fun _ => heq, fun _ => hs⟩⟩
  · have hs' : ¬Sound n (init s) := by rwa [Sound, init_breaks]
    have hinit : FineSize n s bs → FineSize n (init s) bs := by
      simp only [FineSize, Sound, init_breaks, h.init.last_eq (init_initialized s)]
      exact Or.imp_right (Or.imp_right fun hused => ⟨trivial, hused.2⟩)
    rcases malloc_wrapped h.init (init_initialized s) hn hlt hs' with ⟨q, t, hrun', hq, hnot⟩ | ⟨hrun', hfine⟩
    · obtain ⟨rfl, rfl⟩ : q = p ∧ t = s' := by simpa [hrun'] using hrun
      exact ⟨fun hp => absurd hp hq, iff_of_false (fun hf => hnot (hinit hf)) fun hans => hs (hans.2 hq)⟩
    · obtain ⟨rfl, rfl⟩ : null = p ∧ init s = s' := by simpa [hrun'] using hrun
      refine ⟨fun _ => rfl, ⟨fun hf => ⟨fun _ => ?_, fun hne => absurd rfl hne⟩, fun hans => ?_⟩⟩
      · exact (hf.resolve_left hn).elim (fun hroom => absurd (sound_of_room hroom) hs) And.left
      · rcases hfine with h0 | hroom | ⟨-, hsound | hrefused⟩
        · exact absurd h0 hn
        · exact absurd (sound_of_room hroom) hs'
        · exact absurd hsound hs'
        · rw [init_breaks] at hrefused
          exact .inr (.inr ⟨hans.1 rfl, .inr hrefused⟩)

/-- A call that answers as `malloc` of its size does is safe exactly for a fine size. -/
theorem safe_iff {c : Call} {t : Heap} (hn : n ≠ 0) (hlt : n < 2 ^ 64) (hm : malloc n s = some (p, t))
    (hrun : exec c s = some (.pointer p, s')) (hsame : afterNull s c = s) (hnull : p = null → s' = t)
    (hserved : Sound n s → p ≠ null → Served n p s') : Safe c n s ↔ FineSize n s bs := by
  obtain ⟨hinit, hfine⟩ := malloc_fine h hn hlt hm
  have hsafe : Safe c n s ↔ p = null ∧ Unchanged s s' ∨ p ≠ null ∧ Served n p s' := by
    simp only [Safe, hrun, hsame, Option.some.injEq, Prod.mk.injEq, Reply.pointer.injEq]
    exact ⟨fun ⟨_, _, ⟨hp, hs⟩, hout⟩ => by rwa [hp, hs], fun hout => ⟨p, s', ⟨rfl, rfl⟩, hout⟩⟩
  rw [hsafe, hfine]
  by_cases hp : p = null
  · rw [hnull hp, hinit hp, unchanged_init_iff h]
    exact ⟨fun hout => ⟨fun _ => (hout.resolve_right fun hr => hr.1 hp).2, fun hne => absurd hp hne⟩,
      fun hans => .inl ⟨hp, hans.1 hp⟩⟩
  · refine ⟨fun hout => ⟨fun hnull => absurd hnull hp, fun _ => ?_⟩, fun hans => .inr ⟨hp, hserved (hans.2 hp) hp⟩⟩
    by_contra hs
    exact not_served hs (hout.resolve_left fun hl => hp hl.1).2

theorem malloc_returns (hn : n ≠ 0) (hlt : n < 2 ^ 64) : ∃ p t, malloc n s = some (p, t) := by
  by_cases hs : Sound n s
  · obtain ⟨p, t, -, hrun, -⟩ := malloc_spec h hn hs
    exact ⟨p, t, hrun⟩
  · have hs' : ¬Sound n (init s) := by rwa [Sound, init_breaks]
    rw [malloc_init hn]
    rcases malloc_wrapped h.init (init_initialized s) hn hlt hs' with ⟨p, t, hrun, -⟩ | ⟨hrun, -⟩
    · exact ⟨p, t, hrun⟩
    · exact ⟨null, init s, hrun⟩

theorem malloc_safe_iff (hlt : n < 2 ^ 64) : Safe (.malloc n) n s ↔ FineSize n s bs := by
  by_cases hn : n = 0
  · subst hn
    exact ⟨fun _ => .inl rfl, fun _ => ⟨null, s, rfl, .inl ⟨rfl, rfl, rfl, rfl, rfl⟩⟩⟩
  obtain ⟨p, t, hm⟩ := malloc_returns h hn hlt
  refine safe_iff h hn hlt hm (by rw [exec, hm]; rfl) rfl (fun _ => rfl) fun hs hp => ?_
  obtain ⟨q, s', bs', hrun, hres, -⟩ := malloc_spec h hn hs
  obtain ⟨rfl, rfl⟩ : q = p ∧ s' = t := by simpa [hm] using hrun.symm
  exact hres.served hp

theorem calloc_safe_iff {num sz : Nat} :
    Safe (.calloc num sz) (num * sz) s ↔ 2 ^ 64 ≤ num * sz ∨ FineSize (num * sz) s bs := by
  have hnothing (hrun : exec (.calloc num sz) s = some (.pointer null, s)) : Safe (.calloc num sz) (num * sz) s :=
    ⟨null, s, hrun, .inl ⟨rfl, rfl, rfl, rfl, rfl⟩⟩
  by_cases hzero : num = 0 ∨ sz = 0
  · exact iff_of_true (hnothing (by simp only [exec, calloc, if_pos hzero, Option.bind_some]))
      (.inr (.inl (Nat.mul_eq_zero.mpr hzero)))
  obtain ⟨hnum, hsz⟩ := not_or.mp hzero
  have hdiv : (2 ^ 64 - 1) / sz < num ↔ 2 ^ 64 ≤ num * sz := by
    rw [Nat.div_lt_iff_lt_mul (Nat.pos_of_ne_zero hsz)]
    omega
  by_cases hover : 2 ^ 64 ≤ num * sz
  · exact iff_of_true (hnothing (by simp only [exec, calloc, if_neg hzero, if_pos (hdiv.mpr hover), Option.bind_some]))
      (.inl hover)
  rw [or_iff_right hover]
  have hn := Nat.mul_ne_zero hnum hsz
  obtain ⟨p, t, hm⟩ := malloc_returns h hn (by omega)
  have hcalloc : calloc num sz s =
      if p = null then some (p, t) else some (p, { t with mem := memset t.mem p 0 (num * sz) }) := by
    simp only [calloc, if_neg hzero, if_neg (fun hlt => hover (hdiv.mp hlt)),
      Nat.mod_eq_of_lt (by omega : num * sz < 2 ^ 64), hm, Option.bind_some]
  by_cases hp : p = null
  · rw [if_pos hp] at hcalloc
    exact safe_iff h hn (by omega) hm (by rw [exec, hcalloc]; rfl) rfl (fun _ => rfl) fun _ hne => absurd hp hne
  · rw [if_neg hp] at hcalloc
    refine safe_iff h hn (by omega) hm (by rw [exec, hcalloc]; rfl) rfl (fun hnull => absurd hnull hp) fun hs _ => ?_
    obtain ⟨q, s', bs', hrun, hres, -⟩ := calloc_spec h hnum hsz hs
    obtain ⟨rfl, rfl⟩ : p = q ∧ _ = s' := by simpa [hcalloc] using hrun
    exact hres.served hp

theorem realloc_safe_iff {q : Nat} (hlt : n < 2 ^ 64) (hq : q = null ∨ ∃ a b, q = a + 8 ∧ s.At bs a b ∧ busy a b) :
    Safe (.realloc q n) n s ↔ FineSize n s bs := by
  by_cases hn : n = 0
  · subst hn
    refine iff_of_true ⟨null, free q s, ?_, .inl ⟨rfl, rfl, rfl, rfl, rfl⟩⟩ (.inl rfl)
    by_cases hnull : q = null
    · subst hnull
      rw [free_null]
      rfl
    · simp only [exec, realloc, if_neg hnull, if_true, Option.bind_some]
  have hsame : afterNull s (.realloc q n) = s := by
    cases n with
    | zero => exact absurd rfl hn
    | succ n => rfl
  obtain ⟨p, t, hm⟩ := malloc_returns h hn hlt
  rcases hq with rfl | ⟨a, b, rfl, hb, hbusy⟩
  · refine safe_iff h hn hlt hm (by rw [exec, null, realloc_null, hm]; rfl) hsame (fun _ => rfl) fun hs hp => ?_
    obtain ⟨q, s', bs', hrun, hres, -⟩ := malloc_spec h hn hs
    obtain ⟨rfl, rfl⟩ : q = p ∧ s' = t := by simpa [hm] using hrun.symm
    exact hres.served hp
  have hne : a + 8 ≠ null := Nat.succ_ne_zero _
  by_cases hp : p = null
  · subst hp
    refine safe_iff h hn hlt hm ?_ hsame (fun _ => rfl) fun _ hne => absurd rfl hne
    simp only [exec, realloc, if_neg hne, if_neg hn, hm, Option.bind_some, if_true]
  · have hexec : ∃ s', realloc (a + 8) n s = some (p, s') := by
      simp only [realloc, if_neg hne, if_neg hn, hm, Option.bind_some, if_neg hp]
      exact ⟨_, rfl⟩
    obtain ⟨s', hrun⟩ := hexec
    refine safe_iff h hn hlt hm (by rw [exec, hrun]; rfl) hsame (fun hnull => absurd hnull hp) fun hs _ => ?_
    obtain ⟨q, u, bs', hrun', hres, -⟩ := realloc_spec h hb hbusy hn hs
    obtain ⟨rfl, rfl⟩ : p = q ∧ s' = u := by simpa [hrun] using hrun'
    exact hres.served hp

/-- The requests that the allocator handles safely are exactly the fine ones. -/
theorem request_safe_iff (c : Call) (hc : c.request = some n) (ht : WellTyped c s bs) :
    Safe c n s ↔ Fine c n s bs := by
  cases c with
  | malloc k =>
      cases hc
      exact malloc_safe_iff h ht
  | calloc num sz =>
      cases hc
      exact calloc_safe_iff h
  | realloc q k =>
      cases hc
      exact realloc_safe_iff h ht.1 ht.2
  | free | defrag | heapInfo => cases hc

end Requests

/-- On the heap of one 24-byte allocation, and on the one before it. -/
theorem sample_safe_iff : ∃ s t bs, WellFormed s bs ∧ s.initialized = true ∧ WellFormed t [] ∧ t.initialized = false ∧
    (Safe (.malloc (2 ^ 64 - 7)) (2 ^ 64 - 7) s ↔ Fine (.malloc (2 ^ 64 - 7)) (2 ^ 64 - 7) s bs) ∧
      (Safe (.malloc (2 ^ 62)) (2 ^ 62) t ↔ Fine (.malloc (2 ^ 62)) (2 ^ 62) t []) := by
  obtain ⟨s, hrun, hi⟩ := exists_of_any [.call (.malloc 24)] (P := fun s => s.heap.initialized = true)
    (by decide +kernel)
  obtain ⟨bs, hwf⟩ := (reach_inv (by decide) (Interface.reachable_of_run hrun)).wf
  obtain ⟨cs, hfresh⟩ := (start_inv (p := sampleBreaks) (fun _ => 0) (by decide) False).wf
  obtain rfl := hfresh.blocks_nil rfl
  exact ⟨s.heap, _, bs, hwf, hi, hfresh, rfl, request_safe_iff hwf _ rfl (by simp [WellTyped]),
    request_safe_iff hfresh _ rfl (by simp [WellTyped])⟩

/-- `malloc(2^64 - 7)` rounds to 0 and hands out a block without payload. -/
theorem huge_malloc_unsafe : ∃ s, library.Reachable SizeBound (start (fun _ => 0) sampleBreaks) s ∧
    s.heap.initialized = true ∧ ¬Safe (.malloc (2 ^ 64 - 7)) (2 ^ 64 - 7) s.heap := by
  obtain ⟨s, hrun, hi, hhuge⟩ := exists_of_any [.call (.malloc 24)]
    (P := fun s => s.heap.initialized = true ∧ (malloc (2 ^ 64 - 7) s.heap).any (fun r => r.1 ≠ null) = true)
    (by decide +kernel)
  refine ⟨s, Interface.reachable_of_run hrun, hi, ?_⟩
  cases hm : malloc (2 ^ 64 - 7) s.heap with
  | none => rw [hm] at hhuge; cases hhuge
  | some r =>
      have hwrap : ¬Sound (2 ^ 64 - 7) s.heap := by
        simp only [Sound, blockSize]
        omega
      rw [hm] at hhuge
      have hp : r.1 ≠ null := by simpa using hhuge
      rintro ⟨p, t, hexec, hout⟩
      rw [exec, hm] at hexec
      obtain ⟨rfl, rfl⟩ : r.1 = p ∧ r.2 = t := by simpa using hexec
      exact not_served hwrap (hout.resolve_left fun hl => hp hl.1).2

end WeensyOS.CMalloc
