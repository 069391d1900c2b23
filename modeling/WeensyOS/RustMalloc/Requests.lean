import WeensyOS.RustMalloc.Runs

namespace WeensyOS.RustMalloc

open ByteMemory LibC ProgramBreak Tiling Tiling.Layout Allocator BlockHeap

variable {s s' : Heap} {bs : List Header} {n p : Nat}

/-- The heap that a call may leave when it returns `None`: the same one, except
that `realloc(p, 0)` is `free(p)`. -/
def afterNone (s : Heap) : Call → Heap
  | .realloc q 0 => free q s
  | _ => s

/-- A block in use with room for `n` bytes at `p`, in a heap that still ends at the break. -/
def Served (n p : Nat) (s : Heap) : Prop :=
  ∃ bs, format.Tiles s.mem s.heapStart bs s.heapEnd ∧ s.heapEnd = s.breaks.programBreak ∧
    headerSize ≤ p ∧ ∃ b, s.At bs (p - headerSize) b ∧ b.state ≠ BlockState.free.code ∧ n + headerSize ≤ b.size

/-- The outcome of a request for `n` bytes that cannot do harm: `None` and an
untouched heap, or a block. -/
def Safe (c : Call) (n : Nat) (s : Heap) : Prop :=
  ∃ p s', exec c s = some (.pointer p, s') ∧ (p = 0 ∧ s' = afterNone s c ∨ p ≠ 0 ∧ Served n p s')

/-- The sizes for which the arithmetic of `malloc` does no harm: the heap has room for the pages
up to the limit of the break, or it already ends at the break, as it does from the first call on, and nothing
wraps up to the new break, or there is a wrap that ends in a growth by one page that `sbrk` refuses. -/
def FineSize (n : Nat) (s : Heap) (bs : List Header) : Prop :=
  n = 0 ∨ s.breaks.programBreak + pageCeil (needed n) < memsizeVirtual - pageSize ∨
    s.heapEnd = s.breaks.programBreak ∧
      (Sound n s ∨ 2 ^ 64 - 16 < n ∧ (∀ b ∈ bs, b.state ≠ BlockState.free.code) ∧
        memsizeVirtual - pageSize ≤ s.breaks.programBreak + pageSize)

def Fine (c : Call) (n : Nat) (s : Heap) (bs : List Header) : Prop :=
  match c with
  | .calloc num sz => 2 ^ 64 ≤ num * sz ∨ FineSize n s bs
  | _ => FineSize n s bs

/-- The arguments that can be passed: 64-bit words, and as a pointer `None` or the
payload of a block in use. -/
def WellTyped (c : Call) (s : Heap) (bs : List Header) : Prop :=
  match c with
  | .malloc n => n < 2 ^ 64
  | .calloc num sz => num < 2 ^ 64 ∧ sz < 2 ^ 64
  | .realloc q n => n < 2 ^ 64 ∧ (q = 0 ∨ ∃ a b, q = a + headerSize ∧ s.At bs a b ∧ b.state ≠ BlockState.free.code)
  | _ => False

theorem splitOrUse_fst (m : Memory) (block need : Nat) (st : BlockState) :
    splitOrUse m block need st = (payloadOf block, (splitOrUse m block need st).2) := by
  rw [splitOrUse]
  split <;> rfl

theorem payloadOf_ne_zero {a : Nat} (ha : a < 2 ^ 32) : payloadOf a ≠ 0 := by
  simp only [payloadOf, headerSize]
  omega

theorem growHeap_some (need : Nat)
    (ho : s.breaks.originalBreak ≤ (s.breaks.programBreak + roundUp need pageSize) % 2 ^ 64)
    (hl : (s.breaks.programBreak + roundUp need pageSize) % 2 ^ 64 < memsizeVirtual - pageSize) :
    ∃ s', growHeap need s = (some s.breaks.programBreak, s') := by
  have hne : s.breaks.programBreak ≠ 2 ^ 64 - 1 := by
    have hbreak := s.breaks.lt_limit
    omega
  exact ⟨_, by simp only [growHeap, sbrk, sbrk_ok s.breaks ho hl, if_neg hne]; rfl⟩

theorem growHeap_none {need : Nat}
    (h : (s.breaks.programBreak + roundUp need pageSize) % 2 ^ 64 < s.breaks.originalBreak ∨
      memsizeVirtual - pageSize ≤ (s.breaks.programBreak + roundUp need pageSize) % 2 ^ 64) :
    growHeap need s = (none, s) := by
  simp only [growHeap, sbrk, sbrk_fail s.breaks h, if_true]

/-- What the wrapped arithmetic makes of a size that is not sound: `sbrk` is asked
for nothing, for less than nothing, or for one page. -/
theorem growth_cases (hlt : n < 2 ^ 64) (hwrap : ¬Sound n s) :
    (s.breaks.programBreak + roundUp ((roundUp n 8 + headerSize) % 2 ^ 64) pageSize) % 2 ^ 64 ≤ s.breaks.programBreak ∧
        s.breaks.originalBreak ≤
          (s.breaks.programBreak + roundUp ((roundUp n 8 + headerSize) % 2 ^ 64) pageSize) % 2 ^ 64 ∧ n ≤ 2 ^ 64 - 16 ∨
      roundUp ((roundUp n 8 + headerSize) % 2 ^ 64) pageSize = pageSize ∧ 2 ^ 64 - 16 < n := by
  have hle := s.breaks.le_programBreak
  have hbreak := s.breaks.lt_limit
  simp only [Sound, needed, pageCeil] at hwrap
  simp only [roundUp, roundDown, headerSize, pageSize]
  by_cases hbig : 2 ^ 64 - 16 < n
  · exact .inr (by omega)
  · refine .inl ?_
    omega

theorem needed_wrapped (hbig : 2 ^ 64 - 16 < n) (hlt : n < 2 ^ 64) :
    (roundUp n 8 + headerSize) % 2 ^ 64 ≤ 16 := by
  simp only [roundUp, roundDown, headerSize]
  omega

theorem sound_of_room (h : s.breaks.programBreak + pageCeil (needed n) < memsizeVirtual - pageSize) : Sound n s := by
  rw [limit_eq] at h
  rw [Sound]
  omega

theorem not_fineSize (hn : n ≠ 0) (hwrap : ¬Sound n s) (hnot : ¬(2 ^ 64 - 16 < n ∧
    (∀ b ∈ bs, b.state ≠ BlockState.free.code) ∧ memsizeVirtual - pageSize ≤ s.breaks.programBreak + pageSize)) :
    ¬FineSize n s bs := by
  rintro (h0 | hroom | ⟨-, hsound | hrefused⟩)
  · exact hn h0
  · exact hwrap (sound_of_room hroom)
  · exact hwrap hsound
  · exact hnot hrefused

theorem malloc_wrapped (h : WellFormed s bs) (hs : s.heapStart ≠ 0) (hn : n ≠ 0) (hlt : n < 2 ^ 64)
    (hwrap : ¬Sound n s) :
    (∃ p s', malloc n s = some (p, s') ∧ p ≠ 0 ∧ ¬FineSize n s bs) ∨
      malloc n s = some (0, s) ∧ FineSize n s bs := by
  have hend := h.end_lt
  have hbreak := s.breaks.lt_limit
  have hle := s.breaks.le_programBreak
  have hlim := limit_eq
  rcases malloc_search h hs hn rfl with ⟨hnone, hrun⟩ | ⟨xs, b, ys, rfl, -, hfit, hrun⟩
  · have hgrown {s' : Heap} (hgrow : growHeap ((roundUp n 8 + headerSize) % 2 ^ 64) s =
        (some s.breaks.programBreak, s')) : ∃ p t, malloc n s = some (p, t) ∧ p ≠ 0 := by
      rw [hgrow] at hrun
      simp only at hrun
      rw [splitOrUse_fst] at hrun
      exact ⟨_, _, hrun, payloadOf_ne_zero (by omega)⟩
    rcases growth_cases hlt hwrap with ⟨hmore, hless, hsmall⟩ | ⟨hpage, hbig⟩
    · obtain ⟨s', hgrow⟩ := growHeap_some _ hless (by omega)
      obtain ⟨p, t, hp, hne⟩ := hgrown hgrow
      exact .inl ⟨p, t, hp, hne, not_fineSize hn hwrap fun hf => by omega⟩
    · have hnew : (s.breaks.programBreak + pageSize) % 2 ^ 64 = s.breaks.programBreak + pageSize := by
        simp only [pageSize]
        omega
      by_cases hfull : memsizeVirtual - pageSize ≤ s.breaks.programBreak + pageSize
      · rw [growHeap_none (by rw [hpage, hnew]; exact .inr hfull)] at hrun
        refine .inr ⟨hrun, .inr (.inr ⟨h.end_eq hs, .inr ⟨hbig, fun b hb hfree => hnone b hb ⟨hfree, ?_⟩, hfull⟩⟩)⟩
        exact Nat.le_trans (needed_wrapped hbig hlt) (h.region.valid b hb).size_ge
      · obtain ⟨s', hgrow⟩ := growHeap_some ((roundUp n 8 + headerSize) % 2 ^ 64) (s := s)
          (by rw [hpage, hnew]; omega) (by rw [hpage, hnew]; omega)
        obtain ⟨p, t, hp, hne⟩ := hgrown hgrow
        exact .inl ⟨p, t, hp, hne, not_fineSize hn hwrap fun hf => hfull hf.2.2⟩
  · have hat : s.At (xs ++ b :: ys) (s.heapStart + format.total xs) b := by simp [Heap.At]
    have hbd := h.bounds hat
    rw [splitOrUse_fst] at hrun
    refine .inl ⟨_, _, hrun, payloadOf_ne_zero (by omega), not_fineSize hn hwrap fun hf => ?_⟩
    exact hf.2.1 b (List.mem_append_right _ List.mem_cons_self) hfit.1

theorem big_of_wrap (hwrap : ¬Sound n s) : 2 ^ 32 ≤ n := by
  have hbreak := s.breaks.lt_limit
  simp only [Sound, pageCeil, needed] at hwrap
  omega

theorem not_served (hwrap : ¬Sound n s) : ¬Served n p s' := by
  rintro ⟨bs', htiles, hend, -, b, hb, -, hroom⟩
  have hbig := big_of_wrap hwrap
  have hbd := At.bounds hb
  have hlt := s'.breaks.lt_limit
  rw [← htiles.end_eq, format_size] at hbd
  omega

theorem Result.served {P : Nat → Header → Prop} {bs' : List Header} (hres : Result P n s bs p s' bs') (hp : p ≠ 0) :
    Served n p s' := by
  rcases hres.cases with h0 | ⟨a, b, rfl, hb, hnew, -⟩
  · exact absurd h0 hp
  · exact ⟨bs', hres.wellFormed.region.tiles, hres.wellFormed.end_eq hres.started, Nat.le_add_left _ _, b, hb,
      hnew.busy, hnew.2⟩

/-- On a heap without blocks, `malloc` depends on the room up to the limit of the break. -/
theorem malloc_empty (h : WellFormed s []) (hs : s.heapStart ≠ 0) (hn : n ≠ 0) (hsound : Sound n s)
    (hrun : malloc n s = some (p, s')) :
    p = 0 ↔ memsizeVirtual - pageSize ≤ s.breaks.programBreak + pageCeil (needed n) := by
  have hsize : pageCeil (needed n) + (s.breaks.programBreak - s.breaks.originalBreak) < 2 ^ 64 := hsound
  have hle := s.breaks.le_programBreak
  have hbreak := s.breaks.lt_limit
  have hlim := limit_eq
  have hceil := (pageCeil_spec (needed n)).1
  have hpages : roundUp (needed n) pageSize = pageCeil (needed n) := pageCeil_exact (by omega)
  rcases malloc_search h hs hn (needed_exact (by omega)) with ⟨-, hgrow⟩ | ⟨xs, b, ys, hnil, -⟩
  · rw [hrun] at hgrow
    by_cases hfull : memsizeVirtual - pageSize ≤ s.breaks.programBreak + pageCeil (needed n)
    · rw [growHeap_none (by rw [hpages]; omega)] at hgrow
      exact iff_of_true (Prod.mk.inj (Option.some.inj hgrow)).1 hfull
    · obtain ⟨t, ht⟩ := growHeap_some (s := s) (needed n) (by rw [hpages]; omega) (by rw [hpages]; omega)
      rw [ht] at hgrow
      simp only at hgrow
      rw [splitOrUse_fst] at hgrow
      refine iff_of_false ?_ hfull
      rw [(Prod.mk.inj (Option.some.inj hgrow)).1]
      exact payloadOf_ne_zero (by omega)
  · cases xs <;> cases hnil

section Requests

variable (h : WellFormed s bs)
include h

/-- The first call sets the bounds of the heap. -/
theorem heapBounds_eq_iff : heapBounds s = s ↔ s.heapEnd = s.breaks.programBreak := by
  by_cases hs : s.heapStart = 0
  · have hpos := h.break_pos
    rw [heapBounds_first hs]
    refine iff_of_false (fun heq => ?_) (by rw [h.unused hs]; omega)
    have hstart : s.breaks.programBreak = s.heapStart := congrArg Heap.heapStart heq
    omega
  · exact iff_of_true (heapBounds_eq hs) (h.end_eq hs)

/-- What the answer of `malloc` says about the size. -/
theorem malloc_fine (hn : n ≠ 0) (hlt : n < 2 ^ 64) (hrun : malloc n s = some (p, s')) :
    (p = 0 → s' = heapBounds s) ∧
      (FineSize n s bs ↔ (p = 0 → s.heapEnd = s.breaks.programBreak) ∧ (p ≠ 0 → Sound n s)) := by
  by_cases hs : Sound n s
  · have hs' : Sound n (heapBounds s) := by rwa [Sound, heapBounds_breaks]
    obtain ⟨q, t, bs', hrun', hres⟩ := malloc_spec h hn hs
    obtain ⟨rfl, rfl⟩ : q = p ∧ t = s' := by simpa [hrun'] using hrun
    refine ⟨hres.none, ?_⟩
    by_cases hend : s.heapEnd = s.breaks.programBreak
    · exact iff_of_true (.inr (.inr ⟨hend, .inl hs⟩)) ⟨fun _ => hend, fun _ => hs⟩
    have hstart : s.heapStart = 0 := by
      by_contra hstart
      exact hend (h.end_eq hstart)
    obtain rfl := h.blocks_nil hstart
    have hnull := malloc_empty h.heapBounds h.started hn hs' (by rw [← malloc_heapBounds h hn, hrun'])
    rw [heapBounds_breaks] at hnull
    constructor
    · rintro (h0 | hroom | hused)
      · exact absurd h0 hn
      · exact ⟨fun h0 => absurd (hnull.mp h0) (Nat.not_le_of_lt hroom), fun _ => hs⟩
      · exact absurd hused.1 hend
    · intro hans
      exact .inr (.inl (Nat.lt_of_not_le fun hfull => hend (hans.1 (hnull.mpr hfull))))
  · have hs' : ¬Sound n (heapBounds s) := by rwa [Sound, heapBounds_breaks]
    have hstarted : FineSize n s bs → FineSize n (heapBounds s) bs := by
      simp only [FineSize, Sound, heapBounds_breaks, h.heapBounds.end_eq h.started]
      exact Or.imp_right (Or.imp_right fun hused => ⟨trivial, hused.2⟩)
    rw [malloc_heapBounds h hn] at hrun
    rcases malloc_wrapped h.heapBounds h.started hn hlt hs' with ⟨q, t, hrun', hq, hnot⟩ | ⟨hrun', hfine⟩
    · obtain ⟨rfl, rfl⟩ : q = p ∧ t = s' := by simpa [hrun'] using hrun
      exact ⟨fun hp => absurd hp hq, iff_of_false (fun hf => hnot (hstarted hf)) fun hans => hs (hans.2 hq)⟩
    · obtain ⟨rfl, rfl⟩ : 0 = p ∧ heapBounds s = s' := by simpa [hrun'] using hrun
      refine ⟨fun _ => rfl, ⟨fun hf => ⟨fun _ => ?_, fun hne => absurd rfl hne⟩, fun hans => ?_⟩⟩
      · exact (hf.resolve_left hn).elim (fun hroom => absurd (sound_of_room hroom) hs) And.left
      · rcases hfine with h0 | hroom | ⟨-, hsound | hrefused⟩
        · exact absurd h0 hn
        · exact absurd (sound_of_room hroom) hs'
        · exact absurd hsound hs'
        · rw [heapBounds_breaks] at hrefused
          exact .inr (.inr ⟨hans.1 rfl, .inr hrefused⟩)

/-- A call that answers as `malloc` of its size does is safe exactly for a fine size. -/
theorem safe_iff {c : Call} {t : Heap} (hn : n ≠ 0) (hlt : n < 2 ^ 64) (hm : malloc n s = some (p, t))
    (hrun : exec c s = some (.pointer p, s')) (hsame : afterNone s c = s) (hnone : p = 0 → s' = t)
    (hserved : Sound n s → p ≠ 0 → Served n p s') : Safe c n s ↔ FineSize n s bs := by
  obtain ⟨hbounds, hfine⟩ := malloc_fine h hn hlt hm
  have hsafe : Safe c n s ↔ p = 0 ∧ s' = s ∨ p ≠ 0 ∧ Served n p s' := by
    simp only [Safe, hrun, hsame, Option.some.injEq, Prod.mk.injEq, Reply.pointer.injEq]
    exact ⟨fun ⟨_, _, ⟨hp, hs⟩, hout⟩ => by rwa [hp, hs], fun hout => ⟨p, s', ⟨rfl, rfl⟩, hout⟩⟩
  rw [hsafe, hfine]
  by_cases hp : p = 0
  · rw [hnone hp, hbounds hp, heapBounds_eq_iff h]
    exact ⟨fun hout => ⟨fun _ => (hout.resolve_right fun hr => hr.1 hp).2, fun hne => absurd hp hne⟩,
      fun hans => .inl ⟨hp, hans.1 hp⟩⟩
  · refine ⟨fun hout => ⟨fun h0 => absurd h0 hp, fun _ => ?_⟩, fun hans => .inr ⟨hp, hserved (hans.2 hp) hp⟩⟩
    by_contra hs
    exact not_served hs (hout.resolve_left fun hl => hp hl.1).2

theorem malloc_returns (hn : n ≠ 0) (hlt : n < 2 ^ 64) : ∃ p t, malloc n s = some (p, t) := by
  by_cases hs : Sound n s
  · obtain ⟨p, t, -, hrun, -⟩ := malloc_spec h hn hs
    exact ⟨p, t, hrun⟩
  · have hs' : ¬Sound n (heapBounds s) := by rwa [Sound, heapBounds_breaks]
    rw [malloc_heapBounds h hn]
    rcases malloc_wrapped h.heapBounds h.started hn hlt hs' with ⟨p, t, hrun, -⟩ | ⟨hrun, -⟩
    · exact ⟨p, t, hrun⟩
    · exact ⟨0, _, hrun⟩

theorem malloc_safe_iff (hlt : n < 2 ^ 64) : Safe (.malloc n) n s ↔ FineSize n s bs := by
  by_cases hn : n = 0
  · subst hn
    exact ⟨fun _ => .inl rfl, fun _ => ⟨0, s, rfl, .inl ⟨rfl, rfl⟩⟩⟩
  obtain ⟨p, t, hm⟩ := malloc_returns h hn hlt
  refine safe_iff h hn hlt hm (by rw [exec, hm]; rfl) rfl (fun _ => rfl) fun hs hp => ?_
  obtain ⟨q, s', bs', hrun, hres⟩ := malloc_spec h hn hs
  obtain ⟨rfl, rfl⟩ : q = p ∧ s' = t := by simpa [hm] using hrun.symm
  exact hres.served hp

theorem calloc_safe_iff {num sz : Nat} :
    Safe (.calloc num sz) (num * sz) s ↔ 2 ^ 64 ≤ num * sz ∨ FineSize (num * sz) s bs := by
  have hnothing (hrun : exec (.calloc num sz) s = some (.pointer 0, s)) : Safe (.calloc num sz) (num * sz) s :=
    ⟨0, s, hrun, .inl ⟨rfl, rfl⟩⟩
  by_cases hzero : num = 0 ∨ sz = 0
  · exact iff_of_true (hnothing (by simp only [exec, calloc, if_pos hzero, Option.bind_some]))
      (.inr (.inl (Nat.mul_eq_zero.mpr hzero)))
  obtain ⟨hnum, hsz⟩ := not_or.mp hzero
  by_cases hover : 2 ^ 64 ≤ num * sz
  · exact iff_of_true (hnothing (by simp only [exec, calloc, if_neg hzero, if_pos hover, Option.bind_some])) (.inl hover)
  rw [or_iff_right hover]
  have hn := Nat.mul_ne_zero hnum hsz
  obtain ⟨p, t, hm⟩ := malloc_returns h hn (by omega)
  have hcalloc : calloc num sz s =
      if p = 0 then some (0, t) else some (p, { t with mem := memset t.mem p 0 (num * sz) }) := by
    simp only [calloc, if_neg hzero, if_neg hover, hm, Option.bind_some]
  by_cases hp : p = 0
  · subst hp
    exact safe_iff h hn (by omega) hm (by rw [exec, hcalloc]; rfl) rfl (fun _ => rfl) fun _ hne => absurd rfl hne
  · rw [if_neg hp] at hcalloc
    refine safe_iff h hn (by omega) hm (by rw [exec, hcalloc]; rfl) rfl (fun h0 => absurd h0 hp) fun hs _ => ?_
    obtain ⟨q, s', bs', hrun, hres, -⟩ := calloc_spec h hnum hsz hs
    obtain ⟨rfl, rfl⟩ : p = q ∧ _ = s' := by simpa [hcalloc] using hrun
    exact hres.served hp

theorem realloc_safe_iff {q : Nat} (hlt : n < 2 ^ 64)
    (hq : q = 0 ∨ ∃ a b, q = a + headerSize ∧ s.At bs a b ∧ b.state ≠ BlockState.free.code) :
    Safe (.realloc q n) n s ↔ FineSize n s bs := by
  by_cases hn : n = 0
  · subst hn
    refine iff_of_true ⟨0, free q s, ?_, .inl ⟨rfl, rfl⟩⟩ (.inl rfl)
    by_cases h0 : q = 0
    · subst h0
      rw [free_none]
      rfl
    · simp only [exec, realloc, if_neg h0, if_true, Option.bind_some]
  have hsame : afterNone s (.realloc q n) = s := by
    cases n with
    | zero => exact absurd rfl hn
    | succ n => rfl
  obtain ⟨p, t, hm⟩ := malloc_returns h hn hlt
  rcases hq with rfl | ⟨a, b, rfl, hb, hbusy⟩
  · refine safe_iff h hn hlt hm (by rw [exec, realloc_none, hm]; rfl) hsame (fun _ => rfl) fun hs hp => ?_
    obtain ⟨q, s', bs', hrun, hres⟩ := malloc_spec h hn hs
    obtain ⟨rfl, rfl⟩ : q = p ∧ s' = t := by simpa [hm] using hrun.symm
    exact hres.served hp
  have hne : a + headerSize ≠ 0 := Nat.succ_ne_zero _
  by_cases hp : p = 0
  · subst hp
    refine safe_iff h hn hlt hm ?_ hsame (fun _ => rfl) fun _ hne => absurd rfl hne
    simp only [exec, realloc, if_neg hne, if_neg hn, hm, Option.bind_some, if_true]
  · have hexec : ∃ s', realloc (a + headerSize) n s = some (p, s') := by
      simp only [realloc, if_neg hne, if_neg hn, hm, Option.bind_some, if_neg hp]
      exact ⟨_, rfl⟩
    obtain ⟨s', hrun⟩ := hexec
    refine safe_iff h hn hlt hm (by rw [exec, hrun]; rfl) hsame (fun h0 => absurd h0 hp) fun hs _ => ?_
    obtain ⟨q, u, bs', hrun', hres, -⟩ := realloc_spec h hb hbusy hn hs
    obtain ⟨rfl, rfl⟩ : p = q ∧ s' = u := by simpa using hrun.symm.trans hrun'
    exact hres.served hp

/-- The requests that the allocator handles safely are exactly the fine ones. -/
theorem call_safe_iff (c : Call) (hc : c.request = some n) (ht : WellTyped c s bs) :
    Safe c n s ↔ Fine c n s bs := by
  cases c with
  | malloc k =>
      cases hc
      exact malloc_safe_iff h ht
  | calloc num sz =>
      cases hc
      exact calloc_safe_iff h
  | realloc q k =>
      cases hc
      exact realloc_safe_iff h ht.1 ht.2
  | free | defrag | heapInfo => cases hc

end Requests

/-- On the heap of one 24-byte allocation, and on the one before it. -/
theorem sample_call_safe_iff : ∃ s t bs, WellFormed s bs ∧ s.heapStart ≠ 0 ∧ WellFormed t [] ∧ t.heapStart = 0 ∧
    (Safe (.malloc (2 ^ 64 - 20)) (2 ^ 64 - 20) s ↔ Fine (.malloc (2 ^ 64 - 20)) (2 ^ 64 - 20) s bs) ∧
      (Safe (.malloc (2 ^ 40)) (2 ^ 40) t ↔ Fine (.malloc (2 ^ 40)) (2 ^ 40) t []) := by
  obtain ⟨s, hreach, hstart⟩ := Interface.reachable_of_any (A := library) SizeBound
    (start (fun _ => 0) sampleBreaks) [.call (.malloc 24)] (P := fun s : Sys Heap => s.heap.heapStart ≠ 0)
    (by decide +kernel)
  obtain ⟨bs, hwf⟩ := (reach_inv (by decide) (by decide) hreach).wf
  obtain ⟨cs, hfresh⟩ := (start_inv (p := sampleBreaks) (fun _ => 0) (by decide) (by decide)).wf
  obtain rfl := hfresh.blocks_nil rfl
  exact ⟨s.heap, _, bs, hwf, hstart, hfresh, rfl, call_safe_iff hwf _ rfl (by simp [WellTyped]),
    call_safe_iff hfresh _ rfl (by simp [WellTyped])⟩

/-- `malloc(2^64 - 20)` looks for a block of 0 bytes, and hands out the rest of the page. -/
theorem huge_call_unsafe : ∃ s, library.Reachable SizeBound (start (fun _ => 0) sampleBreaks) s ∧
    s.heap.heapStart ≠ 0 ∧ ¬Safe (.malloc (2 ^ 64 - 20)) (2 ^ 64 - 20) s.heap := by
  obtain ⟨s, hreach, hstart, hhuge⟩ := Interface.reachable_of_any (A := library) SizeBound
    (start (fun _ => 0) sampleBreaks) [.call (.malloc 24)]
    (P := fun s : Sys Heap => s.heap.heapStart ≠ 0 ∧
      (malloc (2 ^ 64 - 20) s.heap).any (fun r => r.1 ≠ 0) = true) (by decide +kernel)
  refine ⟨s, hreach, hstart, ?_⟩
  cases hm : malloc (2 ^ 64 - 20) s.heap with
  | none => rw [hm] at hhuge; cases hhuge
  | some r =>
      have hwrap : ¬Sound (2 ^ 64 - 20) s.heap := by
        simp only [Sound, pageCeil, needed]
        omega
      rw [hm] at hhuge
      have hp : r.1 ≠ 0 := by simpa using hhuge
      rintro ⟨p, t, hexec, hout⟩
      rw [exec, hm] at hexec
      obtain ⟨rfl, rfl⟩ : r.1 = p ∧ r.2 = t := by simpa using hexec
      exact not_served hwrap (hout.resolve_left fun hl => hp hl.1).2

end WeensyOS.RustMalloc
