import WeensyOS.RustMalloc.Blocks

namespace WeensyOS.RustMalloc

open ByteMemory LibC ProgramBreak Tiling Tiling.Layout BlockHeap

variable {s : Heap} {bs xs ys : List Header} {b : Header} {n need cur : Nat} {m : Memory}

/-- The size of the block for a request of `n` bytes, in exact arithmetic. -/
def needed (n : Nat) : Nat := (n + 7) / 8 * 8 + 16

def pageCeil (n : Nat) : Nat := (n + 4095) / 4096 * 4096

theorem needed_spec (n : Nat) : n + 16 ≤ needed n ∧ 8 ∣ needed n := by
  simp only [needed]
  omega

theorem pageCeil_spec (n : Nat) : n ≤ pageCeil n ∧ 8 ∣ pageCeil n := by
  simp only [pageCeil]
  omega

theorem needed_exact (h : needed n < 2 ^ 64) : (roundUp n 8 + headerSize) % 2 ^ 64 = needed n := by
  simp only [needed, roundUp, roundDown, headerSize] at *
  omega

theorem pageCeil_exact (h : pageCeil n < 2 ^ 64) : roundUp n pageSize = pageCeil n := by
  simp only [pageCeil, roundUp, roundDown, pageSize] at *
  omega

/-- The request can be handled without a wrap: the new break, in exact
arithmetic, is representable. -/
def Sound (n : Nat) (s : Heap) : Prop :=
  pageCeil (needed n) + (s.breaks.programBreak - s.breaks.originalBreak) < 2 ^ 64

/-- The blocks that `split_or_use` makes of a block of `total` bytes. -/
def carve (need total : Nat) : List Header :=
  if need + minSplit ≤ total then [⟨BlockState.used.code, need⟩, ⟨BlockState.free.code, total - need⟩]
  else [⟨BlockState.used.code, total⟩]

theorem carve_total {total : Nat} (h : need ≤ total) : format.total (carve need total) = total := by
  rw [carve]
  split
  · simp only [total_cons, total_nil, format_size]
    omega
  · rfl

theorem carve_valid {total : Nat} (hge : 16 ≤ need) (h : need ≤ total) (hneed : 8 ∣ need) (htotal : 8 ∣ total) :
    ∀ c ∈ carve need total, c.Valid := by
  intro c hc
  rw [carve] at hc
  split at hc
  next hroom =>
    rcases List.mem_pair.mp hc with rfl | rfl
    · exact ⟨⟨.used, rfl⟩, hneed, hge⟩
    · refine ⟨⟨.free, rfl⟩, Nat.dvd_sub htotal hneed, ?_⟩
      simp only [minSplit, headerSize] at *
      omega
  next =>
    rw [List.mem_singleton.mp hc]
    exact ⟨⟨.used, rfl⟩, htotal, Nat.le_trans hge h⟩

theorem carve_at {total a : Nat} (h : need ≤ total) :
    (∃ c, format.At a (carve need total) a c ∧ c.state = BlockState.used.code ∧ need ≤ c.size) ∧
      ∀ a' c, format.At a (carve need total) a' c → format.busy c → a' = a := by
  rw [carve]
  split
  · refine ⟨⟨_, .inl ⟨rfl, rfl⟩, rfl, Nat.le_refl _⟩, fun a' c hc hbusy => ?_⟩
    rcases hc with ⟨rfl, -⟩ | ⟨-, rfl⟩ | hc
    · rfl
    · exact absurd rfl hbusy
    · exact hc.elim
  · refine ⟨⟨_, .inl ⟨rfl, rfl⟩, rfl, h⟩, fun a' c hc _ => ?_⟩
    rcases hc with ⟨rfl, -⟩ | hc
    · rfl
    · exact hc.elim

theorem splitOrUse_spec (hb : headerAt m cur = b) (hneed : need ≤ b.size) (hge : 16 ≤ need)
    (hcur : cur + b.size < 2 ^ 64) :
    ∃ m', splitOrUse m cur need .used = (cur + 16, m') ∧
      format.Tiles m' cur (carve need b.size) (cur + b.size) ∧
      ∀ x, x < cur ∨ cur + b.size ≤ x → m' x = m x := by
  have hrem : ((headerAt m cur).size + (2 ^ 64 - need)) % 2 ^ 64 = b.size - need := by
    rw [hb]
    omega
  have hptr : payloadOf cur = cur + 16 := Nat.mod_eq_of_lt (by simp only [headerSize]; omega)
  by_cases hroom : need + minSplit ≤ b.size
  · have hnext : nextBlock (setHeader m cur .used need) cur = cur + need := by
      rw [nextBlock, headerAt_setHeader, Nat.mod_eq_of_lt (by omega : need < 2 ^ 64)]
      exact Nat.mod_eq_of_lt (by omega : cur + need < 2 ^ 64)
    have hfree : headerAt (setHeader (setHeader m cur .used need) (cur + need) .free (b.size - need)) (cur + need) =
        ⟨BlockState.free.code, b.size - need⟩ := by
      rw [headerAt_setHeader, Nat.mod_eq_of_lt (by omega)]
    have hused : headerAt (setHeader (setHeader m cur .used need) (cur + need) .free (b.size - need)) cur =
        ⟨BlockState.used.code, need⟩ := by
      rw [headerAt_congr fun x _ hx => setHeader_outside _ _ (by omega : x < cur + need ∨ cur + need + 16 ≤ x),
        headerAt_setHeader, Nat.mod_eq_of_lt (by omega : need < 2 ^ 64)]
    refine ⟨setHeader (setHeader m cur .used need) (cur + need) .free (b.size - need), ?_, ?_, fun x hx => ?_⟩
    · have hmin : minSplit ≤ b.size - need := by omega
      simp only [splitOrUse, hrem, if_pos hmin, hnext, hptr]
    · rw [carve, if_pos hroom]
      refine ⟨hused, hfree, ?_⟩
      simp only [Tiles, format_size]
      omega
    · simp only [minSplit, headerSize] at hroom
      rw [setHeader_outside _ _ (by omega), setHeader_outside _ _ (by omega)]
  · refine ⟨setState m cur .used, ?_, ?_, fun x hx => setState_outside _ _ (by omega)⟩
    · have hmin : ¬minSplit ≤ b.size - need := by omega
      simp only [splitOrUse, hrem, if_neg hmin, hptr]
    · rw [carve, if_neg hroom]
      refine ⟨?_, rfl⟩
      rw [format_header, headerAt_setState, hb]

theorem WellFormed.splitOrUse (h : WellFormed s (xs ++ b :: ys)) (hfree : b.state = BlockState.free.code)
    (hneed : need ≤ b.size) (hge : 16 ≤ need) (hdvd : 8 ∣ need) :
    ∃ m', RustMalloc.splitOrUse s.mem (s.heapStart + format.total xs) need .used =
        (s.heapStart + format.total xs + 16, m') ∧
      WellFormed { s with mem := m' } (xs ++ (carve need b.size ++ ys)) ∧
      s.Keeps (fun a c => busy a c ∧ a ≠ s.heapStart + format.total xs) (xs ++ b :: ys) { s with mem := m' }
        (xs ++ (carve need b.size ++ ys)) ∧
      ∃ c, s.At (xs ++ (carve need b.size ++ ys)) (s.heapStart + format.total xs) c ∧
        c.state = BlockState.used.code ∧ need ≤ c.size := by
  have hat : s.At (xs ++ b :: ys) (s.heapStart + format.total xs) b := by simp [Heap.At]
  have hbd := h.bounds hat
  have hlt := h.end_lt
  have hv := h.region.valid b hat.mem
  have htotal : format.total [b] = b.size := rfl
  obtain ⟨m', hrun, htiles, hout⟩ := splitOrUse_spec (h.header hat) hneed hge (by omega)
  obtain ⟨⟨c, hc, hused, hsize⟩, hfirst⟩ := carve_at (a := s.heapStart + format.total xs) hneed
  have hsum := carve_total hneed
  rw [← htotal] at hout hsum htiles
  refine ⟨m', hrun, h.withMem ?_, ?_, c, ?_, hused, hsize⟩
  · exact h.region.rewrite [b] hsum htiles hout (carve_valid hge hneed hdvd hv.size_dvd)
  · apply Keeps.replace [b] hsum hout
    · intro a c hc hP
      rcases hc with ⟨-, rfl⟩ | hc
      · exact hP.1 hfree
      · exact hc.elim
    · intro a c hc hP
      rw [htotal] at hc
      exact hP.2 (hfirst a c hc hP.1)
  · exact at_append.mpr (.inr (at_append.mpr (.inl hc)))

theorem firstFit_eq (h : WellFormed s bs) (need : Nat) :
    firstFit s.mem s.heapEnd need s.heapStart =
      some (s.heapStart + format.total (bs.takeWhile fun b => ¬fits need b)) :=
  h.region.tiles.scan_eq h.region.positive (Nat.lt_trans h.end_lt (by omega)) (fun b => ¬fits need b)

theorem malloc_search (h : WellFormed s bs) (hs : s.heapStart ≠ 0) (hn : n ≠ 0)
    (hneed : (roundUp n 8 + headerSize) % 2 ^ 64 = need) :
    ((∀ b ∈ bs, ¬fits need b) ∧ malloc n s =
      match growHeap need s with
      | (none, s) => some (0, s)
      | (some block, s) =>
          let (ptr, m) := splitOrUse s.mem block need .used
          some (ptr, { s with mem := m })) ∨
    ∃ xs b ys, bs = xs ++ b :: ys ∧ (∀ c ∈ xs, ¬fits need c) ∧ fits need b ∧ malloc n s =
      let (ptr, m) := splitOrUse s.mem (s.heapStart + format.total xs) need .used
      some (ptr, { s with mem := m }) := by
  have hwalk := firstFit_eq h need
  rcases scan_cases (fun b => ¬fits need b) bs with ⟨hnone, htake⟩ | ⟨xs, b, ys, rfl, htake, hxs, hb⟩
  · refine .inl ⟨hnone, ?_⟩
    rw [htake, ← h.region.tiles.end_eq] at hwalk
    simp only [malloc, if_neg hn, heapBounds_eq hs, hneed, hwalk, Option.bind_some]
    exact if_neg (Nat.lt_irrefl _)
  · refine .inr ⟨xs, b, ys, rfl, hxs, Decidable.not_not.mp hb, ?_⟩
    rw [htake] at hwalk
    have hat : s.At (xs ++ b :: ys) (s.heapStart + format.total xs) b := by simp [Heap.At]
    have hlt : s.heapStart + format.total xs < s.heapEnd := by
      have hbd := h.bounds hat
      have hge := h.size_ge hat
      omega
    simp only [malloc, if_neg hn, heapBounds_eq hs, hneed, hwalk, Option.bind_some, if_pos hlt]

theorem growHeap_spec (h : WellFormed s bs) (hs : s.heapStart ≠ 0) (hge : 16 ≤ need)
    (hsize : pageCeil need + (s.breaks.programBreak - s.breaks.originalBreak) < 2 ^ 64) :
    growHeap need s = (none, s) ∨
      ∃ s', growHeap need s = (some s.heapEnd, s') ∧ s'.heapStart = s.heapStart ∧
        WellFormed s' (bs ++ [⟨BlockState.free.code, pageCeil need⟩]) ∧
        s.Keeps busy bs s' (bs ++ [⟨BlockState.free.code, pageCeil need⟩]) := by
  have hend := h.end_eq hs
  have hlt := s.breaks.lt_limit
  have hlim := limit_eq
  have hle := s.breaks.le_programBreak
  have hpos := h.break_pos
  obtain ⟨hceil, hdvd⟩ := pageCeil_spec need
  have hgrow : roundUp need pageSize = pageCeil need := pageCeil_exact (by omega)
  by_cases hroom : s.breaks.programBreak + pageCeil need < memsizeVirtual - pageSize
  · have hnew : (s.breaks.programBreak + pageCeil need) % 2 ^ 64 = s.breaks.programBreak + pageCeil need := by omega
    have hsbrk := sbrk_ok s.breaks (by rw [hnew]; omega) (by rwa [hnew])
    simp only [hnew] at hsbrk
    have hne : s.breaks.programBreak ≠ 2 ^ 64 - 1 := by omega
    let m' := setHeader s.mem s.heapEnd .free (pageCeil need)
    have hheader : format.header m' s.heapEnd = ⟨BlockState.free.code, pageCeil need⟩ := by
      rw [format_header, headerAt_setHeader, Nat.mod_eq_of_lt (by omega)]
    obtain ⟨hregion, hkeeps⟩ := h.region.append hheader ⟨⟨.free, rfl⟩, hdvd, Nat.le_trans hge hceil⟩
      fun x hx => setHeader_outside _ _ (.inl hx)
    refine .inr ⟨{ s with
      mem := m'
      heapEnd := s.heapEnd + pageCeil need
      breaks := ⟨s.breaks.originalBreak, s.breaks.programBreak + pageCeil need,
        Nat.le_add_right_of_le s.breaks.le_programBreak, hroom⟩ }, ?_, rfl,
      ⟨hregion, fun _ => ?_, fun h0 => absurd h0 hs, ?_, ?_⟩, ?_⟩
    · simp only [growHeap, sbrk, hgrow, hsbrk, if_neg hne, hnew, hend, m']
    · rw [hend]
    · exact Nat.dvd_add h.aligned hdvd
    · exact Nat.lt_of_lt_of_le hpos (Nat.le_add_right _ _)
    · refine Keeps.widen (R := fun a => a = s.heapEnd) (hkeeps.mono fun a c hP => hP.2) ?_ ?_
      · rintro a c rfl - hc
        have hbd := h.bounds hc
        have hc := h.size_ge hc
        omega
      · rintro a c rfl hbusy hc
        have htop := h.region.tiles.end_eq
        rcases at_append.mp hc with hc | ⟨-, rfl⟩ | hc
        · have hbd := h.bounds hc
          have hc := h.size_ge hc
          omega
        · exact hbusy rfl
        · exact hc.elim
  · refine .inl ?_
    simp only [growHeap, sbrk, hgrow, sbrk_fail s.breaks (by omega : (s.breaks.programBreak + pageCeil need) % 2 ^ 64 <
      s.breaks.originalBreak ∨ memsizeVirtual - pageSize ≤ (s.breaks.programBreak + pageCeil need) % 2 ^ 64), if_pos]

/-- A block in use with room for `n` bytes. -/
def Allocated (n : Nat) (b : Header) : Prop := b.state = BlockState.used.code ∧ n + 16 ≤ b.size

theorem Allocated.busy (h : Allocated n b) : format.busy b := by
  intro hfree
  exact absurd (h.1.symm.trans hfree) (by decide)

/-- A call that returns `p`: `None` with the heap unchanged, but for its bounds
when it is the first call, or the payload of a new block. -/
structure Result (P : Nat → Header → Prop) (n : Nat) (s : Heap) (bs : List Header) (p : Nat) (s' : Heap)
    (bs' : List Header) : Prop where
  wellFormed : WellFormed s' bs'
  started : s'.heapStart ≠ 0
  keeps : s.Keeps (fun a b => P a b ∧ a + 16 ≠ p) bs s' bs'
  fresh : Fresh format (Allocated n) s.heapStart bs p s'.heapStart bs'
  none : p = 0 → s' = heapBounds s

theorem Result.cases {P : Nat → Header → Prop} {p : Nat} {s' : Heap} {bs' : List Header}
    (h : Result P n s bs p s' bs') : p = 0 ∨ ∃ a b, p = a + 16 ∧ s'.At bs' a b ∧
      Allocated n b ∧ ∀ c, s.At bs a c → ¬format.busy c :=
  h.fresh

theorem malloc_started (h : WellFormed s bs) (hs : s.heapStart ≠ 0) (hn : n ≠ 0) (hsize : Sound n s) :
    ∃ p s' bs', malloc n s = some (p, s') ∧ Result busy n s bs p s' bs' := by
  obtain ⟨hroom, hdvd⟩ := needed_spec n
  have hceil := (pageCeil_spec (needed n)).1
  have hexact : (roundUp n 8 + headerSize) % 2 ^ 64 = needed n := by
    simp only [Sound] at hsize
    exact needed_exact (by omega)
  -- the common end of both searches: block `b` at the end of `xs` is taken into use
  have huse {t : Heap} {xs ys : List Header} {b : Header} (ht : WellFormed t (xs ++ b :: ys))
      (hst : t.heapStart = s.heapStart) (hk : s.Keeps busy bs t (xs ++ b :: ys))
      (hold : ∀ c, s.At bs (t.heapStart + format.total xs) c → c.state = BlockState.free.code)
      (hfree : b.state = BlockState.free.code) (hfit : needed n ≤ b.size)
      (hrun : malloc n s = let (ptr, m) := splitOrUse t.mem (t.heapStart + format.total xs) (needed n) .used
        some (ptr, { t with mem := m })) :
      ∃ p s' bs', malloc n s = some (p, s') ∧ Result busy n s bs p s' bs' := by
    obtain ⟨m', hsplit, hwf, hkeeps, c, hc, hused, hsz⟩ := ht.splitOrUse hfree hfit (by omega) hdvd
    rw [hsplit] at hrun
    refine ⟨_, _, _, hrun, hwf, ?_, ?_, ?_, fun h0 => ?_⟩
    · simp only [hst]
      exact hs
    · refine (hk.mono fun a b hP => hP.1).trans (hkeeps.mono fun a b hP => ⟨hP.1, ?_⟩)
      omega
    · exact .inr ⟨_, c, rfl, hc, ⟨hused, by omega⟩, fun c' hc' hbusy => hbusy (hold c' hc')⟩
    · omega
  rcases malloc_search h hs hn hexact with ⟨-, hrun⟩ | ⟨xs, b, ys, rfl, -, ⟨hfree, hfit⟩, hrun⟩
  · rcases growHeap_spec h hs (by omega : 16 ≤ needed n) hsize with hgrow | ⟨s₁, hgrow, hst, hwf, hkeeps⟩
    · rw [hgrow] at hrun
      exact ⟨0, s, bs, hrun, h, hs, Keeps.refl, .inl rfl, fun _ => (heapBounds_eq hs).symm⟩
    · rw [hgrow] at hrun
      have htop : s₁.heapStart + format.total bs = s.heapEnd := by rw [hst, h.region.tiles.end_eq]
      refine huse hwf hst hkeeps (fun c hc => ?_) rfl hceil ?_
      · rw [htop] at hc
        have hbd := h.bounds hc
        have hge := h.size_ge hc
        omega
      · rw [htop]
        exact hrun
  · refine huse h rfl Keeps.refl (fun c hc => ?_) hfree hfit hrun
    rw [h.region.unique hc (at_append.mpr (.inr (.inl ⟨rfl, rfl⟩)))]
    exact hfree

theorem malloc_heapBounds (h : WellFormed s bs) (hn : n ≠ 0) : malloc n s = malloc n (heapBounds s) := by
  simp only [malloc, if_neg hn, heapBounds_eq h.started]

theorem malloc_spec (h : WellFormed s bs) (hn : n ≠ 0) (hsize : Sound n s) :
    ∃ p s' bs', malloc n s = some (p, s') ∧ Result busy n s bs p s' bs' := by
  have hsize' : Sound n (heapBounds s) := by rwa [Sound, heapBounds_breaks]
  obtain ⟨p, s', bs', hrun, hres⟩ := malloc_started h.heapBounds h.started hn hsize'
  refine ⟨p, s', bs', by rw [malloc_heapBounds h hn, hrun], hres.wellFormed, hres.started,
    (heapBounds_keeps h _).trans hres.keeps, ?_, fun h0 => ?_⟩
  · refine hres.fresh.imp_right fun ⟨a, b, hp, hb, hnew, hfresh⟩ => ⟨a, b, hp, hb, hnew, fun c hc => hfresh c ?_⟩
    exact (heapBounds_at h a c).mpr hc
  · rw [hres.none h0, heapBounds_eq h.started]

end WeensyOS.RustMalloc
