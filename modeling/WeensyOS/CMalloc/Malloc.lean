import WeensyOS.CMalloc.Blocks

namespace WeensyOS.CMalloc

open ByteMemory LibC ProgramBreak Tiling Tiling.Layout

variable {s : Heap} {bs xs ys : List BlockHeader} {b : BlockHeader} {n a blockSz slop : Nat} {m : Memory}

/-- The size of the block for a request of `n` bytes, in exact arithmetic. -/
def blockSize (n : Nat) : Nat := (n + 7) / 8 * 8 + 8

def padding (n : Nat) : Nat := (n + 7) / 8 * 8 - n

theorem blockSize_eq (n : Nat) : blockSize n = 8 + padding n + n ∧ blockSize n % 8 = 0 ∧ padding n < 8 := by
  simp only [blockSize, padding]
  omega

theorem blockSize_ge (hn : n ≠ 0) : 16 ≤ blockSize n := by
  simp only [blockSize]
  omega

theorem roundUp_exact (hsize : blockSize n < 2 ^ 64) :
    (roundUp n align + sizeofHeader) % 2 ^ 64 = blockSize n ∧
      (roundUp n align + (2 ^ 64 - n)) % 2 ^ 64 % 2 ^ 8 = padding n := by
  simp only [blockSize, roundUp, align, sizeofHeader, padding] at *
  omega

theorem init_eq (h : s.initialized = true) : init s = s := by simp [init, h]

theorem init_eq' (h : s.initialized = false) :
    init s = { s with managedMemoryStart := s.breaks.programBreak, lastValidAddress := s.breaks.programBreak,
                      initialized := true } := by
  simp [init, h, sbrk, sbrk_zero]

@[simp] theorem init_initialized (s : Heap) : (init s).initialized = true := by
  cases h : s.initialized with
  | false => rw [init_eq' h]
  | true => rw [init_eq h, h]

@[simp] theorem init_mem (s : Heap) : (init s).mem = s.mem := by
  cases h : s.initialized with
  | false => rw [init_eq' h]
  | true => rw [init_eq h]

@[simp] theorem init_breaks (s : Heap) : (init s).breaks = s.breaks := by
  cases h : s.initialized with
  | false => rw [init_eq' h]
  | true => rw [init_eq h]

theorem WellFormed.blocks_nil (h : WellFormed s bs) (hi : s.initialized = false) : bs = [] := by
  have hend := h.tiles.end_eq
  rw [(h.unused hi).1, (h.unused hi).2] at hend
  cases bs with
  | nil => rfl
  | cons b bs =>
      have hb := h.positive b List.mem_cons_self
      rw [total_cons] at hend
      omega

theorem WellFormed.init (h : WellFormed s bs) : WellFormed (init s) bs := by
  cases hi : s.initialized with
  | true => rwa [init_eq hi]
  | false =>
      rw [init_eq' hi]
      obtain rfl := h.blocks_nil hi
      exact ⟨rfl, h.valid, fun _ => rfl, fun hf => by simp at hf, h.aligned⟩

theorem init_keeps (h : WellFormed s bs) (P : Nat → BlockHeader → Prop) : s.Keeps P bs (init s) bs := by
  cases hi : s.initialized with
  | true => rw [init_eq hi]; exact Keeps.refl
  | false =>
      obtain rfl := h.blocks_nil hi
      exact Keeps.nil _ _

theorem malloc_init (hn : n ≠ 0) : malloc n s = malloc n (init s) := by
  simp only [malloc, if_neg hn, init_eq (init_initialized s)]

theorem firstFit_eq (h : WellFormed s bs) (blockSz : Nat) :
    firstFit s.mem s.lastValidAddress blockSz s.managedMemoryStart =
      some (s.managedMemoryStart + layout.total (bs.takeWhile fun b => ¬fits blockSz b)) :=
  h.tiles.scan_eq h.positive (Nat.lt_trans h.last_lt (by omega)) (fun b => ¬fits blockSz b)

theorem malloc_walk (h : WellFormed s bs) (hi : s.initialized = true) (hn : n ≠ 0)
    (hB : (roundUp n align + sizeofHeader) % 2 ^ 64 = blockSz)
    (hslop : (roundUp n align + (2 ^ 64 - n)) % 2 ^ 64 % 2 ^ 8 = slop) :
    ((∀ b ∈ bs, ¬fits blockSz b) ∧ malloc n s = some (grow blockSz slop s)) ∨
    ∃ xs b ys, bs = xs ++ b :: ys ∧ (∀ c ∈ xs, ¬fits blockSz c) ∧ fits blockSz b ∧
      malloc n s = some (payloadOf (s.managedMemoryStart + layout.total xs),
        { s with mem := place s.mem (s.managedMemoryStart + layout.total xs) blockSz slop }) := by
  have hwalk := firstFit_eq h blockSz
  rcases scan_cases (fun b => ¬fits blockSz b) bs with ⟨hnone, htake⟩ | ⟨xs, b, ys, rfl, htake, hxs, hb⟩
  · refine .inl ⟨hnone, ?_⟩
    have hend := h.tiles.end_eq
    rw [htake, ← hend] at hwalk
    simp only [malloc, if_neg hn, init_eq hi, hB, hslop, hwalk, Option.bind_some, Nat.lt_irrefl, if_false]
  · refine .inr ⟨xs, b, ys, rfl, hxs, Decidable.not_not.mp hb, ?_⟩
    rw [htake] at hwalk
    have hat : s.At (xs ++ b :: ys) (s.managedMemoryStart + layout.total xs) b := by simp [Heap.At]
    have hlt : s.managedMemoryStart + layout.total xs < s.lastValidAddress := by
      have hbd := (h.bounds hat).2
      have hpos := (h.valid b hat.mem).size_ge
      omega
    simp only [malloc, if_neg hn, init_eq hi, hB, hslop, hwalk, Option.bind_some, if_pos hlt]

/-- What a `malloc` of `n` bytes whose block size does not wrap can do to an
initialized heap. -/
inductive Outcome (n : Nat) (s : Heap) (bs : List BlockHeader) : Nat → Heap → List BlockHeader → Prop
  | refused (hnone : ∀ b ∈ bs, ¬fits (blockSize n) b)
      (hlimit : memsizeVirtual - pageSize ≤ s.breaks.programBreak + blockSize n) : Outcome n s bs null s bs
  | grown (hnone : ∀ b ∈ bs, ¬fits (blockSize n) b)
      (hlimit : s.breaks.programBreak + blockSize n < memsizeVirtual - pageSize) :
      Outcome n s bs (s.lastValidAddress + 8)
        { s with
          mem := setSize (setSlop (setState s.mem s.lastValidAddress .used) s.lastValidAddress (padding n))
            s.lastValidAddress (blockSize n)
          lastValidAddress := s.lastValidAddress + blockSize n
          breaks := ⟨s.breaks.originalBreak, s.breaks.programBreak + blockSize n,
            Nat.le_add_right_of_le s.breaks.le_programBreak, hlimit⟩ }
        (bs ++ [⟨BlockState.used.code, padding n, blockSize n⟩])
  | split (xs : List BlockHeader) (b : BlockHeader) (ys : List BlockHeader) (hbs : bs = xs ++ b :: ys)
      (hxs : ∀ c ∈ xs, ¬fits (blockSize n) c) (hfree : b.state = BlockState.free.code)
      (hroom : blockSize n + 16 ≤ b.size) (old : Nat) :
      Outcome n s bs (s.managedMemoryStart + layout.total xs + 8)
        { s with mem := place s.mem (s.managedMemoryStart + layout.total xs) (blockSize n) (padding n) }
        (xs ++ ([⟨BlockState.used.code, padding n, blockSize n⟩,
          ⟨BlockState.free.code, old, b.size - blockSize n⟩] ++ ys))
  | whole (xs : List BlockHeader) (b : BlockHeader) (ys : List BlockHeader) (hbs : bs = xs ++ b :: ys)
      (hxs : ∀ c ∈ xs, ¬fits (blockSize n) c) (hfree : b.state = BlockState.free.code)
      (hroom : blockSize n ≤ b.size) (hfull : b.size < blockSize n + 16) :
      Outcome n s bs (s.managedMemoryStart + layout.total xs + 8)
        { s with mem := place s.mem (s.managedMemoryStart + layout.total xs) (blockSize n) (padding n) }
        (xs ++ ([⟨BlockState.used.code, b.size - blockSize n, b.size⟩] ++ ys))

theorem used_header (m : Memory) (cur sz slop : Nat) (hslop : slop < 2 ^ 8) (hsz : sz < 2 ^ 32) :
    headerAt (setSlop (setState (setSize m cur sz) cur .used) cur slop) cur =
      ⟨BlockState.used.code, slop, sz⟩ := by
  simp only [headerAt_setSlop, headerAt_setState, headerAt_setSize, Nat.mod_eq_of_lt hslop,
    Nat.mod_eq_of_lt hsz]

section Place

variable {cur : Nat} (slop : Nat) (hb : headerAt m cur = b) (hsize : b.size < 2 ^ 32)
include hb hsize

omit slop in
theorem remainder_eq (hroom : blockSz ≤ b.size) :
    ((headerAt m cur).size + (2 ^ 32 - blockSz % 2 ^ 32)) % 2 ^ 32 = b.size - blockSz := by
  rw [hb]
  omega

theorem place_split (hroom : blockSz + 16 ≤ b.size) (hge : 8 ≤ blockSz) (hcur : cur + b.size < 2 ^ 64)
    (hslop : slop < 2 ^ 8) :
    headerAt (place m cur blockSz slop) cur = ⟨BlockState.used.code, slop, blockSz⟩ ∧
      headerAt (place m cur blockSz slop) (cur + blockSz) =
        ⟨BlockState.free.code, (headerAt m (cur + blockSz)).slop, b.size - blockSz⟩ ∧
      ∀ x, x < cur ∨ cur + b.size ≤ x → place m cur blockSz slop x = m x := by
  have hplace : place m cur blockSz slop =
      setSlop (setState (setSize (setSize (setState m (cur + blockSz) .free) (cur + blockSz) (b.size - blockSz))
        cur blockSz) cur .used) cur slop := by
    simp only [place]
    rw [remainder_eq hb hsize (by omega), if_pos (by omega),
      Nat.mod_eq_of_lt (by omega : cur + blockSz < 2 ^ 64), Nat.mod_eq_of_lt (by omega : blockSz < 2 ^ 32)]
  rw [hplace]
  refine ⟨used_header _ _ _ _ hslop (by omega), ?_, fun x hx => ?_⟩
  · have hframe : headerAt (setSlop (setState (setSize (setSize (setState m (cur + blockSz) .free)
          (cur + blockSz) (b.size - blockSz)) cur blockSz) cur .used) cur slop) (cur + blockSz) =
        headerAt (setSize (setState m (cur + blockSz) .free) (cur + blockSz) (b.size - blockSz))
          (cur + blockSz) := by
      refine headerAt_congr fun x hx _ => ?_
      rw [setSlop_outside _ (by omega), setState_outside _ _ (by omega), setSize_outside _ (by omega)]
    rw [hframe, headerAt_setSize, headerAt_setState, Nat.mod_eq_of_lt (by omega)]
  · rw [setSlop_outside _ (by omega), setState_outside _ _ (by omega), setSize_outside _ (by omega),
      setSize_outside _ (by omega), setState_outside _ _ (by omega)]

theorem place_whole (hroom : blockSz ≤ b.size) (hfull : b.size < blockSz + 16) (hge : 8 ≤ b.size) :
    headerAt (place m cur blockSz slop) cur = ⟨BlockState.used.code, b.size - blockSz, b.size⟩ ∧
      ∀ x, x < cur ∨ cur + b.size ≤ x → place m cur blockSz slop x = m x := by
  have hplace : place m cur blockSz slop = setSlop (setState m cur .used) cur (b.size - blockSz) := by
    simp only [place]
    rw [remainder_eq hb hsize hroom, if_neg (by omega)]
  rw [hplace]
  refine ⟨?_, fun x hx => ?_⟩
  · rw [headerAt_setSlop, headerAt_setState, hb, Nat.mod_eq_of_lt (by omega)]
  · rw [setSlop_outside _ (by omega), setState_outside _ _ (by omega)]

end Place

section Cases

variable (h : WellFormed s bs) (hi : s.initialized = true) (hn : n ≠ 0)
include h hi hn

theorem grow_cases (hsize : blockSize n + (s.breaks.programBreak - s.breaks.originalBreak) < 2 ^ 64)
    (hnone : ∀ b ∈ bs, ¬fits (blockSize n) b) :
    ∃ p s' bs', grow (blockSize n) (padding n) s = (p, s') ∧ Outcome n s bs p s' bs' ∧
      WellFormed s' bs' ∧ s.Keeps (fun a b => busy a b ∧ a + 8 ≠ p) bs s' bs' := by
  have hlast := h.last_eq hi
  have hle := s.breaks.le_programBreak
  have hlt := s.breaks.lt_limit
  have hlim := limit_eq
  obtain ⟨hsum, hmod, hpad⟩ := blockSize_eq n
  have hge := blockSize_ge hn
  by_cases hroom : s.breaks.programBreak + blockSize n < memsizeVirtual - pageSize
  · have hnew : (s.breaks.programBreak + blockSize n) % 2 ^ 64 = s.breaks.programBreak + blockSize n := by omega
    have hsbrk := sbrk_ok s.breaks (by rw [hnew]; omega) (by rwa [hnew])
    simp only [hnew] at hsbrk
    have hframe (x : Nat) (hx : x < s.lastValidAddress) :
        setSize (setSlop (setState s.mem s.lastValidAddress .used) s.lastValidAddress (padding n))
          s.lastValidAddress (blockSize n) x = s.mem x := by
      rw [setSize_outside _ (by omega), setSlop_outside _ (by omega), setState_outside _ _ (by omega)]
    refine ⟨_, _, _, ?_, .grown hnone hroom, ⟨?_, ?_, fun _ => by rw [hlast], fun hf => by simp [hi] at hf, ?_⟩,
      fun a b hP => ⟨⟨fun hb => at_append.mpr (.inl hb), fun hb => ?_⟩, fun hb x _ hx => hframe x ?_⟩⟩
    · have hne : s.breaks.programBreak ≠ 2 ^ 64 - 1 := by omega
      simp only [grow, sbrk, hsbrk, if_neg hne, payloadOf, sizeofHeader,
        Nat.mod_eq_of_lt (by omega : s.lastValidAddress + 8 < 2 ^ 64),
        Nat.mod_eq_of_lt (by omega : s.lastValidAddress + blockSize n < 2 ^ 64),
        Nat.mod_eq_of_lt (by omega : blockSize n < 2 ^ 32)]
    · rw [tiles_append, ← h.tiles.end_eq]
      refine ⟨h.tiles.frame fun a b hb x _ hx => hframe x ?_, ?_, rfl⟩
      · have hbd := h.bounds hb
        have hbs := (h.valid b hb.mem).size_ge
        simp only [layout_width] at hx
        omega
      · simp only [layout_header, headerAt_setSize, headerAt_setSlop, headerAt_setState,
          Nat.mod_eq_of_lt (by omega : blockSize n < 2 ^ 32), Nat.mod_eq_of_lt (by omega : padding n < 2 ^ 8)]
    · intro b hb
      rcases List.mem_append.mp hb with hb | hb
      · exact h.valid b hb
      · rw [List.mem_singleton.mp hb]
        exact ⟨⟨.used, rfl⟩, hmod, hge, fun _ => by simp only; omega⟩
    · have haligned := h.aligned
      simp only
      omega
    · refine (at_append.mp hb).resolve_right fun hnew => ?_
      rcases hnew with ⟨rfl, -⟩ | hnew
      · exact hP.2 (by rw [h.tiles.end_eq])
      · exact hnew.elim
    · have hbd := h.bounds hb
      simp only [layout_size] at hx
      omega
  · have hout : (s.breaks.programBreak + blockSize n) % 2 ^ 64 < s.breaks.originalBreak ∨
        memsizeVirtual - pageSize ≤ (s.breaks.programBreak + blockSize n) % 2 ^ 64 := by omega
    refine ⟨null, s, bs, ?_, .refused hnone (by omega), h, Keeps.refl⟩
    simp only [grow, sbrk, sbrk_fail _ hout, if_pos]

/-- A `malloc` on an initialized heap: one of the outcomes, and a well-formed heap. -/
theorem malloc_cases (hsize : blockSize n + (s.breaks.programBreak - s.breaks.originalBreak) < 2 ^ 64) :
    ∃ p s' bs', malloc n s = some (p, s') ∧ Outcome n s bs p s' bs' ∧
      WellFormed s' bs' ∧ s.Keeps (fun a b => busy a b ∧ a + 8 ≠ p) bs s' bs' := by
  obtain ⟨hsum, hmod, hpad⟩ := blockSize_eq n
  have hge := blockSize_ge hn
  obtain ⟨hB, hslop⟩ := roundUp_exact (by omega : blockSize n < 2 ^ 64)
  rcases malloc_walk h hi hn hB hslop with ⟨hnone, hrun⟩ | ⟨xs, b, ys, rfl, hxs, ⟨hfree, hfit⟩, hrun⟩
  · obtain ⟨p, s', bs', hgrow, hrest⟩ := grow_cases h hi hn hsize hnone
    exact ⟨p, s', bs', by rw [hrun, hgrow], hrest⟩
  · have hat : s.At (xs ++ b :: ys) (s.managedMemoryStart + layout.total xs) b := by simp [Heap.At]
    have hheader := h.header hat
    have hbd := h.bounds hat
    have hlast := h.last_lt
    have hb := h.valid b hat.mem
    have hbmod := hb.size_mod
    have hbge := hb.size_ge
    have hp : payloadOf (s.managedMemoryStart + layout.total xs) =
        s.managedMemoryStart + layout.total xs + 8 := by
      simp only [payloadOf, sizeofHeader]
      omega
    let p := s.managedMemoryStart + layout.total xs + 8
    have hold (a : Nat) (c : BlockHeader)
        (hc : layout.At (s.managedMemoryStart + layout.total xs) [b] a c) : ¬(busy a c ∧ a + 8 ≠ p) := by
      rcases hc with ⟨-, rfl⟩ | hc
      · exact fun hbusy => hbusy.1 hfree
      · exact hc.elim
    have htotal : layout.total [b] = b.size := rfl
    rw [hp] at hrun
    by_cases hroom : blockSize n + 16 ≤ b.size
    · obtain ⟨hcur, hnext, hout⟩ := place_split (padding n) hheader (by omega) hroom (by omega)
        (by omega) (by omega)
      rw [← htotal] at hout
      have hsum' : layout.total [⟨BlockState.used.code, padding n, blockSize n⟩,
          ⟨BlockState.free.code, (headerAt s.mem (s.managedMemoryStart + layout.total xs + blockSize n)).slop,
            b.size - blockSize n⟩] = layout.total [b] := by
        simp only [total_cons, total_nil, layout_size]
        omega
      refine ⟨_, _, _, hrun, .split xs b ys rfl hxs hfree hroom
        (headerAt s.mem (s.managedMemoryStart + layout.total xs + blockSize n)).slop,
        h.rewrite [b] hsum' ⟨hcur, hnext, ?_⟩ hout ?_,
        Keeps.replace [b] hsum' hout hold fun a c hc hP => ?_⟩
      · simp only [Tiles, layout_size, htotal]
        omega
      · intro c hc
        simp only [List.mem_cons, List.not_mem_nil, or_false] at hc
        rcases hc with rfl | rfl
        · exact ⟨⟨.used, rfl⟩, hmod, hge, fun _ => by simp only; omega⟩
        · exact ⟨⟨.free, rfl⟩, by simp only; omega, by simp only; omega, fun hf => absurd rfl hf⟩
      · rcases hc with ⟨rfl, -⟩ | ⟨-, rfl⟩ | hc
        · exact hP.2 rfl
        · exact hP.1 rfl
        · exact hc.elim
    · obtain ⟨hcur, hout⟩ := place_whole (padding n) hheader (by omega) hfit (by omega) (by omega)
      rw [← htotal] at hout
      refine ⟨_, _, _, hrun, .whole xs b ys rfl hxs hfree hfit (by omega),
        h.rewrite [b] rfl ⟨hcur, rfl⟩ hout ?_,
        Keeps.replace [b] rfl hout hold fun a c hc hP => ?_⟩
      · intro c hc
        rw [List.mem_singleton.mp hc]
        exact ⟨⟨.used, rfl⟩, hbmod, hbge, fun _ => by simp only; omega⟩
      · rcases hc with ⟨rfl, -⟩ | hc
        · exact hP.2 rfl
        · exact hc.elim

end Cases

/-- A used block `b` at `a` that has room for `n` bytes and was not in use before. -/
structure Allocated (n : Nat) (s : Heap) (bs : List BlockHeader) (a : Nat) (b : BlockHeader) (s' : Heap)
    (bs' : List BlockHeader) : Prop where
  at_new : s'.At bs' a b
  used : b.state = BlockState.used.code
  room : n + 8 + b.slop ≤ b.size
  fresh : ∀ c, s.At bs a c → c.state = BlockState.free.code

/-- A call that returns `p`: either `NULL` with the heap unchanged, but for
`init`, or the payload of a new block for `n` bytes. -/
structure Result (P : Nat → BlockHeader → Prop) (n : Nat) (s : Heap) (bs : List BlockHeader) (p : Nat) (s' : Heap)
    (bs' : List BlockHeader) : Prop where
  wellFormed : WellFormed s' bs'
  initialized : s'.initialized = true
  keeps : s.Keeps (fun a b => P a b ∧ a + 8 ≠ p) bs s' bs'
  cases : p = null ∧ s' = init s ∧ bs' = bs ∨ ∃ a b, p = a + 8 ∧ Allocated n s bs a b s' bs'

/-- The requests for which the slop byte of the new block is exact: no rounding,
or no reuse of a whole block. -/
def ExactFit (n : Nat) (bs : List BlockHeader) : Prop :=
  n % 8 = 0 ∨ ∀ b, bs.find? (fun b => fits (blockSize n) b) = some b → blockSize n + 16 ≤ b.size

theorem find_first {blockSz : Nat} (hxs : ∀ c ∈ xs, ¬fits blockSz c) (hb : fits blockSz b) :
    (xs ++ b :: ys).find? (fun b => fits blockSz b) = some b := by
  rw [List.find?_append, List.find?_eq_none.mpr (by simpa using hxs), Option.none_or]
  exact List.find?_cons_of_pos (by simpa using hb)

/-- The size that the code can handle without a wrap: the new break, in exact
arithmetic, is representable. -/
def Sound (n : Nat) (s : Heap) : Prop :=
  blockSize n + (s.breaks.programBreak - s.breaks.originalBreak) < 2 ^ 64

theorem Outcome.cases {p : Nat} {s' : Heap} {bs' : List BlockHeader} (h : WellFormed s bs)
    (ho : Outcome n s bs p s' bs') : p = null ∧ s' = s ∧ bs' = bs ∨
      ∃ a b, p = a + 8 ∧ Allocated n s bs a b s' bs' ∧ (ExactFit n bs ↔ n + 8 + b.slop = b.size) := by
  obtain ⟨hsum, hmod, hpad⟩ := blockSize_eq n
  cases ho with
  | refused hnone hlimit => exact .inl ⟨rfl, rfl, rfl⟩
  | grown hnone hlimit =>
      refine .inr ⟨s.lastValidAddress, ⟨BlockState.used.code, padding n, blockSize n⟩, rfl,
        ⟨?_, rfl, ?_, fun c hc => ?_⟩, fun _ => ?_, fun _ => .inr fun b hb => ?_⟩
      · exact at_append.mpr (.inr (.inl ⟨h.tiles.end_eq, rfl⟩))
      · simp only
        omega
      · have hbd := h.bounds hc
        have hpos := (h.valid c hc.mem).size_ge
        omega
      · simp only
        omega
      · exact absurd (by simpa using List.find?_some hb) (hnone b (List.mem_of_find?_eq_some hb))
  | split xs b ys hbs hxs hfree hroom old =>
      subst hbs
      refine .inr ⟨_, ⟨BlockState.used.code, padding n, blockSize n⟩, rfl,
        ⟨at_append.mpr (.inr (.inl ⟨rfl, rfl⟩)), rfl, ?_, fun c hc => ?_⟩, fun _ => ?_, fun _ => .inr fun b' hb' => ?_⟩
      · simp only
        omega
      · rw [h.unique hc (at_append.mpr (.inr (.inl ⟨rfl, rfl⟩)))]
        exact hfree
      · simp only
        omega
      · rw [find_first hxs ⟨hfree, by omega⟩, Option.some.injEq] at hb'
        rwa [← hb']
  | whole xs b ys hbs hxs hfree hroom hfull =>
      subst hbs
      refine .inr ⟨_, ⟨BlockState.used.code, b.size - blockSize n, b.size⟩, rfl,
        ⟨at_append.mpr (.inr (.inl ⟨rfl, rfl⟩)), rfl, ?_, fun c hc => ?_⟩, fun hexact => ?_, fun hexact => .inl ?_⟩
      · simp only
        omega
      · rw [h.unique hc (at_append.mpr (.inr (.inl ⟨rfl, rfl⟩)))]
        exact hfree
      · rcases hexact with hexact | hexact
        · simp only
          omega
        · have hfit := hexact b (find_first hxs ⟨hfree, hroom⟩)
          omega
      · simp only at hexact
        omega

theorem malloc_spec (h : WellFormed s bs) (hn : n ≠ 0) (hsize : Sound n s) :
    ∃ p s' bs', malloc n s = some (p, s') ∧ Result busy n s bs p s' bs' ∧
      ∀ a b, p = a + 8 → s'.At bs' a b → (ExactFit n bs ↔ n + 8 + b.slop = b.size) := by
  have hsize' : Sound n (init s) := by rwa [Sound, init_breaks]
  obtain ⟨p, s', bs', hrun, hout, hwf, hkeeps⟩ := malloc_cases h.init (init_initialized s) hn hsize'
  have hinit : s'.initialized = true := by
    cases hout <;> exact init_initialized s
  rw [malloc_init hn]
  rcases hout.cases h.init with ⟨hp, hs, hbs⟩ | ⟨a, b, hp, hnew, hexact⟩
  · refine ⟨p, s', bs', hrun, ⟨hwf, hinit, (init_keeps h _).trans hkeeps, .inl ⟨hp, hs, hbs⟩⟩, ?_⟩
    intro a b ha _
    rw [hp, null] at ha
    omega
  · refine ⟨p, s', bs', hrun, ⟨hwf, hinit, (init_keeps h _).trans hkeeps, .inr ⟨a, b, hp, hnew.at_new,
      hnew.used, hnew.room, fun c hc => hnew.fresh c ?_⟩⟩, ?_⟩
    · exact ((init_keeps h fun _ _ => True) a c trivial).1.mp hc
    · intro a' b' ha' hb'
      obtain rfl : a' = a := by omega
      rw [hwf.unique hb' hnew.at_new]
      exact hexact

end WeensyOS.CMalloc
