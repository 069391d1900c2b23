import WeensyOS.CMalloc.Contract

namespace WeensyOS.CMalloc

open ByteMemory LibC ProgramBreak Tiling Tiling.Layout Allocator

/-- A process that has not called the library yet; the statics are zero. -/
def start (m : Memory) (p : Breaks) : Sys Heap := ⟨⟨m, false, null, null, p⟩, []⟩

def SizeBound (_ : Heap) (c : Call) : Prop := ∀ n, c.request = some n → n ≤ 2 ^ 63 - 16

instance (s : Heap) (c : Call) : Decidable (SizeBound s c) :=
  match h : c.request with
  | none => isTrue fun n hn => by rw [h] at hn; cases hn
  | some k => decidable_of_iff (k ≤ 2 ^ 63 - 16) ⟨fun hk n hn => by rw [h] at hn; cases hn; exact hk, fun hk => hk k h⟩

/-- A request that does not reuse a whole block for a size that was rounded up. -/
def SlopFits (s : Heap) (c : Call) : Prop :=
  SizeBound s c ∧ ∀ n, c.request = some n → ∀ bs, WellFormed s bs → ExactFit n bs

variable {m : Memory} {p : Breaks} {s : Sys Heap} {E : Prop} {l : Alloc}

theorem start_inv (m : Memory) (h8 : p.programBreak % 8 = 0) (E : Prop) : (contract E).Inv (start m p) where
  wf := ⟨[], rfl, by simp, fun hi => by simp [start] at hi, fun _ => ⟨rfl, rfl⟩, h8⟩
  owns := by simp [start]
  distinct := .nil

theorem reach_inv (h8 : p.programBreak % 8 = 0) (h : library.Reachable SizeBound (start m p) s) :
    (contract False).Inv s :=
  (start_inv m h8 False).run (h.mono fun s _ hc => ⟨fun n hn => .inl (sound_of_le (hc n hn) s), False.elim⟩)

theorem reach_inv_exact (h8 : p.programBreak % 8 = 0) (h : library.Reachable SlopFits (start m p) s) :
    (contract True).Inv s :=
  (start_inv m h8 True).run (h.mono fun s _ hc => ⟨fun n hn => .inl (sound_of_le (hc.1 n hn) s), fun _ => hc.2⟩)

/-- The walk over the heap meets blocks with valid headers and ends at the program
break, and the live allocations lie in different ones of these blocks. -/
structure Consistent (s : Sys Heap) (bs : List BlockHeader) : Prop where
  walk : layout.Tiles s.heap.mem s.heap.managedMemoryStart bs s.heap.lastValidAddress
  last_eq : s.heap.initialized = true → s.heap.lastValidAddress = s.heap.breaks.programBreak
  unused : s.heap.initialized = false →
    s.heap.managedMemoryStart = null ∧ s.heap.lastValidAddress = null ∧ bs = [] ∧ s.live = []
  headers : ∀ b ∈ bs, (∃ st : BlockState, b.state = st.code) ∧ b.size % 8 = 0 ∧ 16 ≤ b.size
  live : ∀ l ∈ s.live, l.ptr % 8 = 0 ∧ 8 ≤ l.ptr ∧ ∃ b, s.heap.At bs (l.ptr - 8) b ∧ l.req + 8 ≤ b.size
  disjoint : s.live.Pairwise fun l l' => ∀ b b', s.heap.At bs (l.ptr - 8) b → s.heap.At bs (l'.ptr - 8) b' →
    l.ptr - 8 + b.size ≤ l'.ptr - 8 ∨ l'.ptr - 8 + b'.size ≤ l.ptr - 8

theorem consistent_of_inv (h : (contract E).Inv s) : ∃ bs, Consistent s bs := by
  obtain ⟨bs, hwf⟩ := h.wf
  refine ⟨bs, hwf.tiles, hwf.last_eq, fun hi => ?_, fun b hb => ?_, fun l hl => ?_, ?_⟩
  · refine ⟨(hwf.unused hi).1, (hwf.unused hi).2, hwf.blocks_nil hi, ?_⟩
    refine List.eq_nil_iff_forall_not_mem.mpr fun l hl => ?_
    exact absurd ((h.owns l hl).initialized.symm.trans hi) (by decide)
  · exact ⟨(hwf.valid b hb).state, (hwf.valid b hb).size_mod, (hwf.valid b hb).size_ge⟩
  · obtain ⟨a, b, hb, hholds⟩ := (h.owns l hl).block hwf
    have hptr := hholds.ptr
    have hroom := hholds.room
    have hmod := hwf.address_mod hb
    refine ⟨by omega, by omega, b, ?_, by omega⟩
    rwa [hptr, Nat.add_sub_cancel]
  · refine h.distinct.imp_of_mem fun {l l'} hl hl' hne b b' hb hb' => ?_
    obtain ⟨a, c, -, hholds⟩ := (h.owns l hl).block hwf
    obtain ⟨a', c', -, hholds'⟩ := (h.owns l' hl').block hwf
    have hptr := hholds.ptr
    have hptr' := hholds'.ptr
    rcases At.disjoint hb hb' with hd | hd | hd
    · omega
    · exact .inl hd
    · exact .inr hd

/-- Every run keeps the heap consistent, and every further allowed call returns. -/
theorem reachable_consistent (m : Memory) (p : Breaks) (h8 : p.programBreak % 8 = 0) (s : Sys Heap)
    (h : library.Reachable SizeBound (start m p) s) :
    (∃ bs, Consistent s bs) ∧ ∀ c, Interface.Passable s c.argument → SizeBound s.heap c →
      ∃ r s', library.call c s = some (r, s') := by
  have hinv := reach_inv h8 h
  refine ⟨consistent_of_inv hinv, fun c hp hc => ?_⟩
  obtain ⟨r, s', hrun, -⟩ := hinv.call hp ⟨fun n hn => .inl (sound_of_le (hc n hn) _), False.elim⟩
  exact ⟨r, s', hrun⟩

/-- `malloc(24)`, `free` of its block, `malloc(17)`. -/
def reuse : List Event := [.call (.malloc 24), .call (.free 0x110008), .call (.malloc 17)]

theorem exists_of_any (es : List Event) {P : Sys Heap → Prop} [DecidablePred P]
    (h : (library.run SizeBound es (start (fun _ => 0) sampleBreaks)).any (fun s => P s) = true) :
    ∃ s, library.run SizeBound es (start (fun _ => 0) sampleBreaks) = some s ∧ P s := by
  cases hrun : library.run SizeBound es (start (fun _ => 0) sampleBreaks) with
  | none => rw [hrun] at h; cases h
  | some s => exact ⟨s, rfl, by simpa [hrun] using h⟩

/-- The runs of the theorem are there: one with a reused block is. -/
theorem reuse_consistent : ∃ s, s.live = [⟨0x110008, 17, .user⟩] ∧ (∃ bs, Consistent s bs) ∧
    ∀ c, Interface.Passable s c.argument → SizeBound s.heap c → ∃ r s', library.call c s = some (r, s') := by
  obtain ⟨s, hrun, hlive⟩ := exists_of_any reuse (P := fun s => s.live = [⟨0x110008, 17, .user⟩])
    (by decide +kernel)
  have hreach := Interface.reachable_of_run hrun
  exact ⟨s, hlive, reachable_consistent _ _ (by decide) s hreach⟩

/-- As long as no allocation has run `init`, `last_valid_address` is not the program break. -/
theorem unused_heap_end : ∃ s, library.Reachable SizeBound (start (fun _ => 0) sampleBreaks) s ∧
    sampleBreaks.programBreak % 8 = 0 ∧ s.heap.lastValidAddress ≠ s.heap.breaks.programBreak := by
  obtain ⟨s, hrun, hne⟩ := exists_of_any [.call (.malloc 0), .call .defrag, .call .heapInfo]
    (P := fun s => s.heap.lastValidAddress ≠ s.heap.breaks.programBreak) (by decide +kernel)
  exact ⟨s, Interface.reachable_of_run hrun, by decide, hne⟩

/-- What a library call that replies `r` does to the data of the program. -/
structure DataKept (c : Call) (r : Reply (Int × HeapInfo)) (s s' : Sys Heap) : Prop where
  frame : ∀ l ∈ s.live, l ∈ s'.live → (∀ n, c ≠ .realloc l.ptr n) → library.SameBytes l s.heap s'.heap
  calloc_zero : ∀ num sz q, c = .calloc num sz → r = .pointer q → q ≠ null →
    ∀ i, i < num * sz → s'.heap.mem (q + i) = 0
  realloc_prefix : ∀ q n, ∀ l ∈ s.live, c = .realloc l.ptr n → r = .pointer q → q ≠ null →
    ∀ i, i < min l.req n → s'.heap.mem (q + i) = s.heap.mem (l.ptr + i)
  realloc_null : ∀ n, n ≠ 0 → ∀ l ∈ s.live, c = .realloc l.ptr n → r = .pointer null →
    l ∈ s'.live ∧ library.SameBytes l s.heap s'.heap

theorem dataKept_of_inv {K : Contract library} {c : Call} {r : Reply (Int × HeapInfo)} {s' : Sys Heap}
    (hs : K.Inv s) (hrun : library.call c s = some (r, s'))
    (hkept : ∀ l ∈ s.live, released c r l = false → l ∈ s'.live ∧ library.SameBytes l s.heap s'.heap)
    (hcontents : library.Contents K.Owns c r s.heap s'.heap) : DataKept c r s s' where
  frame := by
    intro l hl hl' hne
    refine (hkept l hl ?_).2
    cases c with
    | malloc | calloc | defrag | heapInfo => rfl
    | realloc p n =>
        have hptr : l.ptr ≠ p := fun he => hne n (by rw [he])
        simp [released, Call.argument, hptr]
    | free p =>
        obtain ⟨rfl, rfl⟩ : Reply.done = r ∧ _ = s' := by
          simpa only [Interface.call, library, exec, Option.bind_some, Option.some.injEq, Prod.mk.injEq] using hrun
        have hmem := (List.mem_filter.mp (show l ∈ s.live.filter _ from hl')).2
        rwa [Bool.not_eq_true'] at hmem
  calloc_zero := by
    rintro num sz q rfl rfl hq
    exact hcontents hq
  realloc_prefix := by
    rintro q n l hl rfl rfl hq
    exact hcontents (K.ptr_ne_zero hs.wf (hs.owns l hl)) hq l (hs.owns l hl) rfl
  realloc_null := by
    rintro n hn l hl rfl rfl
    exact hkept l hl (by simp [released, ends, hn, null])

theorem calls_keep_data (m : Memory) (p : Breaks) (h8 : p.programBreak % 8 = 0) (s : Sys Heap)
    (h : library.Reachable SizeBound (start m p) s) (c : Call) (hp : Interface.Passable s c.argument)
    (hc : SizeBound s.heap c) : ∃ r s', library.call c s = some (r, s') ∧ DataKept c r s s' := by
  have hinv := reach_inv h8 h
  obtain ⟨r, s', hrun, -, hkept, hcontents⟩ := hinv.call hp ⟨fun n hn => .inl (sound_of_le (hc n hn) _), False.elim⟩
  exact ⟨r, s', hrun, dataKept_of_inv hinv hrun hkept hcontents⟩

theorem reuse_keeps_data : ∃ s, s.live = [⟨0x110008, 17, .user⟩] ∧
    ∃ r s', library.call (.realloc 0x110008 40) s = some (r, s') ∧ DataKept (.realloc 0x110008 40) r s s' := by
  obtain ⟨s, hrun, hlive⟩ := exists_of_any reuse (P := fun s => s.live = [⟨0x110008, 17, .user⟩])
    (by decide +kernel)
  exact ⟨s, hlive, calls_keep_data _ _ (by decide) s (Interface.reachable_of_run hrun) _
    (.inr ⟨⟨0x110008, 17, .user⟩, by rw [hlive]; exact List.mem_cons_self, rfl⟩) fun n hn => by cases hn; decide⟩

section Slop

/-- The header of a live allocation. -/
def headerOfAlloc (s : Heap) (l : Alloc) : BlockHeader := headerAt s.mem (l.ptr - 8)

theorem Owns.header (h : Owns E s.heap l) :
    l.req + 8 + (headerOfAlloc s.heap l).slop ≤ (headerOfAlloc s.heap l).size ∧
      (E → l.req + 8 + (headerOfAlloc s.heap l).slop = (headerOfAlloc s.heap l).size) := by
  obtain ⟨bs, a, b, hwf, hb, hl⟩ := h
  have hheader : headerOfAlloc s.heap l = b := by
    rw [headerOfAlloc, hl.ptr, Nat.add_sub_cancel]
    exact hwf.header hb
  rw [hheader]
  exact ⟨hl.room, hl.filled⟩

/-- Every live allocation of the program is in the arrays of a report. -/
theorem listed_of_owns {s s' : Heap} {info : HeapInfo} {bs bs' : List BlockHeader} (hwf : WellFormed s bs)
    (hlisted : Listed s bs info s' bs') (hl : Owns True s l) (huser : l.kind = .user) :
    (l.req, l.ptr) ∈ WordArray.slice s'.mem info.sizeArray info.ptrArray 0 info.numAllocs := by
  obtain ⟨a, b, hb, hholds⟩ := hl.block hwf
  obtain ⟨-, -, -, -, -, -, -, -, -, hperm, -⟩ := hlisted
  have hused : (a, b) ∈ usedBlocks s bs := mem_usedBlocks.mpr ⟨hb, by rw [hholds.state, huser]; rfl⟩
  have hentry : entry (a, b) = (l.req, l.ptr) := by
    have hptr := hholds.ptr
    have hfilled := hholds.filled trivial
    have hbd := hwf.bounds hb
    have hlast := hwf.last_lt
    simp only [entry, usable, payloadOf, sizeofHeader, Prod.mk.injEq]
    omega
  exact hperm.mem_iff.mpr (hentry ▸ List.mem_map_of_mem hused)

/-- `slop` is exact in every state of a run that never reuses a whole block for
a rounded size, and so are the sizes that `heap_info` reports. -/
theorem slop_exact (m : Memory) (p : Breaks) (h8 : p.programBreak % 8 = 0) (s : Sys Heap)
    (h : library.Reachable SlopFits (start m p) s) (l : Alloc) (hl : l ∈ s.live) (huser : l.kind = .user) :
    usable (headerOfAlloc s.heap l) = l.req ∧
      ∀ info s', heapInfo s.heap = some (0, info, s') →
        (l.req, l.ptr) ∈ WordArray.slice s'.mem info.sizeArray info.ptrArray 0 info.numAllocs := by
  have hinv := reach_inv_exact h8 h
  obtain ⟨bs, hwf⟩ := hinv.wf
  have hown := hinv.owns l hl
  constructor
  · have hfilled := hown.header.2 trivial
    have hsize : (headerOfAlloc s.heap l).size < 256 ^ 4 := readLE_lt _ _ _
    simp only [usable, sizeofHeader]
    omega
  · intro info s' hrun
    obtain ⟨ret, info', t, bs', hrun', hres⟩ := heapInfo_spec hwf hown.initialized
    obtain ⟨rfl, rfl, rfl⟩ : ret = 0 ∧ info' = info ∧ t = s' := by
      simpa [hrun'] using hrun
    rcases hres.cases with ⟨hret, -⟩ | ⟨-, hnum, ⟨hzero, -, -⟩ | hlisted⟩
    · cases hret
    · obtain ⟨a, b, hb, hholds⟩ := hown.block hwf
      have hused : (a, b) ∈ usedBlocks s.heap bs := mem_usedBlocks.mpr ⟨hb, by rw [hholds.state, huser]; rfl⟩
      rw [List.eq_nil_of_length_eq_zero (hnum.symm.trans hzero)] at hused
      cases hused
    · exact listed_of_owns hwf hlisted hown huser

theorem first_slop_exact : ∃ s : Sys Heap, (∃ l ∈ s.live, l.req = 17 ∧ usable (headerOfAlloc s.heap l) = 17) ∧
    ∃ l ∈ s.live, ∀ info s', heapInfo s.heap = some (0, info, s') →
      (17, l.ptr) ∈ WordArray.slice s'.mem info.sizeArray info.ptrArray 0 info.numAllocs := by
  obtain ⟨s, hrun, hlive⟩ := exists_of_any [.call (.malloc 17)]
    (P := fun s => s.live = [⟨0x110008, 17, .user⟩]) (by decide +kernel)
  have hstep : library.step (start (fun _ => 0) sampleBreaks) (.call (.malloc 17)) = some s := by
    obtain ⟨t, ht, hrest⟩ := Option.bind_eq_some_iff.mp
      ((if_pos (by decide)).symm.trans hrun : (library.step _ _).bind (library.run SizeBound []) = some s)
    rw [ht]
    exact hrest
  have hreach : library.Reachable SlopFits (start (fun _ => 0) sampleBreaks) s := by
    refine .single ⟨.call (.malloc 17), ⟨.inl rfl, fun n hn => ?_, fun n hn bs hwf => .inr fun b hb => ?_⟩, hstep⟩
    · cases hn
      decide
    · rw [hwf.blocks_nil rfl] at hb
      cases hb
  have hmem : (⟨0x110008, 17, .user⟩ : Alloc) ∈ s.live := by
    rw [hlive]
    exact List.mem_cons_self
  exact ⟨s, ⟨_, hmem, rfl, (slop_exact _ _ (by decide) s hreach _ hmem rfl).1⟩,
    ⟨_, hmem, (slop_exact _ _ (by decide) s hreach _ hmem rfl).2⟩⟩

/-- The condition on one step is sharp. -/
theorem malloc_slop_iff {s s' : Heap} {bs : List BlockHeader} {n p : Nat} (h : WellFormed s bs)
    (hle : n ≤ 2 ^ 63 - 16) (hrun : malloc n s = some (p, s')) (hp : p ≠ null) :
    usable (headerAt s'.mem (p - 8)) = n ↔ ExactFit n bs := by
  have hn : n ≠ 0 := by
    rintro rfl
    simp only [malloc, if_true, Option.some.injEq, Prod.mk.injEq] at hrun
    exact hp hrun.1.symm
  obtain ⟨p', t, bs', hrun', hres, hexact⟩ := malloc_spec h hn (sound_of_le hle s)
  obtain ⟨rfl, rfl⟩ : p' = p ∧ t = s' := by simpa [hrun'] using hrun
  rcases hres.cases with ⟨hnull, -⟩ | ⟨a, b, rfl, hnew⟩
  · exact absurd hnull hp
  · have hheader := hres.wellFormed.header hnew.at_new
    have hbd := hres.wellFormed.bounds hnew.at_new
    have hlast := hres.wellFormed.last_lt
    have hroom := hnew.room
    rw [hexact a b rfl hnew.at_new, Nat.add_sub_cancel, hheader]
    simp only [usable, sizeofHeader]
    omega

/-- The reused block keeps 24 bytes for a request of 17, and its slop byte is 0. -/
theorem reuse_loses_padding : ∃ s, library.Reachable SizeBound (start (fun _ => 0) sampleBreaks) s ∧
    ∃ l ∈ s.live, l.kind = .user ∧ usable (headerOfAlloc s.heap l) ≠ l.req := by
  obtain ⟨s, hrun, hne⟩ := exists_of_any reuse
    (P := fun s => ∃ l ∈ s.live, l.kind = .user ∧ usable (headerOfAlloc s.heap l) ≠ l.req) (by decide +kernel)
  exact ⟨s, Interface.reachable_of_run hrun, hne⟩

end Slop

end WeensyOS.CMalloc
