import WeensyOS.RustMalloc.Contract

namespace WeensyOS.RustMalloc

open ByteMemory LibC ProgramBreak Tiling Tiling.Layout Allocator BlockHeap

/-- A process that has not called the library yet; the statics are zero. -/
def start (m : Memory) (p : Breaks) : Sys Heap := ⟨⟨m, 0, 0, p⟩, []⟩

instance (s : Heap) (c : Call) : Decidable (SizeBound s c) :=
  match h : c.request with
  | none => isTrue fun n hn => by rw [h] at hn; cases hn
  | some k => decidable_of_iff (k < 2 ^ 62) ⟨fun hk n hn => by rw [h] at hn; cases hn; exact hk, fun hk => hk k h⟩

variable {m : Memory} {p : Breaks} {s s' : Sys Heap}

theorem start_inv (m : Memory) (h8 : p.programBreak % 8 = 0) (hpos : 0 < p.programBreak) :
    contract.Inv (start m p) where
  wf := ⟨[], ⟨rfl, by simp⟩, fun h0 => absurd rfl h0, fun _ => rfl, Nat.dvd_of_mod_eq_zero h8, hpos⟩
  owns := by simp [start]
  distinct := .nil

theorem reach_inv (h8 : p.programBreak % 8 = 0) (hpos : 0 < p.programBreak)
    (h : library.Reachable SizeBound (start m p) s) : contract.Inv s :=
  (start_inv m h8 hpos).run (h.mono fun _ _ => admits_of_bound)

/-- The blocks reached from `HEAP_START` tile the heap up to the program break, and
the live allocations lie in different ones of these blocks. -/
structure Consistent (s : Sys Heap) (bs : List Header) : Prop where
  walk : format.Tiles s.heap.mem s.heap.heapStart bs s.heap.heapEnd
  end_eq : s.heap.heapStart ≠ 0 → s.heap.heapEnd = s.heap.breaks.programBreak
  unused : s.heap.heapStart = 0 → s.heap.heapEnd = 0 ∧ bs = [] ∧ s.live = []
  headers : ∀ b ∈ bs, (∃ st : BlockState, b.state = st.code) ∧ b.size % 8 = 0 ∧ headerSize ≤ b.size
  live : ∀ l ∈ s.live, l.ptr % 8 = 0 ∧ headerSize ≤ l.ptr ∧
    ∃ b, s.heap.At bs (l.ptr - headerSize) b ∧ b.state ≠ BlockState.free.code ∧ l.req + headerSize ≤ b.size
  disjoint : s.live.Pairwise fun l l' =>
    ∀ b b', s.heap.At bs (l.ptr - headerSize) b → s.heap.At bs (l'.ptr - headerSize) b' →
      l.ptr - headerSize + b.size ≤ l'.ptr - headerSize ∨ l'.ptr - headerSize + b'.size ≤ l.ptr - headerSize

theorem consistent_of_inv (h : contract.Inv s) : ∃ bs, Consistent s bs := by
  obtain ⟨bs, hwf⟩ := h.wf
  have hblock (l : Alloc) (hl : l ∈ s.live) :
      ∃ a b, l.ptr = a + 16 ∧ s.heap.At bs a b ∧ b.state = (stateOf l.kind).code ∧ l.req + 16 ≤ b.size :=
    Owns.located (h.owns l hl) hwf rfl
  refine ⟨bs, hwf.region.tiles, hwf.end_eq, fun h0 => ⟨hwf.unused h0, hwf.blocks_nil h0, ?_⟩, fun b hb => ?_,
    fun l hl => ?_, ?_⟩
  · refine List.eq_nil_iff_forall_not_mem.mpr fun l hl => ?_
    obtain ⟨a, b, -, hb, -⟩ := hblock l hl
    rw [hwf.blocks_nil h0] at hb
    exact hb.elim
  · have hv := hwf.region.valid b hb
    exact ⟨hv.state, Nat.mod_eq_zero_of_dvd hv.size_dvd, hv.size_ge⟩
  · obtain ⟨a, b, hptr, hb, hstate, hroom⟩ := hblock l hl
    have hdvd := hwf.address_dvd hb
    have ha : l.ptr - headerSize = a := by rw [hptr]; rfl
    rw [ha]
    refine ⟨by omega, by rw [hptr]; exact Nat.le_add_left _ _, b, hb, ?_, hroom⟩
    rw [hstate]
    exact stateOf_busy l.kind
  · refine h.distinct.imp_of_mem fun {l l'} hl hl' hne b b' hb hb' => ?_
    obtain ⟨a, -, hptr, -⟩ := hblock l hl
    obtain ⟨a', -, hptr', -⟩ := hblock l' hl'
    rcases At.disjoint hb hb' with hd | hd | hd
    · simp only [headerSize] at hd
      omega
    · exact .inl hd
    · exact .inr hd

/-- What a call that replies `r` does to the data of the program. -/
structure DataKept (c : Call) (r : Reply (Int × HeapInfo)) (s s' : Sys Heap) : Prop where
  frame : ∀ l ∈ s.live, l.ptr ≠ c.argument → l ∈ s'.live ∧ library.SameBytes l s.heap s'.heap
  calloc_zero : ∀ num sz q, c = .calloc num sz → r = .pointer q → q ≠ 0 → ∀ i, i < num * sz → s'.heap.mem (q + i) = 0
  realloc_prefix : ∀ q n, ∀ l ∈ s.live, c = .realloc l.ptr n → r = .pointer q → q ≠ 0 →
    ∀ i, i < min l.req n → s'.heap.mem (q + i) = s.heap.mem (l.ptr + i)

/-- Every run keeps the heap consistent, and every further allowed call returns
and leaves the data of the other live allocations alone. -/
theorem runs_meet_contract (m : Memory) (p : Breaks) (h8 : p.programBreak % 8 = 0) (hpos : 0 < p.programBreak)
    (s : Sys Heap) (h : library.Reachable SizeBound (start m p) s) :
    (∃ bs, Consistent s bs) ∧ ∀ c, Interface.Passable s c.argument → SizeBound s.heap c →
      ∃ r s', library.call c s = some (r, s') ∧ DataKept c r s s' := by
  have hinv := reach_inv h8 hpos h
  refine ⟨consistent_of_inv hinv, fun c hp hc => ?_⟩
  obtain ⟨r, s', hrun, -, hkept, hcontents⟩ := hinv.call hp (admits_of_bound hc)
  refine ⟨r, s', hrun, fun l hl hne => hkept l hl ?_, ?_, ?_⟩
  · simp [released, hne]
  · rintro num sz q rfl rfl hq
    exact hcontents hq
  · rintro q n l hl rfl rfl hq
    exact hcontents (contract.ptr_ne_zero hinv.wf (hinv.owns l hl)) hq l (hinv.owns l hl) rfl

theorem reuse_meets_contract : ∃ s : Sys Heap, s.live = [⟨0x110010, 17, .user⟩] ∧ (∃ bs, Consistent s bs) ∧
    ∀ c, Interface.Passable s c.argument → SizeBound s.heap c →
      ∃ r s', library.call c s = some (r, s') ∧ DataKept c r s s' := by
  obtain ⟨s, hreach, hlive⟩ := Interface.reachable_of_any (A := library) SizeBound
    (start (fun _ => 0) sampleBreaks)
    [.call (.malloc 24), .call (.free 0x110010), .call (.malloc 17)]
    (P := fun s => s.live = [⟨0x110010, 17, .user⟩]) (by decide +kernel)
  exact ⟨s, hlive, runs_meet_contract _ _ (by decide) (by decide) s hreach⟩

/-- Before the first call that sets the bounds `HEAP_END` is not the program
break; and a heap that started at address 0 would lose its blocks. -/
theorem unset_bounds :
    (∃ s, library.Reachable SizeBound (start (fun _ => 0) sampleBreaks) s ∧
      s.heap.heapEnd ≠ s.heap.breaks.programBreak) ∧
    ∃ s, library.Reachable SizeBound (start (fun _ => 0) ⟨0, 0, Nat.le_refl _, by decide⟩) s ∧
      ∃ l ∈ s.live, ∀ bs b, ¬s.heap.At bs (l.ptr - headerSize) b := by
  constructor
  · exact Interface.reachable_of_any _ _ [.call (.malloc 0), .call (.free 0)]
      (P := fun s : Sys Heap => s.heap.heapEnd ≠ s.heap.breaks.programBreak) (by decide +kernel)
  · obtain ⟨s, hreach, hmem, hstart⟩ := Interface.reachable_of_any (A := library) SizeBound
      (start (fun _ => 0) ⟨0, 0, Nat.le_refl _, by decide⟩) [.call (.malloc 8), .call (.malloc 8)]
      (P := fun s => ⟨16, 8, .user⟩ ∈ s.live ∧ 0 < s.heap.heapStart) (by decide +kernel)
    refine ⟨s, hreach, _, hmem, fun bs b hb => ?_⟩
    have hbd := At.bounds hb
    simp only [headerSize] at hbd
    omega

end WeensyOS.RustMalloc
