import WeensyOS.RustMalloc.HeapInfo

namespace WeensyOS.RustMalloc

open ByteMemory LibC ProgramBreak Tiling Tiling.Layout Allocator BlockHeap

def exec : Call → Heap → Option (Reply (Int × HeapInfo) × Heap)
  | .malloc n, s => (malloc n s).bind fun (p, s) => some (.pointer p, s)
  | .calloc num sz, s => (calloc num sz s).bind fun (p, s) => some (.pointer p, s)
  | .realloc p n, s => (realloc p n s).bind fun (q, s) => some (.pointer q, s)
  | .free p, s => some (.done, free p s)
  | .defrag, s => (defrag s).bind fun s => some (.done, s)
  | .heapInfo, s => (heapInfo s).bind fun (ret, info, s) => some (.info (ret, info), s)

def library : Interface Heap (Int × HeapInfo) where
  exec := exec
  mem := Heap.mem
  store a v s := { s with mem := Function.update s.mem a v }
  arrays := fun (_, info) =>
    if info.sizeArray = 0 then []
    else [⟨info.sizeArray, 8 * info.numAllocs.toNat, .library⟩, ⟨info.ptrArray, 8 * info.numAllocs.toNat, .library⟩]

def stateOf : Kind → BlockState
  | .user => .used
  | .library => .internal

theorem stateOf_busy (k : Kind) : (stateOf k).code ≠ BlockState.free.code := by cases k <;> decide

/-- The heaps of the library, presented as regions of blocks. -/
def presentation : Presentation library Header where
  F := format
  start := Heap.heapStart
  stop := Heap.heapEnd
  WF := WellFormed
  region := WellFormed.region
  start_store _ _ _ := rfl
  wf_store h hr := h.withMem hr
  holds l b := b.state = (stateOf l.kind).code ∧ l.req + 16 ≤ b.size
  room h := h.2
  busy {l _} h := fun hfree => stateOf_busy l.kind (h.1.symm.trans hfree)

/-- The calls whose size or product is below 2^62. -/
def SizeBound (_ : Heap) (c : Call) : Prop := ∀ n, c.request = some n → n < 2 ^ 62

variable {s s' : Heap} {bs bs' : List Header} {a n num sz p : Nat} {b : Header}

theorem sound_of_lt (h : n < 2 ^ 62) (s : Heap) : Sound n s := by
  have hlt := s.breaks.lt_limit
  simp only [Sound, pageCeil, needed]
  omega

/-- The calls that do not wrap. -/
def Admits (s : Heap) (c : Call) : Prop := ∀ n, c.request = some n → Sound n s ∨ c.Overflows

theorem admits_of_bound {c : Call} (h : SizeBound s c) : Admits s c := fun n hn => .inl (sound_of_lt (h n hn) s)

abbrev WF (s : Heap) : Prop := ∃ bs, WellFormed s bs

abbrev Owns : Heap → Alloc → Prop := presentation.Owns

theorem Owns.located {l : Alloc} (hl : Owns s l) (hwf : WellFormed s bs) (hp : l.ptr = p) :
    ∃ a b, p = a + 16 ∧ s.At bs a b ∧ b.state = (stateOf l.kind).code ∧ l.req + 16 ≤ b.size := by
  obtain ⟨a, b, hb, hptr, hholds⟩ := Presentation.Owns.block hl hwf
  exact ⟨a, b, hp.symm.trans hptr, hb, hholds⟩

theorem Result.meets {c : Call} {P : Nat → Header → Prop} (hwf : WellFormed s bs) (h : Result P n s bs p s' bs')
    (hc : c.request = some n)
    (hP : ∀ l a b, l.ptr = a + 16 → presentation.holds l b →
      released c (.pointer p : Reply (Int × HeapInfo)) l = false → P a b)
    (hcontents : library.Contents Owns c (.pointer p) s s') :
    library.Meets WF Owns c s (.pointer p) s' :=
  Presentation.meets_pointer (R := presentation) hwf h.wellFormed h.keeps h.fresh hc
    (fun _ hb => hb) hP hcontents

theorem malloc_meets (hwf : WellFormed s bs) (ha : Admits s (.malloc n)) :
    ∃ r s', exec (.malloc n) s = some (r, s') ∧ library.Meets WF Owns (.malloc n) s r s' := by
  by_cases hn : n = 0
  · subst hn
    exact ⟨.pointer 0, s, rfl, Presentation.meets_null (R := presentation) hwf⟩
  · obtain ⟨p, s', bs', hrun, hres⟩ := malloc_spec hwf hn ((ha n rfl).resolve_right id)
    exact ⟨.pointer p, s', by rw [exec, hrun]; rfl,
      hres.meets hwf rfl (fun l a b _ hl _ => presentation.busy hl) trivial⟩

theorem calloc_meets (hwf : WellFormed s bs) (ha : Admits s (.calloc num sz)) :
    ∃ r s', exec (.calloc num sz) s = some (r, s') ∧ library.Meets WF Owns (.calloc num sz) s r s' := by
  by_cases hzero : num = 0 ∨ sz = 0
  · exact ⟨.pointer 0, s, by simp only [exec, calloc, if_pos hzero, Option.bind_some],
      Presentation.meets_null (R := presentation) hwf⟩
  · obtain ⟨hnum, hsz⟩ := not_or.mp hzero
    rcases ha _ rfl with hsound | hover
    case inr =>
      exact ⟨.pointer 0, s, by rw [exec, calloc_overflow hnum hsz hover]; rfl,
        Presentation.meets_null (R := presentation) hwf⟩
    obtain ⟨p, s', bs', hrun, hres, hcontents⟩ := calloc_spec hwf hnum hsz hsound
    exact ⟨.pointer p, s', by rw [exec, hrun]; rfl,
      hres.meets hwf rfl (fun l a b _ hl _ => presentation.busy hl) hcontents⟩

theorem free_located (hwf : WellFormed s bs) (hp : p = 0 ∨ ∃ l, Owns s l ∧ l.ptr = p) :
    p = 0 ∨ ∃ a b, p = a + 16 ∧ s.At bs a b := by
  refine hp.imp_right fun ⟨l, hl, hptr⟩ => ?_
  obtain ⟨a, b, ha, hb, -⟩ := Owns.located hl hwf hptr
  exact ⟨a, b, ha, hb⟩

theorem free_meets (hwf : WellFormed s bs) (hp : p = 0 ∨ ∃ l, Owns s l ∧ l.ptr = p) :
    library.Meets WF Owns (.free p) s .done (free p s) := by
  obtain ⟨bs', hwf', hkeeps, -⟩ := free_keeps hwf (free_located hwf hp)
  refine Presentation.meets_done (R := presentation) hwf hwf' hkeeps fun l a b hptr _ hrel he => ?_
  simp [released, ends, Call.argument, hptr, presentation, he] at hrel

theorem realloc_none (n : Nat) (s : Heap) : realloc 0 n s = malloc n s := if_pos rfl

theorem realloc_meets (hwf : WellFormed s bs) (hp : p = 0 ∨ ∃ l, Owns s l ∧ l.ptr = p)
    (ha : Admits s (.realloc p n)) :
    ∃ r s', exec (.realloc p n) s = some (r, s') ∧ library.Meets WF Owns (.realloc p n) s r s' := by
  by_cases hp0 : p = 0
  · subst hp0
    by_cases hn : n = 0
    · subst hn
      exact ⟨.pointer 0, s, rfl, Presentation.meets_null (R := presentation) hwf⟩
    · obtain ⟨q, s', bs', hrun, hres⟩ := malloc_spec hwf hn ((ha n rfl).resolve_right id)
      exact ⟨.pointer q, s', by rw [exec, realloc_none, hrun]; rfl,
        hres.meets hwf rfl (fun l a b _ hl _ => presentation.busy hl) fun h0 => absurd rfl h0⟩
  · obtain ⟨l, hl, hptr⟩ := hp.resolve_left hp0
    obtain ⟨a, b, rfl, hb, hstate, hroom⟩ := Owns.located hl hwf hptr
    have hbusy : busy a b := fun hfree => stateOf_busy l.kind (hstate.symm.trans hfree)
    by_cases hn : n = 0
    · subst hn
      obtain ⟨bs', hwf', hkeeps, -⟩ := free_keeps hwf (.inr ⟨a, b, rfl, hb⟩)
      have hkeeps' : presentation.Keeps (fun a' _ => a' + 16 ≠ a + 16 ∧ a' + 16 ≠ 0) s bs (free (a + 16) s) bs' :=
        hkeeps.mono fun a' b' hP => hP.1
      have hnone : presentation.Fresh (fun _ => False) s bs 0 (free (a + 16) s) bs' := .inl rfl
      refine ⟨.pointer 0, free (a + 16) s, by simp [exec, realloc], Presentation.meets_pointer hwf hwf' hkeeps' hnone rfl
        (fun _ hf => hf.elim) (fun l a' b' hptr _ hrel he => ?_) fun _ h0 => absurd rfl h0⟩
      simp [released, ends, Call.argument, hptr, presentation, he] at hrel
    · obtain ⟨q, s', bs', hrun, hres, hold⟩ := realloc_spec hwf hb hbusy hn ((ha n rfl).resolve_right id)
      refine ⟨.pointer q, s', by rw [exec, hrun]; rfl,
        hres.meets hwf rfl (fun l' a' b' hptr' hl' hrel => ⟨presentation.busy hl', fun hq he => ?_⟩) ?_⟩
      · simp [released, ends, Call.argument, hptr', he, hq] at hrel
      · intro _ hq l' hl' hptr' i hi
        obtain ⟨a', b', ha', hb', -, hroom'⟩ := Owns.located hl' hwf hptr'
        obtain rfl : a' = a := by omega
        rw [hwf.region.unique hb' hb] at hroom'
        obtain ⟨hi, hi'⟩ := Nat.lt_min.mp hi
        exact hold hq i (by omega) hi'

theorem defrag_meets (hwf : WellFormed s bs) :
    ∃ r s', exec .defrag s = some (r, s') ∧ library.Meets WF Owns .defrag s r s' := by
  obtain ⟨s', hrun, hwf', hkeeps, -⟩ := defrag_spec hwf
  exact ⟨.done, s', by rw [exec, hrun]; rfl, Presentation.meets_done (R := presentation) hwf hwf' hkeeps
    fun l a b _ hl _ => presentation.busy hl⟩

theorem MetaBlock.owned (hwf : WellFormed s bs) (hwf' : WellFormed s' bs') (h : MetaBlock n s bs s' bs' a b) :
    Owns s' ⟨a + 16, 8 * n, .library⟩ ∧ ∀ l, Owns s l → l.ptr ≠ a + 16 := by
  refine ⟨⟨bs', a, b, hwf', h.at_block, rfl, h.internal, h.room⟩, fun l hl he => ?_⟩
  obtain ⟨a', b', ha', hb', hstate, -⟩ := Owns.located hl hwf he
  obtain rfl : a' = a := by omega
  exact h.fresh b' hb' fun hfree => stateOf_busy l.kind (hstate.symm.trans hfree)

theorem heapInfo_meets (hwf : WellFormed s bs) :
    ∃ r s', exec .heapInfo s = some (r, s') ∧ library.Meets WF Owns .heapInfo s r s' := by
  obtain ⟨ret, info, s', bs', hrun, hres⟩ := heapInfo_spec hwf
  have hrun' : exec .heapInfo s = some (.info (ret, info), s') := by
    rw [exec, hrun]
    rfl
  have hkept (l : Alloc) (hl : Owns s l) (h₁ : l.ptr ≠ info.sizeArray) (h₂ : l.ptr ≠ info.ptrArray) :
      Owns s' l ∧ library.SameBytes l s s' := by
    refine Presentation.Owns.keep hl hwf hres.wellFormed hres.keeps fun a b _ hptr hb => ⟨presentation.busy hb, ?_, ?_⟩
    · exact fun he => h₁ (hptr.trans he)
    · exact fun he => h₂ (hptr.trans he)
  refine ⟨.info (ret, info), s', hrun', ?_⟩
  have hempty (hs : info.sizeArray = 0) (hp : info.ptrArray = 0) :
      library.Meets WF Owns .heapInfo s (.info (ret, info)) s' := by
    have hmade : library.made .heapInfo (.info (ret, info)) = [] := if_pos hs
    refine ⟨⟨bs', hres.wellFormed⟩, fun l hl => ?_, ?_, fun l hl _ => ?_, trivial⟩
    · rw [hmade] at hl
      cases hl
    · rw [hmade]
      exact .nil
    · have hne := Presentation.Owns.ptr_ne_zero hl
      exact hkept l hl (by rwa [hs]) (by rwa [hp])
  rcases hres.cases with ⟨-, rfl⟩ | ⟨-, hnum, ⟨-, hs, hp⟩ | ⟨a₁, b₁, a₂, b₂, hs, hp, hne, h₁, h₂, -, -⟩⟩
  · exact hempty rfl rfl
  · exact hempty hs hp
  · have hmade : library.made .heapInfo (.info (ret, info)) =
        [⟨a₁ + 16, 8 * (usedBlocks s bs).length, .library⟩, ⟨a₂ + 16, 8 * (usedBlocks s bs).length, .library⟩] := by
      have hnat : info.numAllocs.toNat = (usedBlocks s bs).length := by rw [hnum, Int.toNat_natCast]
      rw [← hs, ← hp, ← hnat]
      exact if_neg (by rw [hs]; exact Nat.succ_ne_zero _)
    have hown₁ := h₁.owned hwf hres.wellFormed
    have hown₂ := h₂.owned hwf hres.wellFormed
    refine ⟨⟨bs', hres.wellFormed⟩, fun l hl => ?_, ?_, fun l hl _ => ?_, trivial⟩
    · rw [hmade] at hl
      rcases List.mem_pair.mp hl with rfl | rfl
      · exact hown₁
      · exact hown₂
    · rw [hmade]
      apply List.pairwise_pair.mpr
      simp only
      omega
    · exact hkept l hl (by rw [hs]; exact hown₁.2 l hl) (by rw [hp]; exact hown₂.2 l hl)

/-- The Rust library is an allocator. -/
def contract : Contract library where
  Admits := Admits
  WF := WF
  Owns := Owns
  ptr_ne_zero _ hl := Presentation.Owns.ptr_ne_zero hl
  apart := fun ⟨_, hwf⟩ hl hl' hne => Presentation.Owns.apart hwf hl hl' hne
  exec_ok := by
    rintro s c ⟨bs, hwf⟩ hp ha
    cases c with
    | malloc n => exact malloc_meets hwf ha
    | calloc num sz => exact calloc_meets hwf ha
    | realloc p n => exact realloc_meets hwf hp ha
    | free p => exact ⟨_, _, rfl, free_meets hwf hp⟩
    | defrag => exact defrag_meets hwf
    | heapInfo => exact heapInfo_meets hwf
  store_ok := fun ⟨bs, hwf⟩ hl hx hx' =>
    have h := Presentation.store_owned (R := presentation) hwf hl hx hx'
    ⟨⟨bs, h.1⟩, h.2⟩

end WeensyOS.RustMalloc
