import WeensyOS.CMalloc.Report
import WeensyOS.Lib.Allocator

namespace WeensyOS.CMalloc

open ByteMemory LibC ProgramBreak Tiling Tiling.Layout Allocator

def exec : Call → Heap → Option (Reply (Int × HeapInfo) × Heap)
  | .malloc n, s => (malloc n s).bind fun (p, s) => some (.pointer p, s)
  | .calloc num sz, s => (calloc num sz s).bind fun (p, s) => some (.pointer p, s)
  | .realloc p n, s => (realloc p n s).bind fun (q, s) => some (.pointer q, s)
  | .free p, s => some (.done, free p s)
  | .defrag, s => (defrag s).bind fun s => some (.done, s)
  | .heapInfo, s => (heapInfo s).bind fun (ret, info, s) => some (.info (ret, info), s)

def library : Interface Heap (Int × HeapInfo) where
  exec := exec
  mem := Heap.mem
  store a v s := { s with mem := Function.update s.mem a v }
  arrays := fun (_, info) =>
    if info.sizeArray = null then []
    else [⟨info.sizeArray, 8 * info.numAllocs, .library⟩, ⟨info.ptrArray, 8 * info.numAllocs, .library⟩]

def stateOf : Kind → BlockState
  | .user => .used
  | .library => .internal

/-- Block `b` at `a` holds the allocation `l`; with `E`, its slop byte is
all of the space that was not requested. -/
structure Holds (E : Prop) (l : Alloc) (a : Nat) (b : BlockHeader) : Prop where
  ptr : l.ptr = a + 8
  state : b.state = (stateOf l.kind).code
  room : l.req + 8 + b.slop ≤ b.size
  filled : E → l.req + 8 + b.slop = b.size

def Owns (E : Prop) (s : Heap) (l : Alloc) : Prop :=
  ∃ bs a b, WellFormed s bs ∧ s.At bs a b ∧ Holds E l a b

/-- The calls that do not wrap and, with `E`, that are an exact fit. -/
structure Admits (E : Prop) (s : Heap) (c : Call) : Prop where
  bound : ∀ n, c.request = some n → Sound n s ∨ c.Overflows
  fit : E → ∀ n, c.request = some n → ∀ bs, WellFormed s bs → ExactFit n bs

variable {E : Prop} {s s' : Heap} {bs bs' : List BlockHeader} {l l' : Alloc} {a n : Nat} {b : BlockHeader}

theorem Holds.busy (h : Holds E l a b) : busy a b := by
  rw [CMalloc.busy, h.state]
  cases l.kind <;> decide

theorem sound_of_le (h : n ≤ 2 ^ 63 - 16) (s : Heap) : Sound n s := by
  have hb := blockSize_eq n
  have hlt := s.breaks.lt_limit
  simp only [Sound]
  omega

theorem Owns.block (h : Owns E s l) (hwf : WellFormed s bs) : ∃ a b, s.At bs a b ∧ Holds E l a b := by
  obtain ⟨bs₁, a, b, hwf₁, hb, hl⟩ := h
  obtain rfl := hwf.blocks_unique hwf₁
  exact ⟨a, b, hb, hl⟩

theorem Owns.keep {P : Nat → BlockHeader → Prop} (h : Owns E s l) (hwf : WellFormed s bs)
    (hwf' : WellFormed s' bs') (hk : s.Keeps P bs s' bs')
    (hP : ∀ a b, s.At bs a b → Holds E l a b → P a b) : Owns E s' l ∧ library.SameBytes l s s' := by
  obtain ⟨a, b, hb, hl⟩ := h.block hwf
  have hPab := hP a b hb hl
  refine ⟨⟨bs', a, b, hwf', (hk.at_iff hPab).mp hb, hl⟩, fun i hi => ?_⟩
  have hptr := hl.ptr
  have hroom := hl.room
  exact hk.payload hPab hb (by omega) (by omega)

theorem Owns.ptr_ne {p : Nat} (h : Owns E s l) (hwf : WellFormed s bs)
    (hfresh : ∀ a c, p = a + 8 → s.At bs a c → c.state = BlockState.free.code) : l.ptr ≠ p := by
  obtain ⟨a, b, hb, hl⟩ := h.block hwf
  rintro rfl
  exact hl.busy (hfresh a b hl.ptr hb)

theorem Owns.apart (hwf : WellFormed s bs) (h : Owns E s l) (h' : Owns E s l') (hne : l.ptr ≠ l'.ptr) :
    l.ptr + l.req ≤ l'.ptr ∨ l'.ptr + l'.req ≤ l.ptr := by
  obtain ⟨a, b, hb, hl⟩ := h.block hwf
  obtain ⟨a', b', hb', hl'⟩ := h'.block hwf
  have hptr := hl.ptr
  have hptr' := hl'.ptr
  have hroom := hl.room
  have hroom' := hl'.room
  rcases At.disjoint hb hb' with hd | hd | hd
  · omega
  · simp only [layout_size] at hd
    omega
  · simp only [layout_size] at hd
    omega

theorem Owns.initialized (h : Owns E s l) : s.initialized = true := by
  obtain ⟨bs, a, b, hwf, hb, -⟩ := h
  by_contra hi
  obtain rfl := hwf.blocks_nil (by simpa using hi)
  exact hb.elim

theorem Result.meets {P : Nat → BlockHeader → Prop} {p : Nat} (hwf : WellFormed s bs)
    (hres : Result P n s bs p s' bs')
    (hfilled : E → ∀ a b, p = a + 8 → s'.At bs' a b → n + 8 + b.slop = b.size) :
    (∀ l ∈ (if p = 0 then [] else [⟨p, n, .user⟩] : List Alloc),
      Owns E s' l ∧ ∀ l', Owns E s l' → l'.ptr ≠ l.ptr) ∧
    (if p = 0 then [] else [⟨p, n, .user⟩] : List Alloc).Pairwise (fun l l' => l.ptr ≠ l'.ptr) ∧
    ∀ l, Owns E s l → (∀ a b, Holds E l a b → P a b) → Owns E s' l ∧ library.SameBytes l s s' := by
  have hfresh : ∀ a c, p = a + 8 → s.At bs a c → c.state = BlockState.free.code := by
    intro a c hp hc
    rcases hres.cases with ⟨hnull, -, -⟩ | ⟨a', b, hp', hnew⟩
    · rw [hnull, null] at hp
      omega
    · obtain rfl : a = a' := by omega
      exact hnew.fresh c hc
  refine ⟨fun l hl => ?_, ?_, fun l hl hP => ?_⟩
  · rcases hres.cases with ⟨hnull, -, -⟩ | ⟨a, b, rfl, hnew⟩
    · rw [hnull, null, if_pos rfl] at hl
      cases hl
    · rw [if_neg (by omega), List.mem_singleton] at hl
      subst hl
      exact ⟨⟨bs', a, b, hres.wellFormed, hnew.at_new, rfl, hnew.used, hnew.room,
        fun he => hfilled he a b rfl hnew.at_new⟩, fun l' hl' => hl'.ptr_ne hwf hfresh⟩
  · split
    next => exact .nil
    next => exact List.pairwise_singleton _ _
  · refine hl.keep hwf hres.wellFormed hres.keeps fun a b hb hl' => ⟨hP a b hl', fun he => ?_⟩
    exact hl'.busy (hfresh a b he.symm hb)

def WF (s : Heap) : Prop := ∃ bs, WellFormed s bs

theorem meets_null {c : Call} (hwf : WF s) (hend : ∀ l, Owns E s l → released c (.pointer null : Reply (Int × HeapInfo)) l = false) :
    library.Meets WF (Owns E) c s (.pointer null) s where
  wf := hwf
  made_owned := fun l hl => by cases hl
  made_distinct := .nil
  kept := fun l hl _ => ⟨hl, fun _ _ => rfl⟩
  contents := by cases c <;> simp [Interface.Contents, null]

theorem malloc_meets (hwf : WellFormed s bs) (ha : Admits E s (.malloc n)) :
    ∃ r s', exec (.malloc n) s = some (r, s') ∧ library.Meets WF (Owns E) (.malloc n) s r s' := by
  by_cases hn : n = 0
  · subst hn
    exact ⟨.pointer null, s, rfl, meets_null ⟨bs, hwf⟩ fun l _ => rfl⟩
  · obtain ⟨p, s', bs', hrun, hres, hfilled⟩ := malloc_spec hwf hn ((ha.bound n rfl).resolve_right id)
    obtain ⟨hmade, hdistinct, hkept⟩ := hres.meets (E := E) hwf fun he a b hp hb =>
      (hfilled a b hp hb).mp (ha.fit he n rfl bs hwf)
    exact ⟨.pointer p, s', by rw [exec, hrun]; rfl, ⟨bs', hres.wellFormed⟩, hmade, hdistinct,
      fun l hl _ => hkept l hl fun a b hb => hb.busy, trivial⟩

theorem calloc_meets {num sz : Nat} (hwf : WellFormed s bs) (ha : Admits E s (.calloc num sz)) :
    ∃ r s', exec (.calloc num sz) s = some (r, s') ∧ library.Meets WF (Owns E) (.calloc num sz) s r s' := by
  by_cases hzero : num = 0 ∨ sz = 0
  · exact ⟨.pointer null, s, by simp only [exec, calloc, if_pos hzero, Option.bind_some],
      meets_null ⟨bs, hwf⟩ fun l _ => rfl⟩
  · obtain ⟨hnum, hsz⟩ := not_or.mp hzero
    rcases ha.bound _ rfl with hsound | hover
    case inr =>
      exact ⟨.pointer null, s, by rw [exec, calloc_overflow hnum hsz hover]; rfl, meets_null ⟨bs, hwf⟩ fun l _ => rfl⟩
    obtain ⟨p, s', bs', hrun, hres, hcontents, hfilled⟩ := calloc_spec hwf hnum hsz hsound
    obtain ⟨hmade, hdistinct, hkept⟩ := hres.meets (E := E) hwf fun he a b hp hb =>
      (hfilled a b hp hb).mp (ha.fit he _ rfl bs hwf)
    exact ⟨.pointer p, s', by rw [exec, hrun]; rfl, ⟨bs', hres.wellFormed⟩, hmade, hdistinct,
      fun l hl _ => hkept l hl fun a b hb => hb.busy, hcontents⟩

theorem free_meets {p : Nat} (hwf : WellFormed s bs) (hp : p = 0 ∨ ∃ l, Owns E s l ∧ l.ptr = p) :
    library.Meets WF (Owns E) (.free p) s .done (free p s) := by
  have hlocated : p = null ∨ ∃ a b, p = a + 8 ∧ s.At bs a b := by
    refine hp.imp_right fun ⟨l, hl, hptr⟩ => ?_
    obtain ⟨a, b, hb, hl⟩ := hl.block hwf
    exact ⟨a, b, hptr.symm.trans hl.ptr, hb⟩
  obtain ⟨bs', hwf', hkeeps, -⟩ := free_fresh hwf hlocated
  refine ⟨⟨bs', hwf'⟩, fun l hl => absurd hl List.not_mem_nil, .nil, fun l hl hkept => ?_, trivial⟩
  refine hl.keep hwf hwf' hkeeps fun a b _ hl he => ?_
  have hptr := hl.ptr
  simp [released, ends, Call.argument, hptr, he] at hkept

theorem realloc_null (n : Nat) (s : Heap) : realloc 0 n s = malloc n s := if_pos rfl

theorem realloc_meets {p : Nat} (hwf : WellFormed s bs) (hp : p = 0 ∨ ∃ l, Owns E s l ∧ l.ptr = p)
    (ha : Admits E s (.realloc p n)) :
    ∃ r s', exec (.realloc p n) s = some (r, s') ∧ library.Meets WF (Owns E) (.realloc p n) s r s' := by
  by_cases hnull : p = 0
  · subst hnull
    by_cases hn : n = 0
    · subst hn
      exact ⟨.pointer null, s, rfl, meets_null ⟨bs, hwf⟩ fun l hl => by
        have hne := Owns.ptr_ne (p := 0) hl hwf fun a c ha _ => by omega
        simp [released, Call.argument, hne]⟩
    · obtain ⟨q, s', bs', hrun, hres, hfilled⟩ := malloc_spec hwf hn ((ha.bound n rfl).resolve_right id)
      obtain ⟨hmade, hdistinct, hkept⟩ := hres.meets (E := E) hwf fun he a b hp hb =>
      (hfilled a b hp hb).mp (ha.fit he n rfl bs hwf)
      exact ⟨.pointer q, s', by rw [exec, realloc_null, hrun]; rfl, ⟨bs', hres.wellFormed⟩, hmade, hdistinct,
        fun l hl _ => hkept l hl fun a b hb => hb.busy, fun hp => absurd rfl hp⟩
  · obtain ⟨l, hl, hptr⟩ := hp.resolve_left hnull
    obtain ⟨a, b, hb, hholds⟩ := hl.block hwf
    obtain rfl : p = a + 8 := hptr.symm.trans hholds.ptr
    by_cases hn : n = 0
    · subst hn
      have hm := free_meets (E := E) hwf hp
      refine ⟨.pointer null, free (a + 8) s, ?_, hm.wf, fun l hl => absurd hl List.not_mem_nil, .nil, fun l hl hkept => ?_, ?_⟩
      · simp [exec, realloc, null]
      · exact hm.kept l hl hkept
      · exact fun _ hq => absurd rfl hq
    · obtain ⟨q, s', bs', hrun, hres, hold, hfilled⟩ :=
        realloc_spec hwf hb hholds.busy hn ((ha.bound n rfl).resolve_right id)
      obtain ⟨hmade, hdistinct, hkept⟩ := hres.meets (E := E) hwf fun he a b hp hb =>
      (hfilled a b hp hb).mp (ha.fit he n rfl bs hwf)
      refine ⟨.pointer q, s', by rw [exec, hrun]; rfl, ⟨bs', hres.wellFormed⟩, hmade, hdistinct,
        fun l' hl' hrel => ?_, ?_⟩
      · by_cases hq : q = null
        · have hkept' := hkept l' hl'
          rcases hres.cases with ⟨-, rfl, rfl⟩ | ⟨a', b', hq', -⟩
          · exact hl'.keep hwf hres.wellFormed (init_keeps hwf fun _ _ => True) fun _ _ _ _ => trivial
          · rw [hq, null] at hq'
            omega
        · refine hkept l' hl' fun a' b' hb' => ⟨hb'.busy, fun he => ?_⟩
          have hptr' := hb'.ptr
          simp [released, ends, Call.argument, hptr', he, show q ≠ 0 from hq] at hrel
      · rintro - hq l' hl' hptr' i hi
        obtain ⟨a', b', hb', hholds'⟩ := hl'.block hwf
        have ha' := hholds'.ptr
        have hroom' := hholds'.room
        obtain rfl : a' = a := by omega
        rw [hwf.unique hb' hb] at hroom'
        obtain ⟨hi, hi'⟩ := Nat.lt_min.mp hi
        exact (hold hq).2 i (by omega) hi'

theorem defrag_meets (hwf : WellFormed s bs) :
    ∃ r s', exec .defrag s = some (r, s') ∧ library.Meets WF (Owns E) .defrag s r s' := by
  obtain ⟨m', hrun, hwf', hkeeps⟩ := defrag_spec hwf
  exact ⟨.done, _, by rw [exec, hrun]; rfl, ⟨_, hwf'⟩, fun l hl => absurd hl List.not_mem_nil, .nil,
    fun l hl _ => hl.keep hwf hwf' hkeeps fun a b _ hb => hb.busy, trivial⟩

theorem MetaBlock.owned (hwf : WellFormed s bs) (hwf' : WellFormed s' bs') (h : MetaBlock n s bs s' bs' a b) :
    Owns E s' ⟨a + 8, 8 * n, .library⟩ ∧ ∀ l, Owns E s l → l.ptr ≠ a + 8 := by
  have hroom := h.room
  refine ⟨⟨bs', a, b, hwf', h.at_block, rfl, h.internal, by simp only; omega, fun _ => by simp only; omega⟩, ?_⟩
  intro l hl
  refine hl.ptr_ne hwf fun a' c ha hc => ?_
  obtain rfl : a' = a := by omega
  exact h.fresh c hc

theorem heapInfo_meets (hwf : WellFormed s bs) :
    ∃ r s', exec .heapInfo s = some (r, s') ∧ library.Meets WF (Owns E) .heapInfo s r s' := by
  cases hi : s.initialized with
  | false =>
      exact ⟨.info (-1, .zero), s, by rw [exec, heapInfo, if_pos hi]; rfl, ⟨bs, hwf⟩,
        fun l hl => absurd hl List.not_mem_nil, .nil, fun l hl _ => ⟨hl, fun _ _ => rfl⟩, trivial⟩
  | true =>
      obtain ⟨ret, info, s', bs', hrun, hres⟩ := heapInfo_spec hwf hi
      have hkept (l : Alloc) (hl : Owns E s l) (h₁ : l.ptr ≠ info.sizeArray) (h₂ : l.ptr ≠ info.ptrArray) :
          Owns E s' l ∧ library.SameBytes l s s' := by
        refine hl.keep hwf hres.wellFormed hres.keeps fun a b _ hb => ⟨hb.busy, ?_, ?_⟩
        · rw [← hb.ptr]
          exact h₁
        · rw [← hb.ptr]
          exact h₂
      have hrun' : exec .heapInfo s = some (.info (ret, info), s') := by
        rw [exec, hrun]
        rfl
      have hempty (hs : info.sizeArray = null) (hp : info.ptrArray = null) :
          library.Meets WF (Owns E) .heapInfo s (.info (ret, info)) s' := by
        have hmade : library.made .heapInfo (.info (ret, info)) = [] := if_pos hs
        refine ⟨⟨bs', hres.wellFormed⟩, fun l hl => ?_, ?_, fun l hl _ => ?_, trivial⟩
        · rw [hmade] at hl
          cases hl
        · rw [hmade]
          exact .nil
        · have hne := Owns.ptr_ne (p := 0) hl hwf fun a c ha _ => by omega
          exact hkept l hl (by rwa [hs]) (by rwa [hp])
      refine ⟨.info (ret, info), s', hrun', ?_⟩
      rcases hres.cases with ⟨-, rfl⟩ | ⟨-, hnum, ⟨-, hs, hp⟩ | ⟨a₁, b₁, a₂, b₂, hs, hp, hne, h₁, h₂, -, -⟩⟩
      · exact hempty rfl rfl
      · exact hempty hs hp
      · have hmade : library.made .heapInfo (.info (ret, info)) =
            [⟨a₁ + 8, 8 * info.numAllocs, .library⟩, ⟨a₂ + 8, 8 * info.numAllocs, .library⟩] := by
          rw [← hs, ← hp]
          exact if_neg (by rw [hs, null]; omega)
        have hown₁ := h₁.owned (E := E) hwf hres.wellFormed
        have hown₂ := h₂.owned (E := E) hwf hres.wellFormed
        refine ⟨⟨bs', hres.wellFormed⟩, fun l hl => ?_, ?_, fun l hl _ => ?_, trivial⟩
        · rw [hmade] at hl
          rcases List.mem_pair.mp hl with rfl | rfl
          · exact hown₁
          · exact hown₂
        · rw [hmade]
          refine List.pairwise_pair.mpr ?_
          simp only
          omega
        · exact hkept l hl (by rw [hs]; exact hown₁.2 l hl) (by rw [hp]; exact hown₂.2 l hl)

theorem store_owned {v : UInt8} {x : Nat} (hwf : WellFormed s bs) (hl : Owns E s l) (hx : l.ptr ≤ x)
    (hx' : x < l.ptr + l.req) :
    WF { s with mem := Function.update s.mem x v } ∧
      ∀ l', Owns E s l' → Owns E { s with mem := Function.update s.mem x v } l' := by
  obtain ⟨a, b, hb, hl⟩ := hl.block hwf
  have hptr := hl.ptr
  have hroom := hl.room
  obtain ⟨hwf', hkeeps⟩ := hwf.writePayload hb (Function.update s.mem x v) fun y hy =>
    Function.update_of_ne (by omega) _ _
  refine ⟨⟨bs, hwf'⟩, fun l' hl' => ?_⟩
  obtain ⟨a', b', hb', hl'⟩ := hl'.block hwf
  exact ⟨bs, a', b', hwf', hb', hl'⟩

/-- The C library is an allocator. -/
def contract (E : Prop) : Contract library where
  Admits := Admits E
  WF := WF
  Owns := Owns E
  ptr_ne_zero := fun ⟨bs, hwf⟩ hl => hl.ptr_ne hwf fun a c ha _ => by omega
  apart := fun ⟨bs, hwf⟩ hl hl' hne => hl.apart hwf hl' hne
  exec_ok := by
    rintro s c ⟨bs, hwf⟩ hp ha
    cases c with
    | malloc n => exact malloc_meets hwf ha
    | calloc num sz => exact calloc_meets hwf ha
    | realloc p n => exact realloc_meets hwf hp ha
    | free p => exact ⟨_, _, rfl, free_meets hwf hp⟩
    | defrag => exact defrag_meets hwf
    | heapInfo => exact heapInfo_meets hwf
  store_ok := fun ⟨bs, hwf⟩ hl hx hx' => store_owned hwf hl hx hx'

end WeensyOS.CMalloc
