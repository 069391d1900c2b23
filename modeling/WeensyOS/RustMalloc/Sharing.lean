import WeensyOS.RustMalloc.Runs
import WeensyOS.Lib.BreakSharing

namespace WeensyOS.RustMalloc

open ByteMemory LibC ProgramBreak Tiling Tiling.Layout Allocator BlockHeap BreakSharing

/-- The part of a call around its `malloc`. -/
def plan : Call → Memory → Plan (Int × HeapInfo)
  | .malloc n, m => if n = 0 then .reply (.pointer 0) m else .allocate n fun _ m => m
  | .calloc num sz, m =>
      if num = 0 ∨ sz = 0 ∨ 2 ^ 64 ≤ num * sz then .reply (.pointer 0) m
      else .allocate (num * sz) fun p m => memset m p 0 (num * sz)
  | .realloc p n, m =>
      if n = 0 then .reply (.pointer 0) (if p = 0 then m else setState m (blockOf p) .free)
      else .allocate n fun q m' =>
        if p = 0 then m' else setState (memcpy m' q p (min (payloadSize (headerAt m (blockOf p))) n)) (blockOf p) .free
  | .free p, m => .reply .done (if p = 0 then m else setState m (blockOf p) .free)
  | .defrag, m => .reply .done m
  | .heapInfo, m => .reply .done m

variable {s s' t : Heap} {bs : List Header} {n num sz p : Nat}

def setMem (m : Memory) (s : Heap) : Heap := { s with mem := m }

theorem exec_plan {c : Call} (hc : Basic c) (s : Heap) : exec c s = (plan c s.mem).run Heap.mem setMem malloc s := by
  cases c with
  | malloc n =>
      by_cases hn : n = 0
      · subst hn
        rfl
      · simp only [exec, plan, if_neg hn, Plan.run, setMem, ite_self]
  | calloc num sz =>
      by_cases hzero : num = 0 ∨ sz = 0
      · have hplan : num = 0 ∨ sz = 0 ∨ 2 ^ 64 ≤ num * sz := hzero.imp_right .inl
        simp only [exec, plan, if_pos hplan, Plan.run, setMem, calloc, if_pos hzero, Option.bind_some]
      · obtain ⟨hnum, hsz⟩ := not_or.mp hzero
        by_cases hover : 2 ^ 64 ≤ num * sz
        · simp only [exec, plan, hnum, hsz, false_or, if_pos hover, Plan.run, setMem, calloc_overflow hnum hsz hover,
            Option.bind_some]
        · simp only [exec, plan, calloc, hnum, hsz, or_self, false_or, if_false, if_neg hover, Plan.run, setMem,
            Option.bind_assoc]
          congr 1
          funext r
          obtain ⟨p, s'⟩ := r
          by_cases hp : p = 0 <;> simp [hp]
  | realloc p n =>
      by_cases hp : p = 0
      · subst hp
        by_cases hn : n = 0
        · subst hn
          rfl
        · simp only [exec, plan, if_neg hn, realloc, if_true, Plan.run, setMem, ite_self]
      · by_cases hn : n = 0
        · simp only [exec, plan, if_pos hn, realloc, if_neg hp, free, Plan.run, setMem, Option.bind_some]
        · simp only [exec, plan, if_neg hn, realloc, if_neg hp, Plan.run, setMem, Option.bind_assoc]
          congr 1
          funext r
          obtain ⟨q, s'⟩ := r
          by_cases hq : q = 0 <;> simp [hq, free, hp]
  | free p =>
      by_cases hp : p = 0 <;> simp [exec, plan, free, Plan.run, setMem, hp]
  | defrag => exact hc.elim
  | heapInfo => exact hc.elim

theorem plan_request {c : Call} {m : Memory} {after : Nat → Memory → Memory} (h : plan c m = .allocate n after) :
    c.request = some n ∧ n ≠ 0 ∧ ¬c.Overflows := by
  cases c with
  | malloc k =>
      by_cases hk : k = 0
      · simp [plan, hk] at h
      · obtain ⟨rfl, -⟩ : k = n ∧ _ := by simpa only [plan, if_neg hk, Plan.allocate.injEq] using h
        exact ⟨rfl, hk, id⟩
  | calloc num sz =>
      by_cases hzero : num = 0 ∨ sz = 0 ∨ 2 ^ 64 ≤ num * sz
      · simp only [plan, if_pos hzero, reduceCtorEq] at h
      · obtain ⟨rfl, -⟩ : num * sz = n ∧ _ := by simpa only [plan, if_neg hzero, Plan.allocate.injEq] using h
        simp only [not_or] at hzero
        exact ⟨rfl, Nat.mul_ne_zero hzero.1 hzero.2.1, hzero.2.2⟩
  | realloc p k =>
      by_cases hk : k = 0
      · simp [plan, hk] at h
      · obtain ⟨rfl, -⟩ : k = n ∧ _ := by simpa only [plan, if_neg hk, Plan.allocate.injEq] using h
        exact ⟨rfl, hk, id⟩
  | free | defrag | heapInfo => cases h

def process : Process library where
  start := Heap.heapStart
  stop := Heap.heapEnd
  programBreak s := s.breaks.programBreak
  sbrk := sbrk
  malloc := malloc
  setMem := setMem
  plan := plan
  exec_plan := exec_plan
  plan_request := plan_request
  mem_setMem _ _ := rfl
  setMem_setMem _ _ _ := rfl
  store_eq _ _ _ := rfl
  start_setMem _ _ := rfl
  stop_setMem _ _ := rfl
  programBreak_setMem _ _ := rfl

/-- A `malloc` of `n` bytes that finds no block and gets more memory from the kernel. -/
def Grows (n : Nat) (s : Heap) : Prop :=
  (∃ cur ∈ firstFit s.mem (heapBounds s).heapEnd (needed n) (heapBounds s).heapStart, (heapBounds s).heapEnd ≤ cur) ∧
  s.breaks.programBreak + pageCeil (needed n) < memsizeVirtual - pageSize

/-- The heap ends at the program break, which is aligned. -/
def EndsAtBreak (s : Heap) : Prop :=
  (heapBounds s).heapEnd = s.breaks.programBreak ∧ s.breaks.programBreak % 8 = 0

/-- The calls that do not wrap, and that grow the heap only where it ends at the
program break. -/
structure Calm (s : Heap) (c : Call) : Prop where
  bound : ∀ n ∈ c.request, Sound n s ∨ c.Overflows
  owned : ∀ n ∈ c.request, Grows n s → EndsAtBreak s

instance (n : Nat) (s : Heap) : Decidable (Grows n s) := inferInstanceAs (Decidable (_ ∧ _))

instance (s : Heap) : Decidable (EndsAtBreak s) := inferInstanceAs (Decidable (_ ∧ _))

instance (n : Nat) (s : Heap) : Decidable (Sound n s) := inferInstanceAs (Decidable (_ < _))

instance (s : Heap) (c : Call) : Decidable (Calm s c) :=
  decidable_of_iff ((∀ n ∈ c.request, Sound n s ∨ c.Overflows) ∧ ∀ n ∈ c.request, Grows n s → EndsAtBreak s)
    ⟨fun h => ⟨h.1, h.2⟩, fun h => ⟨h.bound, h.owned⟩⟩

/-- `t` is the heap of a program that never moves the break: the statics are the
same, unless the heap of `s` is empty. -/
structure Shadow (t s : Heap) : Prop where
  mem : t.mem = s.mem
  started : t.heapStart ≠ 0 → s = { t with breaks := s.breaks }
  unstarted : t.heapStart = 0 → s.heapStart = s.heapEnd
  end_le : s.heapEnd ≤ s.breaks.programBreak
  break_le : t.breaks.programBreak ≤ s.breaks.programBreak
  original : t.breaks.originalBreak = s.breaks.originalBreak

theorem growHeap_refused (hsize : Sound n s)
    (hroom : ¬s.breaks.programBreak + pageCeil (needed n) < memsizeVirtual - pageSize) :
    growHeap (needed n) s = (none, s) := by
  have hle := s.breaks.le_programBreak
  have hlim := limit_eq
  simp only [Sound] at hsize
  have hgrow : roundUp (needed n) pageSize = pageCeil (needed n) := pageCeil_exact (by omega)
  have hout : (s.breaks.programBreak + pageCeil (needed n)) % 2 ^ 64 < s.breaks.originalBreak ∨
      memsizeVirtual - pageSize ≤ (s.breaks.programBreak + pageCeil (needed n)) % 2 ^ 64 := by omega
  simp only [growHeap, sbrk, hgrow, sbrk_fail _ hout, if_pos]

theorem growHeap_granted (hroom : s.breaks.programBreak + pageCeil (needed n) < memsizeVirtual - pageSize) :
    ∃ s', growHeap (needed n) s = (some s.breaks.programBreak, s') ∧ s'.heapStart = s.heapStart ∧
      s'.heapEnd = s.breaks.programBreak + pageCeil (needed n) ∧
      s'.breaks.programBreak = s.breaks.programBreak + pageCeil (needed n) := by
  have hle := s.breaks.le_programBreak
  have hlim := limit_eq
  have hgrow : roundUp (needed n) pageSize = pageCeil (needed n) := pageCeil_exact (by omega)
  have hnew : (s.breaks.programBreak + pageCeil (needed n)) % 2 ^ 64 = s.breaks.programBreak + pageCeil (needed n) := by
    omega
  have hsbrk := sbrk_ok s.breaks (by rw [hnew]; omega) (by rwa [hnew])
  have hne : s.breaks.programBreak ≠ 2 ^ 64 - 1 := by omega
  simp only [growHeap, sbrk, hgrow, hsbrk, if_neg hne]
  exact ⟨_, rfl, rfl, hnew, hnew⟩

theorem malloc_last (hn : n ≠ 0) (hsize : Sound n s)
    (hwalk : firstFit s.mem (heapBounds s).heapEnd (needed n) (heapBounds s).heapStart = some (heapBounds s).heapEnd) :
    malloc n s =
      match growHeap (needed n) (heapBounds s) with
      | (none, s) => some (0, s)
      | (some block, s) =>
          let (ptr, m) := splitOrUse s.mem block (needed n) .used
          some (ptr, { s with mem := m }) := by
  have hceil := (pageCeil_spec (needed n)).1
  have hB : (roundUp n 8 + headerSize) % 2 ^ 64 = needed n := by
    simp only [Sound] at hsize
    exact needed_exact (by omega)
  simp only [malloc, if_neg hn, hB, heapBounds_mem, hwalk, Option.bind_some]
  exact if_neg (Nat.lt_irrefl _)

theorem heapBounds_grown (s : Heap) : process.Grown s (heapBounds s) := by
  have hbreak : process.programBreak (heapBounds s) = process.programBreak s :=
    congrArg Breaks.programBreak (heapBounds_breaks s)
  refine ⟨Nat.le_of_eq hbreak.symm, fun x hlo hhi => ?_⟩
  by_cases hs : s.heapStart = 0
  · rw [heapBounds_first hs] at hlo hhi
    exact absurd hhi (Nat.not_lt.mpr hlo)
  · rw [heapBounds_eq hs] at hlo hhi
    exact .inl ⟨hlo, hhi⟩

namespace Shadow

variable (h : Shadow t s)
include h

theorem breaks_eq (hp : t.breaks.programBreak = s.breaks.programBreak) (hi : t.heapStart ≠ 0) : t = s := by
  rw [h.started hi, ← Breaks.ext h.original hp]

theorem sound (hsize : Sound n s) : Sound n t := by
  have hle := h.break_le
  have ho := h.original
  simp only [Sound] at *
  omega

theorem heapBounds : Shadow t (heapBounds s) := by
  by_cases hs : s.heapStart = 0
  · have ht : t.heapStart = 0 := by
      by_contra hne
      rw [h.started hne] at hs
      exact hne hs
    rw [heapBounds_first hs]
    exact ⟨h.mem, fun hne => absurd ht hne, fun _ => rfl, Nat.le_refl _, h.break_le, h.original⟩
  · rwa [heapBounds_eq hs]

omit h in
theorem self (hi : s.heapStart ≠ 0) (hend : s.heapEnd ≤ s.breaks.programBreak) : Shadow s s :=
  ⟨rfl, fun _ => rfl, fun h0 => absurd h0 hi, hend, Nat.le_refl _, rfl⟩

theorem followed_last (hstarted : (RustMalloc.heapBounds s).heapStart ≠ 0) (hn : n ≠ 0) (hsize : Sound n s)
    (howned : Grows n s → EndsAtBreak s)
    (hwalk : firstFit s.mem (RustMalloc.heapBounds s).heapEnd (needed n) (RustMalloc.heapBounds s).heapStart =
      some (RustMalloc.heapBounds s).heapEnd)
    (hsame : EndsAtBreak s → ∃ t', Shadow t' s ∧ WF t' ∧ (∀ l, Owns t l → Owns t' l) ∧ malloc n t' = malloc n s) :
    process.Followed Shadow contract n t s := by
  have hrun := malloc_last hn hsize hwalk
  have hbreak : (RustMalloc.heapBounds s).breaks.programBreak = s.breaks.programBreak := by rw [heapBounds_breaks]
  by_cases hroom : s.breaks.programBreak + pageCeil (needed n) < memsizeVirtual - pageSize
  · obtain ⟨hend, hmod⟩ := howned ⟨⟨_, hwalk, Nat.le_refl _⟩, hroom⟩
    obtain ⟨t', hsh, hwf, howns, ht⟩ := hsame ⟨hend, hmod⟩
    obtain ⟨s₁, hgrow, hstart, hlast, hnew⟩ := growHeap_granted (s := RustMalloc.heapBounds s) (n := n) (by rwa [hbreak])
    rw [hgrow] at hrun
    rw [hbreak] at hnew hlast
    have hself : Shadow s₁ s₁ := self (by rwa [hstart]) (Nat.le_of_eq (hlast.trans hnew.symm))
    have hgrown : process.Grown (RustMalloc.heapBounds s) s₁ := by
      refine ⟨?_, fun x hlo hhi => ?_⟩
      · exact Nat.le_trans (Nat.le_of_eq hbreak) (Nat.le_trans (Nat.le_add_right _ _) (Nat.le_of_eq hnew.symm))
      · simp only [process] at *
        omega
    exact .grown t' _ _ hsh hwf howns (ht.trans hrun) hrun
      ⟨rfl, fun _ => rfl, hself.unstarted, hself.end_le, Nat.le_refl _, rfl⟩
      (((heapBounds_grown s).trans hgrown).setMem _)
  · rw [growHeap_refused (by rwa [Sound, heapBounds_breaks]) (by rwa [hbreak])] at hrun
    exact .refused (RustMalloc.heapBounds s) hrun h.heapBounds (heapBounds_grown s)

theorem followed_started (hwf : WellFormed t bs) (hi : t.heapStart ≠ 0) (hn : n ≠ 0) (hsize : Sound n s)
    (howned : Grows n s → EndsAtBreak s) : process.Followed Shadow contract n t s := by
  have hs := h.started hi
  have hlast : s.heapEnd = t.heapEnd := by rw [hs]
  have hstart : s.heapStart = t.heapStart := by rw [hs]
  have hsi : s.heapStart ≠ 0 := by rwa [hstart]
  have hB : (roundUp n 8 + headerSize) % 2 ^ 64 = needed n := by
    have hceil := (pageCeil_spec (needed n)).1
    simp only [Sound] at hsize
    exact needed_exact (by omega)
  have hwalk := firstFit_eq hwf (needed n)
  rw [h.mem, ← hlast, ← hstart] at hwalk
  rcases scan_cases (fun b => ¬fits (needed n) b) bs with ⟨-, htake⟩ | ⟨xs, b, ys, rfl, htake, -, -⟩
  · have hend := hwf.region.tiles.end_eq
    rw [htake, hstart, ← hend, ← hlast] at hwalk
    refine h.followed_last (by rwa [heapBounds_eq hsi]) hn hsize howned (by rwa [heapBounds_eq hsi, hstart])
      fun hbound => ?_
    obtain ⟨hbreak, -⟩ := hbound
    rw [heapBounds_eq hsi, hlast, hwf.end_eq hi] at hbreak
    obtain rfl := h.breaks_eq hbreak hi
    exact ⟨t, h, ⟨bs, hwf⟩, fun _ hl => hl, rfl⟩
  · have hat : t.At (xs ++ b :: ys) (t.heapStart + format.total xs) b := at_append.mpr (.inr (.inl ⟨rfl, rfl⟩))
    have hlt : t.heapStart + format.total xs < t.heapEnd := by
      have hbd := hwf.bounds hat
      have hge := hwf.size_ge hat
      omega
    rw [htake, hstart, hlast] at hwalk
    apply Process.Followed.inPlace (splitOrUse s.mem (t.heapStart + format.total xs) (needed n) .used).1
      (splitOrUse s.mem (t.heapStart + format.total xs) (needed n) .used).2
    · simp only [process, malloc, if_neg hn, heapBounds_eq hi, hB, h.mem, hwalk, Option.bind_some, if_pos hlt, setMem]
    · simp only [process, malloc, if_neg hn, heapBounds_eq hsi, hB, hlast, hstart, hwalk, Option.bind_some, if_pos hlt,
        setMem]

theorem followed_unstarted (hwf : WellFormed t bs) (hi : t.heapStart = 0) (hn : n ≠ 0) (hsize : Sound n s)
    (howned : Grows n s → EndsAtBreak s) : process.Followed Shadow contract n t s := by
  have hempty : (RustMalloc.heapBounds s).heapStart = (RustMalloc.heapBounds s).heapEnd := h.heapBounds.unstarted hi
  have hpos : 0 < s.breaks.programBreak := Nat.lt_of_lt_of_le hwf.break_pos h.break_le
  have hstarted : (RustMalloc.heapBounds s).heapStart ≠ 0 := by
    by_cases hs : s.heapStart = 0
    · rw [heapBounds_first hs]
      exact Nat.ne_of_gt hpos
    · rwa [heapBounds_eq hs]
  refine h.followed_last hstarted hn hsize howned ?_ fun ⟨hbreak, hmod⟩ => ?_
  · rw [hempty]
    exact Loop.whileM_done _ _ fun hlt => absurd hlt.1 (Nat.lt_irrefl _)
  · -- the heap as it was before the first call, in a process with the present break
    let t' : Heap := ⟨s.mem, 0, 0, s.breaks⟩
    have hbounds : RustMalloc.heapBounds t' = RustMalloc.heapBounds s := by
      rw [heapBounds_first rfl]
      by_cases hs : s.heapStart = 0
      · rw [heapBounds_first hs]
      · rw [heapBounds_eq hs] at hbreak hempty ⊢
        rw [← hbreak]
        nth_rewrite 1 [← hempty]
        rfl
    have hnone : ∀ l, Owns t l → Owns t' l := by
      intro l hl
      obtain ⟨a, b, -, hb, -⟩ := Owns.located hl hwf rfl
      rw [hwf.blocks_nil hi] at hb
      exact hb.elim
    have hwf' : WellFormed t' [] :=
      ⟨⟨rfl, by simp⟩, fun h0 => absurd rfl h0, fun _ => rfl, Nat.dvd_of_mod_eq_zero hmod, hpos⟩
    refine ⟨t', ⟨rfl, fun h0 => absurd rfl h0, fun _ => h.unstarted hi, h.end_le, Nat.le_refl _, rfl⟩, ⟨[], hwf'⟩, hnone, ?_⟩
    rw [malloc_heapBounds hwf' hn, hbounds]
    simp only [malloc, if_neg hn, heapBounds_eq hstarted]

theorem followed (hwf : WF t) (hn : n ≠ 0) (hsize : Sound n s) (howned : Grows n s → EndsAtBreak s) :
    process.Followed Shadow contract n t s := by
  obtain ⟨bs, hwf⟩ := hwf
  by_cases hi : t.heapStart = 0
  · exact h.followed_unstarted hwf hi hn hsize howned
  · exact h.followed_started hwf hi hn hsize howned

theorem region (hwf : WF t) {x : Nat} (hlo : t.heapStart ≤ x) (hhi : x < t.heapEnd) :
    s.heapStart ≤ x ∧ x < s.heapEnd := by
  obtain ⟨bs, hwf⟩ := hwf
  by_cases hi : t.heapStart = 0
  · have hend := hwf.unused hi
    omega
  · rw [h.started hi]
    exact ⟨hlo, hhi⟩

theorem sbrk (hn : n < 2 ^ 63) (hok : (RustMalloc.sbrk n s).1 ≠ 2 ^ 64 - 1) :
    (RustMalloc.sbrk n s).1 = s.breaks.programBreak ∧ Shadow t (RustMalloc.sbrk n s).2 ∧
      (RustMalloc.sbrk n s).2.breaks.programBreak = s.breaks.programBreak + n := by
  have hlt := s.breaks.lt_limit
  have hnew : (s.breaks.programBreak + n) % 2 ^ 64 = s.breaks.programBreak + n := by omega
  obtain ⟨ho, hl⟩ : s.breaks.originalBreak ≤ (s.breaks.programBreak + n) % 2 ^ 64 ∧
      (s.breaks.programBreak + n) % 2 ^ 64 < memsizeVirtual - pageSize := by
    by_contra hout
    exact hok (by rw [RustMalloc.sbrk, sbrk_fail s.breaks (by omega)])
  have hend := h.end_le
  have hle := h.break_le
  simp only [RustMalloc.sbrk, sbrk_ok s.breaks ho hl]
  refine ⟨trivial, ⟨h.mem, fun hi => ?_, h.unstarted, ?_, ?_, h.original⟩, hnew⟩
  · exact congrArg (fun u => { u with breaks := ⟨s.breaks.originalBreak, _, ho, hl⟩ }) (h.started hi)
  · simp only
    omega
  · simp only
    omega

end Shadow

theorem store_out {a : Nat} {v : UInt8} (hwf : WF t) (hout : ¬(t.heapStart ≤ a ∧ a < t.heapEnd)) :
    WF (library.store a v t) ∧ ∀ l, Owns t l → Owns (library.store a v t) l := by
  obtain ⟨bs, hwf⟩ := hwf
  have hwf' : WellFormed (library.store a v t) bs := by
    refine hwf.withMem ⟨hwf.region.tiles.frame fun a' b hb x hx hx' => Function.update_of_ne ?_ _ _, hwf.region.valid⟩
    have hbd := hwf.bounds hb
    have hge := hwf.size_ge hb
    simp only [format_width] at hx'
    omega
  refine ⟨⟨bs, hwf'⟩, fun l hl => ?_⟩
  obtain ⟨a', b, hb, hholds⟩ := Presentation.Owns.block hl hwf
  exact ⟨bs, a', b, hwf', hb, hholds⟩

def simulation : process.Simulation contract where
  Calm := Calm
  Shadow := Shadow
  mem_eq h := h.mem
  region h hwf hlo hhi := h.region hwf hlo hhi
  stop_le h := h.end_le
  shadow_setMem m h := ⟨rfl, fun hi => congrArg (setMem m) (h.started hi), h.unstarted, h.end_le, h.break_le, h.original⟩
  admits h _ hc := fun n hn => (hc.bound n hn).imp_left h.sound
  malloc_ok h hwf hc hreq hn hover := h.followed hwf hn ((hc.bound _ hreq).resolve_right hover) (hc.owned _ hreq)
  store_out := store_out
  sbrk_ok h hn hok :=
    have hs := h.sbrk hn hok
    ⟨hs.1, hs.2.1, hs.2.2, rfl, rfl⟩

/-- A process that has neither called the library nor moved its break. -/
def fresh (m : Memory) (p : Breaks) : BreakSharing.Sys Heap := ⟨⟨m, 0, 0, p⟩, [], []⟩

/-- The allocator tolerates the program's own ranges: a header walk meets valid
headers only and ends, every live pointer is aligned and has a block, and
neither the blocks nor the rest of the heap have a byte of a range of the program. -/
structure Tolerant (s : BreakSharing.Sys Heap) (bs : List Header) : Prop where
  walk : format.Tiles s.heap.mem s.heap.heapStart bs s.heap.heapEnd
  headers : ∀ b ∈ bs, (∃ st : BlockState, b.state = st.code) ∧ b.size % 8 = 0 ∧ headerSize ≤ b.size
  ends : ∀ (q : Header → Prop) [DecidablePred q], ∃ cur,
    format.scan q s.heap.mem s.heap.heapEnd s.heap.heapStart = some cur ∧
      (cur = s.heap.heapEnd ∨ ∃ b, s.heap.At bs cur b)
  live : ∀ l ∈ s.live, l.ptr % 8 = 0 ∧ headerSize ≤ l.ptr ∧ ∃ b, s.heap.At bs (l.ptr - headerSize) b ∧
    l.req + headerSize ≤ b.size ∧
    ∀ r ∈ s.own, ∀ x, l.ptr - headerSize ≤ x → x < l.ptr - headerSize + b.size → ¬r.Contains x
  apart : ∀ r ∈ s.own, ∀ x, s.heap.heapStart ≤ x → x < s.heap.heapEnd → ¬r.Contains x

variable {m : Memory} {q : Breaks} {u : BreakSharing.Sys Heap}

theorem fresh_inv (m : Memory) (h8 : q.programBreak % 8 = 0) (hpos : 0 < q.programBreak) :
    simulation.Inv (fresh m q) where
  shadow := ⟨_, ⟨rfl, fun _ => rfl, fun _ => rfl, Nat.zero_le _, Nat.le_refl _, rfl⟩, start_inv m h8 hpos⟩
  below _ hr := absurd hr List.not_mem_nil
  apart _ hr := absurd hr List.not_mem_nil

theorem Shadow.consistent {live : List Alloc} (h : Shadow t s) (hinv : contract.Inv ⟨t, live⟩) :
    ∃ bs, Region format s.mem s.heapStart bs s.heapEnd ∧ s.heapEnd < 2 ^ 64 ∧
      ∀ l ∈ live, l.ptr % 8 = 0 ∧ headerSize ≤ l.ptr ∧
        ∃ b, s.At bs (l.ptr - headerSize) b ∧ l.req + headerSize ≤ b.size := by
  obtain ⟨bs, hwf⟩ := hinv.wf
  have hlt : s.heapEnd < 2 ^ 64 := Nat.lt_of_le_of_lt h.end_le (Nat.lt_trans s.breaks.lt_limit (by decide))
  by_cases hi : t.heapStart = 0
  · refine ⟨[], ⟨h.unstarted hi, by simp⟩, hlt, fun l hl => ?_⟩
    obtain ⟨a, b, -, hb, -⟩ := Owns.located (hinv.owns l hl) hwf rfl
    rw [hwf.blocks_nil hi] at hb
    exact hb.elim
  · refine ⟨bs, ?_, hlt, fun l hl => ?_⟩
    · rw [h.started hi]
      exact hwf.region
    · obtain ⟨a, b, hptr, hb, -, hroom⟩ := Owns.located (hinv.owns l hl) hwf rfl
      have hdvd := hwf.address_dvd hb
      have ha : l.ptr - headerSize = a := by
        rw [hptr]
        rfl
      rw [ha, h.started hi]
      refine ⟨by omega, ?_, b, hb, hroom⟩
      rw [hptr]
      exact Nat.le_add_left _ _

theorem tolerant_of_inv (h : simulation.Inv u) : ∃ bs, Tolerant u bs := by
  obtain ⟨t, hshadow, hinv⟩ := h.shadow
  obtain ⟨bs, hregion, hlt, hlive⟩ := Shadow.consistent hshadow hinv
  refine ⟨bs, hregion.tiles, fun b hb => ?_, fun q _ => hregion.scan_ends hlt q, fun l hl => ?_, h.apart⟩
  · have hv := hregion.valid b hb
    exact ⟨hv.state, Nat.mod_eq_zero_of_dvd hv.size_dvd, hv.size_ge⟩
  · obtain ⟨hmod, hle, b, hb, hroom⟩ := hlive l hl
    refine ⟨hmod, hle, b, hb, hroom, fun r hr x hlo hhi => h.apart r hr x ?_ ?_⟩
    · exact Nat.le_trans (hregion.bounds hb).1 hlo
    · exact Nat.lt_of_lt_of_le hhi (hregion.bounds hb).2

end WeensyOS.RustMalloc
