import WeensyOS.CMalloc.Runs
import WeensyOS.Lib.BreakSharing

namespace WeensyOS.CMalloc

open ByteMemory LibC ProgramBreak Tiling Tiling.Layout Allocator BreakSharing

/-- The part of a call around its `malloc`. -/
def plan : Call → Memory → Plan (Int × HeapInfo)
  | .malloc n, m => if n = 0 then .reply (.pointer null) m else .allocate n fun _ m => m
  | .calloc num sz, m =>
      if num = 0 ∨ sz = 0 ∨ 2 ^ 64 ≤ num * sz then .reply (.pointer null) m
      else .allocate (num * sz) fun p m => memset m p 0 (num * sz)
  | .realloc p n, m =>
      if n = 0 then .reply (.pointer null) (if p = null then m else setState m (headerOf p) .free)
      else .allocate n fun q m' =>
        if p = null then m'
        else
          let oldUsable := usable (headerAt m (headerOf p))
          setState (memcpy m' q p (if oldUsable < n then oldUsable else n)) (headerOf p) .free
  | .free p, m => .reply .done (if p = null then m else setState m (headerOf p) .free)
  | .defrag, m => .reply .done m
  | .heapInfo, m => .reply .done m

variable {s s' t : Heap} {bs : List BlockHeader} {n num sz p : Nat}

theorem calloc_fits (hnum : num ≠ 0) (hsz : sz ≠ 0) (hfit : ¬2 ^ 64 ≤ num * sz) (s : Heap) :
    calloc num sz s = (malloc (num * sz) s).bind fun (ptr, s) =>
      if ptr = null then some (ptr, s) else some (ptr, { s with mem := memset s.mem ptr 0 (num * sz) }) := by
  have hdiv : ¬(2 ^ 64 - 1) / sz < num := by
    rw [Nat.not_lt, Nat.le_div_iff_mul_le (Nat.pos_of_ne_zero hsz)]
    omega
  simp only [calloc, hnum, hsz, or_self, if_false, if_neg hdiv, Nat.mod_eq_of_lt (Nat.lt_of_not_le hfit)]

def setMem (m : Memory) (s : Heap) : Heap := { s with mem := m }

theorem exec_plan {c : Call} (hc : Basic c) (s : Heap) : exec c s = (plan c s.mem).run Heap.mem setMem malloc s := by
  cases c with
  | malloc n =>
      by_cases hn : n = 0
      · subst hn
        rfl
      · simp only [exec, plan, if_neg hn, Plan.run, setMem, ite_self]
  | calloc num sz =>
      by_cases hzero : num = 0 ∨ sz = 0
      · have hplan : num = 0 ∨ sz = 0 ∨ 2 ^ 64 ≤ num * sz := hzero.imp_right .inl
        simp only [exec, plan, if_pos hplan, Plan.run, setMem, calloc, if_pos hzero, Option.bind_some]
      · obtain ⟨hnum, hsz⟩ := not_or.mp hzero
        by_cases hover : 2 ^ 64 ≤ num * sz
        · simp only [exec, plan, hnum, hsz, false_or, if_pos hover, Plan.run, setMem, calloc_overflow hnum hsz hover, Option.bind_some]
        · simp only [exec, plan, hnum, hsz, false_or, if_neg hover, calloc_fits hnum hsz hover, Plan.run, setMem, Option.bind_assoc]
          congr 1
          funext r
          obtain ⟨p, s'⟩ := r
          by_cases hp : p = 0 <;> simp [hp, null]
  | realloc p n =>
      by_cases hp : p = null
      · subst hp
        by_cases hn : n = 0
        · subst hn
          rfl
        · simp only [exec, plan, if_neg hn, realloc, if_true, Plan.run, setMem, ite_self]
      · by_cases hn : n = 0
        · simp only [exec, plan, if_pos hn, realloc, if_neg hp, free, Plan.run, setMem, Option.bind_some]
        · simp only [exec, plan, if_neg hn, realloc, if_neg hp, Plan.run, setMem, Option.bind_assoc]
          congr 1
          funext r
          obtain ⟨q, s'⟩ := r
          by_cases hq : q = 0 <;> simp [hq, null, free, show p ≠ 0 from hp]
  | free p =>
      by_cases hp : p = null <;> simp [exec, plan, free, Plan.run, setMem, hp]
  | defrag => exact hc.elim
  | heapInfo => exact hc.elim

theorem plan_request {c : Call} {m : Memory} {after : Nat → Memory → Memory} (h : plan c m = .allocate n after) :
    c.request = some n ∧ n ≠ 0 ∧ ¬c.Overflows := by
  cases c with
  | malloc k =>
      by_cases hk : k = 0
      · simp [plan, hk] at h
      · obtain ⟨rfl, -⟩ : k = n ∧ _ := by simpa only [plan, if_neg hk, Plan.allocate.injEq] using h
        exact ⟨rfl, hk, id⟩
  | calloc num sz =>
      by_cases hzero : num = 0 ∨ sz = 0 ∨ 2 ^ 64 ≤ num * sz
      · simp only [plan, if_pos hzero, reduceCtorEq] at h
      · obtain ⟨rfl, -⟩ : num * sz = n ∧ _ := by simpa only [plan, if_neg hzero, Plan.allocate.injEq] using h
        simp only [not_or] at hzero
        exact ⟨rfl, Nat.mul_ne_zero hzero.1 hzero.2.1, hzero.2.2⟩
  | realloc p k =>
      by_cases hk : k = 0
      · simp [plan, hk] at h
      · obtain ⟨rfl, -⟩ : k = n ∧ _ := by simpa only [plan, if_neg hk, Plan.allocate.injEq] using h
        exact ⟨rfl, hk, id⟩
  | free | defrag | heapInfo => cases h

def process : Process library where
  start := Heap.managedMemoryStart
  stop := Heap.lastValidAddress
  programBreak s := s.breaks.programBreak
  sbrk := sbrk
  malloc := malloc
  setMem := setMem
  plan := plan
  exec_plan := exec_plan
  plan_request := plan_request
  mem_setMem _ _ := rfl
  setMem_setMem _ _ _ := rfl
  store_eq _ _ _ := rfl
  start_setMem _ _ := rfl
  stop_setMem _ _ := rfl
  programBreak_setMem _ _ := rfl

/-- A `malloc` of `n` bytes that finds no block and gets more memory from the kernel. -/
def Grows (n : Nat) (s : Heap) : Prop :=
  (∃ cur ∈ firstFit s.mem (init s).lastValidAddress (blockSize n) (init s).managedMemoryStart,
    (init s).lastValidAddress ≤ cur) ∧
  s.breaks.programBreak + blockSize n < memsizeVirtual - pageSize

/-- The heap ends at the program break, which is aligned. -/
def EndsAtBreak (s : Heap) : Prop :=
  (init s).lastValidAddress = s.breaks.programBreak ∧ s.breaks.programBreak % 8 = 0

/-- The calls that do not wrap, and that grow the heap only where it ends at the
program break. -/
structure Calm (s : Heap) (c : Call) : Prop where
  bound : ∀ n ∈ c.request, Sound n s ∨ c.Overflows
  owned : ∀ n ∈ c.request, Grows n s → EndsAtBreak s

instance (n : Nat) (s : Heap) : Decidable (Grows n s) := inferInstanceAs (Decidable (_ ∧ _))

instance (s : Heap) : Decidable (EndsAtBreak s) := inferInstanceAs (Decidable (_ ∧ _))

instance (n : Nat) (s : Heap) : Decidable (Sound n s) := inferInstanceAs (Decidable (_ < _))

instance (s : Heap) (c : Call) : Decidable (Calm s c) :=
  decidable_of_iff ((∀ n ∈ c.request, Sound n s ∨ c.Overflows) ∧ ∀ n ∈ c.request, Grows n s → EndsAtBreak s)
    ⟨fun h => ⟨h.1, h.2⟩, fun h => ⟨h.bound, h.owned⟩⟩

/-- `t` is the heap of a program that never moves the break: the statics are the
same, unless the heap of `s` is empty. -/
structure Shadow (t s : Heap) : Prop where
  mem : t.mem = s.mem
  started : t.initialized = true → s = { t with breaks := s.breaks }
  unstarted : t.initialized = false → s.managedMemoryStart = s.lastValidAddress
  end_le : s.lastValidAddress ≤ s.breaks.programBreak
  break_le : t.breaks.programBreak ≤ s.breaks.programBreak
  original : t.breaks.originalBreak = s.breaks.originalBreak

theorem grow_refused (hsize : Sound n s) (hroom : ¬s.breaks.programBreak + blockSize n < memsizeVirtual - pageSize) :
    grow (blockSize n) (padding n) s = (null, s) := by
  have hle := s.breaks.le_programBreak
  have hlim := limit_eq
  simp only [Sound] at hsize
  have hout : (s.breaks.programBreak + blockSize n) % 2 ^ 64 < s.breaks.originalBreak ∨
      memsizeVirtual - pageSize ≤ (s.breaks.programBreak + blockSize n) % 2 ^ 64 := by omega
  simp only [grow, sbrk, sbrk_fail _ hout, if_pos]

theorem grow_granted (hroom : s.breaks.programBreak + blockSize n < memsizeVirtual - pageSize)
    (hend : s.lastValidAddress = s.breaks.programBreak) :
    ∃ p s', grow (blockSize n) (padding n) s = (p, s') ∧ s'.initialized = s.initialized ∧
      s'.managedMemoryStart = s.managedMemoryStart ∧ s'.lastValidAddress = s.lastValidAddress + blockSize n ∧
      s'.breaks.programBreak = s.breaks.programBreak + blockSize n := by
  have hle := s.breaks.le_programBreak
  have hlim := limit_eq
  have hnew : (s.breaks.programBreak + blockSize n) % 2 ^ 64 = s.breaks.programBreak + blockSize n := by omega
  have hsbrk := sbrk_ok s.breaks (by rw [hnew]; omega) (by rwa [hnew])
  have hne : s.breaks.programBreak ≠ 2 ^ 64 - 1 := by omega
  simp only [grow, sbrk, hsbrk, if_neg hne]
  refine ⟨_, _, rfl, rfl, rfl, ?_, hnew⟩
  simp only
  omega

theorem malloc_last (hn : n ≠ 0) (hsize : Sound n s)
    (hwalk : firstFit s.mem (init s).lastValidAddress (blockSize n) (init s).managedMemoryStart =
      some (init s).lastValidAddress) : malloc n s = some (grow (blockSize n) (padding n) (init s)) := by
  have hlt : blockSize n < 2 ^ 64 := Nat.lt_of_le_of_lt (Nat.le_add_right _ _) hsize
  obtain ⟨hB, hslop⟩ := roundUp_exact hlt
  simp only [malloc, if_neg hn, hB, hslop, init_mem, hwalk, Option.bind_some, Nat.lt_irrefl, if_false]

theorem init_grown (s : Heap) : process.Grown s (init s) := by
  have hbreak : process.programBreak (init s) = process.programBreak s := congrArg Breaks.programBreak (init_breaks s)
  refine ⟨Nat.le_of_eq hbreak.symm, fun x hlo hhi => ?_⟩
  cases hi : s.initialized with
  | true =>
      rw [init_eq hi] at hlo hhi
      exact .inl ⟨hlo, hhi⟩
  | false =>
      rw [init_eq' hi] at hlo hhi
      exact absurd hhi (Nat.not_lt.mpr hlo)

namespace Shadow

variable (h : Shadow t s)
include h

theorem breaks_eq (hp : t.breaks.programBreak = s.breaks.programBreak) (hi : t.initialized = true) : t = s := by
  rw [h.started hi, ← Breaks.ext h.original hp]

theorem sound (hsize : Sound n s) : Sound n t := by
  have hle := h.break_le
  have ho := h.original
  simp only [Sound] at *
  omega

theorem init : Shadow t (init s) := by
  cases hi : s.initialized with
  | true => rwa [init_eq hi]
  | false =>
      have ht : t.initialized = false := by
        by_contra hne
        rw [h.started (by simpa using hne)] at hi
        exact hne hi
      rw [init_eq' hi]
      exact ⟨h.mem, fun hf => absurd (ht.symm.trans hf) (by decide), fun _ => rfl, Nat.le_refl _, h.break_le, h.original⟩

omit h in
theorem self (hi : s.initialized = true) (hend : s.lastValidAddress ≤ s.breaks.programBreak) : Shadow s s :=
  ⟨rfl, fun _ => rfl, fun hf => absurd (hi.symm.trans hf) (by decide), hend, Nat.le_refl _, rfl⟩

theorem followed_last (hn : n ≠ 0) (hsize : Sound n s) (howned : Grows n s → EndsAtBreak s)
    (hwalk : firstFit s.mem (CMalloc.init s).lastValidAddress (blockSize n) (CMalloc.init s).managedMemoryStart =
      some (CMalloc.init s).lastValidAddress)
    (hsame : EndsAtBreak s → ∃ t', Shadow t' s ∧ WF t' ∧ (∀ l, Owns False t l → Owns False t' l) ∧
      malloc n t' = malloc n s) :
    process.Followed Shadow (contract False) n t s := by
  have hrun := malloc_last hn hsize hwalk
  have hbreak : (CMalloc.init s).breaks.programBreak = s.breaks.programBreak := by rw [init_breaks]
  by_cases hroom : s.breaks.programBreak + blockSize n < memsizeVirtual - pageSize
  · obtain ⟨hend, hmod⟩ := howned ⟨⟨_, hwalk, Nat.le_refl _⟩, hroom⟩
    obtain ⟨t', hsh, hwf, howns, ht⟩ := hsame ⟨hend, hmod⟩
    obtain ⟨p, s', hgrow, hinit, hstart, hlast, hnew⟩ :=
      grow_granted (s := CMalloc.init s) (by rwa [hbreak]) (hend.trans hbreak.symm)
    rw [hgrow] at hrun
    rw [hbreak] at hnew
    rw [hend] at hlast
    refine .grown t' p s' hsh hwf howns (ht.trans hrun) hrun
      (self (hinit.trans (init_initialized s)) (Nat.le_of_eq (hlast.trans hnew.symm)))
      ((init_grown s).trans ⟨?_, fun x hlo hhi => ?_⟩)
    · exact Nat.le_trans (Nat.le_of_eq hbreak) (Nat.le_trans (Nat.le_add_right _ _) (Nat.le_of_eq hnew.symm))
    · simp only [process] at *
      omega
  · rw [grow_refused (by rwa [Sound, init_breaks]) (by rwa [hbreak])] at hrun
    exact .refused (CMalloc.init s) hrun h.init (init_grown s)

theorem followed_started (hwf : WellFormed t bs) (hi : t.initialized = true) (hn : n ≠ 0) (hsize : Sound n s)
    (howned : Grows n s → EndsAtBreak s) : process.Followed Shadow (contract False) n t s := by
  have hs := h.started hi
  have hsi : s.initialized = true := by rw [hs, hi]
  have hlast : s.lastValidAddress = t.lastValidAddress := by rw [hs]
  have hstart : s.managedMemoryStart = t.managedMemoryStart := by rw [hs]
  obtain ⟨hB, hslop⟩ := roundUp_exact (Nat.lt_of_le_of_lt (Nat.le_add_right _ _) hsize)
  have hwalk := firstFit_eq hwf (blockSize n)
  rw [h.mem, ← hlast, ← hstart] at hwalk
  rcases scan_cases (fun b => ¬fits (blockSize n) b) bs with ⟨-, htake⟩ | ⟨xs, b, ys, rfl, htake, -, -⟩
  · have hend := hwf.tiles.end_eq
    rw [htake, hstart, ← hend, ← hlast] at hwalk
    refine h.followed_last hn hsize howned (by rwa [init_eq hsi, hstart]) fun ⟨hbreak, hmod⟩ => ?_
    rw [init_eq hsi, hlast, hwf.last_eq hi] at hbreak
    obtain rfl := h.breaks_eq hbreak hi
    exact ⟨t, h, ⟨bs, hwf⟩, fun _ hl => hl, rfl⟩
  · have hat : t.At (xs ++ b :: ys) (t.managedMemoryStart + layout.total xs) b :=
      at_append.mpr (.inr (.inl ⟨rfl, rfl⟩))
    have hlt : t.managedMemoryStart + layout.total xs < t.lastValidAddress := by
      have hbd := hwf.bounds hat
      have hge := (hwf.valid b hat.mem).size_ge
      omega
    rw [htake, hstart, hlast] at hwalk
    apply Process.Followed.inPlace (payloadOf (t.managedMemoryStart + layout.total xs))
      (place s.mem (t.managedMemoryStart + layout.total xs) (blockSize n) (padding n))
    · simp only [process, malloc, if_neg hn, init_eq hi, hB, hslop, h.mem, hwalk, Option.bind_some, if_pos hlt, setMem]
    · simp only [process, malloc, if_neg hn, init_eq hsi, hB, hslop, hlast, hstart, hwalk, Option.bind_some, if_pos hlt,
        setMem]

theorem followed_unstarted (hi : t.initialized = false) (hn : n ≠ 0) (hsize : Sound n s)
    (howned : Grows n s → EndsAtBreak s) : process.Followed Shadow (contract False) n t s := by
  have hempty : (CMalloc.init s).managedMemoryStart = (CMalloc.init s).lastValidAddress := h.init.unstarted hi
  refine h.followed_last hn hsize howned ?_ fun ⟨hbreak, hmod⟩ => ?_
  · rw [hempty]
    exact Loop.whileM_done _ _ fun hlt => absurd hlt.1 (Nat.lt_irrefl _)
  · -- the heap as it was before `init`, in a process with the present break
    let t' : Heap := ⟨s.mem, false, 0, 0, s.breaks⟩
    have hinit : CMalloc.init t' = CMalloc.init s := by
      rw [init_eq' rfl]
      cases hsi : s.initialized with
      | false => rw [init_eq' hsi]
      | true =>
          rw [init_eq hsi] at hbreak hempty ⊢
          rw [← hbreak]
          nth_rewrite 1 [← hempty]
          rw [← hsi]
    have hnone : ∀ l, Owns False t l → Owns False t' l := fun l hl => absurd (hl.initialized.symm.trans hi) (by decide)
    refine ⟨t', ⟨rfl, (fun hf => by cases hf), fun _ => h.unstarted hi, h.end_le, Nat.le_refl _, rfl⟩,
      ⟨[], rfl, by simp, (fun hf => by cases hf), fun _ => ⟨rfl, rfl⟩, hmod⟩, hnone, ?_⟩
    rw [malloc_init hn, hinit, ← malloc_init hn]

theorem followed (hwf : WF t) (hn : n ≠ 0) (hsize : Sound n s) (howned : Grows n s → EndsAtBreak s) :
    process.Followed Shadow (contract False) n t s := by
  obtain ⟨bs, hwf⟩ := hwf
  cases hi : t.initialized with
  | true => exact h.followed_started hwf hi hn hsize howned
  | false => exact h.followed_unstarted hi hn hsize howned

theorem region (hwf : WF t) {x : Nat} (hlo : t.managedMemoryStart ≤ x) (hhi : x < t.lastValidAddress) :
    s.managedMemoryStart ≤ x ∧ x < s.lastValidAddress := by
  obtain ⟨bs, hwf⟩ := hwf
  cases hi : t.initialized with
  | true =>
      rw [h.started hi]
      exact ⟨hlo, hhi⟩
  | false =>
      obtain ⟨-, hlast⟩ := hwf.unused hi
      omega

theorem sbrk (hn : n < 2 ^ 63) (hok : (CMalloc.sbrk n s).1 ≠ 2 ^ 64 - 1) :
    (CMalloc.sbrk n s).1 = s.breaks.programBreak ∧ Shadow t (CMalloc.sbrk n s).2 ∧
      (CMalloc.sbrk n s).2.breaks.programBreak = s.breaks.programBreak + n := by
  have hlt := s.breaks.lt_limit
  have hnew : (s.breaks.programBreak + n) % 2 ^ 64 = s.breaks.programBreak + n := by omega
  obtain ⟨ho, hl⟩ : s.breaks.originalBreak ≤ (s.breaks.programBreak + n) % 2 ^ 64 ∧
      (s.breaks.programBreak + n) % 2 ^ 64 < memsizeVirtual - pageSize := by
    by_contra hout
    exact hok (by rw [CMalloc.sbrk, sbrk_fail s.breaks (by omega)])
  have hend := h.end_le
  have hle := h.break_le
  simp only [CMalloc.sbrk, sbrk_ok s.breaks ho hl]
  refine ⟨trivial, ⟨h.mem, fun hi => ?_, h.unstarted, ?_, ?_, h.original⟩, hnew⟩
  · exact congrArg (fun u => { u with breaks := ⟨s.breaks.originalBreak, _, ho, hl⟩ }) (h.started hi)
  · simp only
    omega
  · simp only
    omega

end Shadow

theorem store_out {a : Nat} {v : UInt8} (hwf : WF t) (hout : ¬(t.managedMemoryStart ≤ a ∧ a < t.lastValidAddress)) :
    WF (library.store a v t) ∧ ∀ l, Owns False t l → Owns False (library.store a v t) l := by
  obtain ⟨bs, hwf⟩ := hwf
  have hwf' : WellFormed (library.store a v t) bs := by
    refine hwf.withMem ⟨hwf.tiles.frame fun a' b hb x hx hx' => Function.update_of_ne ?_ _ _, hwf.valid⟩
    have hbd := hwf.bounds hb
    have hge := (hwf.valid b hb.mem).size_ge
    simp only [layout_width] at hx'
    omega
  refine ⟨⟨bs, hwf'⟩, fun l hl => ?_⟩
  obtain ⟨a', b, hb, hholds⟩ := hl.block hwf
  exact ⟨bs, a', b, hwf', hb, hholds⟩

def simulation : process.Simulation (contract False) where
  Calm := Calm
  Shadow := Shadow
  mem_eq h := h.mem
  region h hwf hlo hhi := h.region hwf hlo hhi
  stop_le h := h.end_le
  shadow_setMem m h := ⟨rfl, fun hi => congrArg (setMem m) (h.started hi), h.unstarted, h.end_le, h.break_le, h.original⟩
  admits h _ hc := ⟨fun n hn => (hc.bound n hn).imp_left h.sound, False.elim⟩
  malloc_ok h hwf hc hreq hn hover := h.followed hwf hn ((hc.bound _ hreq).resolve_right hover) (hc.owned _ hreq)
  store_out := store_out
  sbrk_ok h hn hok :=
    have hs := h.sbrk hn hok
    ⟨hs.1, hs.2.1, hs.2.2, rfl, rfl⟩

/-- A process that has neither called the library nor moved its break. -/
def fresh (m : Memory) (p : Breaks) : BreakSharing.Sys Heap := ⟨⟨m, false, null, null, p⟩, [], []⟩

/-- The allocator tolerates the program's own ranges: a header walk meets valid
headers only and ends, every live pointer is aligned and has a block, and
neither the blocks nor the rest of the heap have a byte of a range of the program. -/
structure Tolerant (s : BreakSharing.Sys Heap) (bs : List BlockHeader) : Prop where
  walk : layout.Tiles s.heap.mem s.heap.managedMemoryStart bs s.heap.lastValidAddress
  headers : ∀ b ∈ bs, (∃ st : BlockState, b.state = st.code) ∧ b.size % 8 = 0 ∧ 16 ≤ b.size
  ends : ∀ (q : BlockHeader → Prop) [DecidablePred q], ∃ cur,
    layout.scan q s.heap.mem s.heap.lastValidAddress s.heap.managedMemoryStart = some cur ∧
      (cur = s.heap.lastValidAddress ∨ ∃ b, s.heap.At bs cur b)
  live : ∀ l ∈ s.live, l.ptr % 8 = 0 ∧ 8 ≤ l.ptr ∧ ∃ b, s.heap.At bs (l.ptr - 8) b ∧ l.req + 8 ≤ b.size ∧
    ∀ r ∈ s.own, ∀ x, l.ptr - 8 ≤ x → x < l.ptr - 8 + b.size → ¬r.Contains x
  apart : ∀ r ∈ s.own, ∀ x, s.heap.managedMemoryStart ≤ x → x < s.heap.lastValidAddress → ¬r.Contains x

variable {m : Memory} {q : Breaks} {u : BreakSharing.Sys Heap}

theorem fresh_inv (m : Memory) (h8 : q.programBreak % 8 = 0) : simulation.Inv (fresh m q) where
  shadow := ⟨_, ⟨rfl, fun _ => rfl, fun _ => rfl, Nat.zero_le _, Nat.le_refl _, rfl⟩, start_inv m h8 False⟩
  below _ hr := absurd hr List.not_mem_nil
  apart _ hr := absurd hr List.not_mem_nil

theorem Shadow.consistent {live : List Alloc} (h : Shadow t s) (hinv : (contract False).Inv ⟨t, live⟩) :
    ∃ bs, layout.Tiles s.mem s.managedMemoryStart bs s.lastValidAddress ∧ (∀ b ∈ bs, b.Valid) ∧
      s.lastValidAddress < 2 ^ 64 ∧
      ∀ l ∈ live, l.ptr % 8 = 0 ∧ 8 ≤ l.ptr ∧ ∃ b, s.At bs (l.ptr - 8) b ∧ l.req + 8 ≤ b.size := by
  obtain ⟨bs, hwf⟩ := hinv.wf
  have hlt : s.lastValidAddress < 2 ^ 64 :=
    Nat.lt_of_le_of_lt h.end_le (Nat.lt_trans s.breaks.lt_limit (by decide))
  cases hi : t.initialized with
  | true =>
      obtain ⟨bs', hc⟩ := consistent_of_inv hinv
      obtain rfl := hc.walk.unique hwf.tiles (fun b hb => Nat.lt_of_lt_of_le (by decide) (hc.headers b hb).2.2) hwf.positive
      refine ⟨bs', ?_, hwf.valid, hlt, ?_⟩
      · rw [h.started hi]
        exact hwf.tiles
      · rw [h.started hi]
        exact hc.live
  | false =>
      refine ⟨[], h.unstarted hi, by simp, hlt, fun l hl => ?_⟩
      exact absurd ((hinv.owns l hl).initialized.symm.trans hi) (by decide)

theorem tolerant_of_inv (h : simulation.Inv u) : ∃ bs, Tolerant u bs := by
  obtain ⟨t, hshadow, hinv⟩ := h.shadow
  obtain ⟨bs, htiles, hvalid, hlt, hlive⟩ := Shadow.consistent hshadow hinv
  have hregion : BlockHeap.Region format u.heap.mem u.heap.managedMemoryStart bs u.heap.lastValidAddress :=
    ⟨htiles, hvalid⟩
  refine ⟨bs, htiles, fun b hb => ⟨(hvalid b hb).state, (hvalid b hb).size_mod, (hvalid b hb).size_ge⟩,
    fun q _ => hregion.scan_ends hlt q, fun l hl => ?_, h.apart⟩
  · obtain ⟨hmod, hle, b, hb, hroom⟩ := hlive l hl
    refine ⟨hmod, hle, b, hb, hroom, fun r hr x hlo hhi => h.apart r hr x ?_ ?_⟩
    · exact Nat.le_trans (hregion.bounds hb).1 hlo
    · exact Nat.lt_of_lt_of_le hhi (hregion.bounds hb).2

end WeensyOS.CMalloc
