import WeensyOS.Kernel.BreakCalls
import WeensyOS.Kernel.Exceptions

namespace WeensyOS.Kernel

open ByteMemory LibC ProgramBreak

def Live (s : Machine) (p : Nat) : Prop := (s.processes p).pState ≠ .free

/-- The physical page is in use, and `p` owns it. -/
structure Keeps (s : Machine) (p pn : Nat) : Prop where
  lt : pn < npages
  owner : (s.pageinfo pn).owner = p
  refcount : 1 ≤ (s.pageinfo pn).refcount

/-- The page is in use by the kernel, or reserved. -/
structure SystemPage (s : Machine) (pn : Nat) : Prop where
  lt : pn < npages
  owner : (s.pageinfo pn).owner < 0
  refcount : 1 ≤ (s.pageinfo pn).refcount

/-- The page holds a page table of `p`. -/
def IsTable (s : Machine) (p pn : Nat) : Prop :=
  ∃ a < memsizeVirtual, ∃ i < 4, Reaches s.mem (s.processes p).pPagetable a i ∧
    tableAt s.mem (s.processes p).pPagetable a i = pn * pageSize

/-- The page is mapped at an address that `p` may use. -/
structure UserMaps (s : Machine) (p a pn : Nat) : Prop where
  lt : a < memsizeVirtual
  page : mappedPage s.mem (s.processes p).pPagetable a = some pn
  user : procStartAddr ≤ a ∨ (s.processes p).originalBreak ≤ a ∨
    levelEntry s.mem (s.processes p).pPagetable a 3 &&& pteU ≠ 0

/-- The page is mapped between the first address of the heap and the stack page. -/
structure HeapMaps (s : Machine) (p a pn : Nat) : Prop where
  le : (s.processes p).originalBreak ≤ a
  lt : a < memsizeVirtual - pageSize
  page : mappedPage s.mem (s.processes p).pPagetable a = some pn

/-- A heap page: it lies below the break, its process has it alone, and it is mapped once. -/
structure HeapPage (s : Machine) (p a pn : Nat) : Prop where
  below : a < roundUp (s.processes p).programBreak pageSize
  lt : pn < npages
  info : s.pageinfo pn = ⟨p, 1⟩
  noTable : ¬IsTable s p pn
  once : ∀ a', UserMaps s p a' pn → a' / 4096 = a / 4096

/-- What holds of the memory of a process. -/
structure ProcOk (s : Machine) (p : Nat) : Prop where
  aligned : (s.processes p).originalBreak % pageSize = 0
  le : (s.processes p).originalBreak ≤ (s.processes p).programBreak
  lt : (s.processes p).programBreak < memsizeVirtual - pageSize
  shape : Shape s.mem (s.processes p).pPagetable memsizeVirtual
  tables : ∀ pn, IsTable s p pn → Keeps s p pn
  user : ∀ a pn, UserMaps s p a pn → Keeps s p pn ∨ SystemPage s pn
  heap : ∀ a pn, HeapMaps s p a pn → HeapPage s p a pn

section Basics

variable {s s' : Machine} {p q a pn : Nat}

theorem HeapMaps.userMaps (h : HeapMaps s p a pn) : UserMaps s p a pn :=
  ⟨Nat.lt_of_lt_of_le h.lt (Nat.sub_le _ _), h.page, .inr (.inl h.le)⟩

theorem HeapPage.keeps (h : HeapPage s p a pn) : Keeps s p pn where
  lt := h.lt
  owner := by rw [h.info]
  refcount := by rw [h.info]

theorem Keeps.not_system (h : Keeps s p pn) : ¬SystemPage s pn := by
  intro hs
  have howner := hs.owner
  rw [h.owner] at howner
  omega

theorem Keeps.inj (h : Keeps s p pn) (h' : Keeps s q pn) : p = q := by
  have howner := h.owner
  rw [h'.owner] at howner
  omega

theorem Keeps.congr (h : Keeps s p pn) (hinfo : s'.pageinfo pn = s.pageinfo pn) : Keeps s' p pn where
  lt := h.lt
  owner := by rw [hinfo, h.owner]
  refcount := by rw [hinfo]; exact h.refcount

theorem SystemPage.congr (h : SystemPage s pn) (hinfo : s'.pageinfo pn = s.pageinfo pn) : SystemPage s' pn where
  lt := h.lt
  owner := by rw [hinfo]; exact h.owner
  refcount := by rw [hinfo]; exact h.refcount

theorem NewPage.Free.not_keeps {page : NewPage} (h : page.Free s) : ¬Keeps s p page.number := by
  intro hk
  have hone := hk.refcount
  rw [h.2.2] at hone
  omega

theorem NewPage.Free.not_system {page : NewPage} (h : page.Free s) : ¬SystemPage s page.number := by
  intro hk
  have hone := hk.refcount
  rw [h.2.2] at hone
  omega

theorem ProcOk.table (h : ProcOk s p) {i : Nat} (ha : a < memsizeVirtual) (hi : i < 4)
    (hr : Reaches s.mem (s.processes p).pPagetable a i) :
    ∃ pn, tableAt s.mem (s.processes p).pPagetable a i = pn * pageSize ∧ IsTable s p pn := by
  obtain ⟨pn, hpn⟩ := tableAt_dvd h.shape.aligned s.mem a i
  have hpage : tableAt s.mem (s.processes p).pPagetable a i = pn * pageSize := hpn.trans (Nat.mul_comm _ _)
  exact ⟨pn, hpage, a, ha, i, hi, hr, hpage⟩

end Basics

/-- A step has left the tables of `p` alone, and `p` has the pages that it had. -/
structure TablesKept (s s' : Machine) (p : Nat) : Prop where
  proc : s'.processes p = s.processes p
  info : ∀ pn, Keeps s p pn → s'.pageinfo pn = s.pageinfo pn
  bytes : ∀ pn, IsTable s p pn → SamePage s.mem s'.mem (pn * pageSize)

section TablesKept

variable {s s' : Machine} {p a pn : Nat} (hok : ProcOk s p) (h : TablesKept s s' p)
include hok h

theorem TablesKept.samePage {i : Nat} (ha : a < memsizeVirtual) (hi : i < 4)
    (hr : Reaches s.mem (s.processes p).pPagetable a i) :
    SamePage s.mem s'.mem (tableAt s.mem (s.processes p).pPagetable a i) := by
  obtain ⟨pn, hpn, htable⟩ := hok.table ha hi hr
  rw [hpn]
  exact h.bytes pn htable

theorem TablesKept.path {k : Nat} (ha : a < memsizeVirtual) (hk : k ≤ 4) :
    (Reaches s'.mem (s.processes p).pPagetable a k ↔ Reaches s.mem (s.processes p).pPagetable a k) ∧
      (Reaches s.mem (s.processes p).pPagetable a k →
        tableAt s'.mem (s.processes p).pPagetable a k = tableAt s.mem (s.processes p).pPagetable a k) :=
  path_congr fun _ hj hr => h.samePage hok ha (Nat.lt_of_lt_of_le hj hk) hr

theorem TablesKept.levelEntry {i : Nat} (ha : a < memsizeVirtual) (hi : i < 4)
    (hr : Reaches s.mem (s.processes p).pPagetable a i) :
    Kernel.levelEntry s'.mem (s.processes p).pPagetable a i = Kernel.levelEntry s.mem (s.processes p).pPagetable a i :=
  levelEntry_congr (fun _ hj hr => h.samePage hok ha (Nat.lt_of_le_of_lt hj hi) hr) hr

theorem TablesKept.sameUpper : SameUpper s.mem s'.mem (s.processes p).pPagetable memsizeVirtual :=
  fun _ ha _ hi hr => h.samePage hok ha (Nat.lt_succ_of_lt hi) hr

theorem TablesKept.mappedPage (ha : a < memsizeVirtual) :
    Kernel.mappedPage s'.mem (s.processes p).pPagetable a = Kernel.mappedPage s.mem (s.processes p).pPagetable a := by
  obtain ⟨hreach, htable⟩ := h.path hok ha (Nat.le_refl 4)
  by_cases hr : Reaches s.mem (s.processes p).pPagetable a 4
  · rw [mappedPage_eq_some.mpr ⟨hr, rfl⟩]
    exact mappedPage_eq_some.mpr ⟨hreach.mpr hr, by rw [htable hr]⟩
  · rw [mappedPage_eq_none.mpr hr]
    exact mappedPage_eq_none.mpr fun h' => hr (hreach.mp h')

theorem TablesKept.isTable (ht : IsTable s' p pn) : IsTable s p pn := by
  obtain ⟨a, ha, i, hi, hr, htable⟩ := ht
  rw [h.proc] at hr htable
  obtain ⟨hreach, hsame⟩ := h.path hok ha (Nat.le_of_lt hi)
  exact ⟨a, ha, i, hi, hreach.mp hr, (hsame (hreach.mp hr)).symm.trans htable⟩

theorem TablesKept.userMaps (hu : UserMaps s' p a pn) : UserMaps s p a pn := by
  obtain ⟨ha, hpage, huser⟩ := hu
  rw [h.proc, h.mappedPage hok ha] at hpage
  rw [h.proc] at huser
  refine ⟨ha, hpage, huser.imp_right fun hor => hor.imp_right fun hu => ?_⟩
  have hr : Reaches s.mem (s.processes p).pPagetable a 3 := (mappedPage_eq_some.mp hpage).1.mono (by decide)
  rwa [h.levelEntry hok ha (by decide) hr] at hu

theorem ProcOk.kept (hsystem : ∀ pn, SystemPage s pn → s'.pageinfo pn = s.pageinfo pn) : ProcOk s' p where
  aligned := by rw [h.proc]; exact hok.aligned
  le := by rw [h.proc]; exact hok.le
  lt := by rw [h.proc]; exact hok.lt
  shape := by rw [h.proc]; exact Shape.congr (h.sameUpper hok) hok.shape
  tables pn ht := by
    have hk := hok.tables pn (h.isTable hok ht)
    exact hk.congr (h.info pn hk)
  user a pn hu := by
    rcases hok.user a pn (h.userMaps hok hu) with hk | hs
    · exact .inl (hk.congr (h.info pn hk))
    · exact .inr (hs.congr (hsystem pn hs))
  heap a pn hm := by
    obtain ⟨hle, hlt, hpage⟩ := hm
    rw [h.proc] at hle hpage
    rw [h.mappedPage hok (Nat.lt_of_lt_of_le hlt (Nat.sub_le _ _))] at hpage
    have hp := hok.heap a pn ⟨hle, hlt, hpage⟩
    refine ⟨?_, hp.lt, ?_, fun ht => hp.noTable (h.isTable hok ht), fun a' hu => hp.once a' (h.userMaps hok hu)⟩
    · rw [h.proc]
      exact hp.below
    · rw [h.info pn hp.keeps, hp.info]

end TablesKept

/-- A step has left the pages of `p` alone. -/
structure Untouched (s s' : Machine) (p : Nat) : Prop where
  proc : s'.processes p = s.processes p
  info : ∀ pn, Keeps s p pn → s'.pageinfo pn = s.pageinfo pn
  bytes : ∀ pn, Keeps s p pn → SamePage s.mem s'.mem (pn * pageSize)

section Untouched

variable {s s' s'' : Machine} {p a pn : Nat}

theorem Untouched.trans (h : Untouched s s' p) (h' : Untouched s' s'' p) : Untouched s s'' p where
  proc := h'.proc.trans h.proc
  info pn hk := (h'.info pn (hk.congr (h.info pn hk))).trans (h.info pn hk)
  bytes pn hk x hx hx' := (h'.bytes pn (hk.congr (h.info pn hk)) x hx hx').trans (h.bytes pn hk x hx hx')

theorem Untouched.tables (h : Untouched s s' p) (hok : ProcOk s p) : TablesKept s s' p where
  proc := h.proc
  info := h.info
  bytes pn ht := h.bytes pn (hok.tables pn ht)

end Untouched

/-- What one step of process `p` does to the memory of all processes. -/
structure Stepped (s s' : Machine) (p : Nat) : Prop where
  others : ∀ q, q ≠ p → Untouched s s' q
  system : ∀ pn, SystemPage s pn → s'.pageinfo pn = s.pageinfo pn
  self : Live s' p → ProcOk s' p

section Stepped

variable {s s' s'' : Machine} {p a pn : Nat}

theorem Stepped.refl (hok : ProcOk s p) : Stepped s s p where
  others _ _ := ⟨rfl, fun _ _ => rfl, fun _ _ _ _ _ => rfl⟩
  system _ _ := rfl
  self _ := hok

theorem Stepped.trans (h : Stepped s s' p) (h' : Stepped s' s'' p) : Stepped s s'' p where
  others q hq := (h.others q hq).trans (h'.others q hq)
  system pn hs := (h'.system pn (hs.congr (h.system pn hs))).trans (h.system pn hs)
  self := h'.self

theorem palloc_untouched {page : NewPage} (hfree : page.Free s) (q pid : Nat) : Untouched s (s.palloc page pid) q where
  proc := rfl
  info pn hk := by
    refine Function.update_of_ne ?_ _ _
    rintro rfl
    exact hfree.not_keeps hk
  bytes pn hk x hx hx' := by
    have hpage : pageSize = 4096 := rfl
    have hne : pn ≠ page.number := by
      rintro rfl
      exact hfree.not_keeps hk
    rw [hpage] at hx hx'
    refine if_neg ?_
    rw [hpage]
    omega

theorem palloc_system {page : NewPage} (hfree : page.Free s) (pid : Nat) (hs : SystemPage s pn) :
    (s.palloc page pid).pageinfo pn = s.pageinfo pn := by
  refine Function.update_of_ne ?_ _ _
  rintro rfl
  exact hfree.not_system hs

theorem palloc_stepped {page : NewPage} (hok : ProcOk s p) (hfree : page.Free s) : Stepped s (s.palloc page p) p where
  others q _ := palloc_untouched hfree q p
  system _ := palloc_system hfree p
  self _ := hok.kept ((palloc_untouched hfree p p).tables hok) fun _ => palloc_system hfree p

theorem exit_processes (s : Machine) (p q : Nat) (hq : q ≠ p) : (s.exit p).processes q = s.processes q := by
  simp [Machine.exit, Machine.processFree, Machine.setState, hq]

theorem exit_free (s : Machine) (p : Nat) : ¬Live (s.exit p) p := by
  simp [Live, Machine.exit, Machine.processFree, Machine.setState]

theorem exit_pageinfo (s : Machine) (p pn : Nat) (h : (s.pageinfo pn).owner ≠ p) :
    (s.exit p).pageinfo pn = s.pageinfo pn := if_neg h

theorem exit_owners (s : Machine) (p pn : Nat) : (s.exit p).pageinfo pn = s.pageinfo pn ∨
    ((s.exit p).pageinfo pn).owner = poFree := by
  by_cases hown : (s.pageinfo pn).owner = p
  · have hfreed : (s.exit p).pageinfo pn = ⟨poFree, 0⟩ := if_pos hown
    exact .inr (by rw [hfreed])
  · exact .inl (exit_pageinfo s p pn hown)

theorem exit_stepped (s : Machine) (p : Nat) : Stepped s (s.exit p) p where
  others q hq :=
    { proc := exit_processes s p q hq
      info := fun pn hk => exit_pageinfo s p pn (by rw [hk.owner]; omega)
      bytes := fun _ _ _ _ _ => rfl }
  system pn hs := exit_pageinfo s p pn (by have := hs.owner; omega)
  self h := absurd h (exit_free s p)

end Stepped

end WeensyOS.Kernel
