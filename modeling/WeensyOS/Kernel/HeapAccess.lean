import WeensyOS.Kernel.Isolation

namespace WeensyOS.Kernel

open ByteMemory LibC ProgramBreak

/-- The hardware lets user code access the address; virtual memory ends at `MEMSIZE_VIRTUAL`. -/
def Granted (s : Machine) (p a : Nat) (write : Bool) : Prop :=
  a < memsizeVirtual ∧ ∀ i < 4, levelEntry s.mem (s.processes p).pPagetable a i &&& pteP ≠ 0 ∧
    levelEntry s.mem (s.processes p).pPagetable a i &&& pteU ≠ 0 ∧
      (write = true → levelEntry s.mem (s.processes p).pPagetable a i &&& pteW ≠ 0)

instance (s : Machine) (p a : Nat) (write : Bool) : Decidable (Granted s p a write) :=
  inferInstanceAs (Decidable (_ ∧ ∀ i < 4, _))

def physicalAddress (s : Machine) (p a : Nat) : Nat := tableAt s.mem (s.processes p).pPagetable a 4 + pageOffset a

def loadByte (s : Machine) (p a : Nat) : UInt8 := s.mem (physicalAddress s p a)

def storeByte (s : Machine) (p a : Nat) (b : UInt8) : Machine :=
  { s with mem := Function.update s.mem (physicalAddress s p a) b }

/-- A user access that is not granted traps; the error code says whether an entry was missing. -/
def accessFault (s : Machine) (p a : Nat) (page : NewPage) : Option Machine :=
  pageFault s p a (decide ¬Reaches s.mem (s.processes p).pPagetable a 4) (some page)

inductive MemEvent where
  | brk (pid rdi : Nat)
  | sbrk (pid rdi : Nat)
  | load (pid a : Nat)
  | store (pid a : Nat) (b : UInt8)
  | fault (pid a : Nat) (write : Bool) (page : NewPage)

namespace MemEvent

def pid : MemEvent → Nat
  | brk pid _ => pid
  | sbrk pid _ => pid
  | load pid _ => pid
  | store pid _ _ => pid
  | fault pid _ _ _ => pid

/-- `palloc` never returns null here. -/
def Allowed (s : Machine) (e : MemEvent) : Prop :=
  e.pid < nproc ∧ (s.processes e.pid).pState = .runnable ∧
    match e with
    | brk _ rdi => rdi < 2 ^ 64
    | sbrk _ rdi => rdi < 2 ^ 64
    | load pid a => Granted s pid a false
    | store pid a _ => Granted s pid a true
    | fault pid a write page => ¬Granted s pid a write ∧ page.Free s

instance (s : Machine) (e : MemEvent) : Decidable (e.Allowed s) :=
  match e with
  | brk _ _ => inferInstanceAs (Decidable (_ ∧ _ ∧ _))
  | sbrk _ _ => inferInstanceAs (Decidable (_ ∧ _ ∧ _))
  | load _ _ => inferInstanceAs (Decidable (_ ∧ _ ∧ Granted ..))
  | store _ _ _ => inferInstanceAs (Decidable (_ ∧ _ ∧ Granted ..))
  | fault _ _ _ _ => inferInstanceAs (Decidable (_ ∧ _ ∧ ¬Granted .. ∧ _))

def step (s : Machine) : MemEvent → Option Machine
  | brk pid rdi => (sysBrk s pid rdi).map Prod.fst
  | sbrk pid rdi => (sysSbrk s pid rdi).map Prod.fst
  | load _ _ => some s
  | store pid a b => some (storeByte s pid a b)
  | fault pid a _ page => accessFault s pid a page

end MemEvent

/-- The byte that each process has stored last at an address of its heap, as long as
the page of the address has not been given up. -/
abbrev Cells := Nat → Nat → Option UInt8

/-- The abstract memory after the event; `s` is the state that the event leads to. -/
def Cells.after (c : Cells) (s : Machine) : MemEvent → Cells
  | .brk pid _ => fun q x => if q = pid ∧ roundUp (s.processes pid).programBreak pageSize ≤ x then none else c q x
  | .sbrk pid _ => fun q x => if q = pid ∧ roundUp (s.processes pid).programBreak pageSize ≤ x then none else c q x
  | .store pid a b => fun q x =>
      if q = pid ∧ x = a ∧ (s.processes pid).originalBreak ≤ a ∧ a < memsizeVirtual - pageSize then some b else c q x
  | .load _ _ => c
  | .fault _ _ _ _ => c

/-- The kernel and the processes, next to the abstract memory. -/
def memSystem : Runs.System (Machine × Cells) MemEvent where
  step c e := (e.step c.1).map fun s => (s, c.2.after s e)
  Allowed c e := e.Allowed c.1

instance (c : Machine × Cells) (e : MemEvent) : Decidable (memSystem.Allowed c e) :=
  inferInstanceAs (Decidable (e.Allowed c.1))

variable {s s' : Machine} {p a pn : Nat} {write : Bool} {c c' : Nat → Option UInt8}

/-- The heap of `p` holds what the abstract memory says. -/
structure HeapMem (s : Machine) (c : Nat → Option UInt8) (p : Nat) : Prop where
  tree : Tree s.mem (s.processes p).pPagetable memsizeVirtual
  full : ∀ a < memsizeVirtual, Reaches s.mem (s.processes p).pPagetable a 3
  safe : ∀ a pn, UserMaps s p a pn → ¬IsTable s p pn
  flags : ∀ a pn, HeapMaps s p a pn → levelEntry s.mem (s.processes p).pPagetable a 3 &&& pteW ≠ 0 ∧
    levelEntry s.mem (s.processes p).pPagetable a 3 &&& pteU ≠ 0
  content : ∀ a b, c a = some b → ∃ pn, HeapMaps s p a pn ∧ s.mem (pn * pageSize + pageOffset a) = b

section Access

theorem physicalAddress_eq {m : Memory} {pt : Nat} (hpage : mappedPage m pt a = some pn) :
    tableAt m pt a 4 = pn * pageSize := by
  obtain ⟨-, hpn⟩ := mappedPage_eq_some.mp hpage
  obtain ⟨t, ht⟩ : 4096 ∣ tableAt m pt a 4 := pteAddr_dvd _
  have hsize : pageSize = 4096 := rfl
  rw [hsize] at hpn ⊢
  omega

theorem Granted.reaches (h : Granted s p a write) : Reaches s.mem (s.processes p).pPagetable a 4 :=
  fun i hi => (h.2 i hi).1

/-- User code reaches user pages only. -/
theorem Granted.userMaps (h : Granted s p a write) : ∃ pn, UserMaps s p a pn ∧ physicalAddress s p a = pn * pageSize + pageOffset a := by
  have hpage := mappedPage_eq_some.mpr ⟨h.reaches, rfl⟩
  exact ⟨_, ⟨h.1, hpage, .inr (.inr (h.2 3 (by decide)).2.1)⟩, congrArg (· + pageOffset a) (physicalAddress_eq hpage)⟩

theorem TablesKept.granted (hok : ProcOk s p) (h : TablesKept s s' p) (hg : Granted s p a write) : Granted s' p a write := by
  refine ⟨hg.1, fun i hi => ?_⟩
  rw [h.proc, h.levelEntry hok hg.1 hi (hg.reaches.mono (Nat.le_of_lt hi))]
  exact hg.2 i hi

theorem HeapMem.granted (h : HeapMem s c p) (hm : HeapMaps s p a pn) (write : Bool) : Granted s p a write := by
  have hlt : a < memsizeVirtual := Nat.lt_of_lt_of_le hm.lt (Nat.sub_le _ _)
  have hr := (mappedPage_eq_some.mp hm.page).1
  refine ⟨hlt, fun i hi => ⟨hr i hi, ?_⟩⟩
  rcases Nat.lt_succ_iff_lt_or_eq.mp hi with hi | rfl
  · obtain ⟨hw, hu⟩ := h.tree.upper a hlt i hi (h.full a hlt |>.mono (Nat.succ_le_of_lt hi))
    exact ⟨hu, fun _ => hw⟩
  · obtain ⟨hw, hu⟩ := h.flags a pn hm
    exact ⟨hu, fun _ => hw⟩

theorem HeapMem.load (h : HeapMem s c p) {b : UInt8} (hc : c a = some b) : Granted s p a write ∧ loadByte s p a = b := by
  obtain ⟨pn, hm, hb⟩ := h.content a b hc
  refine ⟨h.granted hm write, ?_⟩
  rw [loadByte, physicalAddress, physicalAddress_eq hm.page, hb]

end Access

section Kept

/-- The tables of `p` are left alone, and its heap holds `c'` now. -/
theorem HeapMem.kept (h : HeapMem s c p) (hok : ProcOk s p) (hk : TablesKept s s' p)
    (hcontent : ∀ a b, c' a = some b → ∃ pn, HeapMaps s p a pn ∧ s'.mem (pn * pageSize + pageOffset a) = b) :
    HeapMem s' c' p where
  tree := by rw [hk.proc]; exact Tree.congr (hk.sameUpper hok) h.tree
  full a ha := by
    rw [hk.proc]
    exact (hk.path hok ha (by decide)).1.mpr (h.full a ha)
  safe a pn hu ht := h.safe a pn (hk.userMaps hok hu) (hk.isTable hok ht)
  flags a pn hm := by
    obtain ⟨hle, hlt, hpage⟩ := hm
    have ha : a < memsizeVirtual := Nat.lt_of_lt_of_le hlt (Nat.sub_le _ _)
    rw [hk.proc] at hle hpage
    rw [hk.mappedPage hok ha] at hpage
    rw [hk.proc, hk.levelEntry hok ha (by decide) (h.full a ha)]
    exact h.flags a pn ⟨hle, hlt, hpage⟩
  content a b hc := by
    obtain ⟨pn, hm, hb⟩ := hcontent a b hc
    refine ⟨pn, ⟨?_, hm.lt, ?_⟩, hb⟩
    · rw [hk.proc]
      exact hm.le
    · rw [hk.proc, hk.mappedPage hok (Nat.lt_of_lt_of_le hm.lt (Nat.sub_le _ _))]
      exact hm.page

/-- The steps of others change nothing. -/
theorem HeapMem.untouched (h : HeapMem s c p) (hok : ProcOk s p) (hu : Untouched s s' p) : HeapMem s' c p :=
  h.kept hok (hu.tables hok) fun a b hc => by
    obtain ⟨pn, hm, hb⟩ := h.content a b hc
    have hoffset : pageOffset a < 4096 := Nat.mod_lt _ (by decide)
    refine ⟨pn, hm, ?_⟩
    rw [hu.bytes pn (hok.heap a pn hm).keeps _ (Nat.le_add_right _ _) (Nat.add_lt_add_left hoffset _), hb]

end Kept

section OwnSteps

theorem HeapMem.moved {newBreak : Nat} (h : HeapMem s c p) (hok : ProcOk s p) (hl : newBreak < memsizeVirtual - pageSize)
    (hm : Moved s s' p newBreak) :
    HeapMem s' (fun x => if roundUp newBreak pageSize ≤ x then none else c x) p where
  tree := by rw [hm.proc]; exact Tree.congr hm.upper h.tree
  full a ha := by
    rw [hm.proc]
    exact (hm.upper.path ha (Nat.le_refl 3)).1.mpr (h.full a ha)
  safe a pn hu ht := h.safe a pn (hm.userMaps hu).1 (hm.isTable ht)
  flags a pn hp := by
    obtain ⟨hu, hup⟩ := hm.userMaps hp.userMaps
    have hle := hp.le
    rw [hm.proc] at hle
    rw [hm.proc, hm.levelEntry hu.lt hup (by rw [hu.page]; exact Option.some_ne_none pn)]
    exact h.flags a pn ⟨hle, hp.lt, hu.page⟩
  content a b hc := by
    by_cases hge : roundUp newBreak pageSize ≤ a
    · rw [if_pos hge] at hc
      cases hc
    rw [if_neg hge] at hc
    obtain ⟨pn, hp, hb⟩ := h.content a b hc
    have hup : ¬GivenUp (s.processes p).programBreak newBreak a := fun hg => hge hg.1
    refine ⟨pn, ⟨?_, hp.lt, ?_⟩, ?_⟩
    · rw [hm.proc]
      exact hp.le
    · rw [hm.proc, hm.page hp.userMaps.lt, if_neg hup]
      exact hp.page
    · have hoffset : pageOffset a < 4096 := Nat.mod_lt _ (by decide)
      rw [← hb]
      exact hm.mem _ fun a' hup' hsome => hok.entry_outside (hok.heap a pn hp).noTable
        (Nat.lt_of_lt_of_le (hup'.range hok.lt hl).2 (Nat.sub_le _ _)) (reaches_of_mapped hsome) (Nat.le_add_right _ _)
          (Nat.add_lt_add_left hoffset _)

theorem HeapMem.mapPage {va : Nat} (h : HeapMem s c p) (hok : ProcOk s p) (hva : va < memsizeVirtual) (hf : Fresh s p pn)
    (hnone : mappedPage s.mem (s.processes p).pPagetable va = none) : HeapMem (s.mapPage p va pn) c p where
  tree := Tree.congr (mapPage_upper hok hva (h.full va hva)) h.tree
  full a ha := ((mapPage_upper hok hva (h.full va hva)).path ha (Nat.le_refl 3)).1.mpr (h.full a ha)
  safe a t hu ht := by
    have ht' := mapPage_isTable hok hva (h.full va hva) ht
    rcases mapPage_userMaps hok hva (h.full va hva) hf.lt hu with ⟨-, rfl⟩ | ⟨-, hu'⟩
    · exact hf.noTable ht'
    · exact h.safe a t hu' ht'
  flags a t hm := by
    have hproc : (s.mapPage p va pn).processes p = s.processes p := rfl
    have hpage := hm.page
    rw [hproc] at hpage
    obtain ⟨hin, hout⟩ := mapPage_levelEntry hok hva (h.full va hva) (by rw [hpage]; exact Option.some_ne_none t)
      hm.userMaps.lt
    rcases mapPage_userMaps hok hva (h.full va hva) hf.lt hm.userMaps with ⟨hsame, rfl⟩ | ⟨hne, hu⟩
    · rw [hproc, hin hsame]
      exact leafValue_heap_open hf.lt
    · rw [hproc, hout hne]
      exact h.flags a t ⟨hm.le, hm.lt, hu.page⟩
  content a b hc := by
    obtain ⟨t, hm, hb⟩ := h.content a b hc
    have hne : a / 4096 ≠ va / 4096 := by
      intro hsame
      have hpage := hm.page
      rw [mappedPage_page hsame, hnone] at hpage
      cases hpage
    refine ⟨t, ⟨hm.le, hm.lt, ?_⟩, ?_⟩
    · have hproc : (s.mapPage p va pn).processes p = s.processes p := rfl
      rw [hproc, mapPage_page hok hva (h.full va hva) hf.lt hm.userMaps.lt, if_neg hne]
      exact hm.page
    · have hoffset : pageOffset a < 4096 := Nat.mod_lt _ (by decide)
      rw [← hb]
      exact writeLE_outside s.mem (hok.entry_outside (hok.heap a t hm).noTable hva (h.full va hva) (Nat.le_add_right _ _)
        (Nat.add_lt_add_left hoffset _))

section Store

variable {b : UInt8} (h : HeapMem s c p) (hok : ProcOk s p) (hg : Granted s p a true)
include h hok hg

omit hok in
theorem HeapMem.store_kept : TablesKept s (storeByte s p a b) p where
  proc := rfl
  info _ _ := rfl
  bytes t ht x hx hx' := by
    obtain ⟨pn, hu, hphys⟩ := hg.userMaps
    have hne : pn ≠ t := by
      rintro rfl
      exact h.safe a pn hu ht
    have hoffset : pageOffset a < 4096 := Nat.mod_lt _ (by decide)
    have hpage : pageSize = 4096 := rfl
    refine Function.update_of_ne ?_ _ _
    rw [hphys]
    rw [hpage] at hx hx' ⊢
    omega

theorem HeapMem.store_stepped : Stepped s (storeByte s p a b) p where
  others q hq :=
    { proc := rfl
      info := fun _ _ => rfl
      bytes := fun t hk x hx hx' => by
        obtain ⟨pn, hu, hphys⟩ := hg.userMaps
        have hne : pn ≠ t := by
          rintro rfl
          rcases hok.user a pn hu with hk' | hs
          · exact hq (hk.inj hk')
          · exact hk.not_system hs
        have hoffset : pageOffset a < 4096 := Nat.mod_lt _ (by decide)
        have hpage : pageSize = 4096 := rfl
        refine Function.update_of_ne ?_ _ _
        rw [hphys]
        rw [hpage] at hx hx' ⊢
        omega }
  system _ _ := rfl
  self _ := hok.kept (h.store_kept hg) fun _ _ => rfl

theorem HeapMem.store : HeapMem (storeByte s p a b) (fun x =>
    if x = a ∧ (s.processes p).originalBreak ≤ a ∧ a < memsizeVirtual - pageSize then some b else c x) p := by
  obtain ⟨pn, hu, hphys⟩ := hg.userMaps
  refine h.kept hok (h.store_kept hg) fun x y hc => ?_
  by_cases hx : x = a ∧ (s.processes p).originalBreak ≤ a ∧ a < memsizeVirtual - pageSize
  · rw [if_pos hx] at hc
    obtain rfl : b = y := Option.some.inj hc
    obtain ⟨rfl, hle, hlt⟩ := hx
    refine ⟨pn, ⟨hle, hlt, hu.page⟩, ?_⟩
    rw [storeByte, hphys]
    exact Function.update_self _ _ _
  · rw [if_neg hx] at hc
    obtain ⟨t, hm, hy⟩ := h.content x y hc
    refine ⟨t, hm, ?_⟩
    have hne : t * pageSize + pageOffset x ≠ physicalAddress s p a := by
      intro heq
      have hpage : pageSize = 4096 := rfl
      have hoffx : pageOffset x = x % 4096 := rfl
      have hoffa : pageOffset a = a % 4096 := rfl
      rw [hphys, hpage] at heq
      have ht : t = pn := by omega
      subst ht
      have hsame := (hok.heap x t hm).once a hu
      have hxa : x = a := by omega
      subst hxa
      exact hx ⟨rfl, hm.le, hm.lt⟩
    rw [storeByte]
    exact (Function.update_of_ne hne _ _).trans hy

end Store

end OwnSteps

end WeensyOS.Kernel
