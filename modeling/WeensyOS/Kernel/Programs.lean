import WeensyOS.Kernel.HeapMemory
import WeensyOS.Lib.EndlessRuns
import WeensyOS.Lib.Programs

namespace WeensyOS.Kernel

open LibC ProgramBreak Programs

variable {α : Type*}

/-- The heap as its process sees it. A call of `sbrk` gives up the pages above the new break. -/
def heapRegion : Region Breaks where
  Owns r a := r.originalBreak ≤ a ∧ a < r.programBreak
  Gone r a := roundUp r.programBreak pageSize ≤ a
  decidableGone _ _ := inferInstanceAs (Decidable (_ ≤ _))
  call r increment := ProgramBreak.sbrk r (increment % 2 ^ 64)

/-- The kernel, with what is left of the program of each process. -/
structure Running (α : Type*) where
  machine : Machine
  programs : Nat → Program α

/-- A process has the processor for one access or one call; `page` is what `palloc` returns, if it is called. -/
structure Turn where
  pid : Nat
  page : Option NewPage

namespace Running

variable (c : Running α) (e : Turn)

def resume (pid : Nat) (s : Machine) (p : Program α) : Running α := ⟨s, Function.update c.programs pid p⟩

@[simp] theorem resume_machine (pid : Nat) (s : Machine) (p : Program α) : (c.resume pid s p).machine = s := rfl

@[simp] theorem resume_self (pid : Nat) (s : Machine) (p : Program α) : (c.resume pid s p).programs pid = p :=
  Function.update_self _ _ _

theorem resume_other {pid q : Nat} (s : Machine) (p : Program α) (hq : q ≠ pid) :
    (c.resume pid s p).programs q = c.programs q := Function.update_of_ne hq _ _

/-- An access that the hardware does not grant traps, and is made again afterwards. -/
def accessOr (a : Nat) (write : Bool) (done : Running α) : Option (Running α) :=
  if Granted c.machine e.pid a write then some done
  else
    (pageFault c.machine e.pid a (decide ¬Reaches c.machine.mem (c.machine.processes e.pid).pPagetable a 4) e.page).map
      fun s => { c with machine := s }

def turn : Option (Running α) :=
  match c.programs e.pid with
  | .ret _ => some c
  | .load a next => c.accessOr e a false (c.resume e.pid c.machine (next (loadByte c.machine e.pid a)))
  | .store a b next => c.accessOr e a true (c.resume e.pid (storeByte c.machine e.pid a b) next)
  | .call increment next => (sysSbrk c.machine e.pid (increment % 2 ^ 64)).map fun (s, r) => c.resume e.pid s (next r)

/-- The access that the process makes next is not granted. -/
def Faults (pid : Nat) : Prop := ∃ x ∈ (c.programs pid).access, ¬Granted c.machine pid x.1 x.2

instance (pid : Nat) : Decidable (c.Faults pid) :=
  match h : (c.programs pid).access with
  | none => isFalse fun hf => by
      obtain ⟨x, hx, -⟩ := hf
      rw [h] at hx
      cases hx
  | some x => decidable_of_iff (¬Granted c.machine pid x.1 x.2) (by simp [Faults, h])

/-- A runnable process has its turn. `palloc` returns a free page or null. -/
def Allowed : Prop :=
  e.pid < nproc ∧ (c.machine.processes e.pid).pState = .runnable ∧
    (c.Faults e.pid → ∀ new ∈ e.page, new.Free c.machine)

instance : Decidable (c.Allowed e) := inferInstanceAs (Decidable (_ ∧ _ ∧ (_ → ∀ new ∈ _, NewPage.Free new _)))

/-- `palloc` has no page for an access of the process, which does not survive that. -/
def Starves (pid : Nat) : Prop := e.pid = pid ∧ c.Faults pid ∧ e.page = none

end Running

def programSystem (α : Type*) : Runs.System (Running α) Turn where
  step := Running.turn
  Allowed := Running.Allowed

instance (c : Running α) (e : Turn) : Decidable ((programSystem α).Allowed c e) :=
  inferInstanceAs (Decidable (c.Allowed e))

/-- The runs in which `palloc` has a page whenever process `p` needs one. -/
def fedSystem (α : Type*) (p : Nat) : Runs.System (Running α) Turn where
  step := Running.turn
  Allowed c e := c.Allowed e ∧ ¬c.Starves e p

/-- The breaks that the kernel keeps for a process are those that the process has. -/
structure HasBreaks (s : Machine) (p : Nat) (r : Breaks) : Prop where
  original : (s.processes p).originalBreak = r.originalBreak
  program : (s.processes p).programBreak = r.programBreak

/-- The process goes on as its program does alone, from what it knows of its heap. -/
structure GoesOn (c : Running α) (cells : Cells) (p : Nat) (Q : α → Breaks → View → Prop) : Prop where
  runnable : (c.machine.processes p).pState = .runnable
  ensures : ∃ r, HasBreaks c.machine p r ∧ heapRegion.Ensures (c.programs p) r (cells p) Q

variable {c c' : Running α} {cells : Cells} {e : Turn} {s s' : Machine} {p a : Nat} {write : Bool} {r : Breaks}
  {Q : α → Breaks → View → Prop}

section Turns

/-- What a turn is: nothing for a program that has finished, or one event of the machine. -/
inductive TurnOf (c : Running α) (e : Turn) : Running α → Prop
  | done {v : α} (hp : c.programs e.pid = .ret v) : TurnOf c e c
  | load {a : Nat} {next : UInt8 → Program α} (hp : c.programs e.pid = .load a next)
      (hg : Granted c.machine e.pid a false) :
      TurnOf c e (c.resume e.pid c.machine (next (loadByte c.machine e.pid a)))
  | store {a : Nat} {b : UInt8} {next : Program α} (hp : c.programs e.pid = .store a b next)
      (hg : Granted c.machine e.pid a true) : TurnOf c e (c.resume e.pid (storeByte c.machine e.pid a b) next)
  | fault {a : Nat} {write : Bool} {s : Machine} (hp : (c.programs e.pid).access = some (a, write))
      (hg : ¬Granted c.machine e.pid a write)
      (hs : pageFault c.machine e.pid a (decide ¬Reaches c.machine.mem (c.machine.processes e.pid).pPagetable a 4) e.page =
        some s) : TurnOf c e { c with machine := s }
  | call {increment r : Nat} {next : Nat → Program α} {s : Machine} (hp : c.programs e.pid = .call increment next)
      (hs : sysSbrk c.machine e.pid (increment % 2 ^ 64) = some (s, r)) : TurnOf c e (c.resume e.pid s (next r))

theorem turn_of (h : c.turn e = some c') : TurnOf c e c' := by
  have hfault (a : Nat) (write : Bool) (done : Running α) (ha : (c.programs e.pid).access = some (a, write))
      (hdone : Granted c.machine e.pid a write → TurnOf c e done) (h : c.accessOr e a write done = some c') :
      TurnOf c e c' := by
    rw [Running.accessOr] at h
    split at h
    next hg => exact Option.some.inj h ▸ hdone hg
    next hg =>
      obtain ⟨s, hs, rfl⟩ := Option.map_eq_some_iff.mp h
      exact .fault ha hg hs
  rw [Running.turn] at h
  split at h
  next v hp => exact Option.some.inj h ▸ .done hp
  next a next hp => exact hfault a false _ (by rw [hp]; rfl) (.load hp) h
  next a b next hp => exact hfault a true _ (by rw [hp]; rfl) (.store hp) h
  next increment next hp =>
    obtain ⟨⟨s, r⟩, hs, rfl⟩ := Option.map_eq_some_iff.mp h
    exact .call hp hs

theorem faults_of_access (ha : (c.programs p).access = some (a, write)) (hg : ¬Granted c.machine p a write) :
    c.Faults p := ⟨(a, write), ha, hg⟩

theorem MemOk.exit (h : MemOk s cells) (p : Nat) : MemOk (s.exit p) cells where
  kernel := h.kernel.step (exit_stepped s p)
  heaps q hq hlive := by
    have hne : q ≠ p := by
      rintro rfl
      exact exit_free s q hlive
    have hother := (exit_stepped s p).others q hne
    rw [Live, hother.proc] at hlive
    exact (h.heaps q hq hlive).untouched (h.kernel.procs q hq hlive) hother

theorem TurnOf.programs (h : TurnOf c e c') (hne : p ≠ e.pid) : c'.programs p = c.programs p := by
  cases h with
  | done => rfl
  | load hp hg => exact c.resume_other _ _ hne
  | store hp hg => exact c.resume_other _ _ hne
  | fault hp hg hs => rfl
  | call hp hs => exact c.resume_other _ _ hne

/-- A turn keeps the kernel in order, and does nothing to the other processes. -/
theorem TurnOf.keeps (h : TurnOf c e c') (hok : MemOk c.machine cells) (hallowed : c.Allowed e) : ∃ cells',
    MemOk c'.machine cells' ∧ Stepped c.machine c'.machine e.pid ∧
      ∀ q, q ≠ e.pid → cells' q = cells q ∧ c'.programs q = c.programs q := by
  obtain ⟨hpid, hrun, hfree⟩ := hallowed
  have hprogs (q : Nat) (hq : q ≠ e.pid) : c'.programs q = c.programs q := h.programs hq
  have hevent (ev : MemEvent) (hev : ev.pid = e.pid) (hallowed : ev.Allowed c.machine)
      (hstep : ev.step c.machine = some c'.machine) : ∃ cells', MemOk c'.machine cells' ∧
        Stepped c.machine c'.machine e.pid ∧ ∀ q, q ≠ e.pid → cells' q = cells q ∧ c'.programs q = c.programs q := by
    refine ⟨_, hok.step hallowed hstep, hev ▸ ev.step_stepped hok hallowed hstep, fun q hq => ⟨?_, hprogs q hq⟩⟩
    rw [← hev] at hq
    exact Cells.after_other hq
  cases h with
  | done =>
      have hlive : Live c.machine e.pid := by
        rw [Live, hrun]
        decide
      exact ⟨cells, hok, .refl (hok.kernel.procs e.pid hpid hlive), fun _ _ => ⟨rfl, rfl⟩⟩
  | @load a next hp hg => exact hevent (.load e.pid a) rfl ⟨hpid, hrun, hg⟩ rfl
  | @store a b next hp hg => exact hevent (.store e.pid a b) rfl ⟨hpid, hrun, hg⟩ rfl
  | @fault a write s hp hg hs =>
      have hfree := hfree (faults_of_access hp hg)
      cases hpage : e.page with
      | some new =>
          rw [hpage] at hs hfree
          exact hevent (.fault e.pid a write new) rfl ⟨hpid, hrun, hg, hfree new rfl⟩ hs
      | none =>
          -- the process is killed, in its heap and outside of it
          rw [hpage, pageFault, ite_self] at hs
          cases hs
          exact ⟨cells, hok.exit e.pid, exit_stepped _ _, fun _ _ => ⟨rfl, rfl⟩⟩
  | @call increment r next s hp hs =>
      refine hevent (.sbrk e.pid (increment % 2 ^ 64)) rfl ⟨hpid, hrun, Nat.mod_lt _ (by decide)⟩ ?_
      exact congrArg (Option.map Prod.fst) hs

end Turns

section Sbrk

variable {n va pt : Nat} {difference z : Int}

theorem unmapPages_processes (h : unmapPages pt n s va = some s') : s'.processes = s.processes := by
  induction n generalizing s va with
  | zero =>
      cases h
      rfl
  | succ n ih =>
      obtain ⟨t, ht, hrest⟩ := Option.bind_eq_some_iff.mp h
      rw [ih hrest]
      split at ht
      next =>
        split at ht
        next =>
          obtain ⟨m, -, rfl⟩ := Option.map_eq_some_iff.mp ht
          rfl
        next => cases ht
      next =>
        cases ht
        rfl

/-- `sbrk` changes one field of one process. -/
theorem sbrk_processes (h : sbrk s p difference = some (s', z)) :
    ∃ b, s'.processes = Function.update s.processes p { s.processes p with programBreak := b } := by
  rw [sbrk] at h
  split at h
  next =>
    cases h
    exact ⟨(s.processes p).programBreak, (Function.update_eq_self p s.processes).symm⟩
  next =>
    split at h
    next =>
      obtain ⟨t, ht, hs⟩ := Option.map_eq_some_iff.mp h
      cases hs
      exact ⟨_, unmapPages_processes ht⟩
    next =>
      cases h
      exact ⟨_, rfl⟩

theorem sysSbrk_state {rdi rax : Nat} (h : sysSbrk s p rdi = some (s', rax)) :
    (s'.processes p).pState = (s.processes p).pState := by
  obtain ⟨⟨t, z⟩, ht, hs⟩ := Option.map_eq_some_iff.mp h
  cases hs
  obtain ⟨b, hb⟩ := sbrk_processes ht
  rw [hb, Function.update_self]

end Sbrk

section Steps

theorem MemOk.live (h : MemOk s cells) (hp : p < nproc) (hrun : (s.processes p).pState = .runnable) :
    ProcOk s p ∧ HeapMem s (cells p) p := by
  have hlive : Live s p := by
    rw [Live, hrun]
    decide
  exact ⟨h.kernel.procs p hp hlive, h.heaps p hp hlive⟩

theorem HasBreaks.owned (h : HasBreaks s p r) (ha : heapRegion.Owns r a) :
    (s.processes p).originalBreak ≤ a ∧ a < (s.processes p).programBreak ∧ a < memsizeVirtual - pageSize := by
  obtain ⟨hlo, hhi⟩ := ha
  refine ⟨h.original.trans_le hlo, h.program.symm ▸ hhi, Nat.lt_trans hhi r.programBreak_lt⟩

/-- A fault in the heap is served, and the process makes its access again. -/
theorem HeapMem.served_breaks {view : Nat → Option UInt8} {page : NewPage} (h : HeapMem s view p) (hok : ProcOk s p)
    (h0 : SystemPage s 0) (hrun : (s.processes p).pState = .runnable) (hr : HasBreaks s p r) (ha : heapRegion.Owns r a)
    (hg : ¬Granted s p a write) (hfree : page.Free s) :
    ∃ s', accessFault s p a page = some s' ∧ s'.processes p = s.processes p ∧ Granted s' p a write := by
  obtain ⟨hle, hlt, -⟩ := hr.owned ha
  obtain ⟨s', hs', hrun', hgranted⟩ := h.served hok h0 hrun hle hlt hg page hfree
  refine ⟨s', hs', ?_, hgranted⟩
  rcases pageFault_cases hok (by rintro new ⟨⟩; exact hfree) hs' with rfl | ⟨new, -, rfl | ⟨-, -, -, rfl⟩⟩
  · exact absurd (by rw [Live, hrun']; decide) (exit_free s p)
  · exact absurd (by rw [Live, hrun']; decide) (exit_free _ p)
  · rfl

/-- A byte that is read stays what it is. -/
theorem HeapMem.learn {view : Nat → Option UInt8} (h : HeapMem s view p) (hr : HasBreaks s p r) (ha : heapRegion.Owns r a)
    (hg : Granted s p a write) : HeapMem s (Function.update view a (some (loadByte s p a))) p := by
  refine { h with content := fun x b hb => ?_ }
  by_cases hx : x = a
  · subst hx
    rw [Function.update_self, Option.some.injEq] at hb
    obtain ⟨hle, -, hlt⟩ := hr.owned ha
    obtain ⟨pn, hpage⟩ : ∃ pn, mappedPage s.mem (s.processes p).pPagetable x = some pn :=
      ⟨_, mappedPage_eq_some.mpr ⟨hg.reaches, rfl⟩⟩
    refine ⟨pn, ⟨hle, hlt, hpage⟩, ?_⟩
    rw [← hb, loadByte, physicalAddress, physicalAddress_eq hpage]
  · rw [Function.update_of_ne hx] at hb
    exact h.content x b hb

theorem GoesOn.other {cells' : Cells} (hgo : GoesOn c cells p Q) (hstep : Stepped c.machine c'.machine e.pid) (hne : p ≠ e.pid)
    (hsame : cells' p = cells p ∧ c'.programs p = c.programs p) : GoesOn c' cells' p Q := by
  have hproc := (hstep.others p hne).proc
  obtain ⟨r, hr, hens⟩ := hgo.ensures
  refine ⟨by rw [hproc]; exact hgo.runnable, r, ⟨by rw [hproc]; exact hr.original, by rw [hproc]; exact hr.program⟩, ?_⟩
  rw [hsame.1, hsame.2]
  exact hens

theorem after_store_eq (hr : HasBreaks s p r) (ha : heapRegion.Owns r a) {b : UInt8} :
    cells.after (storeByte s p a b) (.store p a b) p = Function.update (cells p) a (some b) := by
  obtain ⟨hle, -, hlt⟩ := hr.owned ha
  funext x
  rw [Cells.after_store]
  by_cases hx : x = a
  · subst hx
    rw [Function.update_self]
    exact if_pos ⟨rfl, hle, hlt⟩
  · rw [Function.update_of_ne hx]
    exact if_neg fun hc => hx hc.1

theorem after_call_eq {increment : Nat} (hr : HasBreaks s p r) :
    cells.after s (.sbrk p increment) p = heapRegion.after r (cells p) := by
  rw [Cells.after_sbrk, hr.program]
  exact funext fun x => if_congr Iff.rfl rfl rfl

/-- One turn, of the process itself or of another one. -/
theorem GoesOn.step (h : MemOk c.machine cells) (hgo : GoesOn c cells p Q) (hallowed : (fedSystem α p).Allowed c e)
    (hturn : c.turn e = some c') : ∃ cells', MemOk c'.machine cells' ∧ GoesOn c' cells' p Q := by
  obtain ⟨hallowed, hfed⟩ := hallowed
  have hof := turn_of hturn
  by_cases hne : p ≠ e.pid
  · obtain ⟨cells', hok, hstep, hsame⟩ := hof.keeps h hallowed
    exact ⟨cells', hok, hgo.other hstep hne (hsame p hne)⟩
  obtain rfl : p = e.pid := not_not.mp hne
  obtain ⟨hpid, hrun, hfree⟩ := hallowed
  obtain ⟨hok, hmem⟩ := h.live hpid hrun
  obtain ⟨r, hr, hens⟩ := hgo.ensures
  cases hof with
  | done => exact ⟨cells, h, hgo⟩
  | @load a next hp hg =>
      rw [hp] at hens
      obtain ⟨howns, hnext⟩ := hens
      have hknown (known : UInt8) (hc : cells e.pid a = some known) : loadByte c.machine e.pid a = known := by
        have hload : Granted c.machine e.pid a false ∧ _ := hmem.load hc
        exact hload.2
      refine ⟨Function.update cells e.pid (Function.update (cells e.pid) a (some (loadByte c.machine e.pid a))),
        ⟨h.kernel, fun q hq hlive => ?_⟩, hrun, r, hr, ?_⟩
      · by_cases hqp : q = e.pid
        · subst hqp
          rw [Function.update_self]
          exact hmem.learn hr howns hg
        · rw [Function.update_of_ne hqp]
          exact h.heaps q hq hlive
      · rw [c.resume_self, Function.update_self]
        exact hnext _ hknown
  | @store a b next hp hg =>
      rw [hp] at hens
      obtain ⟨howns, hnext⟩ := hens
      have hev : (MemEvent.store e.pid a b).Allowed c.machine := ⟨hpid, hrun, hg⟩
      refine ⟨_, h.step hev rfl, hrun, r, ⟨hr.original, hr.program⟩, ?_⟩
      rw [c.resume_self, c.resume_machine, after_store_eq hr howns]
      exact hnext
  | @fault a write s hp hg hs =>
      have hfaults := faults_of_access hp hg
      obtain ⟨new, hnew⟩ := Option.ne_none_iff_exists'.mp fun hnone => hfed ⟨rfl, hfaults, hnone⟩
      have hpage := hfree hfaults new hnew
      obtain ⟨s', hs', hproc, -⟩ := hmem.served_breaks hok h.kernel.reserved hrun hr (hens.owns hp) hg hpage
      rw [hnew] at hs
      obtain rfl : s = s' := Option.some.inj (hs.symm.trans hs')
      have hev : (MemEvent.fault e.pid a write new).Allowed c.machine := ⟨hpid, hrun, hg, hpage⟩
      have hrun' : (s.processes e.pid).pState = .runnable := by rw [hproc]; exact hrun
      have hr' : HasBreaks s e.pid r := ⟨by rw [hproc]; exact hr.original, by rw [hproc]; exact hr.program⟩
      exact ⟨_, h.step hev hs, hrun', r, hr', hens⟩
  | @call increment x next s hp hs =>
      rw [hp] at hens
      obtain ⟨s', hs', ho, hb⟩ :=
        sysSbrk_refines (hok.heapTables h.kernel.reserved) r hr.original hr.program (increment % 2 ^ 64)
      obtain ⟨rfl, rfl⟩ : s = s' ∧ x = _ := by
        rw [hs] at hs'
        simpa only [Option.some.injEq, Prod.mk.injEq] using hs'
      have hev : (MemEvent.sbrk e.pid (increment % 2 ^ 64)).Allowed c.machine := ⟨hpid, hrun, Nat.mod_lt _ (by decide)⟩
      have hstep : (MemEvent.sbrk e.pid (increment % 2 ^ 64)).step c.machine = some s := congrArg (Option.map Prod.fst) hs
      have hr' : HasBreaks s e.pid (heapRegion.call r increment).2 := ⟨ho, hb⟩
      refine ⟨_, h.step hev hstep, ?_, _, hr', ?_⟩
      · rw [c.resume_machine, sysSbrk_state hs]
        exact hrun
      · rw [c.resume_self, c.resume_machine, after_call_eq hr']
        exact hens

/-- No turn trips an assertion of the kernel, whatever the process tries to access. -/
theorem MemOk.turn_defined (h : MemOk c.machine cells) (hallowed : c.Allowed e) : ∃ c', c.turn e = some c' := by
  obtain ⟨hpid, hrun, hfree⟩ := hallowed
  obtain ⟨hok, hmem⟩ := h.live hpid hrun
  have haccess (a : Nat) (write : Bool) (done : Running α) (ha : (c.programs e.pid).access = some (a, write)) :
      ∃ c', c.accessOr e a write done = some c' := by
    rw [Running.accessOr]
    by_cases hg : Granted c.machine e.pid a write
    · exact ⟨done, if_pos hg⟩
    rw [if_neg hg]
    have hfree := hfree (faults_of_access ha hg)
    have hdefined : ∃ s, pageFault c.machine e.pid a
        (decide ¬Reaches c.machine.mem (c.machine.processes e.pid).pPagetable a 4) e.page = some s := by
      cases hpage : e.page with
      | none => exact ⟨_, ite_self _⟩
      | some new =>
          rw [hpage] at hfree
          by_cases hin : (c.machine.processes e.pid).originalBreak ≤ a ∧ a < (c.machine.processes e.pid).programBreak
          · obtain ⟨s, hs, -⟩ := hmem.served hok h.kernel.reserved hrun hin.1 hin.2 hg new (hfree new rfl)
            exact ⟨s, hs⟩
          · exact ⟨_, if_neg fun hc => hin hc.2⟩
    obtain ⟨s, hs⟩ := hdefined
    exact ⟨_, by rw [hs]; rfl⟩
  rw [Running.turn]
  cases hp : c.programs e.pid with
  | ret v => exact ⟨c, rfl⟩
  | load a next => exact haccess a false _ (by rw [hp]; rfl)
  | store a b next => exact haccess a true _ (by rw [hp]; rfl)
  | call increment next =>
      have hcall : ∃ x, sysSbrk c.machine e.pid (increment % 2 ^ 64) = some x := by
        obtain ⟨s, hs, -⟩ := sysSbrk_refines (hok.heapTables h.kernel.reserved)
          ⟨(c.machine.processes e.pid).originalBreak, (c.machine.processes e.pid).programBreak, hok.le, hok.lt⟩ rfl rfl
          (increment % 2 ^ 64)
        exact ⟨_, hs⟩
      obtain ⟨x, hx⟩ := hcall
      exact ⟨c.resume e.pid x.1 (next x.2), by simp only [hx, Option.map_some]⟩

end Steps

section Runs

/-- The kernel is in order, and the process goes on. -/
def GoesOnWell (p : Nat) (Q : α → Breaks → View → Prop) (c : Running α) : Prop :=
  ∃ cells, MemOk c.machine cells ∧ GoesOn c cells p Q

theorem GoesOnWell.step (h : GoesOnWell p Q c) (hallowed : (fedSystem α p).Allowed c e) (hturn : c.turn e = some c') : GoesOnWell p Q c' := by
  obtain ⟨cells, hok, hgo⟩ := h
  exact hgo.step hok hallowed hturn

variable {run : Nat → Running α} {turns : Nat → Turn}

/-- The process is as if it had the machine for itself: it goes on, and once it has finished, its
heap is as its program leaves a memory of its own. -/
structure Virtual (c : Running α) (p : Nat) (Q : α → Breaks → View → Prop) : Prop where
  runnable : (c.machine.processes p).pState = .runnable
  result : ∀ v, c.programs p = .ret v → ∃ r view, HasBreaks c.machine p r ∧ Q v r view ∧
    ∀ a b, view a = some b → Granted c.machine p a false ∧ loadByte c.machine p a = b

theorem GoesOn.virtual (h : MemOk c.machine cells) (hgo : GoesOn c cells p Q) (hp : p < nproc) : Virtual c p Q := by
  refine ⟨hgo.runnable, fun v hv => ?_⟩
  obtain ⟨r, hr, hens⟩ := hgo.ensures
  rw [hv] at hens
  exact ⟨r, cells p, hr, hens, fun a b hb => (h.live hp hgo.runnable).2.load hb⟩

theorem MemOk.start (h0 : SystemPage s 0) (hstart : ∀ p < nproc, Live s p → MemStart s p) : MemOk s fun _ _ => none :=
  ⟨⟨h0, fun p hp hlive => (hstart p hp hlive).ok⟩, fun p hp hlive => (hstart p hp hlive).mem⟩

theorem MemOk.turn (h : MemOk c.machine cells) (hallowed : c.Allowed e) (hturn : c.turn e = some c') :
    ∃ cells', MemOk c'.machine cells' :=
  ((turn_of hturn).keeps h hallowed).imp fun _ hkeeps => hkeeps.1

end Runs

/-- Processes that share the machine do not notice each other. A program that, alone with a memory,
stays in it and ends with `Q`, does so as a process of the kernel, in any order of the turns, whatever
the programs of the others are and whether or not they are killed, as long as `palloc` has pages for it;
and no turn of any process trips an assertion. -/
theorem programs_virtualised (c c' : Running α) (h0 : SystemPage c.machine 0)
    (hstart : ∀ p < nproc, Live c.machine p → MemStart c.machine p) (hreach : (programSystem α).Reachable c c') :
    (∀ e, c'.Allowed e → ∃ d, c'.turn e = some d) ∧
      ∀ p < nproc, (c.machine.processes p).pState = .runnable → ∀ r, HasBreaks c.machine p r →
        ∀ Q : α → Breaks → View → Prop, heapRegion.Ensures (c.programs p) r (fun _ => none) Q →
          (fedSystem α p).Reachable c c' → Virtual c' p Q := by
  have hinit := MemOk.start h0 hstart
  constructor
  · intro e he
    obtain ⟨cells, hok⟩ := Runs.System.Reachable.keeps (P := fun c => ∃ cells, MemOk c.machine cells)
      (fun c e c' hc hallowed hturn => hc.elim fun _ h => h.turn hallowed hturn) ⟨_, hinit⟩ hreach
    exact hok.turn_defined he
  · intro p hp hrun r hr Q hens hfed
    obtain ⟨cells, hok, hgo⟩ :=
      Runs.System.Reachable.keeps (fun _ _ _ hc => hc.step) (P := GoesOnWell p Q) ⟨_, hinit, hrun, r, hr, hens⟩ hfed
    exact hgo.virtual hok hp

/-- A program that asks for one byte of heap, stores in it and loads the byte again. -/
def oneByte : Program UInt8 :=
  .call 1 fun a => .store a 42 (.load a .ret)

/-- It is the program of two processes. -/
def oneByteProcesses : Running UInt8 := ⟨twoProcesses, fun _ => oneByte⟩

/-- Process 2 is first, but there is no page for it. Then process 1 has every turn. -/
def oneByteTurns : Nat → Turn
  | 0 => ⟨2, none⟩
  | 1 => ⟨2, none⟩
  | _ => ⟨1, some ⟨11, fun _ => 0xCC⟩⟩

def oneByteRun : Nat → Running UInt8
  | 0 => oneByteProcesses
  | n + 1 => ((oneByteRun n).turn (oneByteTurns n)).getD (oneByteRun n)

section OneByte

theorem twoProcesses_memStart (p : Nat) (hlive : Live twoProcesses p) : MemStart twoProcesses p where
  aligned := (by decide : 0x100000 % pageSize = 0)
  breaks := rfl
  lt := (by decide : 0x100000 < memsizeVirtual - pageSize)
  tree := (twoProcesses_tables (twoProcesses_live hlive)).tree_low
  full _ ha := (twoProcesses_tables (twoProcesses_live hlive)).reaches_low (Nat.lt_trans ha (by decide)) (Nat.le_refl 3)
  tables _ ht := keeps_of_info (twoProcesses_table (twoProcesses_live hlive) ht)
  user a pn hu := by cases (twoProcesses_unmapped (twoProcesses_live hlive) a).symm.trans hu.page
  safe a pn hu _ := by cases (twoProcesses_unmapped (twoProcesses_live hlive) a).symm.trans hu.page
  empty a _ _ := twoProcesses_unmapped (twoProcesses_live hlive) a

theorem oneByte_ensures :
    heapRegion.Ensures oneByte ⟨0x100000, 0x100000, Nat.le_refl _, by decide⟩ (fun _ => none) fun v _ _ => v = 42 := by
  have howns : heapRegion.Owns (heapRegion.call ⟨0x100000, 0x100000, Nat.le_refl _, by decide⟩ 1).2 0x100000 :=
    ⟨by decide, by decide⟩
  exact ⟨howns, howns, fun b hb => hb 42 (Function.update_self _ _ _)⟩

theorem oneByteRun_begins :
    ∀ n < 6, (oneByteRun n).Allowed (oneByteTurns n) ∧ ((oneByteRun n).turn (oneByteTurns n)).isSome := by
  decide +kernel

theorem oneByteRun_ends : (oneByteRun 6).programs 1 = .ret 42 ∧ ((oneByteRun 6).machine.processes 1).pState = .runnable ∧
    ((oneByteRun 6).machine.processes 2).pState = .free :=
  ⟨Program.eq_ret (by decide +kernel), by decide +kernel, by decide +kernel⟩

theorem oneByteRun_stays (n : Nat) : oneByteRun (n + 6) = oneByteRun 6 := by
  induction n with
  | zero => rfl
  | succ n ih =>
      have hturn : (oneByteRun 6).turn (oneByteTurns (n + 6)) = some (oneByteRun 6) := by
        rw [Running.turn, show (oneByteTurns (n + 6)).pid = 1 from rfl, oneByteRun_ends.1]
      rw [Nat.succ_add, oneByteRun, ih, hturn, Option.getD_some]

theorem oneByteRun_endless : (fedSystem UInt8 1).Endless oneByteRun oneByteTurns := by
  have hnext (n : Nat) : (oneByteRun n).Allowed (oneByteTurns n) ∧ ((oneByteRun n).turn (oneByteTurns n)).isSome := by
    by_cases hn : n < 6
    · exact oneByteRun_begins n hn
    obtain ⟨m, rfl⟩ := Nat.exists_eq_add_of_le' (Nat.not_lt.mp hn)
    obtain ⟨hret, hrun, -⟩ := oneByteRun_ends
    have hpid : (oneByteTurns (m + 6)).pid = 1 := rfl
    rw [oneByteRun_stays]
    refine ⟨⟨by rw [hpid]; decide, by rw [hpid]; exact hrun, ?_⟩, by rw [Running.turn, hpid, hret]; rfl⟩
    rintro ⟨x, hx, -⟩
    rw [hpid, hret] at hx
    cases hx
  have hfed (n : Nat) : ¬(oneByteRun n).Starves (oneByteTurns n) 1 := by
    rintro ⟨hpid, -, hnone⟩
    match n with
    | 0 => cases hpid
    | 1 => cases hpid
    | _ + 2 => cases hnone
  refine ⟨fun n => ⟨(hnext n).1, hfed n⟩, fun n => ?_⟩
  obtain ⟨c, hc⟩ := Option.isSome_iff_exists.mp (hnext n).2
  rw [oneByteRun, hc, Option.getD_some]
  exact hc

end OneByte

/-- Process 2 has been killed after these turns, and process 1 has its byte. -/
theorem oneByte_virtualised : ((oneByteRun 6).machine.processes 2).pState = .free ∧ (oneByteRun 6).programs 1 = .ret 42 ∧
    Virtual (oneByteRun 6) 1 fun v _ _ => v = 42 := by
  have hfed := oneByteRun_endless.reachable (Nat.zero_le 6)
  have hle : (fedSystem UInt8 1).Next ≤ (programSystem UInt8).Next := fun _ _ ⟨e, hallowed, hturn⟩ => ⟨e, hallowed.1, hturn⟩
  have hreach : (programSystem UInt8).Reachable oneByteProcesses (oneByteRun 6) := Relation.ReflTransGen.mono hle _ _ hfed
  exact ⟨oneByteRun_ends.2.2, oneByteRun_ends.1, (programs_virtualised oneByteProcesses (oneByteRun 6)
    ⟨by decide, by decide, by decide⟩ (fun p _ => twoProcesses_memStart p) hreach).2 1 (by decide) (by decide) _ ⟨rfl, rfl⟩ _
    oneByte_ensures hfed⟩

end WeensyOS.Kernel
