import WeensyOS.Kernel.ExceptionRuns

namespace WeensyOS.Kernel

open ByteMemory LibC ProgramBreak

/-- The two machines differ in what is on the console's page, and in nothing else. -/
structure SameButScreen (s s' : Machine) : Prop where
  pageinfo : s'.pageinfo = s.pageinfo
  processes : s'.processes = s.processes
  mem : ∀ x, x / pageSize ≠ consolePage → s'.mem x = s.mem x

/-- Both exceptions have ended the same way, in related states. -/
inductive Outcome.Alike (R : Os → Os → Prop) : Outcome → Outcome → Prop
  | runs {k k' : Os} (h : R k k') : Alike R (.runs k) (.runs k')
  | spins {k k' : Os} (h : R k k') : Alike R (.spins k) (.spins k')
  | panics {k k' : Os} (h : R k k') : Alike R (.panics k) (.panics k')

variable {V : KernelVm} {I : KernelImage} {k k' : Os} {t : Trap} {s s' u u' : Machine} {p a : Nat}

namespace SameButScreen

theorem refl (s : Machine) : SameButScreen s s := ⟨rfl, rfl, fun _ _ => rfl⟩

theorem symm (h : SameButScreen s s') : SameButScreen s' s :=
  ⟨h.pageinfo.symm, h.processes.symm, fun x hx => (h.mem x hx).symm⟩

/-- The kernel has written to both consoles. -/
theorem withScreen (h : SameButScreen s s') (screen screen' : Nat → UInt8) :
    SameButScreen (s.withScreen screen) (s'.withScreen screen') where
  pageinfo := h.pageinfo
  processes := h.processes
  mem x hx := (if_neg hx).trans ((h.mem x hx).trans (if_neg hx).symm)

theorem exit (h : SameButScreen s s') (p : Nat) : SameButScreen (s.exit p) (s'.exit p) := by
  obtain ⟨m', info', procs'⟩ := s'
  obtain ⟨rfl, rfl, hmem⟩ := h
  exact ⟨rfl, rfl, hmem⟩

theorem palloc (h : SameButScreen s s') (page : NewPage) (p : Nat) : SameButScreen (s.palloc page p) (s'.palloc page p) where
  pageinfo := by simp only [Machine.palloc, h.pageinfo]
  processes := h.processes
  mem x hx := if_congr Iff.rfl rfl (h.mem x hx)

theorem mapPage (h : SameButScreen s s') {va : Nat} (pn : Nat)
    (htable : tableAt s'.mem (s'.processes p).pPagetable va 3 = tableAt s.mem (s.processes p).pPagetable va 3) :
    SameButScreen (s.mapPage p va pn) (s'.mapPage p va pn) where
  pageinfo := h.pageinfo
  processes := h.processes
  mem x hx := by
    rw [Machine.mapPage, Machine.mapPage, htable]
    exact writeLE_congr (h.mem x hx) _ _ _

end SameButScreen

section Tables

variable (h : Sound I s) (hs : SameButScreen s s')
include h hs

variable (hp : p < nproc) (hlive : Live s p)
include hp hlive

end Tables

section Calls

theorem Moved.cleared {newBreak : Nat} (hm : Moved s u p newBreak) (ha : a < memsizeVirtual)
    (hup : GivenUp (s.processes p).programBreak newBreak a) (hsome : mappedPage s.mem (s.processes p).pPagetable a ≠ none) :
    readLE u.mem (tableAt s.mem (s.processes p).pPagetable a 3 + 8 * pageIndex a 3) 8 = 0 := by
  have hr := reaches_of_mapped hsome
  obtain ⟨hreach, htable⟩ := hm.upper.path ha (Nat.le_refl 3)
  have hleaf := hm.leaf a ha
  rw [if_pos ⟨hup, hsome⟩, leafEntry, if_pos (hreach.mpr hr), Option.some.injEq, Kernel.levelEntry, htable hr, entry] at hleaf
  have hbits := congrArg BitVec.toNat hleaf
  rw [BitVec.toNat_ofNat] at hbits
  have hlt := readLE_lt u.mem (tableAt s.mem (s.processes p).pPagetable a 3 + 8 * pageIndex a 3) 8
  exact (Nat.mod_eq_of_lt hlt).symm.trans hbits

/-- A move of the break is determined by the state before it, but for the console. -/
theorem Moved.same {newBreak : Nat} (hm : Moved s u p newBreak) (hm' : Moved s' u' p newBreak) (hs : SameButScreen s s')
    (hok : ProcOk s p) (hkept : TablesKept s s' p)
    (hrange : ∀ a, GivenUp (s.processes p).programBreak newBreak a → a < memsizeVirtual) : SameButScreen u u' where
  pageinfo := by
    funext pn
    have hkeeps (hno : ∀ a, GivenUp (s.processes p).programBreak newBreak a →
        mappedPage s.mem (s.processes p).pPagetable a ≠ some pn) : u'.pageinfo pn = u.pageinfo pn := by
      rw [hm.kept pn hno, hm'.kept pn, hs.pageinfo]
      intro a hup
      rw [hs.processes] at hup ⊢
      rw [hkept.mappedPage hok (hrange a hup)]
      exact hno a hup
    by_cases hup : ∃ a, GivenUp (s.processes p).programBreak newBreak a ∧
        mappedPage s.mem (s.processes p).pPagetable a = some pn
    · obtain ⟨a, hup, hpage⟩ := hup
      have hpage' := hkept.mappedPage hok (hrange a hup)
      rw [hm.freed a hup pn hpage, hm'.freed a (by rw [hs.processes]; exact hup) pn]
      rw [hs.processes, hpage', hpage]
    · exact hkeeps fun a ha hpage => hup ⟨a, ha, hpage⟩
  processes := by rw [hm'.processes, hm.processes, hs.processes]
  mem x hx := by
    by_cases hin : ∃ a, GivenUp (s.processes p).programBreak newBreak a ∧
        mappedPage s.mem (s.processes p).pPagetable a ≠ none ∧
          tableAt s.mem (s.processes p).pPagetable a 3 + 8 * pageIndex a 3 ≤ x ∧
            x < tableAt s.mem (s.processes p).pPagetable a 3 + 8 * pageIndex a 3 + 8
    · -- the byte is in an entry that is zero in both
      obtain ⟨a, hup, hsome, hle, hlt⟩ := hin
      have ha := hrange a hup
      have hpage' := hkept.mappedPage hok ha
      have htable' := (hkept.path hok ha (by decide : 3 ≤ 4)).2 (reaches_of_mapped hsome)
      have hread := hm.cleared ha hup hsome
      have hread' := hm'.cleared ha (by rw [hs.processes]; exact hup) (by rw [hs.processes, hpage']; exact hsome)
      rw [hs.processes, htable'] at hread'
      exact eq_of_readLE_eq (hread'.trans hread.symm) hle hlt
    · have hout (a : Nat) (hup : GivenUp (s.processes p).programBreak newBreak a)
          (hsome : mappedPage s.mem (s.processes p).pPagetable a ≠ none) :
          x < tableAt s.mem (s.processes p).pPagetable a 3 + 8 * pageIndex a 3 ∨
            tableAt s.mem (s.processes p).pPagetable a 3 + 8 * pageIndex a 3 + 8 ≤ x := by
        by_contra hinside
        exact hin ⟨a, hup, hsome, by omega, by omega⟩
      rw [hm.mem x hout, hm'.mem x fun a hup hsome => ?_, hs.mem x hx]
      rw [hs.processes] at hup hsome ⊢
      rw [hkept.mappedPage hok (hrange a hup)] at hsome
      rw [(hkept.path hok (hrange a hup) (by decide : 3 ≤ 4)).2 (reaches_of_mapped hsome)]
      exact hout a hup hsome

variable (h : Sound I s) (hs : SameButScreen s s') (hp : p < nproc) (hlive : Live s p)
include h hs hp hlive

end Calls

section Exceptions

variable (h : Sound I k.machine) (hs : SameButScreen k.machine s')
include h hs

variable (hp : k.current < nproc) (hrun : (k.machine.processes k.current).pState = .runnable) (hk : k.registers = t.registers)
  (ht : t.Allowed k)
include hp hrun hk ht

end Exceptions

section Allowed

end Allowed

end WeensyOS.Kernel
