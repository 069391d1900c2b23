import WeensyOS.Shared.LibC

namespace WeensyOS.ProgramBreak

def pageSize : Nat := 4096

def memsizePhysical : Nat := 0x200000

def memsizeVirtual : Nat := 0x300000

/-- The break fields of a process descriptor, with the range that the kernel keeps. -/
structure Breaks where
  originalBreak : Nat
  programBreak : Nat
  le_programBreak : originalBreak ≤ programBreak
  programBreak_lt : programBreak < memsizeVirtual - pageSize

/-- The check and the assignment at the head of the kernel's `sbrk`. The
difference is given by its 64-bit pattern. -/
def moveBreak (p : Breaks) (difference : Nat) : Option Breaks :=
  let newBreak := (p.programBreak + difference) % 2 ^ 64
  if h : newBreak < p.originalBreak ∨ memsizeVirtual - pageSize ≤ newBreak then none
  else some ⟨p.originalBreak, newBreak, by omega, by omega⟩

/-- The system call as a process sees it: the previous break, or `(void*) -1`. -/
def sbrk (p : Breaks) (increment : Nat) : Nat × Breaks :=
  match moveBreak p increment with
  | some p' => (p.programBreak, p')
  | none => (2 ^ 64 - 1, p)

theorem Breaks.ext {p q : Breaks} (ho : p.originalBreak = q.originalBreak) (hp : p.programBreak = q.programBreak) :
    p = q := by
  cases p
  cases q
  cases ho
  cases hp
  rfl

theorem limit_eq : memsizeVirtual - pageSize = 3141632 := rfl

/-- A process whose heap starts at 0x110000. -/
def sampleBreaks : Breaks := ⟨0x110000, 0x110000, Nat.le_refl _, by decide⟩

theorem Breaks.lt_limit (p : Breaks) : p.programBreak < 3141632 := p.programBreak_lt

theorem sbrk_ok (p : Breaks) {increment : Nat}
    (ho : p.originalBreak ≤ (p.programBreak + increment) % 2 ^ 64)
    (hl : (p.programBreak + increment) % 2 ^ 64 < memsizeVirtual - pageSize) :
    sbrk p increment = (p.programBreak, ⟨p.originalBreak, (p.programBreak + increment) % 2 ^ 64, ho, hl⟩) := by
  have hn : ¬((p.programBreak + increment) % 2 ^ 64 < p.originalBreak ∨
      memsizeVirtual - pageSize ≤ (p.programBreak + increment) % 2 ^ 64) := by omega
  simp only [sbrk, moveBreak, dif_neg hn]

theorem sbrk_fail (p : Breaks) {increment : Nat}
    (h : (p.programBreak + increment) % 2 ^ 64 < p.originalBreak ∨
      memsizeVirtual - pageSize ≤ (p.programBreak + increment) % 2 ^ 64) :
    sbrk p increment = (2 ^ 64 - 1, p) := by
  simp only [sbrk, moveBreak, dif_pos h]

theorem sbrk_zero (p : Breaks) : sbrk p 0 = (p.programBreak, p) := by
  have hl := p.lt_limit
  have hmod : (p.programBreak + 0) % 2 ^ 64 = p.programBreak := by omega
  rw [sbrk_ok p (by rw [hmod]; exact p.le_programBreak) (by rw [hmod]; exact p.programBreak_lt)]
  simp only [hmod]

end WeensyOS.ProgramBreak
