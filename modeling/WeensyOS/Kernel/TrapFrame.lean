import Mathlib.Data.List.Basic
import WeensyOS.Kernel.Descriptors
import WeensyOS.Kernel.Process
import WeensyOS.Lib.WordStack

namespace WeensyOS.Kernel

open ByteMemory WordStack

inductive Reg where
  | rax | rcx | rdx | rbx | rbp | rsi | rdi | r8 | r9 | r10 | r11 | r12 | r13 | r14 | r15
  deriving DecidableEq

/-- The state of the processor, and the memory. -/
structure Cpu where
  regs : Reg → BitVec 64
  fs : BitVec 16
  gs : BitVec 16
  rip : BitVec 64
  cs : BitVec 16
  rflags : BitVec 64
  rsp : BitVec 64
  ss : BitVec 16
  mem : Memory

/-- The instructions of the interrupt handlers and of `exception_return`. -/
inductive Insn where
  | pushImm (v : BitVec 64)
  | push (r : Reg)
  | pushFs
  | pushGs
  | pop (r : Reg)
  | popFs
  | popGs
  | movRspRdi
  | movRdiRsp
  | addRsp (n : BitVec 64)
  | iretq

namespace Cpu

def push (c : Cpu) (v : BitVec 64) : Cpu :=
  { c with mem := writeLE c.mem (c.rsp - 8).toNat 8 v.toNat, rsp := c.rsp - 8 }

def pushAll (c : Cpu) (vs : List (BitVec 64)) : Cpu := vs.foldl push c

/-- The words on the stack, from the last one that was pushed. -/
def top (c : Cpu) (i : Nat) : BitVec 64 := word c.mem (c.rsp + BitVec.ofNat 64 (8 * i)).toNat

def setReg (c : Cpu) (r : Reg) (v : BitVec 64) : Cpu := { c with regs := Function.update c.regs r v }

def step (c : Cpu) : Insn → Cpu
  | .pushImm v => c.push v
  | .push r => c.push (c.regs r)
  | .pushFs => c.push (c.fs.setWidth 64)
  | .pushGs => c.push (c.gs.setWidth 64)
  | .pop r => { c.setReg r (c.top 0) with rsp := c.rsp + 8 }
  | .popFs => { c with fs := (c.top 0).setWidth 16, rsp := c.rsp + 8 }
  | .popGs => { c with gs := (c.top 0).setWidth 16, rsp := c.rsp + 8 }
  | .movRspRdi => c.setReg .rdi c.rsp
  | .movRdiRsp => { c with rsp := c.regs .rdi }
  | .addRsp n => { c with rsp := c.rsp + n }
  | .iretq =>
      { c with
        rip := c.top 0, cs := (c.top 1).setWidth 16, rflags := c.top 2, rsp := c.top 3, ss := (c.top 4).setWidth 16 }

def exec (c : Cpu) (is : List Insn) : Cpu := is.foldl step c

end Cpu

/-- `generic_exception_handler`, up to the call of `exception`. -/
def genericExceptionHandler : List Insn :=
  [.pushGs, .pushFs, .push .r15, .push .r14, .push .r13, .push .r12, .push .r11, .push .r10, .push .r9, .push .r8,
    .push .rdi, .push .rsi, .push .rbp, .push .rbx, .push .rdx, .push .rcx, .push .rax, .movRspRdi]

/-- The handlers of `k-exception.S`; each one goes on in the generic handler. -/
def Handler.code : Handler → List Insn
  | .gpf => .pushImm 13 :: genericExceptionHandler
  | .pagefault => .pushImm 14 :: genericExceptionHandler
  | .timer => .pushImm 0 :: .pushImm 32 :: genericExceptionHandler
  | .sys i => .pushImm 0 :: .pushImm (BitVec.ofNat 64 (intSys + i)) :: genericExceptionHandler
  | .default => .pushImm 0 :: genericExceptionHandler

def exceptionReturn : List Insn :=
  [.movRdiRsp, .pop .rax, .pop .rcx, .pop .rdx, .pop .rbx, .pop .rbp, .pop .rsi, .pop .rdi, .pop .r8, .pop .r9, .pop .r10,
    .pop .r11, .pop .r12, .pop .r13, .pop .r14, .pop .r15, .popFs, .popGs, .addRsp 16, .iretq]

/-- The index of the field for the register in an `x86_64_registers`. -/
def Reg.index : Reg → Nat
  | .rax => 0
  | .rcx => 1
  | .rdx => 2
  | .rbx => 3
  | .rbp => 4
  | .rsi => 5
  | .rdi => 6
  | .r8 => 7
  | .r9 => 8
  | .r10 => 9
  | .r11 => 10
  | .r12 => 11
  | .r13 => 12
  | .r14 => 13
  | .r15 => 14

/-- The structure `x86_64_registers`. -/
structure Registers where
  regs : Reg → BitVec 64
  fs : BitVec 64
  gs : BitVec 64
  intno : BitVec 64
  err : BitVec 64
  rip : BitVec 64
  cs : BitVec 16
  rflags : BitVec 64
  rsp : BitVec 64
  ss : BitVec 16

/-- The structure in memory. -/
def readRegisters (m : Memory) (a : Nat) : Registers where
  regs r := word m (a + 8 * r.index)
  fs := word m (a + 8 * 15)
  gs := word m (a + 8 * 16)
  intno := word m (a + 8 * 17)
  err := word m (a + 8 * 18)
  rip := word m (a + 8 * 19)
  cs := (word m (a + 8 * 20)).setWidth 16
  rflags := word m (a + 8 * 21)
  rsp := word m (a + 8 * 22)
  ss := (word m (a + 8 * 23)).setWidth 16

def registersSize : Nat := 8 * 24

/-- The flags that an interrupt gate clears: `TF`, `IF`, `NT`, `RF` and `VM`. -/
def gateFlags : BitVec 64 := 0x34300

/-- What the processor pushes when it takes an exception in user mode. The flags are those that it saves: for a fault
`RF` is set in them. -/
def Cpu.hardwareFrame (c : Cpu) (err : Option (BitVec 64)) : List (BitVec 64) :=
  [c.ss.setWidth 64, c.rsp, c.rflags, c.cs.setWidth 64, c.rip] ++ err.toList

/-- What the processor does with an exception in user mode, before the handler: it goes to the
kernel's stack, whose top is in the task state, and saves where it was. -/
def Cpu.interrupt (c : Cpu) (tsRsp0 : BitVec 64) (g : Gate) (err : Option (BitVec 64)) : Cpu :=
  let k := ({ c with rsp := tsRsp0 } : Cpu).pushAll (c.hardwareFrame err)
  { k with rip := g.offset, cs := g.selector, ss := 0, rflags := c.rflags &&& ~~~gateFlags }

def tsRsp0 : BitVec 64 := 0x80000

/-- The linked kernel: where the handlers are, and the code that is found at an address. -/
structure KernelText where
  address : Handler → BitVec 64
  code : BitVec 64 → List Insn
  code_address : ∀ h, code (address h) = h.code

/-- An exception, with the error code if it has one, up to the call of `exception`. There is nothing
to go on with when the gate is absent. -/
def Cpu.trap (K : KernelText) (c : Cpu) (v : Nat) (err : Option (BitVec 64)) : Option Cpu :=
  (interruptDescriptors K.address v).decode.map fun g =>
    let k := c.interrupt tsRsp0 g err
    k.exec (K.code k.rip)

/-- The instruction `int n` of an application. A gate that it may not call is a protection fault. `c` is the state that
the processor saves, in which `%rip` is behind the instruction after a call, and at the instruction after a fault. -/
def Cpu.int (K : KernelText) (c : Cpu) (n : BitVec 8) : Option Cpu :=
  if (interruptDescriptors K.address n.toNat).decode.map Gate.dpl = some 3 then c.trap K n.toNat none
  else c.trap K intGpf (some (BitVec.ofNat 64 (8 * n.toNat + 2)))

/-- The vectors for which the processor pushes an error code. -/
def hasErrorCode (v : Nat) : Bool := v == 8 || (10 ≤ v && v ≤ 14) || v == 17

/-- What the processor and the first lines of the handler push. -/
def Handler.pushed : Handler → List (BitVec 64)
  | .gpf => [13]
  | .pagefault => [14]
  | .timer => [0, 32]
  | .sys i => [0, BitVec.ofNat 64 (intSys + i)]
  | .default => [0]

variable {c k : Cpu} {v : Nat} {err : Option (BitVec 64)} {vs ws : List (BitVec 64)} {m : Memory}

namespace Cpu

def stack (c : Cpu) : Stack := ⟨c.mem, c.rsp.toNat⟩

theorem push_stack (c : Cpu) (v : BitVec 64) (h : 8 ≤ c.rsp.toNat) : (c.push v).stack = c.stack.push v := by
  have hsub : (c.rsp - 8).toNat = c.rsp.toNat - 8 := BitVec.toNat_sub_of_le h
  rw [stack, push, hsub]
  rfl

theorem pushAll_stack (c : Cpu) (vs : List (BitVec 64)) (h : 8 * vs.length ≤ c.rsp.toNat) :
    (c.pushAll vs).stack = c.stack.pushAll vs := by
  induction vs generalizing c with
  | nil => rfl
  | cons v vs ih =>
      rw [List.length_cons] at h
      have hpush := push_stack c v (by omega)
      have hsp : (c.push v).rsp.toNat = c.rsp.toNat - 8 := congrArg Stack.sp hpush
      rw [pushAll, List.foldl_cons, ← pushAll, ih _ (by omega), hpush]
      rfl

/-- The registers that the generic handler pushes. -/
def general (c : Cpu) : List (BitVec 64) :=
  [c.gs.setWidth 64, c.fs.setWidth 64, c.regs .r15, c.regs .r14, c.regs .r13, c.regs .r12, c.regs .r11, c.regs .r10,
    c.regs .r9, c.regs .r8, c.regs .rdi, c.regs .rsi, c.regs .rbp, c.regs .rbx, c.regs .rdx, c.regs .rcx, c.regs .rax]

theorem exec_code (c : Cpu) (h : Handler) : c.exec h.code =
    (c.pushAll (h.pushed ++ c.general)).setReg .rdi (c.pushAll (h.pushed ++ c.general)).rsp := by
  cases h with
  | default => rfl
  | gpf => rfl
  | pagefault => rfl
  | timer => rfl
  | sys i => rfl

/-- Everything that is on the kernel's stack when `exception` is called. -/
def frame (c : Cpu) (h : Handler) (err : Option (BitVec 64)) : List (BitVec 64) :=
  c.hardwareFrame err ++ (h.pushed ++ c.general)

/-- The structure with the general registers, and these words after them. -/
def savedAs (c : Cpu) (intno err rip cs rflags rsp ss : BitVec 64) : Registers where
  regs := c.regs
  fs := c.fs.setWidth 64
  gs := c.gs.setWidth 64
  intno := intno
  err := err
  rip := rip
  cs := cs.setWidth 16
  rflags := rflags
  rsp := rsp
  ss := ss.setWidth 16

/-- What `exception` should find in the structure. -/
def saved (c : Cpu) (intno err : BitVec 64) : Registers :=
  c.savedAs intno err c.rip (c.cs.setWidth 64) c.rflags c.rsp (c.ss.setWidth 64)

/-- The application goes on with the registers. -/
def restore (c : Cpu) (r : Registers) : Cpu where
  regs := r.regs
  fs := r.fs.setWidth 16
  gs := r.gs.setWidth 16
  rip := r.rip
  cs := r.cs
  rflags := r.rflags
  rsp := r.rsp
  ss := r.ss
  mem := c.mem

theorem pushAll_regs (c : Cpu) (vs : List (BitVec 64)) : (c.pushAll vs).general = c.general ∧
    (c.pushAll vs).regs = c.regs := by
  induction vs generalizing c with
  | nil => exact ⟨rfl, rfl⟩
  | cons v vs ih => exact ih (c.push v)

theorem restore_saved (c k : Cpu) (intno err : BitVec 64) : k.restore (c.saved intno err) = { c with mem := k.mem } := by
  simp only [restore, saved, savedAs, BitVec.setWidth_setWidth_of_le _ (by decide : 16 ≤ 64), BitVec.setWidth_eq]

end Cpu

section Frames

theorem readRegisters_frame {s : Stack} {intno err rip cs rflags rsp ss : BitVec 64}
    (h : s.Holds (c.general.reverse ++ [intno, err, rip, cs, rflags, rsp, ss] ++ ws)) :
    readRegisters s.mem s.sp = c.savedAs intno err rip cs rflags rsp ss := by
  have hregs (r : Reg) : word s.mem (s.sp + 8 * r.index) = c.regs r := by
    cases r <;> exact h _ _ rfl
  simp only [readRegisters, Cpu.savedAs, Registers.mk.injEq]
  refine ⟨funext hregs, h 15 _ rfl, h 16 _ rfl, h 17 _ rfl, h 18 _ rfl, h 19 _ rfl, ?_, h 21 _ rfl, h 22 _ rfl, ?_⟩
  · exact congrArg (BitVec.setWidth 16) (h 20 _ rfl)
  · exact congrArg (BitVec.setWidth 16) (h 23 _ rfl)

theorem top_add (c : Cpu) (i j : Nat) (c' : Cpu) (hmem : c'.mem = c.mem) (hrsp : c'.rsp = c.rsp + BitVec.ofNat 64 (8 * j)) :
    c'.top i = c.top (j + i) := by
  have haddr : c'.rsp + BitVec.ofNat 64 (8 * i) = c.rsp + BitVec.ofNat 64 (8 * (j + i)) := by
    rw [hrsp, BitVec.add_assoc, ← BitVec.ofNat_add, ← Nat.mul_add]
  rw [Cpu.top, Cpu.top, hmem, haddr]

theorem exec_pops (rs : List Reg) (hrs : rs.Nodup) (c : Cpu) : c.exec (rs.map .pop) =
    { c with
      regs := fun r => if r ∈ rs then c.top (rs.idxOf r) else c.regs r
      rsp := c.rsp + BitVec.ofNat 64 (8 * rs.length) } := by
  induction rs generalizing c with
  | nil => simp [Cpu.exec]
  | cons r₀ rs ih =>
      obtain ⟨hnot, hrest⟩ := List.nodup_cons.mp hrs
      have hstep : c.exec ((r₀ :: rs).map .pop) = (c.step (.pop r₀)).exec (rs.map .pop) := rfl
      rw [hstep, ih hrest]
      have htop (i : Nat) : (c.step (.pop r₀)).top i = c.top (i + 1) := by
        rw [top_add c i 1 (c.step (.pop r₀)) rfl rfl, Nat.add_comm]
      have hrsp : (c.step (.pop r₀)).rsp + BitVec.ofNat 64 (8 * rs.length) =
          c.rsp + BitVec.ofNat 64 (8 * (r₀ :: rs).length) := by
        have hlen : 8 * (r₀ :: rs).length = 8 + 8 * rs.length := by
          rw [List.length_cons]
          omega
        rw [hlen, BitVec.ofNat_add, ← BitVec.add_assoc]
        rfl
      rw [hrsp]
      simp only [Cpu.mk.injEq, and_true, Cpu.step, Cpu.setReg]
      funext r
      by_cases hr : r = r₀
      · subst hr
        rw [if_neg hnot, if_pos List.mem_cons_self, Function.update_self, List.idxOf_cons_self]
      · rw [Function.update_of_ne hr]
        by_cases hmem : r ∈ rs
        · rw [if_pos hmem, if_pos (List.mem_cons_of_mem r₀ hmem), List.idxOf_cons_ne _ (Ne.symm hr)]
          exact htop _
        · rw [if_neg hmem, if_neg fun hc => (List.mem_cons.mp hc).elim hr hmem]

def allRegs : List Reg := [.rax, .rcx, .rdx, .rbx, .rbp, .rsi, .rdi, .r8, .r9, .r10, .r11, .r12, .r13, .r14, .r15]

theorem allRegs_index (r : Reg) : r ∈ allRegs ∧ allRegs.idxOf r = r.index := by
  cases r <;> decide

/-- The last instructions of the kernel load the processor from the structure that `%rdi` points to. -/
theorem exec_exceptionReturn (c : Cpu) (ha : (c.regs .rdi).toNat + registersSize ≤ 2 ^ 64) :
    c.exec exceptionReturn = c.restore (readRegisters c.mem (c.regs .rdi).toNat) := by
  have hsize : registersSize = 192 := rfl
  have hnodup : allRegs.Nodup := by decide
  have htop (i : Nat) (hi : i < 24) : word c.mem (c.regs .rdi + BitVec.ofNat 64 (8 * i)).toNat =
      word c.mem ((c.regs .rdi).toNat + 8 * i) := by
    have haddr : (c.regs .rdi + BitVec.ofNat 64 (8 * i)).toNat = (c.regs .rdi).toNat + 8 * i := by
      rw [BitVec.toNat_add, BitVec.toNat_ofNat]
      omega
    rw [haddr]
  have hcode : c.exec exceptionReturn = (({ c with rsp := c.regs .rdi } : Cpu).exec (allRegs.map .pop)).exec
      [.popFs, .popGs, .addRsp 16, .iretq] := rfl
  -- where the words are read, as sums of what has been popped before
  have hread (y : BitVec 64) (i : Nat) (hi : i < 24) (hy : y = c.regs .rdi + BitVec.ofNat 64 (8 * i)) :
      word c.mem y.toNat = word c.mem ((c.regs .rdi).toNat + 8 * i) := by rw [hy, htop i hi]
  rw [hcode, exec_pops allRegs hnodup]
  simp only [Cpu.exec, List.foldl, Cpu.step, Cpu.restore, readRegisters, Cpu.mk.injEq, Cpu.top, and_true]
  refine ⟨funext fun r => ?_, ?_, ?_, ?_, ?_, ?_, ?_, ?_⟩
  · obtain ⟨hmem, hindex⟩ := allRegs_index r
    have hlt : r.index < 24 := by cases r <;> decide
    rw [if_pos hmem, hindex]
    exact htop _ hlt
  · exact congrArg (BitVec.setWidth 16) (hread _ 15 (by decide) (by simp only [BitVec.add_assoc]; rfl))
  · exact congrArg (BitVec.setWidth 16) (hread _ 16 (by decide) (by simp only [BitVec.add_assoc]; rfl))
  · exact hread _ 19 (by decide) (by simp only [BitVec.add_assoc]; rfl)
  · exact congrArg (BitVec.setWidth 16) (hread _ 20 (by decide) (by simp only [BitVec.add_assoc]; rfl))
  · exact hread _ 21 (by decide) (by simp only [BitVec.add_assoc]; rfl)
  · exact hread _ 22 (by decide) (by simp only [BitVec.add_assoc]; rfl)
  · exact congrArg (BitVec.setWidth 16) (hread _ 23 (by decide) (by simp only [BitVec.add_assoc]; rfl))

end Frames

section Traps

variable {K : KernelText} {h : Handler} {intno e : BitVec 64}

theorem frame_length (c : Cpu) (h : Handler) (err : Option (BitVec 64)) : (c.hardwareFrame err).length ≤ 6 ∧
    (h.pushed ++ c.general).length ≤ 19 ∧ (c.frame h err).length ≤ 25 := by
  have hpushed : h.pushed.length ≤ 2 := by cases h <;> simp [Handler.pushed]
  have herr : (c.hardwareFrame err).length ≤ 6 := by cases err <;> simp [Cpu.hardwareFrame]
  have hrest : (h.pushed ++ c.general).length = h.pushed.length + 17 := List.length_append
  have hall : (c.frame h err).length = (c.hardwareFrame err).length + (h.pushed ++ c.general).length := List.length_append
  rw [hall, hrest]
  omega

theorem interrupt_stack (c : Cpu) {top : BitVec 64} (g : Gate) (err : Option (BitVec 64)) (htop : 48 ≤ top.toNat) :
    (c.interrupt top g err).stack = (⟨c.mem, top.toNat⟩ : Stack).pushAll (c.hardwareFrame err) := by
  obtain ⟨hlen, -, -⟩ := frame_length c .gpf err
  generalize hws : c.hardwareFrame err = ws at hlen
  have hpush := Cpu.pushAll_stack { c with rsp := top } ws (Nat.le_trans (Nat.mul_le_mul_left 8 hlen) htop)
  rw [Cpu.interrupt, hws]
  exact hpush

theorem interrupt_general (c : Cpu) (top : BitVec 64) (g : Gate) (err : Option (BitVec 64)) :
    (c.interrupt top g err).general = c.general := by
  rw [Cpu.interrupt]
  generalize c.hardwareFrame err = ws
  exact (Cpu.pushAll_regs { c with rsp := top } ws).1

/-- The handler at the gate pushes the rest of the frame and leaves `%rdi` at its end. -/
theorem handler_pushes (K : KernelText) (c : Cpu) {top : BitVec 64} (g : Gate) (err : Option (BitVec 64))
    (htop : 200 ≤ top.toNat) (hg : g.offset = K.address h) : ∃ k, (c.interrupt top g err).exec (K.code (c.interrupt top g err).rip) = k ∧
      (⟨k.mem, (k.regs .rdi).toNat⟩ : Stack) = (⟨c.mem, top.toNat⟩ : Stack).pushAll (c.frame h err) := by
  obtain ⟨hfirst, hrest, -⟩ := frame_length c h err
  have hstack := interrupt_stack c g err (Nat.le_trans (by decide : 48 ≤ 200) htop)
  have hgeneral := interrupt_general c top g err
  have hrip : (c.interrupt top g err).rip = K.address h := by rw [Cpu.interrupt, hg]
  have hsp : (c.interrupt top g err).rsp.toNat = top.toNat - 8 * (c.hardwareFrame err).length :=
    (congrArg Stack.sp hstack).trans (Stack.pushAll_sp _ _)
  rw [hrip, K.code_address h]
  generalize c.interrupt top g err = i at hstack hgeneral hsp
  have hpush := Cpu.pushAll_stack i (h.pushed ++ c.general) (by rw [hsp]; omega)
  refine ⟨_, rfl, ?_⟩
  rw [Cpu.exec_code, hgeneral, Cpu.setReg]
  simp only [Function.update_self]
  refine hpush.trans ?_
  rw [hstack, Stack.pushAll, Stack.pushAll, ← List.foldl_append, ← Stack.pushAll, ← Cpu.frame]

/-- A trap pushes the frame on the kernel's stack and goes on with `%rdi` at its end. -/
theorem trap_pushes (K : KernelText) (c : Cpu) (err : Option (BitVec 64)) (hv : v < 256) (hh : handlerOf v = some h) :
    ∃ k, c.trap K v err = some k ∧ (⟨k.mem, (k.regs .rdi).toNat⟩ : Stack) =
      (⟨c.mem, tsRsp0.toNat⟩ : Stack).pushAll (c.frame h err) := by
  have htop : 200 ≤ tsRsp0.toNat := by decide
  rw [Cpu.trap, interruptDescriptors_decode K.address hv, hh, Option.map_some, Option.map_some]
  obtain ⟨k, hk, hstack⟩ := handler_pushes K c ⟨K.address h, 0x8, 0, 0xE, BitVec.ofNat 2 (dplOf v)⟩ err htop rfl
  exact ⟨k, congrArg some hk, hstack⟩

theorem Cpu.frame_reverse (c : Cpu) (h : Handler) (err : Option (BitVec 64)) : (c.frame h err).reverse =
    c.general.reverse ++ (h.pushed.reverse ++ err.toList) ++ [c.rip, c.cs.setWidth 64, c.rflags, c.rsp, c.ss.setWidth 64] := by
  have herr : err.toList.reverse = err.toList := by cases err <;> rfl
  rw [Cpu.frame, Cpu.hardwareFrame, List.reverse_append, List.reverse_append, List.reverse_append, herr]
  simp only [List.reverse_cons, List.reverse_nil, List.nil_append, List.cons_append, List.append_assoc]

/-- What is in the structure that `exception` gets, and where the trap has written. -/
structure Trapped (c k : Cpu) (h : Handler) (err : Option (BitVec 64)) : Prop where
  holds : (⟨k.mem, (k.regs .rdi).toNat⟩ : Stack).Holds ((c.frame h err).reverse ++ [word c.mem tsRsp0.toNat])
  outside : ∀ x, x < tsRsp0.toNat - 200 ∨ tsRsp0.toNat ≤ x → k.mem x = c.mem x

theorem trap_trapped (K : KernelText) (c : Cpu) (err : Option (BitVec 64)) (hv : v < 256) (hh : handlerOf v = some h) :
    ∃ k, c.trap K v err = some k ∧ Trapped c k h err := by
  obtain ⟨-, -, hlen⟩ := frame_length c h err
  have htop : tsRsp0.toNat = 0x80000 := rfl
  obtain ⟨k, hk, hstack⟩ := trap_pushes K c err hv hh
  have hle : 8 * (c.frame h err).length ≤ (⟨c.mem, tsRsp0.toNat⟩ : Stack).sp := by
    simp only [htop]
    omega
  refine ⟨k, hk, ?_, fun x hx => ?_⟩
  · rw [hstack]
    refine Stack.Holds.pushAll (fun i w hi => ?_) hle
    cases i with
    | zero => exact Option.some.inj hi
    | succ i => cases hi
  · refine (congrArg (fun s => Stack.mem s x) hstack).trans (Stack.pushAll_outside hle ?_)
    simp only [htop] at hx ⊢
    omega

/-- A trap with a full frame: the structure holds the registers. -/
theorem Trapped.registers (t : Trapped c k h err) (hframe : h.pushed.reverse ++ err.toList = [intno, e]) :
    readRegisters k.mem (k.regs .rdi).toNat = c.saved intno e := by
  have hholds := t.holds
  rw [Cpu.frame_reverse, hframe, List.append_assoc c.general.reverse] at hholds
  have hread := readRegisters_frame hholds
  exact hread

/-- A trap without an error code for the default handler: one word is missing, and the following ones are read too early. -/
theorem Trapped.shifted (t : Trapped c k .default none) : readRegisters k.mem (k.regs .rdi).toNat =
    c.savedAs 0 c.rip (c.cs.setWidth 64) c.rflags c.rsp (c.ss.setWidth 64) (word c.mem tsRsp0.toNat) := by
  have hlist : (c.frame .default none).reverse ++ [word c.mem tsRsp0.toNat] = c.general.reverse ++
      [0, c.rip, c.cs.setWidth 64, c.rflags, c.rsp, c.ss.setWidth 64, word c.mem tsRsp0.toNat] ++ [] := by
    rw [Cpu.frame_reverse, List.append_nil, List.append_assoc, List.append_assoc]
    rfl
  have hholds := t.holds
  rw [hlist] at hholds
  have hread := readRegisters_frame hholds
  exact hread

theorem handlerOf_framed (hh : handlerOf v = some h) (hd : h ≠ .default) (herr : err.isSome = hasErrorCode v) :
    h.pushed.reverse ++ err.toList = [BitVec.ofNat 64 v, err.getD 0] := by
  rw [handlerOf] at hh
  split at hh
  · next hin =>
      obtain rfl := Option.some.inj hh
      have hi : intSys + (Fin.ofNat 16 (v - intSys)).val = v := by
        rw [Fin.val_ofNat]
        omega
      have hnone : hasErrorCode v = false := by
        have hsys : intSys = 48 := rfl
        simp only [hasErrorCode, Bool.or_eq_false_iff, beq_eq_false_iff_ne, Bool.and_eq_false_iff, decide_eq_false_iff_not]
        omega
      cases err with
      | none => simp only [Handler.pushed, hi]; rfl
      | some e => rw [hnone] at herr; cases herr
  · split at hh
    · next hv =>
        obtain rfl := Option.some.inj hh
        subst hv
        cases err with
        | none => rfl
        | some e => cases herr
    · split at hh
      · next hv =>
          obtain rfl := Option.some.inj hh
          subst hv
          cases err with
          | none => cases herr
          | some e => rfl
      · split at hh
        · next hv =>
            obtain rfl := Option.some.inj hh
            subst hv
            cases err with
            | none => cases herr
            | some e => rfl
        · split at hh
          · exact absurd (Option.some.inj hh).symm hd
          · cases hh

/-- A trap gives `exception` the registers that the processor has saved; and the kernel, whatever it has done in between, goes on with
the application from the structure, with the result of the call in `%rax`. -/
theorem trap_resumes (K : KernelText) (c : Cpu) (hv : v < 256) (herr : err.isSome = hasErrorCode v)
    (hh : handlerOf v = some h) (hd : h ≠ .default) : ∃ k, c.trap K v err = some k ∧
      readRegisters k.mem (k.regs .rdi).toNat = c.saved (BitVec.ofNat 64 v) (err.getD 0) ∧
      (∀ x, x < tsRsp0.toNat - 200 ∨ tsRsp0.toNat ≤ x → k.mem x = c.mem x) ∧
      ∀ (k' : Cpu) (rax : BitVec 64), (k'.regs .rdi).toNat + registersSize ≤ 2 ^ 64 →
        readRegisters k'.mem (k'.regs .rdi).toNat =
            { c.saved (BitVec.ofNat 64 v) (err.getD 0) with regs := Function.update c.regs .rax rax } →
          k'.exec exceptionReturn = { c with regs := Function.update c.regs .rax rax, mem := k'.mem } := by
  obtain ⟨k, hk, t⟩ := trap_trapped K c err hv hh
  refine ⟨k, hk, t.registers (handlerOf_framed hh hd herr), t.outside, fun k' rax ha hread => ?_⟩
  rw [exec_exceptionReturn k' ha, hread]
  exact Cpu.restore_saved { c with regs := Function.update c.regs .rax rax } k' _ _

section Sample

def sampleAddress : Handler → BitVec 64
  | .default => 0x41000
  | .gpf => 0x41100
  | .pagefault => 0x41200
  | .timer => 0x41300
  | .sys i => 0x41400 + BitVec.ofNat 64 i

def sampleCode (a : BitVec 64) : List Insn :=
  if a = 0x41000 then Handler.default.code
  else if a = 0x41100 then Handler.gpf.code
  else if a = 0x41200 then Handler.pagefault.code
  else if a = 0x41300 then Handler.timer.code
  else (handlerOf (intSys + (a.toNat - 0x41400))).elim [] Handler.code

theorem sampleCode_address (h : Handler) : sampleCode (sampleAddress h) = h.code := by
  cases h with
  | default => rfl
  | gpf => rfl
  | pagefault => rfl
  | timer => rfl
  | sys i =>
      have haddr : ∀ i : Fin 16, sampleAddress (.sys i) ≠ 0x41000 ∧ sampleAddress (.sys i) ≠ 0x41100 ∧
          sampleAddress (.sys i) ≠ 0x41200 ∧ sampleAddress (.sys i) ≠ 0x41300 ∧
          handlerOf (intSys + ((sampleAddress (.sys i)).toNat - 0x41400)) = some (.sys i) := by decide
      obtain ⟨h0, h1, h2, h3, hi⟩ := haddr i
      rw [sampleCode, if_neg h0, if_neg h1, if_neg h2, if_neg h3, hi, Option.elim_some]

def sampleText : KernelText := ⟨sampleAddress, sampleCode, sampleCode_address⟩

def sampleCpu : Cpu where
  regs r := BitVec.ofNat 64 r.index
  fs := 0x23
  gs := 0x23
  rip := 0x100000
  cs := 0x13
  rflags := 0x202
  rsp := 0x300000
  ss := 0x23
  mem _ := 0

theorem readRegisters_setRax (m : Memory) (a : Nat) (rax : BitVec 64) : readRegisters (writeLE m a 8 rax.toNat) a =
    { readRegisters m a with regs := Function.update (readRegisters m a).regs .rax rax } := by
  have hother (i : Nat) (hi : 1 ≤ i) : word (writeLE m a 8 rax.toNat) (a + 8 * i) = word m (a + 8 * i) :=
    congrArg (BitVec.ofNat 64) (readLE_writeLE_disjoint _ (.inr (by omega)))
  have hregs (r : Reg) : word (writeLE m a 8 rax.toNat) (a + 8 * r.index) =
      Function.update (readRegisters m a).regs .rax rax r := by
    by_cases hr : r = .rax
    · subst hr
      rw [Function.update_self]
      exact Stack.word_writeLE m a rax
    · have hindex : 1 ≤ r.index := by
        revert hr
        cases r <;> decide
      rw [Function.update_of_ne hr, hother _ hindex]
      rfl
  simp only [readRegisters, Registers.mk.injEq]
  refine ⟨funext hregs, hother 15 ?_, hother 16 ?_, hother 17 ?_, hother 18 ?_, hother 19 ?_,
    congrArg _ (hother 20 ?_), hother 21 ?_, hother 22 ?_, congrArg _ (hother 23 ?_)⟩
  all_goals decide

/-- An application asks for its number, and goes on with 1 in `%rax`. -/
theorem getpid_resumes : ∃ k, sampleCpu.trap sampleText 49 none = some k ∧
    readRegisters k.mem (k.regs .rdi).toNat = sampleCpu.saved 49 0 ∧
      ({ k with mem := writeLE k.mem (k.regs .rdi).toNat 8 1 } : Cpu).exec exceptionReturn =
        { sampleCpu with
          regs := Function.update sampleCpu.regs .rax 1, mem := writeLE k.mem (k.regs .rdi).toNat 8 1 } := by
  have hh : handlerOf 49 = some (.sys 1) := rfl
  have herr : (none : Option (BitVec 64)).isSome = hasErrorCode 49 := rfl
  obtain ⟨k, hk, hread, -, hreturn⟩ := trap_resumes sampleText sampleCpu (by decide) herr hh (by simp)
  have hrdi : (sampleCpu.trap sampleText 49 none).map (fun k => (k.regs .rdi).toNat) = some (0x80000 - registersSize) := by
    decide +kernel
  rw [hk, Option.map_some, Option.some.injEq] at hrdi
  refine ⟨k, hk, hread, hreturn { k with mem := writeLE k.mem (k.regs .rdi).toNat 8 1 } 1 ?_ ?_⟩
  · have hend : (k.regs .rdi).toNat + registersSize ≤ 2 ^ 64 := by
      rw [hrdi]
      decide
    exact hend
  · have hset := readRegisters_setRax k.mem (k.regs .rdi).toNat 1
    rw [hread] at hset
    exact hset

end Sample

/-- An application enters the kernel with its system calls; any other `int` is a protection fault. -/
theorem int_enters (K : KernelText) (c : Cpu) (n : BitVec 8) : ∃ k, c.int K n = some k ∧
    readRegisters k.mem (k.regs .rdi).toNat =
      if intSys ≤ n.toNat ∧ n.toNat < intSys + 16 then c.saved (BitVec.ofNat 64 n.toNat) 0
      else c.saved (BitVec.ofNat 64 intGpf) (BitVec.ofNat 64 (8 * n.toNat + 2)) := by
  have hn : n.toNat < 256 := n.isLt
  have hdecode := interruptDescriptors_decode K.address hn
  by_cases hin : intSys ≤ n.toNat ∧ n.toNat < intSys + 16
  · have hh : handlerOf n.toNat = some (.sys (Fin.ofNat 16 (n.toNat - intSys))) := if_pos hin
    have hdpl : (interruptDescriptors K.address n.toNat).decode.map Gate.dpl = some 3 := by
      rw [hdecode, hh, dplOf, if_pos hin]
      rfl
    have herr : (none : Option (BitVec 64)).isSome = hasErrorCode n.toNat := by
      have hsys : intSys = 48 := rfl
      simp only [hasErrorCode, Option.isSome_none, eq_comm (a := false), Bool.or_eq_false_iff, beq_eq_false_iff_ne,
        Bool.and_eq_false_iff, decide_eq_false_iff_not]
      omega
    obtain ⟨k, hk, t⟩ := trap_trapped K c none hn hh
    rw [Cpu.int, if_pos hdpl, if_pos hin]
    exact ⟨k, hk, t.registers (handlerOf_framed hh (by simp) herr)⟩
  · have hdpl : (interruptDescriptors K.address n.toNat).decode.map Gate.dpl ≠ some 3 := by
      rw [hdecode, dplOf, if_neg hin]
      cases handlerOf n.toNat with
      | none => simp
      | some h => simp
    have herr : (some (BitVec.ofNat 64 (8 * n.toNat + 2))).isSome = hasErrorCode intGpf := rfl
    have hh : handlerOf intGpf = some .gpf := rfl
    obtain ⟨k, hk, t⟩ := trap_trapped K c (some (BitVec.ofNat 64 (8 * n.toNat + 2))) (by decide) hh
    rw [Cpu.int, if_neg hdpl, if_neg hin]
    exact ⟨k, hk, t.registers (handlerOf_framed hh (by simp) herr)⟩

/-- A vector without a handler of its own is reported as vector 0, but only from 16 up: the exceptions of the processor
below that have no gate. Where the processor has pushed no error code, one word is missing, and the structure has the
fields after it one place too early. -/
theorem default_reports (K : KernelText) (c : Cpu) (err : Option (BitVec 64)) (hv : v < 256)
    (hown : v ∉ [intGpf, intPagefault, intTimer]) (hsys : v < intSys ∨ intSys + 16 ≤ v) :
    if v < 16 then c.trap K v err = none
    else ∃ k, c.trap K v err = some k ∧ readRegisters k.mem (k.regs .rdi).toNat =
      match err with
      | some e => c.saved 0 e
      | none => c.savedAs 0 c.rip (c.cs.setWidth 64) c.rflags c.rsp (c.ss.setWidth 64) (word c.mem tsRsp0.toNat) := by
  have hhandler : handlerOf v = if 16 ≤ v then some .default else none := by
    simp only [List.mem_cons, List.not_mem_nil, or_false, not_or] at hown
    rw [handlerOf, if_neg (by omega), if_neg hown.2.2, if_neg hown.1, if_neg hown.2.1]
  split
  next hlow =>
    rw [Cpu.trap, interruptDescriptors_decode K.address hv, hhandler, if_neg (Nat.not_le.mpr hlow), Option.map_none,
      Option.map_none]
  next hge =>
    rw [if_pos (Nat.not_lt.mp hge)] at hhandler
    obtain ⟨k, hk, t⟩ := trap_trapped K c err hv hhandler
    refine ⟨k, hk, ?_⟩
    cases err with
    | some e => exact t.registers rfl
    | none => exact t.shifted

/-- An interrupt of a device, an unaligned access and a division by zero. -/
theorem default_reports_samples : (∃ k, sampleCpu.trap sampleText 33 none = some k ∧
      (readRegisters k.mem (k.regs .rdi).toNat).intno = 0 ∧ (readRegisters k.mem (k.regs .rdi).toNat).err = sampleCpu.rip) ∧
    (∃ k, sampleCpu.trap sampleText 17 (some 0) = some k ∧ readRegisters k.mem (k.regs .rdi).toNat = sampleCpu.saved 0 0) ∧
      sampleCpu.trap sampleText 0 none = none := by
  have hdevice := default_reports sampleText sampleCpu none (v := 33) (by decide) (by decide) (by decide)
  have haligned := default_reports sampleText sampleCpu (some 0) (v := 17) (by decide) (by decide) (by decide)
  have hdivision := default_reports sampleText sampleCpu none (v := 0) (by decide) (by decide) (by decide)
  rw [if_neg (by decide)] at hdevice haligned
  rw [if_pos (by decide)] at hdivision
  obtain ⟨k, hk, hread⟩ := hdevice
  refine ⟨⟨k, hk, ?_, ?_⟩, haligned, hdivision⟩
  · rw [hread]
    rfl
  · rw [hread]
    rfl

end Traps

end WeensyOS.Kernel
