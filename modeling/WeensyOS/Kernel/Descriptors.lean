import Mathlib.Algebra.Group.Nat.Defs
import Mathlib.Logic.Function.Basic

namespace WeensyOS.Kernel

def segselKernCode : BitVec 64 := 0x8

def x86segP : BitVec 64 := 1#64 <<< 47

def x86segTss : BitVec 64 := 0x9#64 <<< 40

def x86gateInterrupt : BitVec 64 := 0xE#64 <<< 40

/-- A privilege level as an operand of a 64-bit operation. -/
def dplBits (dpl : Fin 4) : BitVec 64 := BitVec.ofNat 64 dpl <<< 45

/-- The two words of a system descriptor. -/
def setSysSegment (type : BitVec 64) (dpl : Fin 4) (addr size : BitVec 64) : BitVec 64 × BitVec 64 :=
  ((addr &&& 0x0000000000FFFFFF#64) <<< 16 ||| (addr &&& 0x00000000FF000000#64) <<< 32 ||| ((size - 1#64) &&& 0x0FFFF#64) |||
    ((size - 1#64) &&& 0xF0000#64) <<< 48 ||| type ||| dplBits dpl ||| x86segP, addr >>> 32)

structure GateDescriptor where
  gdLow : BitVec 64
  gdHigh : BitVec 64

def setGate (type : BitVec 64) (dpl : Fin 4) (function : BitVec 64) : GateDescriptor where
  gdLow := (function &&& 0x000000000000FFFF#64) ||| (segselKernCode <<< 16) ||| type ||| dplBits dpl ||| x86segP |||
    (function &&& 0x00000000FFFF0000#64) <<< 32
  gdHigh := function >>> 32

/-- The interrupt handlers that `segments_init` installs; their addresses are those of the linked kernel. -/
inductive Handler where
  | default
  | gpf
  | pagefault
  | timer
  | sys (i : Fin 16)
  deriving DecidableEq

def intTimer : Nat := 32

def intGpf : Nat := 0xd

def intPagefault : Nat := 0xe

def intSys : Nat := 48

/-- `interrupt_descriptors[]` after `segments_init`. -/
def interruptDescriptors (address : Handler → BitVec 64) : Nat → GateDescriptor :=
  let gate (dpl : Fin 4) (h : Handler) := setGate x86gateInterrupt dpl (address h)
  let idt := (List.range' 16 240).foldl (fun idt i => Function.update idt i (gate 0 .default)) fun _ => ⟨0, 0⟩
  let idt := Function.update idt intTimer (gate 0 .timer)
  let idt := Function.update idt intGpf (gate 0 .gpf)
  let idt := Function.update idt intPagefault (gate 0 .pagefault)
  (List.range' 0 16).foldl (fun idt i => Function.update idt (intSys + i) (gate 3 (.sys (Fin.ofNat 16 i)))) idt

/-- What the processor reads from a gate. -/
structure Gate where
  offset : BitVec 64
  selector : BitVec 16
  stackTable : BitVec 3
  type : BitVec 4
  dpl : BitVec 2
  deriving DecidableEq

/-- A gate that is not present is no gate. -/
def GateDescriptor.decode (g : GateDescriptor) : Option Gate :=
  if g.gdLow.getLsbD 47 then
    some
      { offset := g.gdHigh.extractLsb' 0 32 ++ g.gdLow.extractLsb' 48 16 ++ g.gdLow.extractLsb' 0 16
        selector := g.gdLow.extractLsb' 16 16
        stackTable := g.gdLow.extractLsb' 32 3
        type := g.gdLow.extractLsb' 40 4
        dpl := g.gdLow.extractLsb' 45 2 }
  else none

/-- What the processor reads from a system descriptor. -/
structure SystemSegment where
  base : BitVec 64
  limit : BitVec 20
  type : BitVec 4
  deriving DecidableEq

def decodeSystem (segment : BitVec 64 × BitVec 64) : Option SystemSegment :=
  if segment.1.getLsbD 47 then
    some
      { base := segment.2.extractLsb' 0 32 ++ segment.1.extractLsb' 56 8 ++ segment.1.extractLsb' 16 24
        limit := segment.1.extractLsb' 48 4 ++ segment.1.extractLsb' 0 16
        type := segment.1.extractLsb' 40 4 }
  else none

variable {i : Nat}

section Bits

/-- The bits of a gate that do not come from the address of the function. -/
def gateFixed (dpl : Fin 4) : BitVec 64 := segselKernCode <<< 16 ||| x86gateInterrupt ||| dplBits dpl ||| x86segP

theorem gateFixed_outside : ∀ (dpl : Fin 4) (i : Nat), i < 64 → i < 16 ∨ 48 ≤ i → (gateFixed dpl).getLsbD i = false := by
  decide

theorem setGate_eq (dpl : Fin 4) (function : BitVec 64) : (setGate x86gateInterrupt dpl function).gdLow =
    (function &&& 0x000000000000FFFF#64) ||| gateFixed dpl ||| (function &&& 0x00000000FFFF0000#64) <<< 32 := by
  simp only [setGate, gateFixed, BitVec.or_assoc]

theorem setGate_low (dpl : Fin 4) (function : BitVec 64) (hi : i < 64) :
    (setGate x86gateInterrupt dpl function).gdLow.getLsbD i =
      if i < 16 then function.getLsbD i
      else if i < 48 then (gateFixed dpl).getLsbD i
      else function.getLsbD (i - 32) := by
  have hlow : ∀ i < 64, (0x000000000000FFFF#64).getLsbD i = decide (i < 16) := by decide
  have hmid : ∀ i < 64, (0x00000000FFFF0000#64).getLsbD i = (decide (16 ≤ i) && decide (i < 32)) := by decide
  have hfixed := gateFixed_outside dpl i hi
  rw [setGate_eq, BitVec.getLsbD_or, BitVec.getLsbD_or, BitVec.getLsbD_and, BitVec.getLsbD_shiftLeft, BitVec.getLsbD_and,
    hlow i hi, hmid (i - 32) (by omega)]
  by_cases h16 : i < 16
  · have h32 : i < 32 := by omega
    simp only [h16, h32, hi, hfixed (.inl h16), decide_true, Bool.and_true, Bool.or_false, Bool.not_true, Bool.and_false,
      Bool.false_and, if_true]
  · by_cases h48 : i < 48
    · have hlt : ¬16 ≤ i - 32 := by omega
      simp only [h16, h48, hlt, decide_false, Bool.and_false, Bool.false_and, Bool.false_or, Bool.or_false, if_false, if_true]
    · have h32 : ¬i < 32 := by omega
      have hlo : 16 ≤ i - 32 := by omega
      have hhi : i - 32 < 32 := by omega
      simp only [h16, h48, h32, hi, hlo, hhi, hfixed (.inr (by omega)), decide_true, decide_false, Bool.and_true,
        Bool.and_false, Bool.false_or, Bool.or_false, Bool.not_false, Bool.true_and, if_false]

theorem extract_fixed {n k : Nat} (dpl : Fin 4) (function : BitVec 64) (hlo : 16 ≤ n) (hhi : n + k ≤ 48) :
    (setGate x86gateInterrupt dpl function).gdLow.extractLsb' n k = (gateFixed dpl).extractLsb' n k := by
  apply BitVec.eq_of_getLsbD_eq
  intro j hj
  rw [BitVec.getLsbD_extractLsb', BitVec.getLsbD_extractLsb', setGate_low dpl function (by omega), if_neg (by omega),
    if_pos (by omega)]

/-- The processor reads from a gate what the kernel has put into it. -/
theorem setGate_decode (dpl : Fin 4) (function : BitVec 64) : (setGate x86gateInterrupt dpl function).decode =
    some ⟨function, 0x8, 0, 0xE, BitVec.ofNat 2 dpl⟩ := by
  have hpresent : (setGate x86gateInterrupt dpl function).gdLow.getLsbD 47 = true := by
    rw [setGate_low dpl function (by decide), if_neg (by decide), if_pos (by decide)]
    revert dpl
    decide
  have hfixed : ∀ dpl : Fin 4, (gateFixed dpl).extractLsb' 16 16 = 0x8 ∧ (gateFixed dpl).extractLsb' 32 3 = 0 ∧
      (gateFixed dpl).extractLsb' 40 4 = 0xE ∧ (gateFixed dpl).extractLsb' 45 2 = BitVec.ofNat 2 dpl := by decide
  obtain ⟨hselector, hstack, htype, hdpl⟩ := hfixed dpl
  have hoffset : (setGate x86gateInterrupt dpl function).gdHigh.extractLsb' 0 32 ++
      (setGate x86gateInterrupt dpl function).gdLow.extractLsb' 48 16 ++
        (setGate x86gateInterrupt dpl function).gdLow.extractLsb' 0 16 = function := by
    apply BitVec.eq_of_getLsbD_eq
    intro j hj
    rw [BitVec.getLsbD_append, BitVec.getLsbD_append, BitVec.getLsbD_extractLsb', BitVec.getLsbD_extractLsb',
      BitVec.getLsbD_extractLsb']
    by_cases h16 : j < 16
    · rw [if_pos h16, setGate_low dpl function (by omega), if_pos (by omega), Nat.zero_add]
      simp only [h16, decide_true, Bool.true_and]
    · by_cases h32 : j - 16 < 16
      · rw [if_neg h16, if_pos h32, setGate_low dpl function (by omega), if_neg (by omega), if_neg (by omega)]
        simp only [h32, decide_true, Bool.true_and]
        congr 1
        omega
      · rw [if_neg h16, if_neg h32, setGate, BitVec.getLsbD_ushiftRight]
        have hlt : j - 16 - 16 < 32 := by omega
        simp only [hlt, decide_true, Bool.true_and]
        congr 1
        omega
  rw [GateDescriptor.decode, if_pos hpresent, hoffset, extract_fixed _ _ (by decide) (by decide),
    extract_fixed _ _ (by decide) (by decide), extract_fixed _ _ (by decide) (by decide),
    extract_fixed _ _ (by decide) (by decide), hselector, hstack, htype, hdpl]

end Bits

section Table

variable (address : Handler → BitVec 64) {v : Nat}

theorem foldl_update {α : Type*} (b : Nat) (g : Nat → α) (n a : Nat) (f : Nat → α) (v : Nat) :
    (List.range' a n).foldl (fun f i => Function.update f (b + i) (g i)) f v =
      if b + a ≤ v ∧ v < b + a + n then g (v - b) else f v := by
  induction n generalizing a f with
  | zero => rw [if_neg (by omega)]; rfl
  | succ n ih =>
      rw [List.range'_succ, List.foldl_cons, ih]
      by_cases hrest : b + (a + 1) ≤ v ∧ v < b + (a + 1) + n
      · rw [if_pos hrest, if_pos (by omega)]
      · rw [if_neg hrest]
        by_cases hfirst : v = b + a
        · rw [if_pos (by omega), hfirst, Function.update_self, Nat.add_sub_cancel_left]
        · rw [if_neg (by omega), Function.update_of_ne hfirst]

/-- The handler for a vector. The processor's own exceptions have none, but for two of them. -/
def handlerOf (v : Nat) : Option Handler :=
  if intSys ≤ v ∧ v < intSys + 16 then some (.sys (Fin.ofNat 16 (v - intSys)))
  else if v = intTimer then some .timer
  else if v = intGpf then some .gpf
  else if v = intPagefault then some .pagefault
  else if 16 ≤ v then some .default
  else none

def dplOf (v : Nat) : Fin 4 := if intSys ≤ v ∧ v < intSys + 16 then 3 else 0

theorem interruptDescriptors_eq (hv : v < 256) : interruptDescriptors address v =
    ((handlerOf v).map fun h => setGate x86gateInterrupt (dplOf v) (address h)).getD ⟨0, 0⟩ := by
  have hdefault := foldl_update 0 (fun _ => setGate x86gateInterrupt 0 (address .default)) 240 16 (fun _ => ⟨0, 0⟩) v
  simp only [Nat.zero_add] at hdefault
  have hsys : intSys = 48 := rfl
  have htimer : intTimer = 32 := rfl
  have hgpf : intGpf = 0xd := rfl
  have hpage : intPagefault = 0xe := rfl
  rw [interruptDescriptors, foldl_update, handlerOf, dplOf]
  by_cases hin : intSys ≤ v ∧ v < intSys + 16
  · rw [if_pos (by omega), if_pos hin, if_pos hin]
    rfl
  · rw [if_neg (by omega), if_neg hin, if_neg hin]
    by_cases h14 : v = intPagefault
    · rw [h14, Function.update_self, if_neg (by omega), if_neg (by omega), if_pos rfl]
      rfl
    rw [Function.update_of_ne h14]
    by_cases h13 : v = intGpf
    · rw [h13, Function.update_self, if_neg (by omega), if_pos rfl]
      rfl
    rw [Function.update_of_ne h13]
    by_cases h32 : v = intTimer
    · rw [h32, Function.update_self, if_pos rfl]
      rfl
    rw [Function.update_of_ne h32, if_neg h32, if_neg h13, if_neg h14, hdefault]
    by_cases h16 : 16 ≤ v
    · rw [if_pos ⟨h16, by omega⟩, if_pos h16]
      rfl
    · rw [if_neg fun hc => h16 hc.1, if_neg h16]
      rfl

/-- Every gate of the table leads to its handler, in the kernel's code segment, and applications may
call the gates of the system calls only. -/
theorem interruptDescriptors_decode (hv : v < 256) : (interruptDescriptors address v).decode =
    (handlerOf v).map fun h => ⟨address h, 0x8, 0, 0xE, BitVec.ofNat 2 (dplOf v)⟩ := by
  rw [interruptDescriptors_eq address hv]
  cases handlerOf v with
  | none =>
      have hzero : (⟨0, 0⟩ : GateDescriptor).decode = none := if_neg (by decide)
      exact hzero
  | some h => exact setGate_decode (dplOf v) (address h)

end Table

section TaskState

def systemFixed (dpl : Fin 4) : BitVec 64 := x86segTss ||| dplBits dpl ||| x86segP

/-- The high part of the limit is shifted out of the word. -/
theorem setSysSegment_low (dpl : Fin 4) (addr size : BitVec 64) (hi : i < 64) :
    (setSysSegment x86segTss dpl addr size).1.getLsbD i =
      if i < 16 then (size - 1#64).getLsbD i
      else if i < 40 then addr.getLsbD (i - 16)
      else if i < 56 then (systemFixed dpl).getLsbD i
      else addr.getLsbD (i - 32) := by
  have hbase : ∀ i < 64, (0x0000000000FFFFFF#64).getLsbD i = decide (i < 24) := by decide
  have hhigh : ∀ i < 64, (0x00000000FF000000#64).getLsbD i = (decide (24 ≤ i) && decide (i < 32)) := by decide
  have hlow : ∀ i < 64, (0x0FFFF#64).getLsbD i = decide (i < 16) := by decide
  have hlost : ∀ i < 64, 48 ≤ i → (0xF0000#64).getLsbD (i - 48) = false := by decide
  have hfixed : ∀ (dpl : Fin 4) (i : Nat), i < 64 → i < 40 ∨ 56 ≤ i → (systemFixed dpl).getLsbD i = false := by decide
  have hgroup : (setSysSegment x86segTss dpl addr size).1 = (addr &&& 0x0000000000FFFFFF#64) <<< 16 |||
      (addr &&& 0x00000000FF000000#64) <<< 32 ||| ((size - 1#64) &&& 0x0FFFF#64) |||
        ((size - 1#64) &&& 0xF0000#64) <<< 48 ||| systemFixed dpl := by
    simp only [setSysSegment, systemFixed, BitVec.or_assoc]
  have hzero : (((size - 1#64) &&& 0xF0000#64) <<< 48).getLsbD i = false := by
    rw [BitVec.getLsbD_shiftLeft, BitVec.getLsbD_and]
    by_cases h48 : 48 ≤ i
    · rw [hlost i hi h48, Bool.and_false, Bool.and_false]
    · simp only [Nat.lt_of_not_le h48, decide_true, Bool.not_true, Bool.and_false, Bool.false_and]
  rw [hgroup, BitVec.getLsbD_or, BitVec.getLsbD_or, BitVec.getLsbD_or, BitVec.getLsbD_or, hzero, BitVec.getLsbD_shiftLeft,
    BitVec.getLsbD_shiftLeft, BitVec.getLsbD_and, BitVec.getLsbD_and, BitVec.getLsbD_and, hbase (i - 16) (by omega),
    hhigh (i - 32) (by omega), hlow i hi]
  by_cases h16 : i < 16
  · have h32 : i < 32 := by omega
    simp only [h16, h32, hi, hfixed dpl i hi (.inl (by omega)), decide_true, Bool.not_true, Bool.and_false, Bool.false_and,
      Bool.false_or, Bool.or_false, Bool.and_true, if_true]
  · by_cases h40 : i < 40
    · have hlt : i - 16 < 24 := by omega
      have hlo : ¬24 ≤ i - 32 := by omega
      simp only [h16, h40, hlt, hlo, hi, hfixed dpl i hi (.inl h40), decide_true, decide_false, Bool.not_false, Bool.and_true,
        Bool.true_and, Bool.false_and, Bool.and_false, Bool.or_false, if_true, if_false]
    · have hlt : ¬i - 16 < 24 := by omega
      by_cases h56 : i < 56
      · have hlo : ¬24 ≤ i - 32 := by omega
        simp only [h16, h40, h56, hlt, hlo, decide_false, Bool.and_false, Bool.false_and, Bool.false_or, if_true,
          if_false]
      · have h32 : ¬i < 32 := by omega
        have hlo : 24 ≤ i - 32 := by omega
        have hhi : i - 32 < 32 := by omega
        simp only [h16, h40, h56, hlt, hlo, hhi, h32, hi, hfixed dpl i hi (.inr (by omega)), decide_true, decide_false,
          Bool.not_false, Bool.and_true, Bool.true_and, Bool.and_false, Bool.false_or, Bool.or_false, if_false]

/-- The processor finds the task state at its address; of the size it sees the low 16 bits. -/
theorem setSysSegment_decode (dpl : Fin 4) (addr size : BitVec 64) : decodeSystem (setSysSegment x86segTss dpl addr size) =
    some ⟨addr, ((size - 1#64).setWidth 16).setWidth 20, 0x9⟩ := by
  have hpresent : (setSysSegment x86segTss dpl addr size).1.getLsbD 47 = true := by
    rw [setSysSegment_low dpl addr size (by decide), if_neg (by decide), if_neg (by decide), if_pos (by decide)]
    revert dpl
    decide
  have htype : (setSysSegment x86segTss dpl addr size).1.extractLsb' 40 4 = 0x9 := by
    have hfixed : ∀ dpl : Fin 4, (systemFixed dpl).extractLsb' 40 4 = 0x9 := by decide
    rw [← hfixed dpl]
    apply BitVec.eq_of_getLsbD_eq
    intro j hj
    rw [BitVec.getLsbD_extractLsb', BitVec.getLsbD_extractLsb', setSysSegment_low dpl addr size (by omega),
      if_neg (by omega), if_neg (by omega), if_pos (by omega)]
  have hlimit : (setSysSegment x86segTss dpl addr size).1.extractLsb' 48 4 ++
      (setSysSegment x86segTss dpl addr size).1.extractLsb' 0 16 = ((size - 1#64).setWidth 16).setWidth 20 := by
    have hfixed : ∀ dpl : Fin 4, ∀ i < 4, (systemFixed dpl).getLsbD (48 + i) = false := by decide
    apply BitVec.eq_of_getLsbD_eq
    intro j hj
    rw [BitVec.getLsbD_append, BitVec.getLsbD_extractLsb', BitVec.getLsbD_extractLsb', BitVec.getLsbD_setWidth,
      BitVec.getLsbD_setWidth]
    by_cases h16 : j < 16
    · rw [if_pos h16, setSysSegment_low dpl addr size (by omega), if_pos (by omega), Nat.zero_add]
      simp only [h16, hj, decide_true, Bool.true_and]
    · rw [if_neg h16, setSysSegment_low dpl addr size (by omega), if_neg (by omega), if_neg (by omega), if_pos (by omega),
        hfixed dpl (j - 16) (by omega)]
      simp only [h16, decide_false, Bool.false_and, Bool.and_false]
  have hbase : (setSysSegment x86segTss dpl addr size).2.extractLsb' 0 32 ++
      (setSysSegment x86segTss dpl addr size).1.extractLsb' 56 8 ++
        (setSysSegment x86segTss dpl addr size).1.extractLsb' 16 24 = addr := by
    apply BitVec.eq_of_getLsbD_eq
    intro j hj
    rw [BitVec.getLsbD_append, BitVec.getLsbD_append, BitVec.getLsbD_extractLsb', BitVec.getLsbD_extractLsb',
      BitVec.getLsbD_extractLsb']
    by_cases h24 : j < 24
    · rw [if_pos h24, setSysSegment_low dpl addr size (by omega), if_neg (by omega), if_pos (by omega), Nat.add_sub_cancel_left]
      simp only [h24, decide_true, Bool.true_and]
    · by_cases h32 : j - 24 < 8
      · rw [if_neg h24, if_pos h32, setSysSegment_low dpl addr size (by omega), if_neg (by omega), if_neg (by omega),
          if_neg (by omega)]
        simp only [h32, decide_true, Bool.true_and]
        congr 1
        omega
      · rw [if_neg h24, if_neg h32, setSysSegment, BitVec.getLsbD_ushiftRight]
        have hlt : j - 24 - 8 < 32 := by omega
        simp only [hlt, decide_true, Bool.true_and]
        congr 1
        omega
  rw [decodeSystem, if_pos hpresent, hbase, hlimit, htype]

/-- A system descriptor describes its segment exactly when the segment has at most 64 KB. -/
theorem system_segment_iff (dpl : Fin 4) (addr size : BitVec 64) (hpos : 0 < size.toNat) (hle : size.toNat ≤ 2 ^ 20) :
    decodeSystem (setSysSegment x86segTss dpl addr size) = some ⟨addr, (size - 1#64).setWidth 20, 0x9⟩ ↔
      size.toNat ≤ 2 ^ 16 := by
  have hsub : (size - 1#64).toNat = size.toNat - 1 := by
    have hlt := size.isLt
    rw [BitVec.toNat_sub]
    have hone : (1#64).toNat = 1 := rfl
    omega
  have hlimit : ((size - 1#64).setWidth 16).setWidth 20 = (size - 1#64).setWidth 20 ↔ size.toNat ≤ 2 ^ 16 := by
    rw [← BitVec.toNat_inj, BitVec.toNat_setWidth, BitVec.toNat_setWidth, BitVec.toNat_setWidth, hsub]
    omega
  rw [setSysSegment_decode, ← hlimit]
  simp only [Option.some.injEq, SystemSegment.mk.injEq, true_and, and_true]

/-- The task state of a kernel, which has 104 bytes. -/
theorem task_state_described : decodeSystem (setSysSegment x86segTss 0 0x48000 104) = some ⟨0x48000, 103, 0x9⟩ :=
  (system_segment_iff 0 0x48000 104 (by decide) (by decide)).mpr (by decide)

end TaskState

end WeensyOS.Kernel
