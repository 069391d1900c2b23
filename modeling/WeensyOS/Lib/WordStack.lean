import WeensyOS.Lib.ByteMemory

namespace WordStack

open ByteMemory

/-- A stack of 64-bit words that grows down in byte memory. -/
structure Stack where
  mem : Memory
  sp : Nat

def word (m : Memory) (a : Nat) : BitVec 64 := BitVec.ofNat 64 (readLE m a 8)

namespace Stack

def push (s : Stack) (v : BitVec 64) : Stack := ⟨writeLE s.mem (s.sp - 8) 8 v.toNat, s.sp - 8⟩

def pushAll (s : Stack) (vs : List (BitVec 64)) : Stack := vs.foldl push s

/-- The words from the stack pointer up. -/
def Holds (s : Stack) (vs : List (BitVec 64)) : Prop := ∀ (i : Nat) (v : BitVec 64), vs[i]? = some v → word s.mem (s.sp + 8 * i) = v

variable {s : Stack} {v : BitVec 64} {vs ws : List (BitVec 64)}

@[simp] theorem push_sp (s : Stack) (v : BitVec 64) : (s.push v).sp = s.sp - 8 := rfl

theorem word_writeLE (m : Memory) (a : Nat) (v : BitVec 64) : word (writeLE m a 8 v.toNat) a = v := by
  have hlt : v.toNat % 256 ^ 8 = v.toNat := Nat.mod_eq_of_lt v.isLt
  rw [word, readLE_writeLE_self, hlt, BitVec.ofNat_toNat, BitVec.setWidth_eq]

theorem Holds.push (h : s.Holds vs) (hsp : 8 ≤ s.sp) : (s.push v).Holds (v :: vs) := by
  intro i w hi
  cases i with
  | zero =>
      obtain rfl : v = w := Option.some.inj hi
      exact word_writeLE _ _ v
  | succ i =>
      rw [← h i w hi]
      have haddr : s.sp - 8 + 8 * (i + 1) = s.sp + 8 * i := by omega
      exact congrArg (BitVec.ofNat 64) (by rw [Stack.push, haddr, readLE_writeLE_disjoint _ (.inr (by omega))])

theorem pushAll_sp (s : Stack) (vs : List (BitVec 64)) : (s.pushAll vs).sp = s.sp - 8 * vs.length := by
  induction vs generalizing s with
  | nil => rfl
  | cons v vs ih =>
      rw [pushAll, List.foldl_cons, ← pushAll, ih, push_sp, List.length_cons]
      omega

/-- What is pushed last is found first. -/
theorem Holds.pushAll (h : s.Holds ws) (hsp : 8 * vs.length ≤ s.sp) : (s.pushAll vs).Holds (vs.reverse ++ ws) := by
  induction vs generalizing s ws with
  | nil => exact h
  | cons v vs ih =>
      rw [List.length_cons] at hsp
      rw [Stack.pushAll, List.foldl_cons, ← Stack.pushAll, List.reverse_cons, List.append_assoc]
      exact ih (h.push (by omega)) (by rw [push_sp]; omega)

theorem pushAll_outside (hsp : 8 * vs.length ≤ s.sp) {x : Nat} (hx : x < s.sp - 8 * vs.length ∨ s.sp ≤ x) :
    (s.pushAll vs).mem x = s.mem x := by
  induction vs generalizing s with
  | nil => rfl
  | cons v vs ih =>
      rw [List.length_cons] at hsp hx
      rw [pushAll, List.foldl_cons, ← pushAll, ih (by rw [push_sp]; omega) (by rw [push_sp]; omega)]
      exact writeLE_outside _ (by omega)

end Stack

end WordStack
