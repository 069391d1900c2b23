import WeensyOS.Lib.ByteMemory

namespace WeensyOS.LibC

open ByteMemory

/-- Machine words are natural numbers below `2 ^ 64`; every operation that can
leave this range is reduced explicitly. -/
def roundDown (a n : Nat) : Nat := a - a % n

def roundUp (a n : Nat) : Nat := roundDown ((a + n - 1) % 2 ^ 64) n

def memcpy (m : Memory) : Nat → Nat → Nat → Memory
  | _, _, 0 => m
  | dst, src, n + 1 =>
      memcpy (Function.update m dst (m src)) ((dst + 1) % 2 ^ 64) ((src + 1) % 2 ^ 64) n

/-- The loop of `memmove` that goes down from the ends of the ranges. -/
def moveDown (m : Memory) : Nat → Nat → Nat → Memory
  | _, _, 0 => m
  | d, s, n + 1 =>
      let d := (d + (2 ^ 64 - 1)) % 2 ^ 64
      let s := (s + (2 ^ 64 - 1)) % 2 ^ 64
      moveDown (Function.update m d (m s)) d s n

/-- The loop of the other branch does what the one of `memcpy` does. -/
def memmove (m : Memory) (dst src n : Nat) : Memory :=
  if src < dst ∧ dst < (src + n) % 2 ^ 64 then moveDown m ((dst + n) % 2 ^ 64) ((src + n) % 2 ^ 64) n
  else memcpy m dst src n

def memset (m : Memory) : Nat → UInt8 → Nat → Memory
  | _, _, 0 => m
  | v, c, n + 1 => memset (Function.update m v c) ((v + 1) % 2 ^ 64) c n

theorem memcpy_succ (m : Memory) {dst src n : Nat} (hd : dst + (n + 1) ≤ 2 ^ 64)
    (hs : src + (n + 1) ≤ 2 ^ 64) :
    memcpy m dst src (n + 1) = memcpy (Function.update m dst (m src)) (dst + 1) (src + 1) n := by
  cases n with
  | zero => rfl
  | succ n =>
      rw [memcpy, Nat.mod_eq_of_lt (by omega : dst + 1 < 2 ^ 64),
        Nat.mod_eq_of_lt (by omega : src + 1 < 2 ^ 64)]

theorem memset_succ (m : Memory) {v n : Nat} (c : UInt8) (hv : v + (n + 1) ≤ 2 ^ 64) :
    memset m v c (n + 1) = memset (Function.update m v c) (v + 1) c n := by
  cases n with
  | zero => rfl
  | succ n => rw [memset, Nat.mod_eq_of_lt (by omega : v + 1 < 2 ^ 64)]

theorem memcpy_outside (m : Memory) {dst src n x : Nat} (hd : dst + n ≤ 2 ^ 64)
    (hs : src + n ≤ 2 ^ 64) (hx : x < dst ∨ dst + n ≤ x) : memcpy m dst src n x = m x := by
  induction n generalizing m dst src with
  | zero => rfl
  | succ n ih =>
      rw [memcpy_succ m hd hs, ih _ (by omega) (by omega) (by omega), Function.update_of_ne (by omega)]

/-- Going up is safe unless the destination starts inside of the source. -/
theorem memcpy_copied (m : Memory) {dst src n : Nat} (hd : dst + n ≤ 2 ^ 64) (hs : src + n ≤ 2 ^ 64)
    (hsafe : dst ≤ src ∨ src + n ≤ dst) : Copied m (memcpy m dst src n) dst src n := by
  induction n generalizing m dst src with
  | zero => exact .zero m dst src
  | succ n ih =>
      rw [memcpy_succ m hd hs]
      exact .first (by omega) (ih _ (by omega) (by omega) (by omega))

theorem memcpy_inside (m : Memory) {dst src n i : Nat} (hd : dst + n ≤ 2 ^ 64)
    (hs : src + n ≤ 2 ^ 64) (hdisj : dst + n ≤ src ∨ src + n ≤ dst) (hi : i < n) :
    memcpy m dst src n (dst + i) = m (src + i) :=
  (memcpy_copied m hd hs (by omega)).inside i hi

theorem moveDown_succ (m : Memory) {dst src n : Nat} (hd : dst + (n + 1) ≤ 2 ^ 64) (hs : src + (n + 1) ≤ 2 ^ 64) :
    moveDown m ((dst + (n + 1)) % 2 ^ 64) ((src + (n + 1)) % 2 ^ 64) (n + 1) =
      moveDown (Function.update m (dst + n) (m (src + n))) ((dst + n) % 2 ^ 64) ((src + n) % 2 ^ 64) n := by
  have hback (a : Nat) (ha : a + (n + 1) ≤ 2 ^ 64) : ((a + (n + 1)) % 2 ^ 64 + (2 ^ 64 - 1)) % 2 ^ 64 = a + n := by omega
  rw [moveDown, hback dst hd, hback src hs, Nat.mod_eq_of_lt (by omega : dst + n < 2 ^ 64),
    Nat.mod_eq_of_lt (by omega : src + n < 2 ^ 64)]

theorem moveDown_copied (m : Memory) {dst src n : Nat} (hd : dst + n ≤ 2 ^ 64) (hs : src + n ≤ 2 ^ 64)
    (hsafe : src ≤ dst) : Copied m (moveDown m ((dst + n) % 2 ^ 64) ((src + n) % 2 ^ 64) n) dst src n := by
  induction n generalizing m with
  | zero => exact .zero m dst src
  | succ n ih =>
      rw [moveDown_succ m hd hs]
      exact .last (.inl hsafe) (ih _ (by omega) (by omega))

/-- `memmove` picks the direction that is safe: the destination has the bytes that the source had. -/
theorem memmove_copies (m : Memory) {dst src n : Nat} (hd : dst + n ≤ 2 ^ 64) (hs : src + n ≤ 2 ^ 64) :
    (∀ i < n, memmove m dst src n (dst + i) = m (src + i)) ∧
      ∀ x, x < dst ∨ dst + n ≤ x → memmove m dst src n x = m x := by
  have hcopied : Copied m (memmove m dst src n) dst src n := by
    rw [memmove]
    split
    next hdown => exact moveDown_copied m hd hs (Nat.le_of_lt hdown.1)
    next hup =>
      apply memcpy_copied m hd hs
      by_contra hin
      -- a source below the destination ends before the last address, so that its end does not wrap
      have hend : (src + n) % 2 ^ 64 = src + n := Nat.mod_eq_of_lt (by omega)
      omega
  exact ⟨hcopied.inside, hcopied.outside⟩

/-- Ranges that end with the address space, with the source two bytes below the destination. -/
theorem memmove_top :
    (∀ i < 4, memmove (fun x => UInt8.ofNat x) (2 ^ 64 - 4) (2 ^ 64 - 6) 4 (2 ^ 64 - 4 + i) = UInt8.ofNat (2 ^ 64 - 6 + i)) ∧
      ∀ x, x < 2 ^ 64 - 4 ∨ 2 ^ 64 - 4 + 4 ≤ x →
        memmove (fun x => UInt8.ofNat x) (2 ^ 64 - 4) (2 ^ 64 - 6) 4 x = UInt8.ofNat x :=
  memmove_copies (fun x => UInt8.ofNat x) (by decide) (by decide)

theorem memset_outside (m : Memory) {v n x : Nat} {c : UInt8} (hv : v + n ≤ 2 ^ 64)
    (hx : x < v ∨ v + n ≤ x) : memset m v c n x = m x := by
  induction n generalizing m v with
  | zero => rfl
  | succ n ih =>
      rw [memset_succ m c hv, ih _ (by omega) (by omega), Function.update_of_ne (by omega)]

theorem memset_inside (m : Memory) {v n i : Nat} {c : UInt8} (hv : v + n ≤ 2 ^ 64) (hi : i < n) :
    memset m v c n (v + i) = c := by
  induction n generalizing m v i with
  | zero => omega
  | succ n ih =>
      rw [memset_succ m c hv]
      cases i with
      | zero => rw [memset_outside _ (by omega) (by omega)]; exact Function.update_self ..
      | succ i => rw [show v + (i + 1) = v + 1 + i by omega, ih _ (by omega) (by omega)]

theorem roundDown_le (a n : Nat) : roundDown a n ≤ a := Nat.sub_le _ _

end WeensyOS.LibC
