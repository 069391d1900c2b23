import Mathlib.Tactic.Linarith

namespace ByteMemory

abbrev Memory := Nat → UInt8

/-- The little-endian number held by the `n` bytes from `a` on. -/
def readLE (m : Memory) : Nat → Nat → Nat
  | _, 0 => 0
  | a, n + 1 => (m a).toNat + 256 * readLE m (a + 1) n

def writeLE (m : Memory) : Nat → Nat → Nat → Memory
  | _, 0, _ => m
  | a, n + 1, v => writeLE (Function.update m a (UInt8.ofNat v)) (a + 1) n (v / 256)

theorem readLE_congr {m m' : Memory} {a n : Nat} (h : ∀ x, a ≤ x → x < a + n → m' x = m x) :
    readLE m' a n = readLE m a n := by
  induction n generalizing a with
  | zero => rfl
  | succ n ih =>
      rw [readLE, readLE, h a (by omega) (by omega), ih fun x hx hx' => h x (by omega) (by omega)]

theorem readLE_lt (m : Memory) (a n : Nat) : readLE m a n < 256 ^ n := by
  induction n generalizing a with
  | zero => simp [readLE]
  | succ n ih =>
      have hb := (m a).toNat_lt
      have ht := ih (a + 1)
      rw [readLE, Nat.pow_succ]
      omega

theorem readLE_zero (a n : Nat) : readLE (fun _ => 0) a n = 0 := by
  induction n generalizing a with
  | zero => rfl
  | succ n ih =>
      rw [readLE, ih]
      rfl

theorem writeLE_outside (m : Memory) {a n v x : Nat} (h : x < a ∨ a + n ≤ x) :
    writeLE m a n v x = m x := by
  induction n generalizing m a v with
  | zero => rfl
  | succ n ih =>
      rw [writeLE, ih _ (by omega), Function.update_of_ne (by omega)]

theorem readLE_writeLE_self (m : Memory) (a n v : Nat) :
    readLE (writeLE m a n v) a n = v % 256 ^ n := by
  induction n generalizing m a v with
  | zero => simp [readLE, Nat.mod_one]
  | succ n ih =>
      have hfirst : (writeLE m a (n + 1) v a).toNat = v % 256 := by
        rw [writeLE, writeLE_outside _ (by omega), Function.update_self, UInt8.toNat_ofNat']
      rw [readLE, hfirst, writeLE, ih, Nat.pow_succ, Nat.mul_comm (256 ^ n) 256, Nat.mod_mul]

theorem readLE_writeLE_disjoint (m : Memory) {a n v b k : Nat} (h : b + k ≤ a ∨ a + n ≤ b) :
    readLE (writeLE m a n v) b k = readLE m b k :=
  readLE_congr fun _ _ _ => writeLE_outside m (by omega)

/-- A byte that two memories share is the same in both after the same write. -/
theorem writeLE_congr {m m' : Memory} {x : Nat} (h : m' x = m x) (a n v : Nat) : writeLE m' a n v x = writeLE m a n v x := by
  induction n generalizing m m' a v with
  | zero => exact h
  | succ n ih =>
      refine ih (m := Function.update m a (UInt8.ofNat v)) ?_ (a + 1) (v / 256)
      by_cases hx : x = a
      · rw [hx, Function.update_self, Function.update_self]
      · rw [Function.update_of_ne hx, Function.update_of_ne hx, h]

theorem eq_of_readLE_eq {m m' : Memory} {a n x : Nat} (h : readLE m' a n = readLE m a n) (hx : a ≤ x) (hx' : x < a + n) :
    m' x = m x := by
  induction n generalizing a with
  | zero => omega
  | succ n ih =>
      have hlt := (m a).toNat_lt
      have hlt' := (m' a).toNat_lt
      rw [readLE, readLE] at h
      by_cases hfirst : x = a
      · subst hfirst
        exact UInt8.toNat_inj.mp (by omega)
      · have hrest : readLE m' (a + 1) n = readLE m (a + 1) n := by omega
        exact ih hrest (by omega) (by omega)

/-- A memory given by its 64-bit words. -/
def wordMemory (w : Nat → Nat) : Memory := fun x => UInt8.ofNat (w (x / 8) / 256 ^ (x % 8))

theorem readLE_wordMemory (w : Nat → Nat) (k : Nat) {j n : Nat} (h : j + n ≤ 8) :
    readLE (wordMemory w) (8 * k + j) n = w k / 256 ^ j % 256 ^ n := by
  induction n generalizing j with
  | zero => simp [readLE, Nat.mod_one]
  | succ n ih =>
      have hbyte : (wordMemory w (8 * k + j)).toNat = w k / 256 ^ j % 256 := by
        have hword : (8 * k + j) / 8 = k := by omega
        have hoffset : (8 * k + j) % 8 = j := by omega
        rw [wordMemory, hword, hoffset, UInt8.toNat_ofNat']
      rw [readLE, hbyte, Nat.add_assoc, ih (by omega), Nat.pow_succ, ← Nat.div_div_eq_div_mul, Nat.pow_succ,
        Nat.mul_comm (256 ^ n) 256, Nat.mod_mul]

theorem writeLE_readLE (m : Memory) (a n : Nat) : writeLE m a n (readLE m a n) = m := by
  induction n generalizing a with
  | zero => rfl
  | succ n ih =>
      have hbyte : UInt8.ofNat (readLE m a (n + 1)) = m a := by
        apply UInt8.toNat_inj.mp
        rw [readLE, UInt8.toNat_ofNat', Nat.add_mul_mod_self_left, Nat.mod_eq_of_lt (m a).toNat_lt]
      have hrest : readLE m a (n + 1) / 256 = readLE m (a + 1) n := by
        have hlt := (m a).toNat_lt
        rw [readLE]
        omega
      rw [writeLE, hbyte, hrest, Function.update_eq_self, ih]

/-- The bytes from `a` on, as a list. -/
def bytes (m : Memory) (a n : Nat) : List UInt8 := (List.range n).map fun i => m (a + i)

@[simp] theorem bytes_length (m : Memory) (a n : Nat) : (bytes m a n).length = n := by simp [bytes]

/-- The bytes `bs` stored from `a` on. -/
def storeBytes (m : Memory) : Nat → List UInt8 → Memory
  | _, [] => m
  | a, b :: bs => storeBytes (Function.update m a b) (a + 1) bs

theorem storeBytes_append (m : Memory) (a : Nat) (bs cs : List UInt8) :
    storeBytes m a (bs ++ cs) = storeBytes (storeBytes m a bs) (a + bs.length) cs := by
  induction bs generalizing m a with
  | nil => rfl
  | cons b bs ih => rw [List.cons_append, storeBytes, ih, storeBytes, List.length_cons, Nat.add_right_comm, Nat.add_assoc]

theorem storeBytes_outside (m : Memory) {a x : Nat} {bs : List UInt8} (h : x < a ∨ a + bs.length ≤ x) :
    storeBytes m a bs x = m x := by
  induction bs generalizing m a with
  | nil => rfl
  | cons b bs ih =>
      rw [List.length_cons] at h
      rw [storeBytes, ih _ (by omega), Function.update_of_ne (by omega)]

theorem storeBytes_inside (m : Memory) {a i : Nat} {bs : List UInt8} (h : i < bs.length) :
    storeBytes m a bs (a + i) = bs[i] := by
  induction bs generalizing m a i with
  | nil => exact absurd h (Nat.not_lt_zero i)
  | cons b bs ih =>
      rw [storeBytes]
      cases i with
      | zero => rw [storeBytes_outside _ (by omega), Nat.add_zero, Function.update_self, List.getElem_cons_zero]
      | succ i => rw [← Nat.add_assoc, Nat.add_right_comm, ih _ (Nat.lt_of_succ_lt_succ h), List.getElem_cons_succ]

theorem storeBytes_over (m : Memory) (a : Nat) {bs cs : List UInt8} (h : bs.length ≤ cs.length) :
    storeBytes (storeBytes m a bs) a cs = storeBytes m a cs := by
  funext x
  by_cases hx : x < a ∨ a + cs.length ≤ x
  · rw [storeBytes_outside _ hx, storeBytes_outside _ hx, storeBytes_outside _ (by omega)]
  · obtain ⟨i, rfl⟩ := Nat.exists_eq_add_of_le (by omega : a ≤ x)
    rw [storeBytes_inside _ (by omega), storeBytes_inside _ (by omega)]

theorem storeBytes_replace (m : Memory) (a : Nat) (bs : List UInt8) {cs ds : List UInt8} (h : cs.length ≤ ds.length) :
    storeBytes (storeBytes m a (bs ++ cs)) (a + bs.length) ds = storeBytes m a (bs ++ ds) := by
  rw [storeBytes_append, storeBytes_over _ _ h, storeBytes_append]

/-- `m'` is `m` with the `n` bytes from `src` on copied to `dst`. -/
structure Copied (m m' : Memory) (dst src n : Nat) : Prop where
  inside : ∀ i < n, m' (dst + i) = m (src + i)
  outside : ∀ x, x < dst ∨ dst + n ≤ x → m' x = m x

theorem Copied.zero (m : Memory) (dst src : Nat) : Copied m m dst src 0 := by
  constructor
  · intro i hi
    exact absurd hi (Nat.not_lt_zero i)
  · intro x _
    rfl

theorem Copied.first {m m' : Memory} {dst src n : Nat} (hsafe : dst ≤ src ∨ src + n < dst)
    (h : Copied (Function.update m dst (m src)) m' (dst + 1) (src + 1) n) : Copied m m' dst src (n + 1) := by
  constructor
  · intro i hi
    cases i with
    | zero =>
        rw [Nat.add_zero, Nat.add_zero, h.outside dst (.inl (Nat.lt_succ_self dst))]
        apply Function.update_self
    | succ i =>
        have hin := h.inside i (Nat.lt_of_succ_lt_succ hi)
        rw [Nat.add_right_comm dst, Nat.add_right_comm src] at hin
        rw [← Nat.add_assoc, ← Nat.add_assoc, hin]
        apply Function.update_of_ne
        omega
  · intro x hx
    rw [h.outside x (by omega)]
    apply Function.update_of_ne
    omega

/-- The last byte may be copied first when no earlier byte is read from where it goes. -/
theorem Copied.last {m m' : Memory} {dst src n : Nat} (hsafe : src ≤ dst ∨ dst + n < src)
    (h : Copied (Function.update m (dst + n) (m (src + n))) m' dst src n) : Copied m m' dst src (n + 1) := by
  constructor
  · intro i hi
    rcases Nat.lt_succ_iff_lt_or_eq.mp hi with hi | rfl
    · rw [h.inside i hi]
      apply Function.update_of_ne
      omega
    · rw [h.outside (dst + i) (.inr (Nat.le_refl _))]
      apply Function.update_self
  · intro x hx
    rw [h.outside x (by omega)]
    apply Function.update_of_ne
    omega

end ByteMemory
