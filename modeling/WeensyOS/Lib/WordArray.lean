import WeensyOS.Lib.ByteMemory
import Mathlib.Data.List.Basic

namespace WordArray

open ByteMemory

/-- Element `i` of the array of 8-byte words at `base`. -/
def word (m : Memory) (base i : Nat) : Nat := readLE m (base + 8 * i) 8

def setWord (m : Memory) (base i v : Nat) : Memory := writeLE m (base + 8 * i) 8 v

theorem word_lt (m : Memory) (base i : Nat) : word m base i < 2 ^ 64 := readLE_lt m _ 8

theorem word_setWord_self (m : Memory) (base i : Nat) {v : Nat} (hv : v < 2 ^ 64) :
    word (setWord m base i v) base i = v := by
  rw [word, setWord, readLE_writeLE_self, Nat.mod_eq_of_lt (by simpa using hv)]

theorem word_setWord_disjoint (m : Memory) {base i v base' j : Nat}
    (h : base' + 8 * j + 8 ≤ base + 8 * i ∨ base + 8 * i + 8 ≤ base' + 8 * j) :
    word (setWord m base i v) base' j = word m base' j :=
  readLE_writeLE_disjoint m (by omega)

theorem setWord_outside (m : Memory) {base i v x : Nat} (h : x < base + 8 * i ∨ base + 8 * (i + 1) ≤ x) :
    setWord m base i v x = m x :=
  writeLE_outside m (by omega)

/-- An element, read as the signed number it stands for. -/
def signed (v : Nat) : Int := (BitVec.ofNat 64 v).toInt

/-- Two arrays of `n` words that do not overlap. -/
def Apart (n b b' : Nat) : Prop := b + 8 * n ≤ b' ∨ b' + 8 * n ≤ b

theorem Apart.symm {n b b' : Nat} (h : Apart n b b') : Apart n b' b := Or.symm h

theorem Apart.word_setWord {n b b' i j v : Nat} (h : Apart n b b') (m : Memory) (hi : i < n) (hj : j < n) :
    word (setWord m b i v) b' j = word m b' j := by
  refine word_setWord_disjoint m ?_
  rcases h with h | h <;> omega

/-- Memory changed at most at the indices `lo ≤ i < hi` of the arrays at `bases`. -/
def ChangedAt (bases : List Nat) (lo hi : Nat) (m m' : Memory) : Prop :=
  ∀ x, (∀ b ∈ bases, x < b + 8 * lo ∨ b + 8 * hi ≤ x) → m' x = m x

namespace ChangedAt

variable {bases bases' : List Nat} {lo hi lo' hi' : Nat} {m m' m'' : Memory}

theorem refl : ChangedAt bases lo hi m m := fun _ _ => rfl

theorem trans (h : ChangedAt bases lo hi m m') (h' : ChangedAt bases lo hi m' m'') :
    ChangedAt bases lo hi m m'' :=
  fun x hx => (h' x hx).trans (h x hx)

theorem mono (h : ChangedAt bases lo hi m m') (hb : bases ⊆ bases') (hlo : lo' ≤ lo) (hhi : hi ≤ hi') :
    ChangedAt bases' lo' hi' m m' := by
  intro x hx
  refine h x fun b hmem => ?_
  have hxb := hx b (hb hmem)
  omega

theorem word_eq (h : ChangedAt bases lo hi m m') {base i : Nat}
    (hbase : ∀ b ∈ bases, base + 8 * i + 8 ≤ b + 8 * lo ∨ b + 8 * hi ≤ base + 8 * i) :
    word m' base i = word m base i := by
  refine readLE_congr fun x hx hx' => h x fun b hb => ?_
  have hxb := hbase b hb
  omega

end ChangedAt

/-- The pairs held at the indices `lo ≤ i < hi` of two parallel arrays. -/
def slice (m : Memory) (sizes ptrs lo hi : Nat) : List (Nat × Nat) :=
  (List.range' lo (hi - lo)).map fun i => (word m sizes i, word m ptrs i)

@[simp] theorem slice_length (m : Memory) (sizes ptrs lo hi : Nat) :
    (slice m sizes ptrs lo hi).length = hi - lo := by simp [slice]

theorem slice_empty (m : Memory) (sizes ptrs : Nat) {lo hi : Nat} (h : hi ≤ lo) :
    slice m sizes ptrs lo hi = [] := by
  simp [slice, Nat.sub_eq_zero_of_le h]

theorem slice_cons (m : Memory) (sizes ptrs : Nat) {lo hi : Nat} (h : lo < hi) :
    slice m sizes ptrs lo hi = (word m sizes lo, word m ptrs lo) :: slice m sizes ptrs (lo + 1) hi := by
  rw [slice, show hi - lo = (hi - (lo + 1)) + 1 by omega, List.range'_succ, List.map_cons]
  rfl

theorem slice_append (m : Memory) (sizes ptrs : Nat) {lo mid hi : Nat} (h : lo ≤ mid) (h' : mid ≤ hi) :
    slice m sizes ptrs lo hi = slice m sizes ptrs lo mid ++ slice m sizes ptrs mid hi := by
  simp only [slice]
  rw [← List.map_append, show hi - lo = (mid - lo) + (hi - mid) by omega,
    ← List.range'_append_1, show lo + (mid - lo) = mid by omega]

theorem slice_snoc (m : Memory) (sizes ptrs : Nat) {lo hi : Nat} (h : lo ≤ hi) :
    slice m sizes ptrs lo (hi + 1) = slice m sizes ptrs lo hi ++ [(word m sizes hi, word m ptrs hi)] := by
  rw [slice_append m sizes ptrs h (Nat.le_succ hi), slice_cons m sizes ptrs (Nat.lt_succ_self hi),
    slice_empty m sizes ptrs (Nat.le_refl _)]

theorem slice_congr {m m' : Memory} {sizes ptrs sizes' ptrs' lo hi : Nat}
    (h : ∀ i, lo ≤ i → i < hi → word m' sizes' i = word m sizes i ∧ word m' ptrs' i = word m ptrs i) :
    slice m' sizes' ptrs' lo hi = slice m sizes ptrs lo hi := by
  refine List.map_congr_left fun i hi' => ?_
  rw [List.mem_range'_1] at hi'
  have hw := h i (by omega) (by omega)
  rw [hw.1, hw.2]

/-- Pairs in descending order of their first components, as signed numbers. -/
def Descending (l : List (Nat × Nat)) : Prop := l.Pairwise fun p q => signed q.1 ≤ signed p.1

theorem signed_inj {v w : Nat} (hv : v < 2 ^ 64) (hw : w < 2 ^ 64) (h : signed v = signed w) : v = w := by
  have hbits := congrArg BitVec.toNat (BitVec.eq_of_toInt_eq h)
  rwa [BitVec.toNat_ofNat, BitVec.toNat_ofNat, Nat.mod_eq_of_lt hv, Nat.mod_eq_of_lt hw] at hbits

/-- Pairs that are permuted and sorted in two ways have their sizes in the same places. -/
theorem Descending.word_eq {m m' : Memory} {sizes ptrs sizes' ptrs' n i : Nat}
    (h : Descending (slice m sizes ptrs 0 n)) (h' : Descending (slice m' sizes' ptrs' 0 n))
    (hperm : (slice m sizes ptrs 0 n).Perm (slice m' sizes' ptrs' 0 n)) (hi : i < n) :
    word m sizes i = word m' sizes' i := by
  have hsizes (m : Memory) (sizes ptrs : Nat) :
      (slice m sizes ptrs 0 n).map Prod.fst = (List.range' 0 n).map (word m sizes) := by
    rw [slice, List.map_map]
    rfl
  have hlt {m : Memory} {sizes v : Nat} (hv : v ∈ (List.range' 0 n).map (word m sizes)) : v < 2 ^ 64 := by
    obtain ⟨j, -, rfl⟩ := List.mem_map.mp hv
    exact word_lt m sizes j
  have heq : (slice m sizes ptrs 0 n).map Prod.fst = (slice m' sizes' ptrs' 0 n).map Prod.fst := by
    have hsorted {l : List (Nat × Nat)} (hl : Descending l) :
        (l.map Prod.fst).Pairwise fun v w => signed w ≤ signed v := List.pairwise_map.mpr hl
    refine List.Perm.eq_of_pairwise ?_ (hsorted h) (hsorted h') (hperm.map Prod.fst)
    intro v w hv hw hvw hwv
    rw [hsizes] at hv hw
    exact signed_inj (hlt hv) (hlt hw) (Int.le_antisymm hwv hvw)
  rw [hsizes, hsizes] at heq
  have hget := congrArg (fun l : List Nat => l[i]?) heq
  simpa [List.getElem?_range', hi] using hget

/-- A store at index `k` of both arrays. -/
def setPair (m : Memory) (sizes ptrs k v w : Nat) : Memory := setWord (setWord m sizes k v) ptrs k w

theorem setPair_changed {m : Memory} {sizes ptrs k v w : Nat} :
    ChangedAt [sizes, ptrs] k (k + 1) m (setPair m sizes ptrs k v w) := by
  intro x hx
  have hS : x < sizes + 8 * k ∨ sizes + 8 * (k + 1) ≤ x := hx sizes (by simp)
  have hP : x < ptrs + 8 * k ∨ ptrs + 8 * (k + 1) ≤ x := hx ptrs (by simp)
  exact (setWord_outside _ hP).trans (setWord_outside _ hS)

theorem slice_setPair {m : Memory} {n sizes ptrs lo k v w : Nat} (hd : Apart n sizes ptrs) (hk : k < n)
    (hlo : lo ≤ k) (hv : v < 2 ^ 64) (hw : w < 2 ^ 64) :
    slice (setPair m sizes ptrs k v w) sizes ptrs lo (k + 1) = slice m sizes ptrs lo k ++ [(v, w)] := by
  have hfront : slice (setPair m sizes ptrs k v w) sizes ptrs lo k = slice m sizes ptrs lo k := by
    refine slice_congr fun j _ hj => ⟨?_, ?_⟩
    · rw [setPair, hd.symm.word_setWord _ hk (by omega), word_setWord_disjoint _ (by omega)]
    · rw [setPair, word_setWord_disjoint _ (by omega), hd.word_setWord _ hk (by omega)]
  have hsize : word (setPair m sizes ptrs k v w) sizes k = v := by
    rw [setPair, hd.symm.word_setWord _ hk hk, word_setWord_self _ _ _ hv]
  have hptr : word (setPair m sizes ptrs k v w) ptrs k = w := by
    rw [setPair, word_setWord_self _ _ _ hw]
  rw [slice_snoc _ _ _ hlo, hfront, hsize, hptr]

end WordArray
