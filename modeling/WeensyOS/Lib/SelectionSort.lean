import WeensyOS.Lib.Loop
import WeensyOS.Lib.WordArray
import Mathlib.Logic.Equiv.Basic
import Mathlib.Data.List.Nodup

namespace SelectionSort

open ByteMemory Loop WordArray

/-- The index of a greatest element among those from `i` on. -/
def largestFrom (m : Memory) (sizes n i : Nat) : Option Nat :=
  (cwhile (fun c : Nat × Nat => c.1 < n)
    (fun c => some (c.1 + 1, if signed (word m sizes c.2) < signed (word m sizes c.1) then c.1 else c.2))
    (i + 1, i)).bind fun c => some c.2

def swapPair (m : Memory) (sizes ptrs i j : Nat) : Memory :=
  let ts := word m sizes i
  let m := setWord m sizes i (word m sizes j)
  let m := setWord m sizes j ts
  let tp := word m ptrs i
  let m := setWord m ptrs i (word m ptrs j)
  setWord m ptrs j tp

/-- Selection sort of two parallel arrays by `sizes`, in descending order;
`swap` is what a round does with its own index and that of the greatest element. -/
def selectionSort (swap : Memory → Nat → Nat → Memory) (sizes n : Nat) (m : Memory) : Option Memory :=
  (cwhile (fun c : Memory × Nat => c.2 < n)
    (fun c => (largestFrom c.1 sizes n c.2).bind fun largest => some (swap c.1 c.2 largest, c.2 + 1))
    (m, 0)).bind fun c => some c.1

structure Swapped (sizes ptrs n i j : Nat) (m m' : Memory) : Prop where
  changed : ChangedAt [sizes, ptrs] 0 n m m'
  sizes_eq : ∀ k, k < n → word m' sizes k = word m sizes (Equiv.swap i j k)
  ptrs_eq : ∀ k, k < n → word m' ptrs k = word m ptrs (Equiv.swap i j k)

variable {m m₀ m' : Memory} {sizes ptrs n i j : Nat}

theorem largestFrom_spec (m : Memory) (sizes : Nat) (hi : i < n) (hn : n ≤ 2 ^ 64) :
    ∃ largest, largestFrom m sizes n i = some largest ∧ i ≤ largest ∧ largest < n ∧
      ∀ k, i ≤ k → k < n → signed (word m sizes k) ≤ signed (word m sizes largest) := by
  let Inv : Nat × Nat → Prop := fun c => i < c.1 ∧ c.1 ≤ n ∧ i ≤ c.2 ∧ c.2 < c.1 ∧
    ∀ k, i ≤ k → k < c.1 → signed (word m sizes k) ≤ signed (word m sizes c.2)
  obtain ⟨⟨j, largest⟩, hrun, ⟨_, hj, hlo, hlt, hmax⟩, hc⟩ := cwhile_rule
    (fun c : Nat × Nat => c.1 < n)
    (fun c => some (c.1 + 1, if signed (word m sizes c.2) < signed (word m sizes c.1) then c.1 else c.2))
    Inv (fun c => n - c.1)
    (by
      rintro ⟨j, largest⟩ ⟨hij, _, hlo, hlt, hmax⟩ hc
      have hjn : j < n := hc
      refine ⟨_, rfl, ?_, by simp only; omega⟩
      dsimp only at *
      split
      next hgt =>
        refine ⟨by omega, hjn, by omega, by omega, fun k hk hk' => ?_⟩
        rcases Nat.lt_succ_iff_lt_or_eq.mp hk' with h | rfl
        · exact Int.le_trans (hmax k hk h) (Int.le_of_lt hgt)
        · exact Int.le_refl _
      next hle =>
        refine ⟨by omega, hjn, hlo, by omega, fun k hk hk' => ?_⟩
        rcases Nat.lt_succ_iff_lt_or_eq.mp hk' with h | rfl
        · exact hmax k hk h
        · exact Int.not_lt.mp hle)
    (s := (i + 1, i))
    ⟨by omega, hi, Nat.le_refl _, by omega, fun k hk hk' => by
      obtain rfl : k = i := by simp only at hk'; omega
      exact Int.le_refl _⟩
    (by simp only; omega)
  have hjn : j = n := by
    simp only at hc hj
    omega
  exact ⟨largest, by rw [largestFrom, hrun]; rfl, hlo, by simp only at hlt; omega,
    fun k hk hk' => hmax k hk (by simp only; omega)⟩

theorem setWord_changed {base v : Nat} (hi : i < n) : ChangedAt [base] 0 n m (setWord m base i v) := by
  intro x hx
  have := hx base (by simp)
  exact setWord_outside _ (by omega)

theorem swapPair_swapped (h : Apart n sizes ptrs) (hi : i < n) (hj : j < n) :
    Swapped sizes ptrs n i j m (swapPair m sizes ptrs i j) := by
  have hS (m : Memory) (k v : Nat) (hk : k < n) : ChangedAt [sizes, ptrs] 0 n m (setWord m sizes k v) :=
    (setWord_changed hk).mono (by simp) (Nat.le_refl _) (Nat.le_refl _)
  have hP (m : Memory) (k v : Nat) (hk : k < n) : ChangedAt [sizes, ptrs] 0 n m (setWord m ptrs k v) :=
    (setWord_changed hk).mono (by simp) (Nat.le_refl _) (Nat.le_refl _)
  have hself (m : Memory) (base v k k' : Nat) (hv : v < 2 ^ 64) :
      word (setWord m base k v) base k' = if k' = k then v else word m base k' := by
    split
    next he => rw [he, word_setWord_self _ _ _ hv]
    next hne => exact word_setWord_disjoint _ (by omega)
  refine ⟨?_, fun k hk => ?_, fun k hk => ?_⟩
  · exact (((hS _ _ _ hi).trans (hS _ _ _ hj)).trans (hP _ _ _ hi)).trans (hP _ _ _ hj)
  · rw [swapPair, h.symm.word_setWord _ hj hk, h.symm.word_setWord _ hi hk,
      hself _ _ _ _ _ (word_lt _ _ _), hself _ _ _ _ _ (word_lt _ _ _), Equiv.swap_apply_def]
    split_ifs with h1 h2 h2 <;> simp_all
  · rw [swapPair, hself _ _ _ _ _ (word_lt _ _ _), hself _ _ _ _ _ (word_lt _ _ _),
      h.word_setWord _ hj hi, h.word_setWord _ hi hi, h.word_setWord _ hj hj, h.word_setWord _ hi hj,
      h.word_setWord _ hj hk, h.word_setWord _ hi hk, Equiv.swap_apply_def]
    split_ifs with h1 h2 h2 <;> simp_all

theorem Swapped.refl : Swapped sizes ptrs n i i m m :=
  ⟨ChangedAt.refl, fun k _ => by simp, fun k _ => by simp⟩

theorem Swapped.perm (h : Swapped sizes ptrs n i j m m') (hi : i < n) (hj : j < n) :
    (slice m' sizes ptrs 0 n).Perm (slice m sizes ptrs 0 n) := by
  have hmap : slice m' sizes ptrs 0 n =
      ((List.range' 0 (n - 0)).map (Equiv.swap i j)).map fun k => (word m sizes k, word m ptrs k) := by
    rw [slice, List.map_map]
    refine List.map_congr_left fun k hk => ?_
    rw [List.mem_range'_1] at hk
    rw [h.sizes_eq k (by omega), h.ptrs_eq k (by omega)]
    rfl
  rw [hmap]
  refine List.Perm.map _ ((List.perm_ext_iff_of_nodup ?_ List.nodup_range').mpr fun k => ?_)
  · exact (List.nodup_range').map (Equiv.swap i j).injective
  · simp only [List.mem_map, List.mem_range'_1]
    constructor
    · rintro ⟨x, hx, rfl⟩
      rw [Equiv.swap_apply_def]
      split_ifs <;> omega
    · intro hk
      refine ⟨Equiv.swap i j k, ?_, Equiv.swap_apply_self _ _ _⟩
      rw [Equiv.swap_apply_def]
      split_ifs <;> omega

/-- Before round `i`: the pairs are those of the start, and the first `i` are
in place. -/
structure Selecting (sizes ptrs n : Nat) (m₀ : Memory) (i : Nat) (m : Memory) : Prop where
  changed : ChangedAt [sizes, ptrs] 0 n m₀ m
  perm : (slice m sizes ptrs 0 n).Perm (slice m₀ sizes ptrs 0 n)
  sorted : ∀ j k, j < i → j < k → k < n → signed (word m sizes k) ≤ signed (word m sizes j)

theorem Selecting.step (h : Selecting sizes ptrs n m₀ i m) (hi : i < n) {largest : Nat}
    (hlo : i ≤ largest) (hlt : largest < n)
    (hmax : ∀ k, i ≤ k → k < n → signed (word m sizes k) ≤ signed (word m sizes largest))
    (hs : Swapped sizes ptrs n i largest m m') : Selecting sizes ptrs n m₀ (i + 1) m' := by
  refine ⟨h.changed.trans hs.changed, (hs.perm hi hlt).trans h.perm, fun j k hj hjk hk => ?_⟩
  rw [hs.sizes_eq k hk, hs.sizes_eq j (by omega)]
  rcases Nat.lt_succ_iff_lt_or_eq.mp hj with hji | rfl
  · rw [Equiv.swap_apply_of_ne_of_ne (by omega : j ≠ i) (by omega : j ≠ largest), Equiv.swap_apply_def]
    split_ifs
    · exact h.sorted j largest hji (by omega) hlt
    · exact h.sorted j i hji hji hi
    · exact h.sorted j k hji hjk hk
  · rw [Equiv.swap_apply_left, Equiv.swap_apply_def]
    split_ifs
    · exact Int.le_refl _
    · exact hmax j (Nat.le_refl _) hi
    · exact hmax k (by omega) hk

/-- Selection sort terminates with the same pairs, in descending order of size. -/
theorem selectionSort_spec {swap : Memory → Nat → Nat → Memory}
    (hswap : ∀ m i j, i < n → j < n → Swapped sizes ptrs n i j m (swap m i j)) (hn : n ≤ 2 ^ 63) :
    ∃ m', selectionSort swap sizes n m = some m' ∧ ChangedAt [sizes, ptrs] 0 n m m' ∧
      (slice m' sizes ptrs 0 n).Perm (slice m sizes ptrs 0 n) ∧
      Descending (slice m' sizes ptrs 0 n) := by
  obtain ⟨⟨m', i⟩, hrun, ⟨hi, h⟩, hc⟩ := cwhile_rule
    (fun c : Memory × Nat => c.2 < n)
    (fun c => (largestFrom c.1 sizes n c.2).bind fun largest => some (swap c.1 c.2 largest, c.2 + 1))
    (fun c => c.2 ≤ n ∧ Selecting sizes ptrs n m c.2 c.1) (fun c => n - c.2)
    (by
      rintro ⟨m₁, i⟩ ⟨_, h⟩ hc
      have hi : i < n := hc
      obtain ⟨largest, hl, hlo, hlt, hmax⟩ := largestFrom_spec m₁ sizes hi (by omega)
      exact ⟨(swap m₁ i largest, i + 1), by simp only [hl, Option.bind_some],
        ⟨hi, h.step hi hlo hlt hmax (hswap m₁ i largest hi hlt)⟩, by simp only; omega⟩)
    (s := (m, 0)) ⟨Nat.zero_le _, ChangedAt.refl, .refl _, fun j k hj => absurd hj (Nat.not_lt_zero _)⟩
    (by simp only; omega)
  obtain rfl : i = n := by
    simp only at hc hi
    omega
  refine ⟨m', by rw [selectionSort, hrun]; rfl, h.changed, h.perm, ?_⟩
  rw [Descending, slice, List.pairwise_map]
  refine (List.pairwise_lt_range' ..).imp_of_mem fun {j k} _ hk hjk => ?_
  rw [List.mem_range'_1] at hk
  exact h.sorted j k (by omega) hjk (by omega)

/-- A version with checks, which hold wherever `I` does. -/
theorem selectionSort_checked {swap : Memory → Nat → Nat → Memory} {round : Memory × Nat → Option (Memory × Nat)}
    (I : Memory → Prop)
    (hround : ∀ m i largest, I m → i < n → largest < n → largestFrom m sizes n i = some largest →
      round (m, i) = some (swap m i largest, i + 1) ∧ I (swap m i largest)) (hn : n ≤ 2 ^ 64) (hm : I m) :
    ((cwhile (fun c : Memory × Nat => c.2 < n) round (m, 0)).bind fun c => some c.1) = selectionSort swap sizes n m := by
  rw [selectionSort]
  congr 1
  refine cwhile_congr _ _ (fun c : Memory × Nat => I c.1) ?_ ?_ hm
  · rintro ⟨m, i⟩ c' hc hlt hc'
    obtain ⟨largest, hrun, -, hlargest, -⟩ := largestFrom_spec m sizes hlt hn
    simp only [hrun, Option.bind_some, Option.some.injEq] at hc'
    exact hc' ▸ (hround m i largest hc hlt hlargest hrun).2
  · rintro ⟨m, i⟩ hc hlt
    obtain ⟨largest, hrun, -, hlargest, -⟩ := largestFrom_spec m sizes hlt hn
    simp only [hrun, Option.bind_some]
    exact (hround m i largest hc hlt hlargest hrun).1

end SelectionSort
