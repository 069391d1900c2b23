import WeensyOS.CMalloc.HeapInfo
import WeensyOS.RustMalloc.Model

namespace WeensyOS.Malloc

open ByteMemory Loop WordArray SelectionSort CMalloc.MergeSort

-- The sorts with every index checked against the arrays' length, as the source's slices do in Rust.
namespace Indexed

/-- `some x`, stopped unless all of `indices` are indices of an array of `n` elements. -/
def within {α : Type} (n : Nat) (indices : List Nat) (x : α) : Option α :=
  if ∀ i ∈ indices, i < n then some x else none

def largestFrom (m : Memory) (sizes n i : Nat) : Option Nat :=
  (cwhile (fun c : Nat × Nat => c.1 < n)
    (fun c => within n [c.1, c.2]
      (c.1 + 1, if signed (word m sizes c.2) < signed (word m sizes c.1) then c.1 else c.2))
    (i + 1, i)).bind fun c => some c.2

def selectionSort (swap : Memory → Nat → Nat → Memory) (sizes n : Nat) (m : Memory) : Option Memory :=
  (cwhile (fun c : Memory × Nat => c.2 < n)
    (fun c => (largestFrom c.1 sizes n c.2).bind fun largest =>
      within n [c.2, largest] (swap c.1 c.2 largest, c.2 + 1)) (m, 0)).bind fun c => some c.1

def merge (n : Nat) (a : Arrays) (lo mid hi : Nat) (m : Memory) : Option Memory :=
  (cwhile (fun c : Cursor => c.i < mid ∧ c.j < hi)
    (fun c => within n [c.i, c.j, c.k]
      (if signed (word c.mem a.sizes c.j) ≤ signed (word c.mem a.sizes c.i)
        then takeLeft a c else takeRight a c)) ⟨m, lo, mid, lo⟩).bind fun c =>
  (cwhile (fun c : Cursor => c.i < mid) (fun c => within n [c.i, c.k] (takeLeft a c)) c).bind fun c =>
  (cwhile (fun c : Cursor => c.j < hi) (fun c => within n [c.j, c.k] (takeRight a c)) c).bind fun c =>
  (cwhile (fun c : Memory × Nat => c.2 < hi)
    (fun c => within n [c.2] (copyPair c.1 a.sizes a.ptrs c.2 a.tmpSizes a.tmpPtrs c.2, c.2 + 1))
    (c.mem, lo)).bind fun c => some c.1

def mergeSortDescending (n : Nat) (a : Arrays) : Nat → Nat → Nat → Memory → Option Memory
  | 0, lo, hi, m => if hi - lo ≤ 1 then some m else none
  | depth + 1, lo, hi, m =>
      if hi - lo ≤ 1 then some m
      else
        let mid := lo + (hi - lo) / 2
        (mergeSortDescending n a depth lo mid m).bind fun m =>
        (mergeSortDescending n a depth mid hi m).bind fun m =>
        merge n a lo mid hi m

variable {n i lo mid hi : Nat} {a : Arrays}

theorem within_eq {α : Type} {indices : List Nat} (h : ∀ i ∈ indices, i < n) (x : α) :
    within n indices x = some x := if_pos h

theorem largestFrom_eq (m : Memory) (sizes : Nat) (hi : i < n) :
    largestFrom m sizes n i = SelectionSort.largestFrom m sizes n i := by
  rw [largestFrom, SelectionSort.largestFrom]
  congr 1
  apply (cwhile_checked _ _ _ (fun c : Nat × Nat => c.2 < n) _ hi).1
  rintro ⟨j, largest⟩ hlargest hj
  constructor
  · apply within_eq
    simp only [List.forall_mem_cons, List.not_mem_nil, false_implies, implies_true, and_true]
    exact ⟨hj, hlargest⟩
  · simp only
    split
    · exact hj
    · exact hlargest

theorem selectionSort_eq (swap : Memory → Nat → Nat → Memory) (sizes : Nat) (hn : n ≤ 2 ^ 63) (m : Memory) :
    selectionSort swap sizes n m = SelectionSort.selectionSort swap sizes n m := by
  refine selectionSort_checked (fun _ => True) (fun m i largest _ hi hlargest hrun => ⟨?_, trivial⟩) (by omega) trivial
  simp only [largestFrom_eq m sizes hi, hrun, Option.bind_some]
  apply within_eq
  simp only [List.forall_mem_cons, List.not_mem_nil, false_implies, implies_true, and_true]
  exact ⟨hi, hlargest⟩

theorem takeLeft_eq {c : Cursor} (hrange : InRange lo mid hi c) (hmid : mid ≤ hi) (hhi : hi ≤ n) (hi' : c.i < mid) :
    within n [c.i, c.k] (takeLeft a c) = some (takeLeft a c) := by
  apply within_eq
  have hj := hrange.j_le
  have hk := hrange.k_eq
  simp only [List.forall_mem_cons, List.not_mem_nil, false_implies, implies_true, and_true]
  omega

theorem takeRight_eq {c : Cursor} (hrange : InRange lo mid hi c) (hhi : hi ≤ n) (hj' : c.j < hi) :
    within n [c.j, c.k] (takeRight a c) = some (takeRight a c) := by
  apply within_eq
  have hi' := hrange.i_le
  have hk := hrange.k_eq
  simp only [List.forall_mem_cons, List.not_mem_nil, false_implies, implies_true, and_true]
  omega

theorem merge_eq (a : Arrays) (hmid : mid ≤ hi) (hlo : lo ≤ mid) (hhi : hi ≤ n) (m : Memory) :
    merge n a lo mid hi m = CMalloc.MergeSort.merge a lo mid hi m := by
  refine (merge_checked (I := fun _ => True) (fun c _ hrange hi' => ⟨takeLeft_eq hrange hmid hhi hi', trivial⟩)
    (fun c _ hrange hj' => ⟨takeRight_eq hrange hhi hj', trivial⟩) (fun c _ hrange hi' hj' => ?_)
    (fun m _ => copyBack_checked (fun m x _ hx => ⟨?_, trivial⟩) trivial) hlo hmid trivial).1
  · apply within_eq
    have hk := hrange.k_eq
    simp only [List.forall_mem_cons, List.not_mem_nil, false_implies, implies_true, and_true]
    omega
  · apply within_eq
    simp only [List.forall_mem_cons, List.not_mem_nil, false_implies, implies_true, and_true]
    exact Nat.lt_of_lt_of_le hx hhi

theorem mergeSortDescending_eq (a : Arrays) (depth : Nat) (hlo : lo ≤ hi) (hhi : hi ≤ n) (m : Memory) :
    mergeSortDescending n a depth lo hi m = CMalloc.MergeSort.mergeSortDescending a depth lo hi m :=
  (mergeSortDescending_checked (I := fun _ => True) (fun _ _ _ => rfl) (fun _ _ _ _ => rfl)
    (fun _ _ _ m hlo hmid hhi _ => ⟨merge_eq a hmid hlo hhi m, fun _ _ => trivial⟩) hlo hhi trivial).1

end Indexed

variable {n sizes ptrs sizes' ptrs' : Nat} {a : Arrays} {m m' : Memory}

theorem exchange_swapped (h : Apart n sizes ptrs) {i j : Nat} (hi : i < n) (hj : j < n) :
    Swapped sizes ptrs n i j m (CMalloc.exchange sizes ptrs m i j) := by
  rw [CMalloc.exchange]
  split
  next => exact swapPair_swapped h hi hj
  next heq =>
    obtain rfl : j = i := not_not.mp heq
    exact .refl

/-- The three sorts of the two allocators, each with every index it uses checked. -/
theorem sorts_agree (ha : a.Apart n) (ha' : Apart n sizes' ptrs') (hn : n ≤ 2 ^ 63)
    (hsame : slice m' sizes' ptrs' 0 n = slice m a.sizes a.ptrs 0 n) :
    ∃ mMerge mSelect mRust,
      Indexed.mergeSortDescending n a n 0 n m = some mMerge ∧
      Indexed.selectionSort (CMalloc.exchange a.sizes a.ptrs) a.sizes n m = some mSelect ∧
      Indexed.selectionSort (swapPair · sizes' ptrs') sizes' n m' = some mRust ∧
      (∀ l ∈ [slice mMerge a.sizes a.ptrs 0 n, slice mSelect a.sizes a.ptrs 0 n, slice mRust sizes' ptrs' 0 n],
        Descending l ∧ l.Perm (slice m a.sizes a.ptrs 0 n)) ∧
      (∀ i, i < n → word mSelect a.sizes i = word mMerge a.sizes i ∧ word mRust sizes' i = word mMerge a.sizes i) ∧
      ∀ v, (slice mMerge a.sizes a.ptrs 0 n).filter (·.1 = v) = (slice m a.sizes a.ptrs 0 n).filter (·.1 = v) := by
  obtain ⟨mMerge, hmerge, -, hsorted⟩ :=
    CMalloc.MergeSort.mergeSortDescending_spec (m := m) ha (Nat.le_refl n) (Nat.zero_le n) (Nat.le_refl n) hn
  obtain ⟨mSelect, hselect, -, hperm, hdesc⟩ := selectionSort_spec (m := m)
    (fun m i j hi hj => exchange_swapped (m := m) ha.sizes_ptrs hi hj) hn
  obtain ⟨mRust, hrust, -, hperm', hdesc'⟩ := selectionSort_spec (m := m')
    (fun m i j hi hj => swapPair_swapped (m := m) ha' hi hj) hn
  have hmdesc : Descending (slice mMerge a.sizes a.ptrs 0 n) := by
    rw [hsorted]
    exact sortPairs_descending n _ (by simp)
  have hmperm : (slice mMerge a.sizes a.ptrs 0 n).Perm (slice m a.sizes a.ptrs 0 n) := by
    rw [hsorted]
    exact sortPairs_perm n _
  rw [hsame] at hperm'
  refine ⟨mMerge, mSelect, mRust, ?_, ?_, ?_, ?_, ?_, ?_⟩
  · rw [Indexed.mergeSortDescending_eq a n (Nat.zero_le n) (Nat.le_refl n), hmerge]
  · rw [Indexed.selectionSort_eq _ _ hn, hselect]
  · rw [Indexed.selectionSort_eq _ _ hn, hrust]
  · simp only [List.forall_mem_cons, List.not_mem_nil, false_implies, implies_true, and_true]
    exact ⟨⟨hmdesc, hmperm⟩, ⟨hdesc, hperm⟩, hdesc', hperm'⟩
  · intro i hi
    exact ⟨hdesc.word_eq hmdesc (hperm.trans hmperm.symm) hi, hdesc'.word_eq hmdesc (hperm'.trans hmperm.symm) hi⟩
  · intro v
    rw [hsorted]
    exact sortPairs_stable n _ (by simp) v

/-- Three sizes, two of them equal, next to pointers that tell them apart. -/
def threePairs : Memory := fun x => [1, 2, 2, 0, 30, 10, 20].getD (x / 8) 0 * if x % 8 = 0 then 1 else 0

theorem threePairs_sorted : ∃ m', Indexed.mergeSortDescending 3 ⟨0, 32, 64, 96⟩ 3 0 3 threePairs = some m' ∧
    Descending (slice m' 0 32 0 3) ∧ (slice m' 0 32 0 3).filter (·.1 = 2) = [(2, 10), (2, 20)] := by
  have hapart : Apart 3 0 32 ∧ Apart 3 0 64 ∧ Apart 3 0 96 ∧ Apart 3 32 64 ∧ Apart 3 32 96 ∧ Apart 3 64 96 := by
    unfold Apart
    decide
  obtain ⟨h1, h2, h3, h4, h5, h6⟩ := hapart
  obtain ⟨m', _, _, hmerge, -, -, hl, -, hstable⟩ := sorts_agree (a := ⟨0, 32, 64, 96⟩) (m := threePairs)
    ⟨h1, h2, h3, h4, h5, h6⟩ h1 (by decide) rfl
  refine ⟨m', hmerge, (hl _ (by simp)).1, ?_⟩
  rw [hstable 2]
  decide

end WeensyOS.Malloc
