import WeensyOS.Kernel.HeapSteps
import WeensyOS.Kernel.Loader

namespace WeensyOS.Kernel

open ByteMemory LibC ProgramBreak

variable {m m' m'' : Memory} {pt V a i k pn t x y : Nat}

/-- The tables of all levels for the addresses below `V` are the same pages of memory. -/
def SameTables (m m' : Memory) (pt V : Nat) : Prop :=
  ∀ a < V, ∀ i < 4, Reaches m pt a i → SamePage m m' (tableAt m pt a i)

/-- The page at `t` holds one of the tables for the addresses below `V`. -/
def TableAt (m : Memory) (pt V t : Nat) : Prop := ∃ a < V, ∃ i < 4, Reaches m pt a i ∧ tableAt m pt a i = t

section SameTables

theorem SameTables.refl (m : Memory) (pt V : Nat) : SameTables m m pt V := fun _ _ _ _ _ _ _ _ => rfl

theorem sameTables_of_outside (h : ∀ t, TableAt m pt V t → SamePage m m' t) : SameTables m m' pt V :=
  fun a ha i hi hr => h _ ⟨a, ha, i, hi, hr, rfl⟩

variable (h : SameTables m m' pt V)
include h

theorem SameTables.upper : SameUpper m m' pt V := fun a ha i hi => h a ha i (Nat.lt_succ_of_lt hi)

theorem SameTables.path (ha : a < V) (hk : k ≤ 4) :
    (Reaches m' pt a k ↔ Reaches m pt a k) ∧ (Reaches m pt a k → tableAt m' pt a k = tableAt m pt a k) :=
  path_congr fun j hj => h a ha j (Nat.lt_of_lt_of_le hj hk)

theorem SameTables.leafEntry (ha : a < V) : Kernel.leafEntry m' pt a = Kernel.leafEntry m pt a := by
  obtain ⟨hreach, -⟩ := h.path ha (by decide : 3 ≤ 4)
  by_cases hr : Reaches m pt a 3
  · have hentry : levelEntry m' pt a 3 = levelEntry m pt a 3 :=
      levelEntry_congr (fun j hj => h a ha j (Nat.lt_succ_of_le hj)) hr
    rw [Kernel.leafEntry, if_pos (hreach.mpr hr), Kernel.leafEntry, if_pos hr, hentry]
  · rw [Kernel.leafEntry, if_neg fun h => hr (hreach.mp h), Kernel.leafEntry, if_neg hr]

theorem SameTables.trans (h' : SameTables m' m'' pt V) : SameTables m m'' pt V := by
  intro a ha i hi hr x hx hx'
  obtain ⟨hreach, htable⟩ := h.path ha (Nat.le_of_lt hi)
  have h'' := h' a ha i hi (hreach.mpr hr) x
  rw [htable hr] at h''
  exact (h'' hx hx').trans (h a ha i hi hr x hx hx')

theorem SameTables.tableAt_iff : TableAt m' pt V t ↔ TableAt m pt V t := by
  apply exists_congr
  intro a
  apply and_congr_right
  intro ha
  apply exists_congr
  intro i
  apply and_congr_right
  intro hi
  obtain ⟨hreach, htable⟩ := h.path ha (Nat.le_of_lt hi)
  rw [hreach]
  exact and_congr_right fun hr => by rw [htable hr]

end SameTables

theorem TableAt.dvd (hpt : 4096 ∣ pt) (h : TableAt m pt V t) : 4096 ∣ t := by
  obtain ⟨a, -, i, -, -, rfl⟩ := h
  exact tableAt_dvd hpt m a i

theorem SameUpper.tableAt_iff (h : SameUpper m m' pt V) : TableAt m' pt V t ↔ TableAt m pt V t := by
  apply exists_congr
  intro a
  apply and_congr_right
  intro ha
  apply exists_congr
  intro i
  apply and_congr_right
  intro hi
  obtain ⟨hreach, htable⟩ := h.path ha (Nat.le_of_lt_succ hi)
  rw [hreach]
  exact and_congr_right fun hr => by rw [htable hr]

section Stores

/-- Where the hardware finds the byte at a virtual address. -/
def target (m : Memory) (pt a : Nat) : Nat := tableAt m pt a 4 + pageOffset a

theorem SameTables.target (h : SameTables m m' pt V) (ha : a < V) (hr : Reaches m pt a 4) :
    Kernel.target m' pt a = Kernel.target m pt a :=
  congrArg (· + pageOffset a) ((h.path ha (Nat.le_refl 4)).2 hr)

/-- The stores of `n` bytes from `a` on go to bytes of their own that are in no table. -/
structure Storable (m : Memory) (pt V a n : Nat) : Prop where
  le : a + n ≤ V
  mapped : ∀ i < n, Reaches m pt (a + i) 4
  apart : ∀ i < n, ∀ t, TableAt m pt V t → target m pt (a + i) < t ∨ t + 4096 ≤ target m pt (a + i)
  inj : ∀ i < n, ∀ j < n, target m pt (a + i) = target m pt (a + j) → i = j

theorem Storable.congr {n : Nat} (S : Storable m pt V a n) (h : SameTables m m' pt V) : Storable m' pt V a n := by
  have htarget (i : Nat) (hi : i < n) : target m' pt (a + i) = target m pt (a + i) :=
    h.target (Nat.lt_of_lt_of_le (Nat.add_lt_add_left hi a) S.le) (S.mapped i hi)
  refine ⟨S.le, fun i hi => ?_, fun i hi t ht => ?_, fun i hi j hj => ?_⟩
  · exact (h.path (Nat.lt_of_lt_of_le (Nat.add_lt_add_left hi a) S.le) (Nat.le_refl 4)).1.mpr (S.mapped i hi)
  · rw [htarget i hi]
    exact S.apart i hi t (h.tableAt_iff.mp ht)
  · rw [htarget i hi, htarget j hj]
    exact S.inj i hi j hj

theorem Storable.mono {n j k : Nat} (S : Storable m pt V a n) (h : j + k ≤ n) : Storable m pt V (a + j) k := by
  have hle := S.le
  refine ⟨by omega, fun i hi => ?_, fun i hi => ?_, fun i hi l hl => ?_⟩
  · rw [Nat.add_assoc]
    exact S.mapped (j + i) (by omega)
  · rw [Nat.add_assoc]
    exact S.apart (j + i) (by omega)
  · rw [Nat.add_assoc, Nat.add_assoc]
    intro he
    have hij := S.inj (j + i) (by omega) (j + l) (by omega) he
    omega

theorem storeVirtual_spec {bs : List UInt8} (S : Storable m pt V a bs.length) (hrun : storeVirtual pt a bs m = some m') :
    SameTables m m' pt V ∧ (∀ i b, bs[i]? = some b → m' (target m pt (a + i)) = b) ∧
      ∀ x, (∀ i < bs.length, x ≠ target m pt (a + i)) → m' x = m x := by
  induction bs generalizing a m with
  | nil =>
      obtain rfl := Option.some.inj hrun
      exact ⟨SameTables.refl m pt V, fun _ _ hb => absurd hb (Option.some_ne_none _).symm, fun _ _ => rfl⟩
  | cons b bs ih =>
      rw [storeVirtual] at hrun
      split at hrun
      case isFalse => cases hrun
      have hzero : 0 < (b :: bs).length := Nat.succ_pos _
      have hsame : SameTables m (Function.update m (target m pt a) b) pt V := by
        refine sameTables_of_outside fun t ht x hx hx' => Function.update_of_ne ?_ _ _
        rintro rfl
        have hout := S.apart 0 hzero t ht
        rw [Nat.add_zero] at hout
        omega
      have S' : Storable (Function.update m (target m pt a) b) pt V (a + 1) bs.length :=
        (S.congr hsame).mono (Nat.le_of_eq (Nat.add_comm 1 _))
      obtain ⟨htables, hin, hout⟩ := ih S' hrun
      have hshift (i : Nat) (hi : i < bs.length) :
          target (Function.update m (target m pt a) b) pt (a + 1 + i) = target m pt (a + (i + 1)) := by
        have hle := S.le
        have hlen : (b :: bs).length = bs.length + 1 := rfl
        rw [Nat.add_assoc, Nat.add_comm 1 i]
        exact hsame.target (by omega) (S.mapped (i + 1) (Nat.succ_lt_succ hi))
      refine ⟨hsame.trans htables, fun i c hc => ?_, fun x hx => ?_⟩
      · cases i with
        | zero =>
            rw [List.getElem?_cons_zero] at hc
            obtain rfl := Option.some.inj hc
            rw [Nat.add_zero, hout, Function.update_self]
            intro j hj
            rw [hshift j hj]
            intro he
            have hij := S.inj 0 hzero (j + 1) (Nat.succ_lt_succ hj) he
            omega
        | succ i =>
            rw [List.getElem?_cons_succ] at hc
            have hi := (List.getElem?_eq_some_iff.mp hc).1
            rw [← hshift i hi]
            exact hin i c hc
      · rw [hout x fun i hi => by rw [hshift i hi]; exact hx (i + 1) (Nat.succ_lt_succ hi)]
        exact Function.update_of_ne (hx 0 hzero) _ _

end Stores

end WeensyOS.Kernel
