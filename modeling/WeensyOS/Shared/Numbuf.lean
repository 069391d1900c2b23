import WeensyOS.Shared.Printer

namespace WeensyOS.Printer

/-- The digits of a number as `fill_numbuf` writes them, one of them at least. -/
def numeral (digits : List UInt8) (base val : Nat) : List UInt8 :=
  ((if val = 0 then [0] else Nat.digits base val).reverse).map fun d => digits.getD d 0

variable {digits buf : List UInt8} {base val p rounds : Nat} {c : UInt8}

theorem numeral_of_lt (hval : val < base) : numeral digits base val = [digits.getD val 0] := by
  rw [numeral]
  split
  next hzero => simp [hzero]
  next hpos => simp [Nat.digits_of_lt base val hpos hval]

theorem numeral_snoc (hbase : 1 < base) (hval : base ≤ val) :
    numeral digits base val = numeral digits base (val / base) ++ [digits.getD (val % base) 0] := by
  have hdiv : val / base ≠ 0 := Nat.div_ne_zero_iff.mpr ⟨by omega, hval⟩
  rw [numeral, numeral, if_neg (by omega), if_neg hdiv, Nat.digits_def' hbase (by omega)]
  simp

theorem drop_set (hp : p < buf.length) : (buf.set p c).drop p = c :: buf.drop (p + 1) := by
  rw [List.drop_eq_getElem_cons (by simpa using hp), List.getElem_set_self, List.drop_set_of_lt (Nat.lt_succ_self p)]

theorem putBefore_spec (buf : List UInt8) (hp : 0 < p) (hlen : p ≤ buf.length) (c : UInt8) :
    ∃ buf', putBefore buf p c = some (buf', p - 1) ∧ buf'.length = buf.length ∧
      buf'.drop (p - 1) = c :: buf.drop p := by
  refine ⟨buf.set (p - 1) c, ?_, ?_, ?_⟩
  · rw [putBefore, if_neg (by omega)]
  · exact List.length_set
  · rw [drop_set (by omega), Nat.sub_add_cancel hp]

/-- As long as the digits fit, the loop stays in the buffer and leaves the
numeral in front of what stood at its end pointer. -/
theorem fillDigits_spec (digits buf : List UInt8) (hbase : 1 < base) (hlen : p ≤ buf.length) (hp : 0 < p) (hval : val < base ^ p)
    (hr : 0 < rounds) (hrounds : val < base ^ rounds) :
    ∃ buf' p', fillDigits digits base rounds (buf, p) val = some (buf', p') ∧
      buf'.drop p' = numeral digits base val ++ buf.drop p := by
  induction rounds generalizing buf p val with
  | zero => omega
  | succ rounds ih =>
      obtain ⟨buf₁, hput, hlen₁, hdrop⟩ := putBefore_spec buf hp hlen (digits.getD (val % base) 0)
      rw [fillDigits, hput, Option.bind_some]
      by_cases hdiv : val / base = 0
      · have hlt : val < base := (Nat.div_eq_zero_iff_lt (by omega)).mp hdiv
        refine ⟨buf₁, p - 1, ?_, ?_⟩
        · simp only [hdiv, ne_eq, not_true_eq_false, if_false]
        · rw [hdrop, Nat.mod_eq_of_lt hlt, numeral_of_lt hlt]
          rfl
      · have hge : base ≤ val := by
          by_contra hlt
          exact hdiv (Nat.div_eq_of_lt (by omega))
        have hdivp : val / base < base ^ (p - 1) := by
          apply Nat.div_lt_of_lt_mul
          rwa [Nat.mul_comm, ← Nat.pow_succ, Nat.succ_eq_add_one, Nat.sub_add_cancel hp]
        have hdivr : val / base < base ^ rounds := by
          apply Nat.div_lt_of_lt_mul
          rwa [Nat.mul_comm, ← Nat.pow_succ]
        have hp₁ : 0 < p - 1 := by
          by_contra hzero
          rw [Nat.eq_zero_of_not_pos hzero, Nat.pow_zero] at hdivp
          exact hdiv (Nat.lt_one_iff.mp hdivp)
        have hr₁ : 0 < rounds := by
          by_contra hzero
          rw [Nat.eq_zero_of_not_pos hzero, Nat.pow_zero] at hdivr
          exact hdiv (Nat.lt_one_iff.mp hdivr)
        obtain ⟨buf', p', hfill, hdrop'⟩ := ih buf₁ (by omega : p - 1 ≤ buf₁.length) hp₁ hdivp hr₁ hdivr
        refine ⟨buf', p', ?_, ?_⟩
        · simp only [ne_eq, hdiv, not_false_eq_true, if_true]
          exact hfill
        · rw [hdrop', hdrop, numeral_snoc hbase hge, List.append_assoc]
          rfl

def digitsOf (base : Int) : List UInt8 := if base < 0 then lowerDigits else upperDigits

theorem digitsOf_ne_zero {base : Int} {d : Nat} (hd : d < 16) : (digitsOf base).getD d 0 ≠ 0 := by
  rw [digitsOf]
  split <;> interval_cases d <;> decide

theorem numeral_ne_zero {base : Int} (hbase : 1 < base.natAbs) (hle : base.natAbs ≤ 16) :
    ∀ c ∈ numeral (digitsOf base) base.natAbs val, c ≠ 0 := by
  intro c hc
  rw [numeral, List.mem_map] at hc
  obtain ⟨d, hd, rfl⟩ := hc
  apply digitsOf_ne_zero
  rw [List.mem_reverse] at hd
  split at hd
  next => simp only [List.mem_singleton] at hd; omega
  next => exact Nat.lt_of_lt_of_le (Nat.digits_lt_base hbase hd) hle

/-- `fill_numbuf` does not leave its buffer, and returns the numeral. -/
theorem fillNumbuf_spec (numbuf : List UInt8) {base : Int} (hnumbuf : numbuf.length = numbufsiz) (hge : 10 ≤ base.natAbs)
    (hle : base.natAbs ≤ 16) (hval : val < 2 ^ 64) :
    ∃ b, fillNumbuf numbuf numbufsiz val base = some b ∧
      stringAt b.1 b.2 = numeral (digitsOf base) base.natAbs val := by
  have hsize : numbufsiz = 24 := rfl
  have hroom : val < base.natAbs ^ 23 :=
    calc val < 10 ^ 23 := by omega
      _ ≤ base.natAbs ^ 23 := Nat.pow_le_pow_left hge 23
  have hrounds : val < base.natAbs ^ 64 := Nat.lt_of_lt_of_le hroom (Nat.pow_le_pow_right (by omega) (by omega))
  obtain ⟨buf₁, hput, hlen₁, hdrop⟩ := putBefore_spec numbuf (p := numbufsiz) (by omega) (by omega) 0
  have hp : numbufsiz - 1 = 23 := rfl
  rw [hp] at hput hdrop
  obtain ⟨buf', p', hfill, hdrop'⟩ := fillDigits_spec (digitsOf base) buf₁ (p := 23)
    (by omega : 1 < base.natAbs) (by omega) (by omega) hroom (by omega : 0 < 64) hrounds
  refine ⟨(buf', p'), ?_, ?_⟩
  · rw [fillNumbuf, hput]
    exact hfill
  · rw [stringAt, hdrop', hdrop, List.takeWhile_append_of_pos, List.takeWhile_cons_of_neg (by decide),
      List.append_nil]
    intro c hc
    exact decide_eq_true (numeral_ne_zero (by omega) hle c hc)

end WeensyOS.Printer
