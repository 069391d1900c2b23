import WeensyOS.Shared.Numbuf

namespace WeensyOS.Printer

namespace CString

variable {s : CString} {i : Nat}

theorem read_lt (h : i < s.bytes.length) : s.read i = some s.bytes[i] := by
  rw [read, List.getElem?_append_left h, List.getElem?_eq_getElem h]

theorem read_length : s.read s.bytes.length = some 0 := by
  rw [read, List.getElem?_append_right (Nat.le_refl _), Nat.sub_self]
  rfl

theorem read_ne_zero (h : i < s.bytes.length) : s.bytes[i] ≠ 0 :=
  fun hzero => s.nul_notMem (hzero ▸ List.getElem_mem h)

/-- A byte that is read is the terminator exactly at the end. -/
theorem read_spec (h : i ≤ s.bytes.length) : ∃ c, s.read i = some c ∧ (c = 0 ↔ i = s.bytes.length) := by
  rcases Nat.lt_or_eq_of_le h with hlt | rfl
  · refine ⟨s.bytes[i], read_lt hlt, ?_⟩
    constructor
    · intro hzero
      exact absurd hzero (read_ne_zero hlt)
    · omega
  · exact ⟨0, read_length, by simp⟩

end CString

variable {σ : Type*} {putc : σ → UInt8 → Int → σ} {format : CString} {val : VaList} {s : Scan} {p : Printing σ}
  {rounds pos : Nat}

/-- The scanner has moved forward, at most to the terminator. -/
structure Advanced (format : CString) (pos pos' : Nat) : Prop where
  le : pos ≤ pos'
  inside : pos' ≤ format.bytes.length

theorem Advanced.refl (h : pos ≤ format.bytes.length) : Advanced format pos pos := ⟨Nat.le_refl _, h⟩

theorem Advanced.trans {pos' pos'' : Nat} (h : Advanced format pos pos') (h' : Advanced format pos' pos'') :
    Advanced format pos pos'' := ⟨Nat.le_trans h.le h'.le, h'.inside⟩

theorem Advanced.step {pos' : Nat} (h : Advanced format (pos + 1) pos') : Advanced format pos pos' :=
  ⟨Nat.le_of_succ_le h.le, h.inside⟩

theorem scanFlags_advances (h : s.pos ≤ format.bytes.length) (hrounds : format.bytes.length - s.pos < rounds) :
    ∃ s', scanFlags format rounds s = some s' ∧ Advanced format s.pos s'.pos := by
  induction rounds generalizing s with
  | zero => omega
  | succ rounds ih =>
      obtain ⟨c, hread, hend⟩ := CString.read_spec h
      rw [scanFlags, hread, Option.bind_some]
      by_cases hc : c = 0
      · rw [if_pos hc]
        exact ⟨s, rfl, .refl h⟩
      · rw [if_neg hc]
        have hlt : s.pos < format.bytes.length := Nat.lt_of_le_of_ne h (mt hend.mpr hc)
        cases strchr flagChars c with
        | none => exact ⟨s, rfl, .refl h⟩
        | some k =>
            obtain ⟨s', hs', hadv⟩ := @ih { s with pos := s.pos + 1, flags := s.flags ||| 1 <<< k } hlt
              (by simp only; omega)
            exact ⟨s', hs', hadv.step⟩

theorem isDigit_ne_zero {c : UInt8} (h : isDigit c) : c ≠ 0 := by
  rintro rfl
  exact absurd h (by decide)

theorem scanNumber_advances {n : Int} (h : pos ≤ format.bytes.length) (hrounds : format.bytes.length - pos < rounds) :
    ∃ r, scanNumber format rounds pos n = some r ∧ Advanced format pos r.1 := by
  induction rounds generalizing pos n with
  | zero => omega
  | succ rounds ih =>
      obtain ⟨c, hread, hend⟩ := CString.read_spec h
      rw [scanNumber, hread, Option.bind_some]
      split
      next hdigit =>
        have hlt : pos < format.bytes.length := Nat.lt_of_le_of_ne h (mt hend.mpr (isDigit_ne_zero hdigit))
        obtain ⟨r, hr, hadv⟩ := ih hlt (by omega)
        exact ⟨r, hr, hadv.step⟩
      next => exact ⟨_, rfl, .refl h⟩

theorem scanWidth_advances (val : VaList) (h : s.pos ≤ format.bytes.length) (hrounds : format.bytes.length < rounds) :
    ∃ s', scanWidth format val rounds s = some s' ∧ Advanced format s.pos s'.pos := by
  obtain ⟨c, hread, hend⟩ := CString.read_spec h
  rw [scanWidth, hread, Option.bind_some]
  split
  next =>
    obtain ⟨r, hr, hadv⟩ := scanNumber_advances (n := 0) h (Nat.lt_of_le_of_lt (Nat.sub_le _ _) hrounds)
    rw [hr]
    exact ⟨_, rfl, hadv⟩
  next =>
    split
    next hstar =>
      have hlt : s.pos < format.bytes.length := Nat.lt_of_le_of_ne h fun heq => by
        rw [hend.mpr heq] at hstar
        exact absurd hstar (by decide)
      exact ⟨_, rfl, Advanced.step (.refl hlt)⟩
    next => exact ⟨s, rfl, .refl h⟩

theorem scanPrecision_advances (val : VaList) (h : s.pos ≤ format.bytes.length) (hrounds : format.bytes.length < rounds) :
    ∃ s', scanPrecision format val rounds s = some s' ∧ Advanced format s.pos s'.pos := by
  obtain ⟨c, hread, hend⟩ := CString.read_spec h
  rw [scanPrecision, hread, Option.bind_some]
  split
  next hdot =>
    have hlt : s.pos + 1 ≤ format.bytes.length := Nat.lt_of_le_of_ne h fun heq => by
      rw [hend.mpr heq] at hdot
      exact absurd hdot (by decide)
    obtain ⟨c', hread', hend'⟩ := CString.read_spec hlt
    simp only [hread', Option.bind_some]
    split
    next =>
      obtain ⟨r, hr, hadv⟩ := scanNumber_advances (n := 0) hlt (Nat.lt_of_le_of_lt (Nat.sub_le _ _) hrounds)
      rw [hr]
      exact ⟨_, rfl, hadv.step⟩
    next =>
      split
      next hstar =>
        have hlt' : s.pos + 1 < format.bytes.length := Nat.lt_of_le_of_ne hlt fun heq => by
          rw [hend'.mpr heq] at hstar
          exact absurd hstar (by decide)
        exact ⟨_, rfl, Advanced.step (Advanced.step (.refl hlt'))⟩
      next => exact ⟨_, rfl, Advanced.step (.refl hlt)⟩
  next => exact ⟨s, rfl, .refl h⟩

theorem scanLength_advances (h : s.pos ≤ format.bytes.length) (hrounds : format.bytes.length - s.pos < rounds) :
    ∃ s', scanLength format rounds s = some s' ∧ Advanced format s.pos s'.pos := by
  induction rounds generalizing s with
  | zero => omega
  | succ rounds ih =>
      obtain ⟨c, hread, hend⟩ := CString.read_spec h
      rw [scanLength, hread, Option.bind_some]
      split
      next hlen =>
        have hlt : s.pos < format.bytes.length := Nat.lt_of_le_of_ne h fun heq => by
          rw [hend.mpr heq] at hlen
          exact absurd hlen (by decide)
        obtain ⟨s', hs', hadv⟩ := @ih { s with pos := s.pos + 1, length := true } hlt (by simp only; omega)
        exact ⟨s', hs', hadv.step⟩
      next => exact ⟨s, rfl, .refl h⟩

theorem scan_advances (val : VaList) (h : s.pos ≤ format.bytes.length) (hrounds : format.bytes.length < rounds) :
    ∃ s', scan format val rounds s = some s' ∧ Advanced format s.pos s'.pos := by
  have hfew (pos : Nat) : format.bytes.length - pos < rounds := Nat.lt_of_le_of_lt (Nat.sub_le _ _) hrounds
  obtain ⟨s₁, hs₁, h₁⟩ := scanFlags_advances h (hfew _)
  obtain ⟨s₂, hs₂, h₂⟩ := scanWidth_advances val h₁.inside hrounds
  obtain ⟨s₃, hs₃, h₃⟩ := scanPrecision_advances val h₂.inside hrounds
  obtain ⟨s₄, hs₄, h₄⟩ := scanLength_advances h₃.inside (hfew _)
  refine ⟨s₄, ?_, ((h₁.trans h₂).trans h₃).trans h₄⟩
  rw [scan, hs₁, Option.bind_some, hs₂, Option.bind_some, hs₃, Option.bind_some, hs₄]

/-- The numbers that conversions print, in the bases they print them in. -/
structure Conversion.Fits (c : Conversion) : Prop where
  num_lt : c.num < 2 ^ 64
  base_ge : 10 ≤ c.base.natAbs
  base_le : c.base.natAbs ≤ 16

theorem Arg.unsigned_lt (a : Arg) : a.unsigned < 2 ^ 64 :=
  Nat.lt_of_lt_of_le (BitVec.isLt _) (by decide)

theorem convertSigned_fits (flags : Nat) (length : Bool) (a : Arg) : (convertSigned flags length a).Fits := by
  refine ⟨?_, Nat.le_refl 10, (by decide : 10 ≤ 16)⟩
  simp only [convertSigned]
  omega

theorem convertUnsigned_fits (flags : Nat) {base : Int} (length : Bool) (a : Arg) (hge : 10 ≤ base.natAbs)
    (hle : base.natAbs ≤ 16) : (convertUnsigned flags base length a).Fits := by
  refine ⟨?_, hge, hle⟩
  cases length with
  | false => exact a.unsigned_lt
  | true => exact a.word.isLt

theorem text_fits (flags : Nat) (data : List UInt8) : Conversion.Fits { flags := flags, data := data } :=
  ⟨(by decide : 0 < 2 ^ 64), Nat.le_refl 10, (by decide : 10 ≤ 16)⟩

theorem conversion_fits (c : UInt8) (s : Scan) (a : Arg) : (conversion c s a).1.Fits := by
  rw [conversion]
  split_ifs
  · exact convertSigned_fits ..
  · exact convertUnsigned_fits _ _ _ (by decide) (by decide)
  · exact convertUnsigned_fits _ _ _ (by decide) (by decide)
  · exact convertUnsigned_fits _ _ _ (by decide) (by decide)
  · exact ⟨a.word.isLt, (by decide : 10 ≤ (-16 : Int).natAbs), (by decide : (-16 : Int).natAbs ≤ 16)⟩
  · exact text_fits ..
  · exact text_fits ..
  · exact text_fits ..
  · exact text_fits ..

theorem field_isSome {c : Conversion} (h : c.Fits) (width precision : Int) :
    ∃ chars, field (List.replicate numbufsiz 0) c width precision = some chars := by
  rw [field]
  by_cases hnum : hasFlag c.flags flagNumeric = true
  · obtain ⟨b, hfill, -⟩ := fillNumbuf_spec (List.replicate numbufsiz 0) (by simp) h.base_ge h.base_le h.num_lt
    rw [if_pos hnum, hfill]
    exact ⟨_, rfl⟩
  · rw [if_neg hnum]
    exact ⟨_, rfl⟩

/-- The loop's body goes on behind the directive, or on the terminator when that came first. -/
theorem convert_advances (putc : σ → UInt8 → Int → σ) (val : VaList) (h : s.pos ≤ format.bytes.length) (color : Int) (out : σ) :
    ∃ p, convert putc format val s color out = some p ∧
      p.pos = if s.pos < format.bytes.length then s.pos else s.pos - 1 := by
  obtain ⟨c, hread, hend⟩ := CString.read_spec h
  have hpos : (if c = 0 then s.pos - 1 else s.pos) = if s.pos < format.bytes.length then s.pos else s.pos - 1 := by
    by_cases hc : c = 0
    · rw [if_pos hc, if_neg (Nat.not_lt.mpr (Nat.le_of_eq (hend.mp hc).symm))]
    · rw [if_neg hc, if_pos (Nat.lt_of_le_of_ne h (mt hend.mpr hc))]
  rw [convert, hread, Option.bind_some]
  split
  next hC =>
    have hc : c ≠ 0 := by
      rw [hC]
      decide
    rw [← hpos, if_neg hc]
    exact ⟨_, rfl, rfl⟩
  next =>
    obtain ⟨chars, hchars⟩ := field_isSome (conversion_fits c s (val s.args)) s.width s.precision
    simp only [hchars, Option.bind_some]
    exact ⟨_, rfl, hpos⟩

theorem directive_advances (putc : σ → UInt8 → Int → σ) (val : VaList) (h : p.pos < format.bytes.length) (hrounds : format.bytes.length < rounds) :
    ∃ p', directive putc format val rounds p = some p' ∧ Advanced format (p.pos + 1) (p'.pos + 1) := by
  obtain ⟨s, hs, hadv⟩ := scan_advances val (s := { pos := p.pos + 1, args := p.args }) h hrounds
  have hin := hadv.inside
  have hle := hadv.le
  obtain ⟨p', hp', hpos⟩ := convert_advances putc val hin p.color p.out
  refine ⟨p', by rw [directive, hs, Option.bind_some, hp'], ?_⟩
  simp only at hle
  split at hpos
  next hlt => exact ⟨by omega, by omega⟩
  next => exact ⟨by omega, by omega⟩

theorem printerLoop_finishes {n : Nat} (h : p.pos ≤ format.bytes.length) (hrounds : format.bytes.length < rounds)
    (hn : format.bytes.length - p.pos < n) :
    ∃ p', printerLoop putc format val rounds n p = some p' ∧ p'.pos = format.bytes.length := by
  induction n generalizing p with
  | zero => omega
  | succ n ih =>
      obtain ⟨c, hread, hend⟩ := CString.read_spec h
      rw [printerLoop, hread, Option.bind_some]
      by_cases hc : c = 0
      · rw [if_pos hc]
        exact ⟨p, rfl, hend.mp hc⟩
      · have hlt : p.pos < format.bytes.length := Nat.lt_of_le_of_ne h (mt hend.mpr hc)
        rw [if_neg hc]
        split
        next =>
          exact @ih { p with out := putc p.out c p.color, pos := p.pos + 1 } hlt (by simp only; omega)
        next =>
          obtain ⟨p', hp', hadv⟩ := directive_advances putc val hlt hrounds
          have hle := hadv.le
          rw [hp', Option.bind_some]
          exact @ih { p' with pos := p'.pos + 1 } hadv.inside (by simp only; omega)

theorem printerVprintf_returns (format : CString) (val : VaList) (putc : σ → UInt8 → Int → σ) (out : σ) (color : Int)
    {rounds : Nat} (hrounds : format.bytes.length < rounds) :
    ∃ p, printerVprintf putc rounds out color format val = some p := by
  obtain ⟨p, hp, -⟩ := @printerLoop_finishes _ putc format val ⟨0, 0, color, out⟩ _ _ (Nat.zero_le _) hrounds
    (Nat.lt_of_le_of_lt (Nat.sub_le _ _) hrounds)
  exact ⟨p, hp⟩

/-- `printer_vprintf` ends on the terminator, whatever the format string and the arguments, and no
loop of it goes on for longer than the string is. -/
theorem printerVprintf_finishes (format : CString) (val : VaList) (putc : σ → UInt8 → Int → σ) (out : σ) (color : Int)
    {rounds : Nat} (hrounds : format.bytes.length < rounds) :
    ∃ p, printerVprintf putc rounds out color format val = some p ∧ p.pos = format.bytes.length :=
  printerLoop_finishes (p := ⟨0, 0, color, out⟩) (Nat.zero_le _) hrounds (Nat.lt_of_le_of_lt (Nat.sub_le _ _) hrounds)

/-- The format `%-5.*l`, which ends inside its directive. -/
def cutFormat : CString where
  bytes := ['%', '-', '5', '.', '*', 'l'].map chr
  nul_notMem := by decide

/-- The same arguments everywhere: the number 5 and an empty string. -/
def fives : VaList := fun _ => ⟨5, ⟨[], by decide⟩⟩

theorem cutFormat_finishes :
    ∃ p, printerVprintf (fun (out : List UInt8) c _ => out ++ [c]) 7 [] 0 cutFormat fives = some p ∧ p.pos = 6 :=
  printerVprintf_finishes cutFormat fives _ _ _ (by decide)

end WeensyOS.Printer
