import WeensyOS.Lib.Loop
import WeensyOS.Shared.StringPrinter

namespace WeensyOS.Console

open Loop Printer

def consoleRows : Nat := 25
def consoleColumns : Nat := 80
def consoleCells : Nat := consoleRows * consoleColumns

/-- The cells of the console and the index of the one the cursor is at. -/
structure Screen where
  cells : Nat → UInt16
  pos : Nat

def startPos (cpos : Int) : Nat := if cpos < 0 ∨ (consoleCells : Int) ≤ cpos then 0 else cpos.toNat

def cell (c : UInt8) (color : UInt16) : UInt16 := UInt16.ofNat c.toNat ||| color

namespace Screen

variable (s : Screen)

/-- `*cursor++ = v`. -/
def put (v : UInt16) : Screen := ⟨Function.update s.cells s.pos v, s.pos + 1⟩

def wrap : Screen := if consoleCells ≤ s.pos then { s with pos := 0 } else s

def blanks (color : UInt16) : Nat → Screen → Screen
  | 0, s => s
  | n + 1, s => blanks color n (s.put (cell (chr ' ') color))

end Screen

/-- The part of an `int` color that a cell can hold. -/
def asColor (color : Int) : UInt16 := UInt16.ofBitVec (BitVec.ofInt 16 color)

def consolePutc (s : Screen) (c : UInt8) (color : Int) : Screen :=
  let s := s.wrap
  if c = newline then Screen.blanks (asColor color) (consoleColumns - s.pos % consoleColumns) s
  else s.put (cell c (asColor color))

def consoleVprintf (rounds : Nat) (cells : Nat → UInt16) (cpos color : Int) (format : CString) (val : VaList) :
    Option Screen :=
  (printerVprintf consolePutc rounds ⟨cells, startPos cpos⟩ color format val).map (·.out)

namespace Rust

/-- `buf[self.pos] = v; self.pos += 1`; `none` when the index is out of bounds. -/
def store (s : Screen) (v : UInt16) : Option Screen := if s.pos < consoleCells then some (s.put v) else none

def inRow (s : Screen) : Prop := s.pos % consoleColumns ≠ 0

instance : DecidablePred inRow := fun _ => inferInstanceAs (Decidable (_ ≠ _))

def blankStep (color : UInt16) (s : Screen) : Option Screen := (store s (cell (chr ' ') color)).map Screen.wrap

/-- The `while` loop for a newline. -/
def writeNewline (color : UInt16) (s : Screen) : Option Screen := cwhile inRow (blankStep color) s

def writeByte (color : UInt16) (s : Screen) (byte : UInt8) : Option Screen :=
  let s := s.wrap
  if byte = newline then writeNewline color s else store s (cell byte color)

/-- `ConsoleWriter::write_str`. -/
def writeStr (color : UInt16) : List UInt8 → Screen → Option Screen
  | [], s => some s
  | byte :: bytes, s => (writeByte color s byte).bind (writeStr color bytes)

/-- `console_printf` for arguments that are formatted into `pieces`. -/
def consolePrintf (cells : Nat → UInt16) (cpos : Int) (color : UInt16) (pieces : List (List UInt8)) : Option Screen :=
  pieces.foldlM (fun s piece => writeStr color piece s) ⟨cells, startPos cpos⟩

end Rust

variable {s t : Screen} {color : UInt16} {n fuel : Nat}

/-- `console_vprintf` writes the characters of the output one by one. -/
theorem consoleVprintf_replay (rounds : Nat) (cells : Nat → UInt16) (cpos color : Int) (format : CString) (val : VaList) :
    consoleVprintf rounds cells cpos color format val =
      (printerVprintf record rounds [] color format val).map fun p =>
        replay consolePutc ⟨cells, startPos cpos⟩ p.out := by
  rw [consoleVprintf, printerVprintf_replay, Option.map_map]
  rfl

theorem consoleColumns_eq : consoleColumns = 80 := rfl
theorem consoleCells_eq : consoleCells = 2000 := rfl

theorem startPos_lt (cpos : Int) : startPos cpos < consoleCells := by
  rw [startPos]
  split
  · decide
  · omega

theorem Screen.wrap_of_lt (h : s.pos < consoleCells) : s.wrap = s := if_neg (Nat.not_le.mpr h)

theorem Screen.wrap_of_end (h : s.pos = consoleCells) : s.wrap.pos = 0 := by
  rw [wrap, if_pos (Nat.le_of_eq h.symm)]

theorem Screen.wrap_pos (h : s.pos ≤ consoleCells) : s.wrap.pos = s.pos % consoleCells := by
  rcases Nat.lt_or_eq_of_le h with hlt | heq
  · rw [wrap_of_lt hlt, Nat.mod_eq_of_lt hlt]
  · rw [wrap_of_end heq, heq, Nat.mod_self]

theorem Screen.wrap_lt (s : Screen) : s.wrap.pos < consoleCells := by
  rcases Nat.lt_or_ge s.pos consoleCells with hlt | hge
  · rw [wrap_of_lt hlt]
    exact hlt
  · rw [wrap, if_pos hge]
    exact Nat.zero_lt_succ _

theorem Screen.wrap_column (h : s.pos ≤ consoleCells) : s.wrap.pos % consoleColumns = s.pos % consoleColumns := by
  rw [wrap_pos h, consoleCells_eq, consoleColumns_eq]
  omega

theorem Screen.wrap_cells (s : Screen) : s.wrap.cells = s.cells := by
  rw [wrap]
  split <;> rfl

theorem Screen.blanks_pos (color : UInt16) (n : Nat) (s : Screen) : (blanks color n s).pos = s.pos + n := by
  induction n generalizing s with
  | zero => rfl
  | succ n ih =>
      rw [blanks, ih, put]
      simp only
      omega

theorem asColor_ofNat (color : UInt16) : asColor color.toNat = color := by
  rw [asColor, BitVec.ofInt_natCast]
  exact UInt16.ofNat_toNat

/-- The column behind `c`, when it is written in column `col`. -/
def nextColumn (col : Nat) (c : UInt8) : Nat := if c = newline then 0 else (col + 1) % consoleColumns

def column (col : Nat) (bytes : List UInt8) : Nat := bytes.foldl nextColumn col

theorem consolePutc_pos (hs : s.pos ≤ consoleCells) (c : UInt8) (color : Int) :
    (consolePutc s c color).pos ≤ consoleCells ∧
      (consolePutc s c color).pos % consoleColumns = nextColumn (s.pos % consoleColumns) c := by
  have hlt := s.wrap_lt
  have hcol := Screen.wrap_column hs
  rw [consolePutc, nextColumn]
  by_cases hnl : c = newline
  · rw [if_pos hnl, if_pos hnl, Screen.blanks_pos]
    simp only [consoleCells_eq, consoleColumns_eq] at *
    omega
  · rw [if_neg hnl, if_neg hnl, Screen.put]
    simp only [consoleCells_eq, consoleColumns_eq] at *
    omega

theorem putChars_pos (hs : s.pos ≤ consoleCells) (color : Int) (bytes : List UInt8) :
    (putChars consolePutc color s bytes).pos ≤ consoleCells ∧
      (putChars consolePutc color s bytes).pos % consoleColumns = column (s.pos % consoleColumns) bytes := by
  induction bytes generalizing s with
  | nil => exact ⟨hs, rfl⟩
  | cons c bytes ih =>
      obtain ⟨hle, hcol⟩ := consolePutc_pos hs c color
      rw [column, List.foldl_cons, ← hcol]
      exact ih hle

theorem fill_row (hs : s.pos < consoleCells) (hn : (s.pos + n) % consoleColumns = 0) (hlt : n < consoleColumns)
    (hfuel : n ≤ fuel) :
    whileM Rust.inRow (Rust.blankStep color) fuel s = some (Screen.blanks color n s).wrap := by
  induction n generalizing s fuel with
  | zero => rw [whileM_done Rust.inRow (Rust.blankStep color) (not_not.mpr hn), Screen.blanks, Screen.wrap_of_lt hs]
  | succ n ih =>
      have hin : Rust.inRow s := by
        intro hzero
        rw [consoleColumns_eq] at hn hlt hzero
        omega
      obtain ⟨fuel, rfl⟩ := Nat.exists_eq_add_of_le' (Nat.le_trans (Nat.succ_pos n) hfuel)
      rw [whileM_next _ _ hin, Rust.blankStep, Rust.store, if_pos hs, Option.map_some, Option.bind_some, Screen.blanks]
      have hpos : (s.put (cell (chr ' ') color)).pos = s.pos + 1 := rfl
      rcases Nat.lt_or_eq_of_le hs with hroom | hend
      · rw [Screen.wrap_of_lt hroom]
        apply ih hroom _ (Nat.lt_of_succ_lt hlt) (Nat.le_of_succ_le_succ hfuel)
        rw [hpos, Nat.add_assoc, Nat.add_comm 1, hn]
      · have hzero : n = 0 := by
          rw [consoleColumns_eq] at hn hlt
          rw [consoleCells_eq] at hend
          omega
        subst hzero
        apply whileM_done
        rw [Rust.inRow, Screen.wrap_of_end (hpos.trans hend)]
        exact not_not.mpr (Nat.zero_mod _)

/-- A byte that both writers treat alike. -/
theorem writeByte_agrees (color : UInt16) (hst : t.wrap = s.wrap) (hs : s.pos ≤ consoleCells) {c : UInt8}
    (hc : c = newline → s.pos % consoleColumns ≠ 0) :
    ∃ t', Rust.writeByte color t c = some t' ∧ t'.wrap = (consolePutc s c color.toNat).wrap ∧ t'.pos ≤ consoleCells := by
  have hlt := s.wrap_lt
  have hcol := Screen.wrap_column hs
  rw [Rust.writeByte, consolePutc, hst, asColor_ofNat]
  by_cases hnl : c = newline
  · have hne := hc hnl
    rw [← hcol] at hne
    rw [if_pos hnl, if_pos hnl, Rust.writeNewline, cwhile]
    rw [fill_row hlt (n := consoleColumns - s.wrap.pos % consoleColumns)]
    · exact ⟨_, rfl, Screen.wrap_of_lt (Screen.wrap_lt _), Nat.le_of_lt (Screen.wrap_lt _)⟩
    all_goals
      rw [consoleColumns_eq] at *
      omega
  · rw [if_neg hnl, if_neg hnl, Rust.store, if_pos hlt]
    exact ⟨_, rfl, rfl, hlt⟩

theorem writeStr_agrees (color : UInt16) (bytes : List UInt8) (hst : t.wrap = s.wrap) (hs : s.pos ≤ consoleCells)
    (ht : t.pos ≤ consoleCells)
    (hbytes : ∀ p r, bytes = p ++ newline :: r → column (s.pos % consoleColumns) p ≠ 0) :
    ∃ t', Rust.writeStr color bytes t = some t' ∧ t'.wrap = (putChars consolePutc color.toNat s bytes).wrap ∧
      t'.pos ≤ consoleCells := by
  induction bytes generalizing s t with
  | nil => exact ⟨t, rfl, hst, ht⟩
  | cons c bytes ih =>
      obtain ⟨t₁, hbyte, hst₁, ht₁⟩ := writeByte_agrees color hst hs (c := c) fun hc =>
        hbytes [] bytes (hc ▸ rfl)
      obtain ⟨hs₁, hcol⟩ := consolePutc_pos hs c color.toNat
      have hrest : ∀ p r, bytes = p ++ newline :: r →
          column ((consolePutc s c color.toNat).pos % consoleColumns) p ≠ 0 := by
        intro p r heq
        rw [hcol]
        exact hbytes (c :: p) r (by rw [heq, List.cons_append])
      obtain ⟨t', hrun, hst', ht'⟩ := ih hst₁ hs₁ ht₁ hrest
      exact ⟨t', by rw [Rust.writeStr, hbyte, Option.bind_some, hrun], hst', ht'⟩

theorem writeByte_pos {c : UInt8} (h : Rust.writeByte color t c = some s) :
    s.pos ≤ consoleCells := by
  rw [Rust.writeByte] at h
  by_cases hnl : c = newline
  · rw [if_pos hnl] at h
    apply Nat.le_of_lt
    apply (cwhile_keeps _ _ (fun s : Screen => s.pos < consoleCells) _ t.wrap_lt h).1
    intro s₁ s₂ _ _ hstep
    obtain ⟨s₃, -, rfl⟩ := Option.map_eq_some_iff.mp hstep
    exact s₃.wrap_lt
  · rw [if_neg hnl, Rust.store, if_pos t.wrap_lt, Option.some.injEq] at h
    exact h ▸ t.wrap_lt

theorem writeStr_pos {bytes : List UInt8} (ht : t.pos ≤ consoleCells) (h : Rust.writeStr color bytes t = some s) :
    s.pos ≤ consoleCells := by
  induction bytes generalizing t with
  | nil =>
      rw [Rust.writeStr, Option.some.injEq] at h
      exact h ▸ ht
  | cons c bytes ih =>
      obtain ⟨t₁, hbyte, hrest⟩ := Option.bind_eq_some_iff.mp h
      exact ih (writeByte_pos hbyte) hrest

theorem writeStr_append (bytes bytes' : List UInt8) (s : Screen) :
    Rust.writeStr color (bytes ++ bytes') s = (Rust.writeStr color bytes s).bind (Rust.writeStr color bytes') := by
  induction bytes generalizing s with
  | nil => rfl
  | cons c bytes ih =>
      rw [List.cons_append, Rust.writeStr, Rust.writeStr]
      cases Rust.writeByte color s c with
      | none => rfl
      | some t => exact ih t

/-- How the arguments are split into pieces makes no difference. -/
theorem consolePrintf_flatten (cells : Nat → UInt16) (cpos : Int) (color : UInt16) (pieces : List (List UInt8)) :
    Rust.consolePrintf cells cpos color pieces = Rust.writeStr color pieces.flatten ⟨cells, startPos cpos⟩ := by
  rw [Rust.consolePrintf]
  generalize (⟨cells, startPos cpos⟩ : Screen) = s
  induction pieces generalizing s with
  | nil => rfl
  | cons piece pieces ih =>
      rw [List.foldlM_cons, List.flatten_cons, writeStr_append]
      cases Rust.writeStr color piece s with
      | none => rfl
      | some t => exact ih t

/-- The two consoles after the same bytes. -/
def Agrees (cells : Nat → UInt16) (cpos : Int) (color : UInt16) (bytes : List UInt8) : Prop :=
  ∀ pieces : List (List UInt8), pieces.flatten = bytes → ∃ r, Rust.consolePrintf cells cpos color pieces = some r ∧
    let c := putChars consolePutc color.toNat ⟨cells, startPos cpos⟩ bytes
    (∀ i, i < consoleCells → r.cells i = c.cells i) ∧ r.pos % consoleCells = c.pos % consoleCells

theorem putChars_append (color : Int) (s : Screen) (bytes bytes' : List UInt8) :
    putChars consolePutc color s (bytes ++ bytes') =
      putChars consolePutc color (putChars consolePutc color s bytes) bytes' := List.foldl_append

theorem writeByte_column_zero (hcol : t.wrap.pos % consoleColumns = 0) :
    Rust.writeByte color t newline = some t.wrap := by
  rw [Rust.writeByte, if_pos rfl, Rust.writeNewline, cwhile, whileM_done Rust.inRow (Rust.blankStep color) (not_not.mpr hcol)]

theorem consolePutc_column_zero (hcol : s.wrap.pos % consoleColumns = 0) (color : Int) :
    (consolePutc s newline color).pos = s.wrap.pos + consoleColumns := by
  rw [consolePutc, if_pos rfl, Screen.blanks_pos, hcol]
  rfl

/-- A newline in column 0 is a row of blanks for one writer and nothing for the other. -/
theorem not_agrees_newline {cells : Nat → UInt16} {cpos : Int} {p : List UInt8} (h : Agrees cells cpos color p)
    (hcol : column (startPos cpos % consoleColumns) p = 0) : ¬Agrees cells cpos color (p ++ [newline]) := by
  intro hnext
  obtain ⟨r, hr, -, hpos⟩ := h [p] (List.flatten_singleton)
  obtain ⟨r', hr', -, hpos'⟩ := hnext [p ++ [newline]] (List.flatten_singleton)
  obtain ⟨hle, hcolC⟩ := putChars_pos (s := ⟨cells, startPos cpos⟩) (Nat.le_of_lt (startPos_lt cpos)) color.toNat p
  rw [consolePrintf_flatten, List.flatten_singleton] at hr hr'
  simp only at hpos hpos' hcolC
  rw [putChars_append] at hpos'
  generalize putChars consolePutc color.toNat ⟨cells, startPos cpos⟩ p = c at hpos hpos' hle hcolC
  have hwrapC := Screen.wrap_pos hle
  have hzeroC : c.wrap.pos % consoleColumns = 0 := by rw [Screen.wrap_column hle, hcolC, hcol]
  have hpos₁ : (putChars consolePutc color.toNat c [newline]).pos = c.wrap.pos + consoleColumns :=
    consolePutc_column_zero hzeroC _
  have hr_le := writeStr_pos (Nat.le_of_lt (startPos_lt cpos)) hr
  have hzeroR : r.wrap.pos % consoleColumns = 0 := by
    rw [Screen.wrap_pos hr_le, hpos, ← hwrapC, hzeroC]
  rw [writeStr_append, hr, Option.bind_some, Rust.writeStr, writeByte_column_zero hzeroR, Option.bind_some,
    Rust.writeStr, Option.some.injEq] at hr'
  subst hr'
  rw [hpos₁, Screen.wrap_pos hr_le, hpos, ← hwrapC] at hpos'
  have hlt := c.wrap_lt
  rw [consoleCells_eq] at hpos' hlt
  rw [consoleColumns_eq] at hpos'
  omega

/-- The two writers agree all the way through a string exactly when no newline of it is reached in column 0. -/
theorem console_agrees (cpos : Int) (color : UInt16) (bytes : List UInt8) :
    (∀ p, p <+: bytes → ∀ cells, Agrees cells cpos color p) ↔
      ∀ p r, bytes = p ++ newline :: r → column (startPos cpos % consoleColumns) p ≠ 0 := by
  constructor
  · intro h p r hbytes hcol
    have hp : p <+: bytes := ⟨newline :: r, hbytes.symm⟩
    have hnext : p ++ [newline] <+: bytes := ⟨r, by rw [hbytes, List.append_assoc]; rfl⟩
    exact not_agrees_newline (h p hp fun _ => 0) hcol (h _ hnext _)
  · rintro h p ⟨q, rfl⟩ cells pieces rfl
    have hle := Nat.le_of_lt (startPos_lt cpos)
    obtain ⟨t, hrun, hwrap, ht⟩ := writeStr_agrees color pieces.flatten (s := ⟨cells, startPos cpos⟩) rfl hle hle
      fun p r heq => h p (r ++ q) (by rw [heq, List.append_assoc]; rfl)
    obtain ⟨hleC, -⟩ := putChars_pos (s := ⟨cells, startPos cpos⟩) hle color.toNat pieces.flatten
    refine ⟨t, by rw [consolePrintf_flatten, hrun], ?_, ?_⟩
    · intro i _
      rw [← Screen.wrap_cells t, hwrap, Screen.wrap_cells]
    · rw [← Screen.wrap_pos ht, ← Screen.wrap_pos hleC, hwrap]

theorem console_newline_differs : ¬∀ cells cpos color bytes, Agrees cells cpos color bytes := by
  intro h
  obtain ⟨r, hr, -, hpos⟩ := h (fun _ => 0) 0 0x0700 [newline] [[newline]] rfl
  rw [consolePrintf_flatten, List.flatten_singleton, Rust.writeStr, writeByte_column_zero rfl, Option.bind_some,
    Rust.writeStr, Option.some.injEq] at hr
  subst hr
  exact absurd hpos (by decide)

end WeensyOS.Console
