import WeensyOS.Shared.Console

namespace WeensyOS.Console

open Loop Printer

def crow (cpos : Int) : Int := cpos.tdiv 80

def cposAt (row col : Int) : Int := row * 80 + col

/-- The place of `cursorpos`, at `0xB8FFC`, among the cells from `0xB8000` on; it takes two of them. -/
def cursorCell : Nat := (0xB8FFC - 0xB8000) / 2

def cursorpos (page : Nat → UInt16) : Int :=
  ((page (cursorCell + 1)).toBitVec ++ (page cursorCell).toBitVec : BitVec 32).toInt

def setCursorpos (page : Nat → UInt16) (pos : Int) : Nat → UInt16 :=
  let word := BitVec.ofInt 32 pos
  Function.update (Function.update page cursorCell (UInt16.ofBitVec (word.extractLsb' 0 16))) (cursorCell + 1)
    (UInt16.ofBitVec (word.extractLsb' 16 16))

def appColors : List UInt8 := [0x0E, 0x0F, 0x0C, 0x0A, 0x09]

def appColor (colorid : Int) : Int :=
  if colorid < 0 then 0x0700 else ((appColors.getD (colorid.toNat % appColors.length) 0).toNat <<< 8 : Nat)

/-- The C library's `app_printf` on the page of the console. -/
def appPrintf (rounds : Nat) (page : Nat → UInt16) (colorid : Int) (format : CString) (val : VaList) :
    Option (Nat → UInt16) :=
  (consoleVprintf rounds page (cursorpos page) (appColor colorid) format val).map fun s =>
  let page := setCursorpos s.cells s.pos
  if 23 ≤ crow (cursorpos page) then setCursorpos page (cposAt 0 0) else page

/-- The newline loop of `console_putc`, stopped at a write outside of the console. -/
def blanksInside (color : UInt16) : Nat → Screen → Option Screen
  | 0, s => some s
  | n + 1, s => (Rust.store s (cell (chr ' ') color)).bind (blanksInside color n)

/-- `console_putc` with every write checked. -/
def consolePutcInside (s : Option Screen) (c : UInt8) (color : Int) : Option Screen :=
  s.bind fun s =>
  let s := s.wrap
  if c = newline then blanksInside (asColor color) (consoleColumns - s.pos % consoleColumns) s
  else Rust.store s (cell c (asColor color))

/-- The cursor is at a cell of the console or behind the last one, and the rest of the page is as it was. -/
structure OnScreen (page : Nat → UInt16) (s : Screen) : Prop where
  pos_le : s.pos ≤ consoleCells
  kept : ∀ i, consoleCells ≤ i → s.cells i = page i

variable {s t : Screen} {page : Nat → UInt16} {color : UInt16} {n : Nat}

theorem OnScreen.start (page : Nat → UInt16) (cpos : Int) : OnScreen page ⟨page, startPos cpos⟩ where
  pos_le := Nat.le_of_lt (startPos_lt cpos)
  kept _ _ := rfl

theorem OnScreen.wrap (h : OnScreen page s) : OnScreen page s.wrap where
  pos_le := Nat.le_of_lt s.wrap_lt
  kept := by
    rw [Screen.wrap_cells]
    exact h.kept

theorem OnScreen.put (h : OnScreen page s) (hs : s.pos < consoleCells) (v : UInt16) : OnScreen page (s.put v) where
  pos_le := hs
  kept i hi := by
    rw [← h.kept i hi]
    exact Function.update_of_ne (Nat.ne_of_gt (Nat.lt_of_lt_of_le hs hi)) v s.cells

section Putc

theorem blanksInside_eq (hn : s.pos + n ≤ consoleCells) : blanksInside color n s = some (Screen.blanks color n s) := by
  induction n generalizing s with
  | zero => rfl
  | succ n ih =>
      have hs : s.pos < consoleCells := Nat.lt_of_lt_of_le (Nat.lt_add_of_pos_right (Nat.succ_pos n)) hn
      have hpos : (s.put (cell (chr ' ') color)).pos = s.pos + 1 := rfl
      rw [blanksInside, Rust.store, if_pos hs, Option.bind_some, Screen.blanks]
      apply ih
      rw [hpos, Nat.add_assoc, Nat.add_comm 1]
      exact hn

theorem OnScreen.blanks (h : OnScreen page s) (hn : s.pos + n ≤ consoleCells) : OnScreen page (Screen.blanks color n s) := by
  induction n generalizing s with
  | zero => exact h
  | succ n ih =>
      have hs : s.pos < consoleCells := Nat.lt_of_lt_of_le (Nat.lt_add_of_pos_right (Nat.succ_pos n)) hn
      apply ih (h.put hs _)
      rw [Screen.put, Nat.add_assoc, Nat.add_comm 1]
      exact hn

/-- The rows fill the console, so that the rest of a row ends in it. -/
theorem row_end (hs : s.pos < consoleCells) : s.pos + (consoleColumns - s.pos % consoleColumns) ≤ consoleCells := by
  rw [consoleCells_eq] at *
  rw [consoleColumns_eq]
  omega

/-- No write of `console_putc` is outside of the console, wherever the cursor is. -/
theorem consolePutcInside_eq (s : Screen) (c : UInt8) (color : Int) :
    consolePutcInside (some s) c color = some (consolePutc s c color) := by
  rw [consolePutcInside, Option.bind_some, consolePutc]
  by_cases hnl : c = newline
  · rw [if_pos hnl, if_pos hnl]
    exact blanksInside_eq (row_end s.wrap_lt)
  · rw [if_neg hnl, if_neg hnl, Rust.store, if_pos s.wrap_lt]

theorem OnScreen.putc (h : OnScreen page s) (c : UInt8) (color : Int) : OnScreen page (consolePutc s c color) := by
  rw [consolePutc]
  split
  next => exact h.wrap.blanks (row_end s.wrap_lt)
  next => exact h.wrap.put s.wrap_lt _

theorem replay_inside (s : Screen) (out : List (UInt8 × Int)) :
    replay consolePutcInside (some s) out = some (replay consolePutc s out) := by
  induction out generalizing s with
  | nil => rfl
  | cons call out ih =>
      rw [replay, List.foldl_cons, consolePutcInside_eq]
      exact ih (consolePutc s call.1 call.2)

/-- `console_vprintf` returns, with the cursor on the screen. -/
theorem consoleVprintf_stays (page : Nat → UInt16) (cpos color : Int) (format : CString) (val : VaList) {rounds : Nat}
    (hrounds : format.bytes.length < rounds) :
    ∃ s, consoleVprintf rounds page cpos color format val = some s ∧ OnScreen page s := by
  obtain ⟨p, hp⟩ := printerVprintf_returns format val consolePutc ⟨page, startPos cpos⟩ color hrounds
  refine ⟨p.out, by rw [consoleVprintf, hp]; rfl, ?_⟩
  exact printerLoop_keeps (fun _ c color _ h => h.putc c color) (OnScreen.start page cpos) hp

/-- The checked writes are the ones that are made. -/
theorem consoleVprintf_inside (rounds : Nat) (page : Nat → UInt16) (cpos color : Int) (format : CString) (val : VaList) :
    (printerVprintf consolePutcInside rounds (some ⟨page, startPos cpos⟩) color format val).map (·.out) =
      (consoleVprintf rounds page cpos color format val).map some := by
  rw [printerVprintf_replay, consoleVprintf_replay, Option.map_map, Option.map_map]
  congr 1
  funext p
  exact replay_inside ⟨page, startPos cpos⟩ p.out

end Putc

namespace Rust

theorem writeByte_stays (h : OnScreen page s) (color : UInt16) (byte : UInt8) :
    ∃ t, writeByte color s byte = some t ∧ OnScreen page t := by
  have hlt := s.wrap_lt
  by_cases hnl : byte = newline
  · subst hnl
    by_cases hcol : s.wrap.pos % consoleColumns = 0
    · exact ⟨_, writeByte_column_zero hcol, h.wrap⟩
    · have hend := row_end hlt
      refine ⟨(Screen.blanks color (consoleColumns - s.wrap.pos % consoleColumns) s.wrap).wrap, ?_, (h.wrap.blanks hend).wrap⟩
      rw [writeByte, if_pos rfl, writeNewline, cwhile]
      apply fill_row hlt
      all_goals
        rw [consoleColumns_eq] at *
        omega
  · refine ⟨s.wrap.put (cell byte color), ?_, h.wrap.put hlt _⟩
    rw [writeByte, if_neg hnl, store, if_pos hlt]

theorem writeStr_stays (h : OnScreen page s) (color : UInt16) (bytes : List UInt8) :
    ∃ t, writeStr color bytes s = some t ∧ OnScreen page t := by
  induction bytes generalizing s with
  | nil => exact ⟨s, rfl, h⟩
  | cons byte bytes ih =>
      obtain ⟨t, hbyte, ht⟩ := writeByte_stays h color byte
      obtain ⟨u, hrest, hu⟩ := ih ht
      exact ⟨u, by rw [writeStr, hbyte, Option.bind_some, hrest], hu⟩

theorem consolePrintf_stays (page : Nat → UInt16) (cpos : Int) (color : UInt16) (pieces : List (List UInt8)) :
    ∃ s, consolePrintf page cpos color pieces = some s ∧ OnScreen page s := by
  rw [consolePrintf_flatten]
  exact writeStr_stays (OnScreen.start page cpos) color pieces.flatten

end Rust

section AppPrintf

theorem cursorpos_set (page : Nat → UInt16) {pos : Int} (hlo : 0 ≤ pos) (hhi : pos < 2 ^ 31) :
    cursorpos (setCursorpos page pos) = pos := by
  have hlow : setCursorpos page pos cursorCell = UInt16.ofBitVec ((BitVec.ofInt 32 pos).extractLsb' 0 16) := by
    rw [setCursorpos, Function.update_of_ne (Nat.ne_of_lt (Nat.lt_succ_self cursorCell)), Function.update_self]
  have hhigh : setCursorpos page pos (cursorCell + 1) = UInt16.ofBitVec ((BitVec.ofInt 32 pos).extractLsb' 16 16) := by
    rw [setCursorpos, Function.update_self]
  have hword : ((BitVec.ofInt 32 pos).extractLsb' 16 16 ++ (BitVec.ofInt 32 pos).extractLsb' 0 16 : BitVec 32) =
      BitVec.ofInt 32 pos := BitVec.extractLsb'_append_extractLsb'_eq_extractLsb' rfl |>.trans (by simp)
  rw [cursorpos, hlow, hhigh]
  refine (congrArg BitVec.toInt hword).trans ?_
  rw [BitVec.toInt_ofInt]
  exact Int.bmod_eq_of_le (by omega) (by omega)

theorem setCursorpos_kept (page : Nat → UInt16) (pos : Int) {i : Nat} (hlow : i ≠ cursorCell) (hhigh : i ≠ cursorCell + 1) :
    setCursorpos page pos i = page i := by
  rw [setCursorpos, Function.update_of_ne hhigh, Function.update_of_ne hlow]

/-- `app_printf` leaves the cursor in the first 23 rows, wherever it was before. -/
theorem appPrintf_stays (page : Nat → UInt16) (colorid : Int) (format : CString) (val : VaList) {rounds : Nat}
    (hrounds : format.bytes.length < rounds) :
    ∃ page', appPrintf rounds page colorid format val = some page' ∧ 0 ≤ cursorpos page' ∧ cursorpos page' < 23 * 80 ∧
      ∀ i, consoleCells ≤ i → i ≠ cursorCell → i ≠ cursorCell + 1 → page' i = page i := by
  obtain ⟨s, hs, hscreen⟩ := consoleVprintf_stays page (cursorpos page) (appColor colorid) format val hrounds
  have hle := hscreen.pos_le
  rw [consoleCells_eq] at hle
  have hpos : cursorpos (setCursorpos s.cells s.pos) = s.pos := cursorpos_set s.cells (by omega) (by omega)
  rw [appPrintf, hs, Option.map_some]
  refine ⟨_, rfl, ?_⟩
  simp only [hpos, crow, Int.tdiv_eq_ediv_of_nonneg (Int.natCast_nonneg s.pos)]
  by_cases hrow : 23 ≤ (s.pos : Int) / 80
  · rw [if_pos hrow]
    have htop : cursorpos (setCursorpos (setCursorpos s.cells s.pos) (cposAt 0 0)) = 0 :=
      cursorpos_set (setCursorpos s.cells s.pos) (Int.le_refl 0) (by decide)
    refine ⟨by omega, by omega, fun i hi hlow hhigh => ?_⟩
    rw [setCursorpos_kept _ _ hlow hhigh, setCursorpos_kept _ _ hlow hhigh]
    exact hscreen.kept i hi
  · rw [if_neg hrow]
    refine ⟨by omega, by omega, fun i hi hlow hhigh => ?_⟩
    rw [setCursorpos_kept _ _ hlow hhigh]
    exact hscreen.kept i hi

end AppPrintf

/-- Console output stays on the screen, from every start position. -/
theorem output_stays_on_screen (page : Nat → UInt16) (cpos : Int) (format : CString) (val : VaList) {rounds : Nat}
    (hrounds : format.bytes.length < rounds) :
    (∀ color, ∃ s, consoleVprintf rounds page cpos color format val = some s ∧ OnScreen page s ∧
      (printerVprintf consolePutcInside rounds (some ⟨page, startPos cpos⟩) color format val).map (·.out) = some (some s)) ∧
    (∀ color pieces, ∃ s, Rust.consolePrintf page cpos color pieces = some s ∧ OnScreen page s) ∧
    ∀ colorid, ∃ page', appPrintf rounds page colorid format val = some page' ∧ 0 ≤ cursorpos page' ∧
      cursorpos page' < 23 * 80 ∧ ∀ i, consoleCells ≤ i → i ≠ cursorCell → i ≠ cursorCell + 1 → page' i = page i := by
  refine ⟨fun color => ?_, fun color pieces => Rust.consolePrintf_stays page cpos color pieces,
    fun colorid => appPrintf_stays page colorid format val hrounds⟩
  obtain ⟨s, hs, hscreen⟩ := consoleVprintf_stays page cpos color format val hrounds
  refine ⟨s, hs, hscreen, ?_⟩
  rw [consoleVprintf_inside, hs]
  rfl

/-- A cursor that a process has set to -1. -/
theorem lost_cursor_returns : ∃ page', appPrintf 7 (fun _ => 0xFFFF) 3 cutFormat fives = some page' ∧
    0 ≤ cursorpos page' ∧ cursorpos page' < 23 * 80 := by
  obtain ⟨-, -, hprintf⟩ := output_stays_on_screen (fun _ => 0xFFFF) (-1) cutFormat fives (by decide : cutFormat.bytes.length < 7)
  obtain ⟨page', hpage, hlo, hhi, -⟩ := hprintf 3
  exact ⟨page', hpage, hlo, hhi⟩

end WeensyOS.Console
