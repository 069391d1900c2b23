import Mathlib.Algebra.Group.Nat.Defs
import Mathlib.Data.List.Basic

namespace WeensyOS.Kernel

def modShift : BitVec 8 := 1#8 <<< 0

def modControl : BitVec 8 := 1#8 <<< 1

def modCapslock : BitVec 8 := 1#8 <<< 3

def keyShift : Nat := 0o372

def keyControl : Nat := 0o373

def keyAlt : Nat := 0o374

def keyCapslock : Nat := 0o375

def keyNumlock : Nat := 0o376

def keyScrolllock : Nat := 0o377

def ckey (cn : Nat) : Nat := 0x80 + cn

/-- The second half is for the codes that follow a mode shift; `KEY_HOME` and the other special keys are numbered from 0300 on. -/
def keymap : List Nat :=
  -- 0x00
  [0, 0o33] ++ (List.range 12).map ckey ++ [8, 9] ++
  -- 0x10
  ['q', 'w', 'e', 'r', 't', 'y', 'u', 'i', 'o', 'p'].map Char.toNat ++ [ckey 12, ckey 13, ckey 14, keyControl] ++
  ['a', 's', 'd', 'f', 'g', 'h', 'j', 'k', 'l'].map Char.toNat ++ [ckey 15, ckey 16, ckey 17, keyShift, ckey 18] ++
  ['z', 'x', 'c', 'v', 'b', 'n', 'm'].map Char.toNat ++ [ckey 19, ckey 20, ckey 21, keyShift] ++ ['*'].map Char.toNat ++
  -- 0x38
  [keyAlt] ++ [' '].map Char.toNat ++ [keyCapslock] ++ List.replicate 10 0 ++ [keyNumlock, keyScrolllock] ++
  ['7', '8', '9', '-', '4', '5', '6', '+', '1', '2', '3', '0', '.'].map Char.toNat ++
  -- 0x54 to 0x9B
  List.replicate 72 0 ++
  [ckey 14, keyControl] ++ List.replicate 23 0 ++ ['/'].map Char.toNat ++ [0, 0, keyAlt] ++ List.replicate 14 0 ++
  -- 0xC7
  [0o304, 0o300, 0o306, 0, 0o303, 0, 0o301, 0, 0o305, 0o302, 0o307, 0o310, 0o311] ++ List.replicate 44 0

def complexKeymap : List (List Nat) :=
  [['1', '!'], ['2', '@'], ['3', '#'], ['4', '$'], ['5', '%']].map (fun m => m.map Char.toNat ++ [0, 0]) ++
  [['6', '^'].map Char.toNat ++ [0, 0o36]] ++
  [['7', '&'], ['8', '*'], ['9', '('], ['0', ')']].map (fun m => m.map Char.toNat ++ [0, 0]) ++
  [['-', '_'].map Char.toNat ++ [0, 0o37]] ++ [['=', '+'].map Char.toNat ++ [0, 0]] ++
  -- the brackets, the return key, and the keys of the colon, the quote, the backquote and the backslash
  [[91, 123, 0o33, 0], [93, 125, 0o35, 0], [10, 10, 13, 13], [59, 58, 0, 0], [39, 34, 0, 0], [96, 126, 0, 0],
    [92, 124, 0o34, 0]] ++
  [[',', '<'], ['.', '>'], ['/', '?']].map (fun m => m.map Char.toNat ++ [0, 0])

/-- The static variables of `keyboard_readc`. -/
structure Keyboard where
  modifiers : BitVec 8
  lastEscape : BitVec 8

namespace Keyboard

/-- The end of `keyboard_readc`, for a key press. -/
def keyPress (k : Keyboard) (ch : Nat) : Option (Int × Keyboard) :=
  if 0x61 ≤ ch ∧ ch ≤ 0x7A then
    if k.modifiers &&& modControl ≠ 0 then some ((ch : Int) - 0x60, k)
    else if decide (k.modifiers &&& modShift = 0) ≠ decide (k.modifiers &&& modCapslock = 0) then some ((ch : Int) - 0x20, k)
    else some (ch, k)
  else if keyCapslock ≤ ch then some (0, { k with modifiers := k.modifiers ^^^ 1#8 <<< (ch - keyShift) })
  else if keyShift ≤ ch then some (0, { k with modifiers := k.modifiers ||| 1#8 <<< (ch - keyShift) })
  else if ckey 0 ≤ ch ∧ ch ≤ ckey 21 then
    (complexKeymap[ch - ckey 0]?.bind fun map => map[(k.modifiers &&& 3).toNat]?).map fun (c : Nat) => ((c : Int), k)
  else if ch < 0x80 ∧ k.modifiers &&& modControl ≠ 0 then some (0, k)
  else some (ch, k)

/-- The function `keyboard_readc`, with the byte at the data port when the status register says that there is one;
`none` when an index is outside of its table. -/
def keyboardReadc (k : Keyboard) : Option (BitVec 8) → Option (Int × Keyboard)
  | none => some (-1, k)
  | some data =>
      let escape := k.lastEscape
      let k := { k with lastEscape := 0 }
      if data = 0xE0 then some (0, { k with lastEscape := 0x80 })
      else if data &&& 0x80 ≠ 0 then
        keymap[((data &&& 0x7F) ||| escape).toNat]?.map fun ch =>
          (0, if keyShift ≤ ch ∧ ch < keyCapslock then
              { k with modifiers := k.modifiers &&& ~~~(1#8 <<< (ch - keyShift)) }
            else k)
      else keymap[(data ||| escape).toNat]?.bind fun ch => k.keyPress ch

/-- Calls of `keyboard_readc`, one after another. -/
def readAll : List (Option (BitVec 8)) → Keyboard → Option (List Int × Keyboard)
  | [], k => some ([], k)
  | port :: ports, k =>
      (k.keyboardReadc port).bind fun r => (readAll ports r.2).map fun rest => (r.1 :: rest.1, rest.2)

end Keyboard

/-- How `check_keyboard` ends. -/
inductive KeyAction where
  | reboot (argument : String)
  | poweroff
  | returned (c : Int)
  deriving DecidableEq

def keyAction (c : Int) : KeyAction :=
  if c = 0x61 ∨ c = 0x6D ∨ c = 0x63 ∨ c = 0x74 ∨ c = 0x32 then
    .reboot (if c = 0x61 then "allocator" else if c = 0x63 then "alloctests" else if c = 0x74 then "test"
      else if c = 0x32 then "test2" else "malloc")
  else if c = 0x03 ∨ c = 0x71 then .poweroff
  else .returned c

/-- The function `check_keyboard`, up to the temporary page table of the soft reboot. -/
def checkKeyboard (k : Keyboard) (port : Option (BitVec 8)) : Option (KeyAction × Keyboard) :=
  (k.keyboardReadc port).map fun r => (keyAction r.1, r.2)

/-- A key goes down or up; repeated presses come while it is down. -/
structure KeyEvent where
  key : Nat
  pressed : Bool

/-- What the keys mean does not depend on how the driver remembers them. -/
def KeyEvent.code (e : KeyEvent) : Nat := keymap.getD e.key 0

/-- The last key with the code that moved went down, be it the left or the right one; the newest event comes first. -/
def lastDown (code : Nat) : List KeyEvent → Bool
  | [] => false
  | e :: es => if e.code = code then e.pressed else lastDown code es

/-- The key is down. -/
def down (key : Nat) : List KeyEvent → Bool
  | [] => false
  | e :: es => if e.key = key then e.pressed else down key es

/-- One of the keys with the code is down. -/
def held (code : Nat) (es : List KeyEvent) : Bool := es.any fun e => decide (e.code = code) && down e.key es

/-- If the last key with the code that moved went up, then no other one was down. -/
def WentUpAlone (code : Nat) : List KeyEvent → Prop
  | [] => True
  | e :: es =>
      if e.code = code then e.pressed = true ∨ ∀ key ≠ e.key, keymap.getD key 0 = code → down key es = false
      else WentUpAlone code es

/-- The keys with the code have gone down an odd number of times. -/
def locked (code : Nat) : List KeyEvent → Bool
  | [] => false
  | e :: es => if e.code = code ∧ e.pressed = true then !locked code es else locked code es

/-- What the bytes so far have said. -/
structure Heard where
  extended : Bool
  events : List KeyEvent

def KeyEvent.ofByte (extended : Bool) (data : BitVec 8) : KeyEvent :=
  ⟨(data &&& 0x7F).toNat + if extended then 128 else 0, !data.getLsbD 7⟩

def Heard.hear (h : Heard) : Option (BitVec 8) → Heard
  | none => h
  | some data => if data = 0xE0 then { h with extended := true } else ⟨false, .ofByte h.extended data :: h.events⟩

/-- The character of a key. -/
def symbol (shift control capslock : Bool) (code : Nat) : Nat :=
  if 0x61 ≤ code ∧ code ≤ 0x7A then
    if control then code - 0x60 else if shift ≠ capslock then code - 0x20 else code
  else if keyShift ≤ code then 0
  else if ckey 0 ≤ code ∧ code ≤ ckey 21 then
    (complexKeymap.getD (code - ckey 0) []).getD (shift.toNat + 2 * control.toNat) 0
  else if code < 0x80 ∧ control then 0
  else code

def Heard.typed (h : Heard) (e : KeyEvent) : Nat :=
  symbol (lastDown keyShift h.events) (lastDown keyControl h.events) (locked keyCapslock h.events) e.code

/-- What a call of `keyboard_readc` should answer. -/
def Heard.answer (h : Heard) : Option (BitVec 8) → Int
  | none => -1
  | some data =>
      if data = 0xE0 then 0
      else if (KeyEvent.ofByte h.extended data).pressed then h.typed (.ofByte h.extended data) else 0

def Heard.answers : Heard → List (Option (BitVec 8)) → List Int
  | _, [] => []
  | h, port :: ports => h.answer port :: (h.hear port).answers ports

/-- The bits of the driver are what the history of the keys says. -/
structure Follows (h : Heard) (k : Keyboard) : Prop where
  escape : k.lastEscape = if h.extended then 0x80 else 0
  modifiers : ∀ n < 8, k.modifiers.getLsbD n =
    if n < 3 then lastDown (keyShift + n) h.events else if n < 6 then locked (keyShift + n) h.events else false

section Held

variable {code key : Nat} {e : KeyEvent} {es : List KeyEvent}

theorem exists_of_down (h : down key es = true) : ∃ e ∈ es, e.key = key := by
  induction es with
  | nil => cases h
  | cons e es ih =>
      rw [down] at h
      split at h
      next he => exact ⟨e, List.mem_cons_self, he⟩
      next =>
        obtain ⟨e', he', hkey⟩ := ih h
        exact ⟨e', List.mem_cons_of_mem e he', hkey⟩

theorem held_iff : held code es = true ↔ ∃ key, keymap.getD key 0 = code ∧ down key es = true := by
  rw [held, List.any_eq_true]
  constructor
  · rintro ⟨e, -, he⟩
    rw [Bool.and_eq_true, decide_eq_true_eq] at he
    exact ⟨e.key, he⟩
  · rintro ⟨key, hcode, hdown⟩
    obtain ⟨e, he, rfl⟩ := exists_of_down hdown
    exact ⟨e, he, by rw [Bool.and_eq_true, decide_eq_true_eq]; exact ⟨hcode, hdown⟩⟩

/-- Keys with other codes make no difference. -/
theorem held_cons_other (h : e.code ≠ code) : held code (e :: es) = held code es := by
  rw [Bool.eq_iff_iff, held_iff, held_iff]
  refine exists_congr fun key => and_congr_right fun hcode => ?_
  rw [down, if_neg]
  rintro rfl
  exact h hcode

/-- What the driver remembers of a modifier is whether one of its keys is down, as long as none of them goes up while
another one is down. -/
theorem lastDown_eq_held_iff (code : Nat) (es : List KeyEvent) : lastDown code es = held code es ↔ WentUpAlone code es := by
  induction es with
  | nil => exact iff_of_true rfl trivial
  | cons e es ih =>
      rw [lastDown, WentUpAlone]
      by_cases hc : e.code = code
      · rw [if_pos hc, if_pos hc]
        cases hp : e.pressed with
        | true =>
            have hheld : held code (e :: es) = true := held_iff.mpr ⟨e.key, hc, (if_pos rfl).trans hp⟩
            exact iff_of_true hheld.symm (.inl rfl)
        | false =>
            have hdown (key : Nat) (hne : key ≠ e.key) : down key (e :: es) = down key es := if_neg hne.symm
            constructor
            · intro hheld
              refine .inr fun key hne hcode => ?_
              by_contra hd
              have hon : held code (e :: es) = true :=
                held_iff.mpr ⟨key, hcode, (hdown key hne).trans (eq_true_of_ne_false hd)⟩
              exact Bool.false_ne_true (hheld.trans hon)
            · rintro (hpressed | hothers)
              · cases hpressed
              · by_contra hheld
                obtain ⟨key, hcode, hd⟩ := held_iff.mp (eq_true_of_ne_false (Ne.symm hheld))
                by_cases hkey : key = e.key
                · have hup : down key (e :: es) = false := (if_pos hkey.symm).trans hp
                  exact Bool.false_ne_true (hup.symm.trans hd)
                · have hup : down key (e :: es) = false := (hdown key hkey).trans (hothers key hkey hcode)
                  exact Bool.false_ne_true (hup.symm.trans hd)
      · rw [if_neg hc, if_neg hc, held_cons_other hc, ih]

end Held

section Tables

theorem keymap_length : keymap.length = 256 := by decide +kernel

theorem keymap_lt : ∀ ch ∈ keymap, ch < 256 := by decide +kernel

theorem keymap_get {i : Nat} (hi : i < 256) : keymap[i]? = some (keymap.getD i 0) := by
  have hlen : i < keymap.length := by rwa [keymap_length]
  rw [List.getD_eq_getElem?_getD, List.getElem?_eq_getElem hlen, Option.getD_some]

/-- The index in the second table is always inside. -/
theorem complexKeymap_get {i j : Nat} (hi : i < 22) (hj : j < 4) :
    (complexKeymap[i]?.bind fun map => map[j]?) = some ((complexKeymap.getD i []).getD j 0) := by
  have hall : ∀ i < 22, ∀ j < 4, (complexKeymap[i]?.bind fun map => map[j]?) = some ((complexKeymap.getD i []).getD j 0) := by
    decide
  exact hall i hi j hj

end Tables

section Bits

theorem byte_pressed : ∀ d : BitVec 8, d &&& 0x80 ≠ 0 ↔ d.getLsbD 7 = true := by decide

theorem release_index : ∀ (extended : Bool) (d : BitVec 8), ((d &&& 0x7F) ||| (if extended then 0x80 else 0)).toNat =
    (d &&& 0x7F).toNat + if extended then 128 else 0 := by decide

theorem press_index : ∀ (extended : Bool) (d : BitVec 8), d.getLsbD 7 = false → (d ||| (if extended then 0x80 else 0)).toNat =
    (d &&& 0x7F).toNat + if extended then 128 else 0 := by decide

theorem low_lt : ∀ d : BitVec 8, (d &&& 0x7F).toNat < 128 := by decide

theorem and_mod : ∀ m : BitVec 8, decide (m &&& modShift = 0) = !m.getLsbD 0 ∧ decide (m &&& modControl = 0) = !m.getLsbD 1 ∧
    decide (m &&& modCapslock = 0) = !m.getLsbD 3 ∧ (m &&& 3).toNat = (m.getLsbD 0).toNat + 2 * (m.getLsbD 1).toNat := by decide

theorem getLsbD_bit : ∀ n < 8, ∀ j < 8, (1#8 <<< j).getLsbD n = decide (n = j) := by decide

variable {n j : Nat} (m : BitVec 8)

theorem toggle_bit (hn : n < 8) (hj : j < 8) :
    (m ^^^ 1#8 <<< j).getLsbD n = if n = j then !m.getLsbD n else m.getLsbD n := by
  rw [BitVec.getLsbD_xor, getLsbD_bit n hn j hj]
  split
  next he => rw [decide_eq_true he, Bool.xor_true]
  next he => rw [decide_eq_false he, Bool.xor_false]

theorem set_bit (hn : n < 8) (hj : j < 8) : (m ||| 1#8 <<< j).getLsbD n = if n = j then true else m.getLsbD n := by
  rw [BitVec.getLsbD_or, getLsbD_bit n hn j hj]
  split
  next he => rw [decide_eq_true he, Bool.or_true]
  next he => rw [decide_eq_false he, Bool.or_false]

theorem clear_bit (hn : n < 8) (hj : j < 8) : (m &&& ~~~(1#8 <<< j)).getLsbD n = if n = j then false else m.getLsbD n := by
  rw [BitVec.getLsbD_and, BitVec.getLsbD_not, getLsbD_bit n hn j hj, decide_eq_true hn, Bool.true_and]
  split
  next he => rw [decide_eq_true he, Bool.not_true, Bool.and_false]
  next he => rw [decide_eq_false he, Bool.not_false, Bool.and_true]

end Bits

variable {k k' : Keyboard} {h : Heard} {ch : Nat}

section Steps

/-- A key that is no modifier answers with its character. -/
theorem keyPress_symbol (k : Keyboard) (hlt : ch < keyShift) : k.keyPress ch =
    some (((symbol (k.modifiers.getLsbD 0) (k.modifiers.getLsbD 1) (k.modifiers.getLsbD 3) ch : Nat) : Int), k) := by
  have hshift : keyShift = 250 := rfl
  have hcaps : keyCapslock = 253 := rfl
  have hckey : ckey 0 = 128 ∧ ckey 21 = 149 := ⟨rfl, rfl⟩
  obtain ⟨hs, hc, hl, hlow⟩ := and_mod k.modifiers
  have hup (hcontrol : k.modifiers &&& modControl = 0) : k.modifiers.getLsbD 1 = false := by
    rw [decide_eq_true hcontrol] at hc
    exact (Bool.not_eq_true' _).mp hc.symm
  have hdown (hcontrol : ¬k.modifiers &&& modControl = 0) : k.modifiers.getLsbD 1 = true := by
    rw [decide_eq_false hcontrol] at hc
    exact (Bool.not_eq_false' _).mp hc.symm
  rw [Keyboard.keyPress, symbol]
  by_cases hletter : 0x61 ≤ ch ∧ ch ≤ 0x7A
  · rw [if_pos hletter, if_pos hletter, hs, hl]
    by_cases hcontrol : k.modifiers &&& modControl = 0
    · have hsub : ((ch - 0x20 : Nat) : Int) = (ch : Int) - 0x20 := by omega
      rw [if_neg (not_not.mpr hcontrol), hup hcontrol]
      cases k.modifiers.getLsbD 0 <;> cases k.modifiers.getLsbD 3 <;> simp [hsub]
    · have hsub : ((ch - 0x60 : Nat) : Int) = (ch : Int) - 0x60 := by omega
      rw [if_pos hcontrol, hdown hcontrol, if_pos rfl, hsub]
  have hnotlock : ¬keyCapslock ≤ ch := by omega
  have hnotmod : ¬keyShift ≤ ch := by omega
  rw [if_neg hletter, if_neg hletter, if_neg hnotlock, if_neg hnotmod, if_neg hnotmod]
  by_cases hcomplex : ckey 0 ≤ ch ∧ ch ≤ ckey 21
  · have hindex : (k.modifiers.getLsbD 0).toNat + 2 * (k.modifiers.getLsbD 1).toNat < 4 := by
      have h0 := Bool.toNat_lt (k.modifiers.getLsbD 0)
      have h1 := Bool.toNat_lt (k.modifiers.getLsbD 1)
      omega
    rw [if_pos hcomplex, if_pos hcomplex, hlow, complexKeymap_get (by omega) hindex, Option.map_some]
  rw [if_neg hcomplex, if_neg hcomplex]
  by_cases hcontrol : k.modifiers &&& modControl = 0
  · rw [if_neg fun hboth => hboth.2 hcontrol, hup hcontrol, if_neg fun hboth => Bool.false_ne_true hboth.2]
  by_cases hascii : ch < 0x80
  · rw [if_pos ⟨hascii, hcontrol⟩, if_pos ⟨hascii, hdown hcontrol⟩]
    rfl
  · rw [if_neg fun hboth => hascii hboth.1, if_neg fun hboth => hascii hboth.1]

/-- A modifier is set, or toggled when it locks. -/
theorem keyPress_modifier (k : Keyboard) (hle : keyShift ≤ ch) (hch : ch < 256) : ∃ m,
    k.keyPress ch = some (0, { k with modifiers := m }) ∧ ∀ n < 8, m.getLsbD n =
      if n = ch - keyShift then (if n < 3 then true else !k.modifiers.getLsbD n) else k.modifiers.getLsbD n := by
  have hshift : keyShift = 250 := rfl
  have hcaps : keyCapslock = 253 := rfl
  rw [Keyboard.keyPress, if_neg (by omega)]
  by_cases hlock : keyCapslock ≤ ch
  · refine ⟨_, if_pos hlock, fun n hn => ?_⟩
    rw [toggle_bit _ hn (by omega)]
    split
    · rw [if_neg (by omega)]
    · rfl
  · refine ⟨_, (if_neg hlock).trans (if_pos hle), fun n hn => ?_⟩
    rw [set_bit _ hn (by omega)]
    split
    · rw [if_pos (by omega)]
    · rfl

/-- A press answers with its character, and may change one modifier. -/
theorem keyPress_spec (k : Keyboard) (hch : ch < 256) : ∃ m, k.keyPress ch =
      some (((symbol (k.modifiers.getLsbD 0) (k.modifiers.getLsbD 1) (k.modifiers.getLsbD 3) ch : Nat) : Int),
        { k with modifiers := m }) ∧
    ∀ n < 8, m.getLsbD n =
      if ch = keyShift + n then (if n < 3 then true else !k.modifiers.getLsbD n) else k.modifiers.getLsbD n := by
  have hshift : keyShift = 250 := rfl
  by_cases hle : keyShift ≤ ch
  · obtain ⟨m, hpress, hm⟩ := keyPress_modifier k hle hch
    refine ⟨m, ?_, fun n hn => ?_⟩
    · rw [hpress, symbol, if_neg (by omega), if_pos hle]
      rfl
    · have hiff : ch = keyShift + n ↔ n = ch - keyShift := by omega
      rw [hm n hn, if_congr hiff.symm rfl rfl]
  · exact ⟨k.modifiers, keyPress_symbol k (by omega), fun n _ => (if_neg (by omega)).symm⟩

/-- The history with one more event. -/
theorem Follows.event (hf : Follows h k) (e : KeyEvent) (m : BitVec 8) (hm : ∀ n < 8, m.getLsbD n =
      if e.code = keyShift + n then
        (if n < 3 then e.pressed else if e.pressed = true then !k.modifiers.getLsbD n else k.modifiers.getLsbD n)
      else k.modifiers.getLsbD n) (hcode : e.code < 256) : Follows ⟨false, e :: h.events⟩ ⟨m, 0⟩ where
  escape := rfl
  modifiers n hn := by
    have hshift : keyShift = 250 := rfl
    have hbit := hf.modifiers n hn
    rw [hm n hn]
    by_cases hheld : n < 3
    · rw [if_pos hheld] at hbit ⊢
      rw [if_pos hheld, lastDown, hbit]
    · rw [if_neg hheld] at hbit ⊢
      rw [if_neg hheld]
      by_cases hlock : n < 6
      · rw [if_pos hlock] at hbit ⊢
        rw [locked, hbit]
        by_cases hc : e.code = keyShift + n
        · rw [if_pos hc]
          by_cases hp : e.pressed = true
          · rw [if_pos hp, if_pos ⟨hc, hp⟩]
          · rw [if_neg hp, if_neg fun hboth => hp hboth.2]
        · rw [if_neg hc, if_neg fun hboth => hc hboth.1]
      · rw [if_neg hlock] at hbit ⊢
        rw [if_neg (by omega), hbit]

theorem code_ofByte (extended : Bool) (data : BitVec 8) : keymap[(KeyEvent.ofByte extended data).key]? =
    some (KeyEvent.ofByte extended data).code ∧ (KeyEvent.ofByte extended data).code < 256 := by
  have hlow := low_lt data
  have hkey : (KeyEvent.ofByte extended data).key < 256 := by
    dsimp only [KeyEvent.ofByte]
    split <;> omega
  have hget := keymap_get hkey
  exact ⟨hget, keymap_lt _ (List.mem_of_getElem? hget)⟩

/-- A key goes up. -/
theorem Follows.release (hf : Follows h k) (e : KeyEvent) (hreleased : e.pressed = false) (hcode : e.code < 256) :
    Follows ⟨false, e :: h.events⟩ (if keyShift ≤ e.code ∧ e.code < keyCapslock then
      ⟨k.modifiers &&& ~~~(1#8 <<< (e.code - keyShift)), 0⟩ else ⟨k.modifiers, 0⟩) := by
  have hshift : keyShift = 250 := rfl
  have hcaps : keyCapslock = 253 := rfl
  split
  next hmod =>
    refine hf.event e _ (fun n hn => ?_) hcode
    have hiff : e.code = keyShift + n ↔ n = e.code - keyShift := by omega
    rw [clear_bit _ hn (by omega), hreleased, if_congr hiff rfl rfl]
    split
    · rw [if_pos (by omega)]
    · rfl
  next hmod =>
    refine hf.event e _ (fun n hn => ?_) hcode
    rw [hreleased]
    by_cases hc : e.code = keyShift + n
    · rw [if_pos hc, if_neg (by omega)]
      rfl
    · rw [if_neg hc]

/-- A key goes down. -/
theorem Follows.press (hf : Follows h k) (e : KeyEvent) (hpressed : e.pressed = true) (hcode : e.code < 256) :
    ∃ k', ({ k with lastEscape := 0 } : Keyboard).keyPress e.code = some ((h.typed e : Int), k') ∧
      Follows ⟨false, e :: h.events⟩ k' := by
  obtain ⟨m, hpress, hm⟩ := keyPress_spec { k with lastEscape := 0 } hcode
  have hs : k.modifiers.getLsbD 0 = lastDown keyShift h.events := hf.modifiers 0 (by decide)
  have hc : k.modifiers.getLsbD 1 = lastDown keyControl h.events := hf.modifiers 1 (by decide)
  have hl : k.modifiers.getLsbD 3 = locked keyCapslock h.events := hf.modifiers 3 (by decide)
  rw [hpress, Heard.typed, hs, hc, hl]
  refine ⟨_, rfl, hf.event e m (fun n hn => ?_) hcode⟩
  rw [hm n hn, hpressed]
  rfl

/-- One call answers as the history says, and the bits go on following it. -/
theorem Follows.step (hf : Follows h k) (port : Option (BitVec 8)) :
    ∃ k', k.keyboardReadc port = some (h.answer port, k') ∧ Follows (h.hear port) k' := by
  cases port with
  | none => exact ⟨k, rfl, hf⟩
  | some data =>
      rw [Keyboard.keyboardReadc, Heard.answer, Heard.hear, hf.escape]
      by_cases he : data = 0xE0
      · rw [if_pos he, if_pos he, if_pos he]
        exact ⟨_, rfl, rfl, hf.modifiers⟩
      rw [if_neg he, if_neg he, if_neg he]
      obtain ⟨hget, hcode⟩ := code_ofByte h.extended data
      have hget' : keymap[(data &&& 0x7F).toNat + if h.extended then 128 else 0]? =
          some (KeyEvent.ofByte h.extended data).code := hget
      by_cases hup : data.getLsbD 7 = true
      · have hreleased : (KeyEvent.ofByte h.extended data).pressed = false := by rw [KeyEvent.ofByte, hup]; rfl
        rw [if_pos ((byte_pressed data).mpr hup), release_index, hget', Option.map_some, hreleased]
        exact ⟨_, rfl, hf.release _ hreleased hcode⟩
      · have hdown : data.getLsbD 7 = false := by simpa using hup
        have hpressed : (KeyEvent.ofByte h.extended data).pressed = true := by rw [KeyEvent.ofByte, hdown]; rfl
        rw [if_neg (mt (byte_pressed data).mp hup), press_index h.extended data hdown, hget', Option.bind_some, if_pos hpressed]
        exact hf.press _ hpressed hcode

end Steps

section Runs

/-- The driver answers as the history of the keys says, whatever bytes come, and never looks outside of its tables. -/
theorem Follows.readAll (hf : Follows h k) (ports : List (Option (BitVec 8))) :
    ∃ k', Keyboard.readAll ports k = some (h.answers ports, k') ∧ Follows (ports.foldl Heard.hear h) k' := by
  induction ports generalizing h k with
  | nil => exact ⟨k, rfl, hf⟩
  | cons port ports ih =>
      obtain ⟨k₁, hread, hf₁⟩ := hf.step port
      obtain ⟨k', hrest, hf'⟩ := ih hf₁
      exact ⟨k', by rw [Keyboard.readAll, hread, Option.bind_some, hrest, Option.map_some]; rfl, hf'⟩

theorem follows_start : Follows ⟨false, []⟩ ⟨0, 0⟩ := by
  refine ⟨rfl, ?_⟩
  decide

/-- The keyboard driver, whatever bytes come: it never looks outside of its tables, it answers every byte with the
character that the history of the keys gives, and its bits are what that history says. There a modifier counts as held when the
last of its keys that moved went down, which is right unless the other one stays down. -/
theorem keyboard_reads (ports : List (Option (BitVec 8))) : (∃ k, Keyboard.readAll ports ⟨0, 0⟩ =
      some (Heard.answers ⟨false, []⟩ ports, k) ∧ Follows (ports.foldl Heard.hear ⟨false, []⟩) k) ∧
    ∀ code, lastDown code (ports.foldl Heard.hear ⟨false, []⟩).events = held code (ports.foldl Heard.hear ⟨false, []⟩).events ↔
      WentUpAlone code (ports.foldl Heard.hear ⟨false, []⟩).events :=
  ⟨follows_start.readAll ports, fun code => lastDown_eq_held_iff code _⟩

/-- The codes and modifiers that power the machine off. -/
theorem symbol_poweroff : ∀ code ∈ keymap, ∀ shift control capslock : Bool,
    keyAction (symbol shift control capslock code : Nat) = .poweroff ↔
      (code = 0x63 ∧ control = true) ∨ (code = 0x71 ∧ control = false ∧ shift = capslock) := by decide +kernel

/-- After any bytes, `check_keyboard` powers the machine off exactly on a press of the key C when the last control key that
moved went down, or of the key Q when it went up, where shift and caps lock cancel out. -/
theorem keyboard_powers_off (ports : List (Option (BitVec 8))) (data : BitVec 8) : ∃ k action k',
    Keyboard.readAll ports ⟨0, 0⟩ = some (Heard.answers ⟨false, []⟩ ports, k) ∧ checkKeyboard k (some data) = some (action, k') ∧
      let h := ports.foldl Heard.hear ⟨false, []⟩
      let e := KeyEvent.ofByte h.extended data
      (action = .poweroff ↔ data ≠ 0xE0 ∧ e.pressed = true ∧
        ((e.code = 0x63 ∧ lastDown keyControl h.events = true) ∨
          (e.code = 0x71 ∧ lastDown keyControl h.events = false ∧ lastDown keyShift h.events = locked keyCapslock h.events))) := by
  obtain ⟨k, hread, hf⟩ := follows_start.readAll ports
  obtain ⟨k', hstep, -⟩ := hf.step (some data)
  refine ⟨k, _, k', hread, by rw [checkKeyboard, hstep, Option.map_some], ?_⟩
  have hzero : keyAction 0 ≠ .poweroff := by decide
  generalize ports.foldl Heard.hear ⟨false, []⟩ = h
  simp only [Heard.answer]
  by_cases he : data = 0xE0
  · rw [if_pos he]
    exact iff_of_false hzero fun hr => hr.1 he
  rw [if_neg he]
  by_cases hp : (KeyEvent.ofByte h.extended data).pressed = true
  · rw [if_pos hp, Heard.typed, symbol_poweroff _ (List.mem_of_getElem? (code_ofByte h.extended data).1)]
    simp only [he, hp, ne_eq, not_false_eq_true, true_and]
  · rw [if_neg hp]
    exact iff_of_false hzero fun hr => hp hr.2.1

end Runs

end WeensyOS.Kernel
