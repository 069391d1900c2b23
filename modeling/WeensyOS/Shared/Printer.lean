import Mathlib.Data.Nat.Digits.Lemmas
import Mathlib.Data.List.Basic

namespace WeensyOS.Printer

def chr (c : Char) : UInt8 := UInt8.ofNat c.toNat

def newline : UInt8 := 10

/-- A NUL-terminated string, given by the bytes in front of its NUL. -/
structure CString where
  bytes : List UInt8
  nul_notMem : (0 : UInt8) ∉ bytes

/-- `s[i]`, stopped beyond the terminator. -/
def CString.read (s : CString) (i : Nat) : Option UInt8 := (s.bytes ++ [0])[i]?

/-- A variable argument: the 64-bit slot it is passed in and the string there when it is a pointer to one. -/
structure Arg where
  word : BitVec 64
  text : CString

def Arg.int (a : Arg) : Int := (a.word.setWidth 32).toInt
def Arg.long (a : Arg) : Int := a.word.toInt
def Arg.unsigned (a : Arg) : Nat := (a.word.setWidth 32).toNat
def Arg.unsignedLong (a : Arg) : Nat := a.word.toNat

abbrev VaList := Nat → Arg

/-- The value that is left of `n` in an `int`. -/
def asInt (n : Int) : Int := n.bmod (2 ^ 32)

theorem asInt_eq {n : Int} (hlo : -2 ^ 31 ≤ n) (hhi : n < 2 ^ 31) : asInt n = n := by
  apply Int.bmod_eq_of_le <;> omega

def strchr : List UInt8 → UInt8 → Option Nat
  | [], c => if c = 0 then some 0 else none
  | b :: s, c => if b = c then some 0 else (strchr s c).map (· + 1)

-- `*--p = c` in a buffer, stopped in front of its start
def putBefore (buf : List UInt8) (p : Nat) (c : UInt8) : Option (List UInt8 × Nat) :=
  if p = 0 then none else some (buf.set (p - 1) c, p - 1)

/-- The `do` loop of `fill_numbuf`, observed for a number of rounds. -/
def fillDigits (digits : List UInt8) (base : Nat) : Nat → List UInt8 × Nat → Nat → Option (List UInt8 × Nat)
  | 0, _, _ => none
  | rounds + 1, b, val =>
      (putBefore b.1 b.2 (digits.getD (val % base) 0)).bind fun b =>
      let val := val / base
      if val ≠ 0 then fillDigits digits base rounds b val else some b

def upperDigits : List UInt8 :=
  ['0', '1', '2', '3', '4', '5', '6', '7', '8', '9', 'A', 'B', 'C', 'D', 'E', 'F'].map chr

def lowerDigits : List UInt8 :=
  ['0', '1', '2', '3', '4', '5', '6', '7', '8', '9', 'a', 'b', 'c', 'd', 'e', 'f'].map chr

def fillNumbuf (numbuf : List UInt8) (numbufEnd val : Nat) (base : Int) : Option (List UInt8 × Nat) :=
  let digits := if base < 0 then lowerDigits else upperDigits
  (putBefore numbuf numbufEnd 0).bind fun b => fillDigits digits base.natAbs 64 b val

/-- The string at index `p` of a buffer. -/
def stringAt (buf : List UInt8) (p : Nat) : List UInt8 := (buf.drop p).takeWhile (· ≠ 0)

def flagAlt : Nat := 1 <<< 0
def flagZero : Nat := 1 <<< 1
def flagLeftjustify : Nat := 1 <<< 2
def flagSpacepositive : Nat := 1 <<< 3
def flagPluspositive : Nat := 1 <<< 4
def flagChars : List UInt8 := ['#', '0', '-', ' ', '+'].map chr

def flagNumeric : Nat := 1 <<< 5
def flagSigned : Nat := 1 <<< 6
def flagNegative : Nat := 1 <<< 7
def flagAlt2 : Nat := 1 <<< 8

def hasFlag (flags flag : Nat) : Bool := flags &&& flag != 0

def numbufsiz : Nat := 24

/-- The variables of a directive, from its `%` to its conversion character;
`pos` is the position of `format` in the format string and `args` counts the arguments taken. -/
structure Scan where
  pos : Nat
  args : Nat
  flags : Nat := 0
  width : Int := -1
  precision : Int := -1
  length : Bool := false

section

variable (format : CString) (val : VaList)

def scanFlags : Nat → Scan → Option Scan
  | 0, _ => none
  | rounds + 1, s =>
      (format.read s.pos).bind fun c =>
      if c = 0 then some s
      else
        match strchr flagChars c with
        | some k => scanFlags rounds { s with pos := s.pos + 1, flags := s.flags ||| 1 <<< k }
        | none => some s

def isDigit (c : UInt8) : Prop := chr '0' ≤ c ∧ c ≤ chr '9'

instance (c : UInt8) : Decidable (isDigit c) := inferInstanceAs (Decidable (_ ∧ _))

/-- The loop that reads a decimal number, from position `pos` on. -/
def scanNumber : Nat → Nat → Int → Option (Nat × Int)
  | 0, _, _ => none
  | rounds + 1, pos, n =>
      (format.read pos).bind fun c =>
      if isDigit c then scanNumber rounds (pos + 1) (asInt (10 * n + c.toNat - (chr '0').toNat))
      else some (pos, n)

def scanWidth (rounds : Nat) (s : Scan) : Option Scan :=
  (format.read s.pos).bind fun c =>
  if chr '1' ≤ c ∧ c ≤ chr '9' then
    (scanNumber format rounds s.pos 0).bind fun n => some { s with pos := n.1, width := n.2 }
  else if c = chr '*' then some { s with pos := s.pos + 1, args := s.args + 1, width := (val s.args).int }
  else some s

def scanPrecision (rounds : Nat) (s : Scan) : Option Scan :=
  (format.read s.pos).bind fun c =>
  if c = chr '.' then
    let s := { s with pos := s.pos + 1 }
    (format.read s.pos).bind fun c =>
    (if isDigit c then
      (scanNumber format rounds s.pos 0).bind fun n => some { s with pos := n.1, precision := n.2 }
    else if c = chr '*' then
      some { s with pos := s.pos + 1, args := s.args + 1, precision := (val s.args).int }
    else some s).bind fun s =>
    some { s with precision := if s.precision < 0 then 0 else s.precision }
  else some s

/-- The jumps back to `again`. -/
def scanLength : Nat → Scan → Option Scan
  | 0, _ => none
  | rounds + 1, s =>
      (format.read s.pos).bind fun c =>
      if c = chr 'l' ∨ c = chr 'z' then scanLength rounds { s with pos := s.pos + 1, length := true }
      else some s

def scan (rounds : Nat) (s : Scan) : Option Scan :=
  (scanFlags format rounds s).bind fun s =>
  (scanWidth format val rounds s).bind fun s =>
  (scanPrecision format val rounds s).bind fun s =>
  scanLength format rounds s

end

/-- What the conversion character makes of the variables and of the next argument. -/
structure Conversion where
  flags : Nat
  base : Int := 10
  num : Nat := 0
  data : List UInt8 := []

/-- The cases `d` and `i`. -/
def convertSigned (flags : Nat) (length : Bool) (a : Arg) : Conversion :=
  let x := if length then a.long else a.int
  let negative := if x < 0 then flagNegative else 0
  { flags := flags ||| (flagNumeric ||| flagSigned ||| negative)
    num := ((if x < 0 then -x else x) % 2 ^ 64).toNat }

/-- The label `format_unsigned`. -/
def convertUnsigned (flags : Nat) (base : Int) (length : Bool) (a : Arg) : Conversion where
  flags := flags ||| flagNumeric
  base := base
  num := if length then a.unsignedLong else a.unsigned

/-- The `switch` on the conversion character, without its case `C`, and whether it takes an argument. -/
def conversion (c : UInt8) (s : Scan) (a : Arg) : Conversion × Bool :=
  if c = chr 'd' ∨ c = chr 'i' then (convertSigned s.flags s.length a, true)
  else if c = chr 'u' then (convertUnsigned s.flags 10 s.length a, true)
  else if c = chr 'x' then (convertUnsigned s.flags (-16) s.length a, true)
  else if c = chr 'X' then (convertUnsigned s.flags 16 s.length a, true)
  else if c = chr 'p' then
    ({ flags := s.flags ||| (flagAlt ||| flagAlt2 ||| flagNumeric), base := -16, num := a.unsignedLong }, true)
  else if c = chr 's' then ({ flags := s.flags, data := a.text.bytes }, true)
  else if c = chr 'c' then
    ({ flags := s.flags, data := stringAt [UInt8.ofBitVec (a.word.setWidth 8), 0] 0 }, true)
  else ({ flags := s.flags, data := [if c ≠ 0 then c else chr '%'] }, false)

def prefixOf (c : Conversion) : List UInt8 :=
  if hasFlag c.flags flagNumeric && hasFlag c.flags flagSigned then
    if hasFlag c.flags flagNegative then [chr '-']
    else if hasFlag c.flags flagPluspositive then [chr '+']
    else if hasFlag c.flags flagSpacepositive then [chr ' ']
    else []
  else if hasFlag c.flags flagNumeric && hasFlag c.flags flagAlt && (c.base == 16 || c.base == -16)
      && (c.num != 0 || hasFlag c.flags flagAlt2) then
    if c.base = -16 then [chr '0', chr 'x'] else [chr '0', chr 'X']
  else []

/-- The characters of a directive, with the loops that count `width`, `zeros` and `len` down;
`numbuf` is the buffer on the stack. -/
def field (numbuf : List UInt8) (c : Conversion) (width precision : Int) : Option (List UInt8) :=
  (if hasFlag c.flags flagNumeric then
    (fillNumbuf numbuf numbufsiz c.num c.base).bind fun b => some (stringAt b.1 b.2)
  else some c.data).bind fun data =>
  let pre := prefixOf c
  let len : Int :=
    if 0 ≤ precision ∧ ¬hasFlag c.flags flagNumeric then asInt (min precision.toNat data.length)
    else asInt data.length
  let zeros : Int :=
    if hasFlag c.flags flagNumeric ∧ 0 ≤ precision then if len < precision then precision - len else 0
    else if hasFlag c.flags flagNumeric ∧ hasFlag c.flags flagZero ∧ ¬hasFlag c.flags flagLeftjustify ∧
        len + pre.length < width then asInt (width - len - pre.length)
    else 0
  let width := asInt (width - (len + zeros + pre.length))
  let left : Int := if hasFlag c.flags flagLeftjustify then 0 else width
  let width := width - max left 0
  some (List.replicate left.toNat (chr ' ') ++ pre ++ List.replicate zeros.toNat (chr '0') ++
    data.take len.toNat ++ List.replicate width.toNat (chr ' '))

/-- The variables of `printer_vprintf`'s loop, with the state of the printer. -/
structure Printing (σ : Type*) where
  pos : Nat
  args : Nat
  color : Int
  out : σ

variable {σ : Type*} (putc : σ → UInt8 → Int → σ)

def putChars (color : Int) (out : σ) (chars : List UInt8) : σ := chars.foldl (fun out c => putc out c color) out

/-- From the conversion character to the end of the loop's body. -/
def convert (format : CString) (val : VaList) (s : Scan) (color : Int) (out : σ) : Option (Printing σ) :=
  let a := val s.args
  (format.read s.pos).bind fun c =>
  if c = chr 'C' then some ⟨s.pos, s.args + 1, a.int, out⟩
  else
    let (conv, taken) := conversion c s a
    -- `format--` takes back the step to the terminator
    let pos := if c = 0 then s.pos - 1 else s.pos
    (field (List.replicate numbufsiz 0) conv s.width s.precision).bind fun chars =>
    some ⟨pos, if taken then s.args + 1 else s.args, color, putChars putc color out chars⟩

def directive (format : CString) (val : VaList) (rounds : Nat) (p : Printing σ) : Option (Printing σ) :=
  (scan format val rounds { pos := p.pos + 1, args := p.args }).bind fun s =>
  convert putc format val s p.color p.out

/-- `printer_vprintf` from a state of its variables on, with each loop observed for at most `rounds` rounds. -/
def printerLoop (format : CString) (val : VaList) (rounds : Nat) : Nat → Printing σ → Option (Printing σ)
  | 0, _ => none
  | n + 1, p =>
      (format.read p.pos).bind fun c =>
      if c = 0 then some p
      else
        (if c ≠ chr '%' then some { p with out := putc p.out c p.color }
          else directive putc format val rounds p).bind fun p =>
        printerLoop format val rounds n { p with pos := p.pos + 1 }

def printerVprintf (rounds : Nat) (out : σ) (color : Int) (format : CString) (val : VaList) :
    Option (Printing σ) :=
  printerLoop putc format val rounds rounds ⟨0, 0, color, out⟩

end WeensyOS.Printer
