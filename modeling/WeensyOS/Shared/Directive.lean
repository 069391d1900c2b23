import WeensyOS.Shared.Scanner

namespace WeensyOS.Printer

inductive Flag
  | alt
  | zero
  | leftjustify
  | spacepositive
  | pluspositive
  deriving DecidableEq

def Flag.char : Flag → UInt8
  | alt => chr '#'
  | zero => chr '0'
  | leftjustify => chr '-'
  | spacepositive => chr ' '
  | pluspositive => chr '+'

def Flag.bit : Flag → Nat
  | alt => flagAlt
  | zero => flagZero
  | leftjustify => flagLeftjustify
  | spacepositive => flagSpacepositive
  | pluspositive => flagPluspositive

def digitChar (d : Fin 10) : UInt8 := UInt8.ofNat (48 + d)

/-- A width or a precision as it is written. -/
inductive Count
  | absent
  | digits (d : Fin 10) (ds : List (Fin 10))
  | star

def Count.bytes : Count → List UInt8
  | absent => []
  | digits d ds => digitChar d :: ds.map digitChar
  | star => [chr '*']

def Count.args : Count → Nat
  | star => 1
  | _ => 0

def decimal (n : Nat) (ds : List (Fin 10)) : Nat := ds.foldl (fun n (d : Fin 10) => 10 * n + d.val) n

/-- The number meant; `a` is the argument that `*` takes. -/
def Count.value (a : Arg) : Count → Int
  | absent => 0
  | digits d ds => decimal d ds
  | star => a.int

/-- A precision with its point. -/
def pointBytes : Option Count → List UInt8
  | none => []
  | some c => chr '.' :: c.bytes

def pointArgs : Option Count → Nat
  | none => 0
  | some c => c.args

inductive LengthModifier
  | l
  | z

def LengthModifier.char : LengthModifier → UInt8
  | l => chr 'l'
  | z => chr 'z'

inductive IntConversion
  | d
  | i
  | u
  | x
  | X

def IntConversion.char : IntConversion → UInt8
  | d => chr 'd'
  | i => chr 'i'
  | u => chr 'u'
  | x => chr 'x'
  | X => chr 'X'

/-- A directive that prints an integer. Zeros in front of a width are flags. -/
structure IntDirective where
  flags : List Flag
  width : Count
  precision : Option Count
  lengths : List LengthModifier
  conv : IntConversion
  width_pos : ∀ ds, width ≠ .digits 0 ds

namespace IntDirective

variable (d : IntDirective)

def bytes : List UInt8 :=
  chr '%' :: d.flags.map Flag.char ++ d.width.bytes ++ pointBytes d.precision ++
    d.lengths.map LengthModifier.char ++ [d.conv.char]

/-- The position among the arguments of the number to print, when `args` are taken already. -/
def argument (args : Nat) : Nat := args + d.width.args + pointArgs d.precision

def widthValue (val : VaList) (args : Nat) : Int := d.width.value (val args)

/-- The number to print: of 64 bits when there is a length modifier, of 32 otherwise. -/
def value (a : Arg) : Int :=
  match d.conv with
  | .d | .i => if d.lengths.isEmpty then a.int else a.long
  | .u | .x | .X => if d.lengths.isEmpty then a.unsigned else a.unsignedLong

def flagBits : Nat := d.flags.foldl (fun flags f => flags ||| f.bit) 0

end IntDirective

variable {format : CString} {val : VaList} {rounds pos : Nat}

theorem CString.read_of_drop {s : CString} {i : Nat} {c : UInt8} {t : List UInt8} (h : s.bytes.drop i = c :: t) :
    s.read i = some c ∧ s.bytes.drop (i + 1) = t ∧ i < s.bytes.length := by
  have hlt : i < s.bytes.length := by
    by_contra hge
    rw [List.drop_eq_nil_of_le (Nat.not_lt.mp hge)] at h
    cases h
  rw [List.drop_eq_getElem_cons hlt, List.cons.injEq] at h
  refine ⟨?_, h.2, hlt⟩
  rw [CString.read_lt hlt, h.1]

theorem Flag.char_ne_zero (f : Flag) : f.char ≠ 0 := by
  cases f <;> decide

theorem Flag.strchr_char (f : Flag) : ∃ k, strchr flagChars f.char = some k ∧ 1 <<< k = f.bit := by
  cases f
  · exact ⟨0, by decide, rfl⟩
  · exact ⟨1, by decide, rfl⟩
  · exact ⟨2, by decide, rfl⟩
  · exact ⟨3, by decide, rfl⟩
  · exact ⟨4, by decide, rfl⟩

/-- What the scanner makes of an integer directive up to its conversion character. -/
def IntDirective.scanned (d : IntDirective) (val : VaList) (pos args : Nat) : Scan where
  pos := pos + (d.flags.length + d.width.bytes.length + (pointBytes d.precision).length + d.lengths.length)
  args := d.argument args
  flags := d.flagBits
  width := if d.width matches .absent then -1 else d.widthValue val args
  precision := (d.precision.map (Count.value (val (args + d.width.args)))).getD (-1)
  length := !d.lengths.isEmpty

end WeensyOS.Printer
