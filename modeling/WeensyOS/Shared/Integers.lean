import WeensyOS.Shared.Directive

namespace WeensyOS.Printer

/-- A field of spaces, prefix, zeros, digits and spaces, as wide as `width` and `precision` ask. -/
def IsField (width precision : Nat) (leftjustify : Bool) (pre digits chars : List UInt8) : Prop :=
  ∃ left zeros right,
    chars = List.replicate left (chr ' ') ++ pre ++ List.replicate zeros (chr '0') ++ digits ++
      List.replicate right (chr ' ') ∧
    chars.length = max width (pre.length + max precision digits.length) ∧
    if leftjustify then left = 0 else right = 0

namespace IntDirective

variable (d : IntDirective)

def base : Int :=
  match d.conv with
  | .d | .i | .u => 10
  | .x => -16
  | .X => 16

variable {d} {format : CString} {val : VaList} {rounds args : Nat}

end IntDirective

def minusSeven : VaList := fun i => { fives i with word := -7 }

end WeensyOS.Printer
