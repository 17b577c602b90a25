import CellularCoprocessor.Text.Natural

/-!
# Numerals

A numeral is decimal, or hexadecimal after `0x` or `0X`. Underscores are removed before it is read,
wherever they stand. Its value must fit in 64 bits.
-/

namespace CellularCoprocessor.Program

/-- Cuts the mark of a hexadecimal numeral off. -/
def afterHexMark? : List Char → Option (List Char)
  | '0' :: 'x' :: cs => some cs
  | '0' :: 'X' :: cs => some cs
  | _ => none

def magnitude? (cs : List Char) : Option Nat :=
  match afterHexMark? cs with
  | some digits => Text.natural? 16 digits
  | none => Text.natural? 10 cs

def numeral? (token : List Char) : Option Nat :=
  (magnitude? (token.filter (· ≠ '_'))).filter (· < UInt64.size)

end CellularCoprocessor.Program
