import CellularCoprocessor.Automaton.Cells

/-!
# Pattern search and population

A pattern is a 32-bit word. It is compared with every window of 32 consecutive cells, lowest
window first; windows do not wrap around the ring.
-/

namespace CellularCoprocessor.Automaton

/-- The 32 cells from `start` upwards. -/
def window (s : UInt64) (start : Nat) : UInt32 :=
  (s >>> UInt64.ofNat start).toUInt32

def find? (s : UInt64) (pattern : UInt32) : Option Nat :=
  (List.range 33).find? fun start => window s start == pattern

def notFound : UInt32 := 0xFFFFFFFF

def findResult (s : UInt64) (pattern : UInt32) : UInt32 :=
  match find? s pattern with
  | some start => UInt32.ofNat start
  | none => notFound

def population (s : UInt64) : Nat :=
  (List.range 64).countP (cell s)

end CellularCoprocessor.Automaton
