import CellularCoprocessor.Instruction.Operation
import Std.Data.TreeMap

/-!
# Tally of operations

How often each operation was completed, in the order of the mnemonics.
-/

namespace CellularCoprocessor

structure Tally where
  counts : Std.TreeMap String Nat

namespace Tally

def empty : Tally := ⟨∅⟩

def count (t : Tally) (mnemonic : String) : Nat :=
  t.counts.getD mnemonic 0

def increment (n : Option Nat) : Option Nat :=
  some (n.getD 0 + 1)

def add (t : Tally) (o : Operation) : Tally :=
  ⟨t.counts.alter o.mnemonic increment⟩

/-- The mnemonics that occur, with their counts. -/
def entries (t : Tally) : List (String × Nat) :=
  t.counts.toList

end Tally

end CellularCoprocessor
