import CellularCoprocessor.Automaton.Elementary
import CellularCoprocessor.Automaton.Life

/-!
# Evolutions

An evolution repeats one pass of either automaton. Life does not look at the rule.
-/

namespace CellularCoprocessor

inductive Evolution where
  | elementary
  | life
  deriving DecidableEq

namespace Evolution

def pass : Evolution → (rule : UInt8) → UInt64 → UInt64
  | elementary, rule, s => Automaton.Elementary.step rule s
  | life, _, s => Automaton.Life.step s

/-- The configurations after one to `n` passes. -/
def trajectory (pass : UInt64 → UInt64) : Nat → UInt64 → List UInt64
  | 0, _ => []
  | n + 1, s => pass s :: trajectory pass n (pass s)

end Evolution

end CellularCoprocessor
