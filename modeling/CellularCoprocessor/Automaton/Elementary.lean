import CellularCoprocessor.Automaton.Cells

/-!
# Elementary automata on the ring

The 64 cells form a ring. A rule number gives, for each of the eight neighbourhoods read as
`left * 4 + centre * 2 + right`, the next value of the centre cell. A pass treats all cells at
once: it collects the positions of each neighbourhood whose bit is set in the rule.
-/

namespace CellularCoprocessor.Automaton.Elementary

/-- The left neighbour of a cell is the one below it; cell 63 is the left neighbour of cell 0. -/
def left (s : UInt64) : UInt64 :=
  s <<< 1 ||| s >>> 63

def right (s : UInt64) : UInt64 :=
  s >>> 1 ||| s <<< 63

/-- The positions where `s` has the value `b`. -/
def positions (s : UInt64) (b : Bool) : UInt64 :=
  if b then s else ~~~s

/-- The positions whose neighbourhood has the number `n`. -/
def matching (s : UInt64) (n : Nat) : UInt64 :=
  positions (left s) (n.testBit 2) &&& positions s (n.testBit 1) &&&
    positions (right s) (n.testBit 0)

def neighbourhood (s : UInt64) (i : Nat) : Nat :=
  (cell s ((i + 63) % 64)).toNat * 4 + (cell s i).toNat * 2 + (cell s ((i + 1) % 64)).toNat

/-- The cells born from the neighbourhoods numbered below `n`. -/
def bornBelow (rule : UInt8) (s : UInt64) : Nat → UInt64
  | 0 => 0
  | n + 1 =>
    if rule.toNat.testBit n then bornBelow rule s n ||| matching s n else bornBelow rule s n

def step (rule : UInt8) (s : UInt64) : UInt64 :=
  bornBelow rule s 8

theorem cell_left (s : UInt64) {i : Nat} (hi : i < 64) :
    cell (left s) i = cell s ((i + 63) % 64) := by
  rw [left, cell_eq_getLsbD hi, cell_eq_getLsbD (Nat.mod_lt _ (by decide))]
  by_cases h : i = 0
  · subst h; simp
  · have hm : (i + 63) % 64 = i - 1 := by omega
    have hp : ¬ i < 1 := by omega
    have hhigh : s.toBitVec.getLsbD (63 + i) = false := BitVec.getLsbD_of_ge _ _ (by omega)
    have hlow : i - 1 < 64 := by omega
    simp [hm, hi, hp, hhigh, BitVec.getLsbD_eq_getElem hlow]

theorem cell_right (s : UInt64) {i : Nat} (hi : i < 64) :
    cell (right s) i = cell s ((i + 1) % 64) := by
  rw [right, cell_eq_getLsbD hi, cell_eq_getLsbD (Nat.mod_lt _ (by decide))]
  by_cases h : i = 63
  · subst h; simp
  · have hm : (i + 1) % 64 = i + 1 := by omega
    have hp : i < 63 := by omega
    simp [hm, hp, Nat.add_comm]

theorem cell_positions (s : UInt64) (b : Bool) {i : Nat} (hi : i < 64) :
    cell (positions s b) i = (cell s i == b) := by
  cases b <;> simp [positions, cell_not hi]

theorem cell_matching (s : UInt64) {n i : Nat} (hn : n < 8) (hi : i < 64) :
    cell (matching s n) i = decide (neighbourhood s i = n) := by
  rw [matching, cell_and hi, cell_and hi, cell_positions _ _ hi, cell_positions _ _ hi,
    cell_positions _ _ hi, cell_left s hi, cell_right s hi, neighbourhood]
  generalize cell s ((i + 63) % 64) = l
  generalize cell s i = c
  generalize cell s ((i + 1) % 64) = r
  revert l c r n
  decide

theorem neighbourhood_lt (s : UInt64) (i : Nat) : neighbourhood s i < 8 := by
  rw [neighbourhood]
  cases cell s ((i + 63) % 64) <;> cases cell s i <;> cases cell s ((i + 1) % 64) <;> decide

theorem cell_bornBelow (rule : UInt8) (s : UInt64) {n i : Nat} (hn : n ≤ 8) (hi : i < 64) :
    cell (bornBelow rule s n) i =
      (decide (neighbourhood s i < n) && rule.toNat.testBit (neighbourhood s i)) := by
  induction n with
  | zero => simp [bornBelow, cell_zero hi]
  | succ n ih =>
    have hlt : neighbourhood s i < n + 1 ↔ neighbourhood s i < n ∨ neighbourhood s i = n := by
      omega
    by_cases hin : neighbourhood s i = n
    · have hn' : ¬ neighbourhood s i < n := by omega
      cases hr : rule.toNat.testBit n <;>
        simp [bornBelow, hr, cell_or hi, ih (by omega), cell_matching s hn hi, hin]
    · cases hr : rule.toNat.testBit n <;>
        simp [bornBelow, hr, cell_or hi, ih (by omega), cell_matching s hn hi, hin, hlt]

theorem cell_step (rule : UInt8) (s : UInt64) {i : Nat} (hi : i < 64) :
    cell (step rule s) i = rule.toNat.testBit (neighbourhood s i) := by
  simp [step, cell_bornBelow rule s (Nat.le_refl 8) hi, neighbourhood_lt]

end CellularCoprocessor.Automaton.Elementary
