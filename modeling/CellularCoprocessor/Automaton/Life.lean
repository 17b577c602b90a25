import CellularCoprocessor.Automaton.Cells

/-!
# Life on the torus

The word is an 8 by 8 torus with cell `(x, y)` at position `8 * y + x`. A cell is alive in the
next generation when it has three live neighbours, or two and is alive already.
-/

namespace CellularCoprocessor.Automaton.Life

def side : Nat := 8

/-- A column or a row. Coordinates are words, so their sums wrap at `2 ^ 32`. The torus does not
notice, as its side divides this; code that checks its sums for overflow stops there instead. -/
abbrev Coordinate := UInt32

/-- A number is the coordinate that it is modulo `2 ^ 32`. -/
instance : Coe Nat Coordinate := ⟨UInt32.ofNat⟩

def cellAt (s : UInt64) (x y : Nat) : Bool :=
  cell s (y % side * side + x % side)

/-- The cell at `(x, y)`; coordinates wrap around the torus. -/
def alive (s : UInt64) (x y : Coordinate) : Bool :=
  cellAt s x.toNat y.toNat

/-- The steps from a cell to its eight neighbours. A step of seven leads one place back. -/
def neighbourSteps : List (Coordinate × Coordinate) :=
  [(7, 7), (0, 7), (1, 7), (7, 0), (1, 0), (7, 1), (0, 1), (1, 1)]

def neighbourCount (s : UInt64) (x y : Coordinate) : Nat :=
  neighbourSteps.countP fun d => alive s (x + d.1) (y + d.2)

def survives (wasAlive : Bool) (neighbours : Nat) : Bool :=
  neighbours == 3 || wasAlive && neighbours == 2

def column (i : Nat) : Coordinate :=
  .ofNat (i % side)

def row (i : Nat) : Coordinate :=
  .ofNat (i / side)

def step (s : UInt64) : UInt64 :=
  ofCells fun i => survives (alive s (column i) (row i)) (neighbourCount s (column i) (row i))

/-- The steps as numbers. -/
def stepNumbers : List (Nat × Nat) :=
  neighbourSteps.map fun d => (d.1.toNat, d.2.toNat)

/-- The count of neighbours for coordinates of any size, with sums that do not wrap. -/
def countAround (s : UInt64) (x y : Nat) : Nat :=
  stepNumbers.countP fun d => cellAt s (x + d.1) (y + d.2)

theorem toNat_add_mod_side (x d : Coordinate) :
    (x + d).toNat % side = (x.toNat + d.toNat) % side := by
  rw [UInt32.toNat_add, Nat.mod_mod_of_dvd _ (by decide)]

theorem neighbourCount_eq (s : UInt64) (x y : Coordinate) :
    neighbourCount s x y = countAround s x.toNat y.toNat := by
  rw [countAround, stepNumbers, List.countP_map]
  apply List.countP_congr
  intro d _
  simp only [Function.comp_apply, alive, cellAt, toNat_add_mod_side]

theorem toNat_column {i : Nat} : (column i).toNat = i % side :=
  UInt32.toNat_ofNat_of_lt' (Nat.lt_trans (Nat.mod_lt i (by decide)) (by decide))

theorem toNat_row {i : Nat} (hi : i < 64) : (row i).toNat = i / side :=
  UInt32.toNat_ofNat_of_lt' (Nat.lt_of_le_of_lt (Nat.div_le_self i side)
    (Nat.lt_trans hi (by decide)))

theorem cell_step (s : UInt64) {i : Nat} (hi : i < 64) :
    cell (step s) i =
      survives (cellAt s (i % side) (i / side)) (countAround s (i % side) (i / side)) := by
  rw [step, cell_ofCells _ hi, alive, neighbourCount_eq, toNat_column, toNat_row hi]

end CellularCoprocessor.Automaton.Life
