import CellularCoprocessor.Automaton.Evolution
import Mathlib

/-!
# Symmetries of the ring and of the torus

A pass looks at the surroundings of a cell and not at its place. So a map of the places that keeps
surroundings together commutes with any number of passes. On the ring these are the rotations; a
reversal exchanges left and right, and a complement live and dead, so the rule changes with them.
On the torus they are the translations, the reflections and the transposition.
-/

namespace CellularCoprocessor.Automaton

/-- Moves every cell `k` places up the ring. -/
def rotate (k : Nat) (s : UInt64) : UInt64 :=
  ⟨s.toBitVec.rotateLeft k⟩

def reverse (s : UInt64) : UInt64 :=
  ⟨s.toBitVec.reverse⟩

theorem cell_rotate (k : Nat) (s : UInt64) {i : Nat} (hi : i < 64) :
    cell (rotate k s) i = cell s ((i + (64 - k % 64)) % 64) := by
  have hMod : k % 64 < 64 := Nat.mod_lt _ (by decide)
  rw [cell_eq_getLsbD hi, cell_eq_getLsbD (Nat.mod_lt _ (by decide)), rotate,
    BitVec.getLsbD_rotateLeft]
  by_cases hWrap : i < k % 64
  · have hPlace : 64 - k % 64 + i = (i + (64 - k % 64)) % 64 := by omega
    rw [Bool.cond_pos (by simpa using hWrap), hPlace]
  · have hPlace : i - k % 64 = (i + (64 - k % 64)) % 64 := by omega
    rw [Bool.cond_neg (by simpa using hWrap), hPlace, decide_eq_true hi, Bool.true_and]

theorem cell_reverse (s : UInt64) {i : Nat} (hi : i < 64) : cell (reverse s) i = cell s (63 - i) := by
  have hPlace : 64 - 1 - i = 63 - i := by omega
  rw [cell_eq_getLsbD hi, cell_eq_getLsbD (by omega), reverse, BitVec.getLsbD_reverse,
    BitVec.getMsbD, decide_eq_true hi, Bool.true_and, hPlace]

namespace Elementary

/-- The number of a neighbourhood seen from the other side. -/
def mirrorNumber (n : Nat) : Nat :=
  n % 2 * 4 + n / 2 % 2 * 2 + n / 4

/-- The rule with left and right exchanged. -/
def mirrored (rule : UInt8) : UInt8 :=
  ⟨BitVec.ofFnLE fun n : Fin 8 => rule.toNat.testBit (mirrorNumber n)⟩

/-- The rule with live and dead exchanged, before a generation and after it. -/
def negated (rule : UInt8) : UInt8 :=
  ⟨~~~rule.toBitVec.reverse⟩

theorem testBit_mirrored (rule : UInt8) {n : Nat} (hn : n < 8) :
    (mirrored rule).toNat.testBit n = rule.toNat.testBit (mirrorNumber n) := by
  change (mirrored rule).toBitVec.getLsbD n = _
  rw [mirrored, BitVec.getLsbD_ofFnLE, dif_pos hn]

theorem testBit_negated (rule : UInt8) {n : Nat} (hn : n < 8) :
    (negated rule).toNat.testBit n = !rule.toNat.testBit (7 - n) := by
  have hPlace : 8 - 1 - n = 7 - n := by omega
  change (negated rule).toBitVec.getLsbD n = !rule.toBitVec.getLsbD (7 - n)
  rw [negated, BitVec.getLsbD_not, BitVec.getLsbD_reverse, BitVec.getMsbD, decide_eq_true hn,
    Bool.true_and, Bool.true_and, hPlace]

section Neighbourhood

variable (s : UInt64) {i : Nat} (hi : i < 64)

include hi

theorem neighbourhood_rotate (k : Nat) :
    neighbourhood (rotate k s) i = neighbourhood s ((i + (64 - k % 64)) % 64) := by
  have hLeft : ((i + 63) % 64 + (64 - k % 64)) % 64 = ((i + (64 - k % 64)) % 64 + 63) % 64 := by
    omega
  have hRight : ((i + 1) % 64 + (64 - k % 64)) % 64 = ((i + (64 - k % 64)) % 64 + 1) % 64 := by
    omega
  rw [neighbourhood, neighbourhood, cell_rotate k s hi, cell_rotate k s (Nat.mod_lt _ (by decide)),
    cell_rotate k s (Nat.mod_lt _ (by decide)), hLeft, hRight]

theorem neighbourhood_reverse :
    neighbourhood (reverse s) i = mirrorNumber (neighbourhood s (63 - i)) := by
  have hLeft : 63 - (i + 63) % 64 = (63 - i + 1) % 64 := by omega
  have hRight : 63 - (i + 1) % 64 = (63 - i + 63) % 64 := by omega
  rw [neighbourhood, neighbourhood, cell_reverse s hi, cell_reverse s (Nat.mod_lt _ (by decide)),
    cell_reverse s (Nat.mod_lt _ (by decide)), hLeft, hRight]
  cases cell s ((63 - i + 63) % 64) <;> cases cell s (63 - i) <;>
    cases cell s ((63 - i + 1) % 64) <;> rfl

theorem neighbourhood_not : neighbourhood (~~~s) i = 7 - neighbourhood s i := by
  rw [neighbourhood, neighbourhood, cell_not hi, cell_not (Nat.mod_lt _ (by decide)),
    cell_not (Nat.mod_lt _ (by decide))]
  cases cell s ((i + 63) % 64) <;> cases cell s i <;> cases cell s ((i + 1) % 64) <;> rfl

end Neighbourhood

theorem semiconj_rotate (rule : UInt8) (k : Nat) :
    Function.Semiconj (rotate k) (step rule) (step rule) := by
  intro s
  apply eq_of_cell_eq
  intro i hi
  rw [cell_rotate k _ hi, cell_step rule s (Nat.mod_lt _ (by decide)), cell_step rule _ hi,
    neighbourhood_rotate s hi]

theorem semiconj_reverse (rule : UInt8) :
    Function.Semiconj reverse (step (mirrored rule)) (step rule) := by
  intro s
  apply eq_of_cell_eq
  intro i hi
  rw [cell_reverse _ hi, cell_step _ s (by omega), cell_step rule _ hi, neighbourhood_reverse s hi,
    testBit_mirrored rule (neighbourhood_lt s _)]

theorem semiconj_not (rule : UInt8) :
    Function.Semiconj (fun s => ~~~s) (step (negated rule)) (step rule) := by
  intro s
  apply eq_of_cell_eq
  intro i hi
  have hTable : 7 - (7 - neighbourhood s i) = neighbourhood s i := by
    have := neighbourhood_lt s i
    omega
  rw [cell_not hi, cell_step _ s hi, cell_step rule _ hi, neighbourhood_not s hi,
    testBit_negated rule (neighbourhood_lt s i), Bool.not_not]

end Elementary

namespace Life

/-- Moves every cell `dx` places along its row and `dy` places along its column. Seven places lead
one back. -/
def translate (dx dy : Nat) (s : UInt64) : UInt64 :=
  ofCells fun i => cellAt s (i % side + 7 * dx) (i / side + 7 * dy)

def reflectColumns (s : UInt64) : UInt64 :=
  ofCells fun i => cellAt s (7 - i % side) (i / side)

def reflectRows (s : UInt64) : UInt64 :=
  ofCells fun i => cellAt s (i % side) (7 - i / side)

def transpose (s : UInt64) : UInt64 :=
  ofCells fun i => cellAt s (i / side) (i % side)

theorem cellAt_congr (s : UInt64) {x y u v : Nat} (hColumn : x ≡ u [MOD side])
    (hRow : y ≡ v [MOD side]) : cellAt s x y = cellAt s u v := by
  rw [cellAt, cellAt, hColumn, hRow]

theorem eq_of_cellAt_eq {s t : UInt64} (h : ∀ x y, cellAt s x y = cellAt t x y) : s = t := by
  apply eq_of_cell_eq
  intro i hi
  have hIndex : i / side % side * side + i % side % side = i := by
    rw [side]
    omega
  have hCell := h (i % side) (i / side)
  rwa [cellAt, cellAt, hIndex] at hCell

theorem cellAt_ofCells (f : Nat → Nat → Bool) (x y : Nat) :
    cellAt (ofCells fun i => f (i % side) (i / side)) x y = f (x % side) (y % side) := by
  have hColumn : (y % side * side + x % side) % side = x % side := by
    rw [side]
    omega
  have hRow : (y % side * side + x % side) / side = y % side := by
    rw [side]
    omega
  rw [cellAt, cell_ofCells _ (by rw [side]; omega), hColumn, hRow]

theorem cellAt_mod (s : UInt64) (x y : Nat) : cellAt s (x % side) (y % side) = cellAt s x y :=
  cellAt_congr s (Nat.mod_modEq x side) (Nat.mod_modEq y side)

theorem countAround_mod (s : UInt64) (x y : Nat) :
    countAround s (x % side) (y % side) = countAround s x y := by
  apply List.countP_congr
  intro d _
  rw [cellAt_congr s ((Nat.mod_modEq x side).add_right d.1) ((Nat.mod_modEq y side).add_right d.2)]

theorem cellAt_step (s : UInt64) (x y : Nat) :
    cellAt (step s) x y = survives (cellAt s x y) (countAround s x y) := by
  have hStep : step s = ofCells fun i =>
      survives (cellAt s (i % side) (i / side)) (countAround s (i % side) (i / side)) := by
    apply eq_of_cell_eq
    intro i hi
    rw [cell_step s hi, cell_ofCells _ hi]
  rw [hStep, cellAt_ofCells fun x y => survives (cellAt s x y) (countAround s x y), cellAt_mod,
    countAround_mod]

/-- `t` has at every place the cell that `s` has at its image. -/
def Relocates (p : Nat → Nat → Nat × Nat) (s t : UInt64) : Prop :=
  ∀ x y, cellAt t x y = cellAt s (p x y).1 (p x y).2

/-- A map of the places that takes the steps around any place to those around its image. -/
structure Carries (p : Nat → Nat → Nat × Nat) (g : Nat × Nat → Nat × Nat) : Prop where
  column : ∀ x y d, (p (x + d.1) (y + d.2)).1 ≡ (p x y).1 + (g d).1 [MOD side]
  row : ∀ x y d, (p (x + d.1) (y + d.2)).2 ≡ (p x y).2 + (g d).2 [MOD side]
  steps : (stepNumbers.map g).Perm stepNumbers

section Carries

variable {p : Nat → Nat → Nat × Nat} {g : Nat × Nat → Nat × Nat} {s t : UInt64}

theorem Relocates.countAround_eq (h : Relocates p s t) (hp : Carries p g) (x y : Nat) :
    countAround t x y = countAround s (p x y).1 (p x y).2 := by
  have hSteps : ∀ d, cellAt t (x + d.1) (y + d.2) =
      cellAt s ((p x y).1 + (g d).1) ((p x y).2 + (g d).2) := by
    intro d
    rw [h, cellAt_congr s (hp.column x y d) (hp.row x y d)]
  let around := fun d : Nat × Nat => cellAt s ((p x y).1 + d.1) ((p x y).2 + d.2)
  calc stepNumbers.countP (fun d => cellAt t (x + d.1) (y + d.2))
      = stepNumbers.countP (around ∘ g) := List.countP_congr fun d _ => by
        rw [hSteps]
        rfl
    _ = (stepNumbers.map g).countP around := List.countP_map.symm
    _ = stepNumbers.countP around := hp.steps.countP_eq around

theorem Relocates.step (h : Relocates p s t) (hp : Carries p g) :
    Relocates p (step s) (step t) := by
  intro x y
  rw [cellAt_step, cellAt_step, h x y, h.countAround_eq hp]

/-- A relocation that carries surroundings commutes with a pass. -/
theorem semiconj_of_carries {f : UInt64 → UInt64} (hf : ∀ s, Relocates p s (f s))
    (hp : Carries p g) : Function.Semiconj f Life.step Life.step := by
  intro s
  apply eq_of_cellAt_eq
  intro x y
  rw [hf (Life.step s) x y, (hf s).step hp x y]

end Carries

section Symmetries

theorem relocates_translate (dx dy : Nat) (s : UInt64) :
    Relocates (fun x y => (x + 7 * dx, y + 7 * dy)) s (translate dx dy s) := by
  intro x y
  rw [translate, cellAt_ofCells fun x y => cellAt s (x + 7 * dx) (y + 7 * dy)]
  exact cellAt_congr s ((Nat.mod_modEq x side).add_right _) ((Nat.mod_modEq y side).add_right _)

theorem relocates_reflectColumns (s : UInt64) :
    Relocates (fun x y => (7 * x + 7, y)) s (reflectColumns s) := by
  intro x y
  have hColumn : 7 - x % side ≡ 7 * x + 7 [MOD side] := by
    rw [Nat.ModEq, side]
    omega
  rw [reflectColumns, cellAt_ofCells fun x y => cellAt s (7 - x) y]
  exact cellAt_congr s hColumn (Nat.mod_modEq y side)

theorem relocates_reflectRows (s : UInt64) :
    Relocates (fun x y => (x, 7 * y + 7)) s (reflectRows s) := by
  intro x y
  have hRow : 7 - y % side ≡ 7 * y + 7 [MOD side] := by
    rw [Nat.ModEq, side]
    omega
  rw [reflectRows, cellAt_ofCells fun x y => cellAt s x (7 - y)]
  exact cellAt_congr s (Nat.mod_modEq x side) hRow

theorem relocates_transpose (s : UInt64) : Relocates (fun x y => (y, x)) s (transpose s) := by
  intro x y
  rw [transpose, cellAt_ofCells fun x y => cellAt s y x]
  exact cellAt_mod s y x

theorem carries_translate (dx dy : Nat) : Carries (fun x y => (x + 7 * dx, y + 7 * dy)) id where
  column x y d := by
    change x + d.1 + 7 * dx ≡ x + 7 * dx + d.1 [MOD side]
    rw [Nat.add_right_comm]
  row x y d := by
    change y + d.2 + 7 * dy ≡ y + 7 * dy + d.2 [MOD side]
    rw [Nat.add_right_comm]
  steps := by rw [List.map_id]

theorem carries_reflectColumns :
    Carries (fun x y => (7 * x + 7, y)) fun d => (7 * d.1 % side, d.2) where
  column x y d := by
    rw [Nat.ModEq, side]
    omega
  row x y d := rfl
  steps := by decide

theorem carries_reflectRows :
    Carries (fun x y => (x, 7 * y + 7)) fun d => (d.1, 7 * d.2 % side) where
  column x y d := rfl
  row x y d := by
    rw [Nat.ModEq, side]
    omega
  steps := by decide

theorem carries_transpose : Carries (fun x y => (y, x)) Prod.swap where
  column x y d := rfl
  row x y d := rfl
  steps := by decide

end Symmetries

end Life

/-- Any number of passes commutes with the symmetries of the ring, if the rule is changed with the
cells where these are not only moved, and with those of the torus. -/
theorem iterate_symmetric (s : UInt64) (rule : UInt8) (n : Nat) :
    (∀ k, (Elementary.step rule)^[n] (rotate k s) = rotate k ((Elementary.step rule)^[n] s)) ∧
    (Elementary.step rule)^[n] (reverse s) =
      reverse ((Elementary.step (Elementary.mirrored rule))^[n] s) ∧
    (∀ i : Fin 8, (Elementary.mirrored rule).toNat.testBit i =
      rule.toNat.testBit (#v[0, 4, 2, 6, 1, 5, 3, 7][i])) ∧
    (Elementary.step rule)^[n] (~~~s) = ~~~(Elementary.step (Elementary.negated rule))^[n] s ∧
    (∀ i < 8, (Elementary.negated rule).toNat.testBit i = !rule.toNat.testBit (7 - i)) ∧
    (∀ dx dy, Life.step^[n] (Life.translate dx dy s) = Life.translate dx dy (Life.step^[n] s)) ∧
    Life.step^[n] (Life.reflectColumns s) = Life.reflectColumns (Life.step^[n] s) ∧
    Life.step^[n] (Life.reflectRows s) = Life.reflectRows (Life.step^[n] s) ∧
    Life.step^[n] (Life.transpose s) = Life.transpose (Life.step^[n] s) := by
  refine ⟨?_, ?_, ?_, ?_, ?_, ?_, ?_, ?_, ?_⟩
  · exact fun k => ((Elementary.semiconj_rotate rule k).iterate_right n s).symm
  · exact ((Elementary.semiconj_reverse rule).iterate_right n s).symm
  · intro i
    have hNumber : Elementary.mirrorNumber i = #v[0, 4, 2, 6, 1, 5, 3, 7][i] := by
      revert i
      decide
    rw [Elementary.testBit_mirrored rule i.isLt, hNumber]
  · exact ((Elementary.semiconj_not rule).iterate_right n s).symm
  · exact fun i hi => Elementary.testBit_negated rule hi
  · exact fun dx dy => ((Life.semiconj_of_carries (Life.relocates_translate dx dy)
      (Life.carries_translate dx dy)).iterate_right n s).symm
  · exact ((Life.semiconj_of_carries Life.relocates_reflectColumns
      Life.carries_reflectColumns).iterate_right n s).symm
  · exact ((Life.semiconj_of_carries Life.relocates_reflectRows
      Life.carries_reflectRows).iterate_right n s).symm
  · exact ((Life.semiconj_of_carries Life.relocates_transpose
      Life.carries_transpose).iterate_right n s).symm

end CellularCoprocessor.Automaton
