import CellularCoprocessor.Automaton.Evolution
import CellularCoprocessor.Automaton.Reference
import Mathlib

/-!
# Passes on words and generations on boards

A pass on a word is a generation on its board. So any number of passes gives the configuration
that the boards give.
-/

namespace CellularCoprocessor.Automaton

theorem cell_eq_testBit {s : UInt64} {i : Nat} (hi : i < 64) : cell s i = s.toNat.testBit i := by
  rw [cell_eq_getLsbD hi]
  rfl

namespace Board

theorem getElem_ofWord (s : UInt64) {i : Nat} (hi : i < 64) : (ofWord s)[i] = cell s i := by
  simp [ofWord, cell_eq_testBit hi]

theorem ringNumber_ofWord (s : UInt64) (i : Fin 64) :
    ringNumber (ofWord s) i = Elementary.neighbourhood s i := by
  have hPrevious : (previous i).val = (i.val + 63) % 64 := by
    rw [previous, Fin.sub_def]
    simp only [Fin.isValue, Fin.coe_ofNat_eq_mod, Nat.one_mod, Nat.add_one_sub_one]
    omega
  have hNext : (next i).val = (i.val + 1) % 64 := by
    rw [next, Fin.val_add]
    rfl
  have hLeft : (ofWord s)[previous i] = cell s ((i.val + 63) % 64) := by
    rw [← hPrevious]
    exact getElem_ofWord s (previous i).isLt
  have hRight : (ofWord s)[next i] = cell s ((i.val + 1) % 64) := by
    rw [← hNext]
    exact getElem_ofWord s (next i).isLt
  have hCentre : (ofWord s)[i] = cell s i := getElem_ofWord s i.isLt
  rw [ringNumber, Elementary.neighbourhood, hLeft, hRight, hCentre]
  omega

theorem ofWord_ringStep (rule : UInt8) (s : UInt64) :
    ofWord (Elementary.step rule s) = ringStep rule (ofWord s) := by
  apply Vector.ext
  intro i hi
  rw [getElem_ofWord _ hi, Elementary.cell_step rule s hi, ringStep, Vector.getElem_ofFn,
    ringNumber_ofWord]

/-- Without the cell itself a block lists its eight neighbours. -/
theorem filter_block (i : Fin 64) :
    (block (column i) (row i)).filter (fun j => decide (j ≠ i)) =
      Life.stepNumbers.map fun d =>
        position ⟨(i + d.1) % 8, Nat.mod_lt _ (by decide)⟩
          ⟨(i / 8 + d.2) % 8, Nat.mod_lt _ (by decide)⟩ := by
  revert i
  decide

theorem countP_block (s : UInt64) (i : Fin 64) :
    ((block (column i) (row i)).countP fun j => j ≠ i ∧ cell s j) =
      Life.countAround s (i % Life.side) (i / Life.side) := by
  have hSplit : (fun j : Fin 64 => decide (j ≠ i ∧ cell s j)) =
      fun j : Fin 64 => cell s j && decide (j ≠ i) := by
    funext j
    rw [Bool.decide_and, Bool.decide_eq_true, Bool.and_comm]
  rw [hSplit, ← List.countP_filter, filter_block, List.countP_map, Life.countAround]
  apply List.countP_congr
  intro d _
  have hColumn : (i.val + d.1) % 8 = (i.val % 8 + d.1) % 8 := by omega
  simp only [Function.comp_apply, position, Life.cellAt, Life.side, hColumn, Nat.mul_comm 8]

theorem ofWord_lifeStep (s : UInt64) : ofWord (Life.step s) = torusStep (ofWord s) := by
  apply Vector.ext
  intro i hi
  have hSelf : Life.cellAt s (i % Life.side) (i / Life.side) = cell s i := by
    have hIndex : i / 8 % 8 * 8 + i % 8 % 8 = i := by omega
    rw [Life.cellAt, Life.side, hIndex]
  have hCells : ∀ j : Fin 64, (ofWord s)[j] = cell s j := fun j => getElem_ofWord s j.isLt
  rw [getElem_ofWord _ hi, Life.cell_step s hi, hSelf, torusStep, Vector.getElem_ofFn]
  simp only [hCells, countP_block, Life.survives]
  cases cell s i
  · simp
  · simp [Bool.or_comm]

theorem foldr_testBit (n : Nat) (k : Nat) :
    ((List.range k).map n.testBit).foldr (fun alive rest => 2 * rest + alive.toNat) 0 =
      n % 2 ^ k := by
  induction k generalizing n with
  | zero => simp [Nat.mod_one]
  | succ k ih =>
    have hShift : (List.range k).map (n.testBit ∘ Nat.succ) = (List.range k).map (n / 2).testBit := by
      apply List.map_congr_left
      intro i _
      exact Nat.testBit_succ n i
    have hPow : 2 ^ (k + 1) = 2 * 2 ^ k := Nat.pow_succ'
    rw [List.range_succ_eq_map, List.map_cons, List.map_map, List.foldr_cons, hShift, ih, hPow,
      Nat.mod_mul, Nat.testBit_zero]
    rcases Nat.mod_two_eq_zero_or_one n with hBit | hBit
    · simp [hBit]
    · simp [hBit]
      omega

theorem toList_ofWord (s : UInt64) : (ofWord s).toList = (List.range 64).map s.toNat.testBit := by
  apply List.ext_getElem
  · simp
  · intro i hi _
    simp [ofWord]

theorem toWord_ofWord (s : UInt64) : (ofWord s).toWord = s := by
  apply UInt64.toNat_inj.mp
  have hLess := s.toNat_lt
  rw [toWord, toList_ofWord, foldr_testBit, UInt64.toNat_ofNat']
  omega

theorem iterate_eq (generation : Board → Board) (n : Nat) (b : Board) :
    b.iterate generation n = generation^[n] b := by
  induction n generalizing b with
  | zero => rfl
  | succ n ih => exact ih (generation b)

end Board

theorem step_iterate (rule : UInt8) (n : Nat) (s : UInt64) :
    (Elementary.step rule)^[n] s = ringReference rule n s := by
  have hBoards : Function.Semiconj Board.ofWord (Elementary.step rule) (Board.ringStep rule) :=
    Board.ofWord_ringStep rule
  rw [ringReference, Board.iterate_eq, ← hBoards.iterate_right n s, Board.toWord_ofWord]

theorem lifeStep_iterate (n : Nat) (s : UInt64) : Life.step^[n] s = torusReference n s := by
  have hBoards : Function.Semiconj Board.ofWord Life.step Board.torusStep := Board.ofWord_lifeStep
  rw [torusReference, Board.iterate_eq, ← hBoards.iterate_right n s, Board.toWord_ofWord]

end CellularCoprocessor.Automaton
