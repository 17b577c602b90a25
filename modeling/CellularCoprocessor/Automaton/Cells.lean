/-!
# Cell words

A configuration is a 64-bit word with one cell per bit. `cell` reads one cell and `ofCells`
assembles a word from its cells. On the 64 positions the two are inverse to each other, so a
word is determined by its cells.
-/

namespace CellularCoprocessor.Automaton

def cell (s : UInt64) (i : Nat) : Bool :=
  s >>> UInt64.ofNat i &&& 1 == 1

/-- The word whose lowest `n` cells are given by `f` and whose other cells are clear. -/
def ofCellsBelow (f : Nat → Bool) : Nat → UInt64
  | 0 => 0
  | n + 1 =>
    if f n then ofCellsBelow f n ||| 1 <<< UInt64.ofNat n else ofCellsBelow f n

def ofCells (f : Nat → Bool) : UInt64 :=
  ofCellsBelow f 64

theorem cell_eq_getLsbD {s : UInt64} {i : Nat} (hi : i < 64) :
    cell s i = s.toBitVec.getLsbD i := by
  have hshift : (UInt64.ofNat i).toBitVec.toNat % 64 = i := by
    simp [UInt64.ofNat]
    omega
  have hword : (s >>> UInt64.ofNat i &&& 1).toBitVec = s.toBitVec >>> i &&& 1#64 := by
    simp [UInt64.toBitVec_and, UInt64.toBitVec_shiftRight, hi, Nat.mod_eq_of_lt]
  have hone : (s >>> UInt64.ofNat i &&& 1) = 1 ↔ s.toBitVec.getLsbD i = true := by
    rw [← UInt64.toBitVec_inj, hword]
    constructor
    · intro h
      have := congrArg (fun v => BitVec.getLsbD v 0) h
      simpa using this
    · intro h
      apply BitVec.eq_of_getLsbD_eq
      intro j hj
      by_cases hj0 : j = 0
      · subst hj0; simpa using h
      · simp [hj0]
  rw [cell, Bool.eq_iff_iff, beq_iff_eq]
  exact hone

theorem getLsbD_one_shiftLeft {n i : Nat} (hn : n < 64) (hi : i < 64) :
    ((1 : UInt64) <<< UInt64.ofNat n).toBitVec.getLsbD i = decide (i = n) := by
  have hshift : (UInt64.ofNat n).toBitVec.toNat % 64 = n := by
    simp [UInt64.ofNat]
    omega
  have : ((1 : UInt64) <<< UInt64.ofNat n).toBitVec = 1#64 <<< n := by
    simp [UInt64.toBitVec_shiftLeft, hn, Nat.mod_eq_of_lt]
  rw [this, BitVec.getLsbD_shiftLeft, BitVec.getLsbD_one, Bool.eq_iff_iff]
  simp [hi]
  omega

theorem cell_or {s t : UInt64} {i : Nat} (hi : i < 64) :
    cell (s ||| t) i = (cell s i || cell t i) := by
  simp [cell_eq_getLsbD hi]

theorem cell_and {s t : UInt64} {i : Nat} (hi : i < 64) :
    cell (s &&& t) i = (cell s i && cell t i) := by
  simp [cell_eq_getLsbD hi]

theorem cell_not {s : UInt64} {i : Nat} (hi : i < 64) : cell (~~~s) i = !cell s i := by
  simp [cell_eq_getLsbD hi, hi]

theorem cell_zero {i : Nat} (hi : i < 64) : cell 0 i = false := by
  simp [cell_eq_getLsbD hi]

theorem cell_ofCellsBelow (f : Nat → Bool) {n i : Nat} (hn : n ≤ 64) (hi : i < 64) :
    cell (ofCellsBelow f n) i = (decide (i < n) && f i) := by
  induction n with
  | zero => simp [ofCellsBelow, cell_zero hi]
  | succ n ih =>
    have hbit : cell (1 <<< UInt64.ofNat n) i = decide (i = n) := by
      rw [cell_eq_getLsbD hi, getLsbD_one_shiftLeft (by omega) hi]
    by_cases hin : i = n
    · subst hin
      cases hf : f i <;> simp [ofCellsBelow, hf, cell_or hi, ih (by omega), hbit]
    · have hlt : (i < n + 1) ↔ i < n := by omega
      cases hf : f n <;> simp [ofCellsBelow, hf, cell_or hi, ih (by omega), hbit, hin, hlt]

@[simp] theorem cell_ofCells (f : Nat → Bool) {i : Nat} (hi : i < 64) : cell (ofCells f) i = f i := by
  simp [ofCells, cell_ofCellsBelow f (Nat.le_refl 64) hi, hi]

theorem eq_of_cell_eq {s t : UInt64} (h : ∀ i < 64, cell s i = cell t i) : s = t := by
  apply UInt64.toBitVec_inj.mp
  apply BitVec.eq_of_getLsbD_eq
  intro i hi
  rw [← cell_eq_getLsbD hi, ← cell_eq_getLsbD hi, h i hi]

end CellularCoprocessor.Automaton
