import CellularCoprocessor.Automaton.Pattern
import CellularCoprocessor.Burst.Descriptor
import CellularCoprocessor.Instruction.Basic
import CellularCoprocessor.Proofs.Automaton.Boards
import CellularCoprocessor.Proofs.Memory.Bytes
import CellularCoprocessor.Register.File
import Mathlib

/-!
# The architecture

The architecture is what a program can see of the coprocessor. An operation is carried out on it
at once: there are no cycles here, no phases and no bus. Words are numbers, memory is its bytes,
and evolutions are taken from the boards.
-/

namespace CellularCoprocessor

/-- The snapshots are listed with the most recent one first. -/
structure Architecture where
  car : UInt64
  scratchpad : Fin scratchpadSize → UInt64
  history : List UInt64
  rule : UInt8
  memory : UInt64 → UInt8

namespace Architecture

/-- The lowest place where the pattern stands in the configuration. -/
def search (car : UInt64) (pattern : UInt32) : UInt32 :=
  if h : ∃ k : Nat, k ≤ 32 ∧ car.toNat / 2 ^ k % 2 ^ 32 = pattern.toNat then UInt32.ofNat (Nat.find h)
  else 0xFFFFFFFF

def liveCells (car : UInt64) : Nat :=
  (Automaton.Board.ofWord car).toList.count true

/-- An evolution of `n` generations that ends with the configuration `car`. -/
def evolve (s : Architecture) (n : Nat) (car : UInt64) : Architecture :=
  if n = 0 then s else { s with car, history := (s.car :: s.history).take historyDepth }

def undo (s : Architecture) : Architecture :=
  match s.history with
  | [] => s
  | car :: history => { s with car, history }

/-- The address of a word of a burst. Addresses wrap at 32 bits. -/
def burstAddress (base : UInt32) (i : Nat) : UInt64 :=
  UInt64.ofNat ((base.toNat + 8 * i) % 2 ^ 32)

def slot (i : Nat) : Fin scratchpadSize :=
  ⟨i % scratchpadSize, Nat.mod_lt _ (by decide)⟩

def moveWord (direction : Direction) (base : UInt32) (s : Architecture) (i : Nat) : Architecture :=
  match direction with
  | .load =>
    { s with
      scratchpad := Function.update s.scratchpad (slot i)
        (Memory.wordIn s.memory (burstAddress base i)) }
  | .store =>
    { s with
      memory := Memory.replaceWord s.memory (burstAddress base i)
        (s.scratchpad (slot i)) }

/-- A burst moves its words one after another. One that is too long moves none. -/
def burst (s : Architecture) (direction : Direction) (base length : UInt32) :
    UInt32 × Architecture :=
  if length.toNat ≤ scratchpadSize then
    (0, (List.range length.toNat).foldl (moveWord direction base) s)
  else (0xFFFFFFFF, s)

/-- The result of an operation with the operands `a` and `b`, and the architecture after it. -/
def execute (s : Architecture) (a b : UInt32) : Operation → UInt32 × Architecture
  | .load => (0, { s with car := Memory.wordIn s.memory a.toUInt64 })
  | .store => (0, { s with memory := Memory.replaceWord s.memory a.toUInt64 s.car })
  | .get .low => (UInt32.ofNat (s.car.toNat % 2 ^ 32), s)
  | .get .high => (UInt32.ofNat (s.car.toNat / 2 ^ 32), s)
  | .set .low => (0, { s with car := UInt64.ofNat a.toNat, history := [] })
  | .set .high =>
    (0, { s with car := UInt64.ofNat (a.toNat * 2 ^ 32 + s.car.toNat % 2 ^ 32) })
  | .scratchToCar =>
    (0, { s with car := s.scratchpad (slot a.toNat) })
  | .carToScratch =>
    (0,
      { s with
        scratchpad := Function.update s.scratchpad (slot a.toNat) s.car })
  | .step =>
    let rule := UInt8.ofNat (a.toNat % 2 ^ 8)
    let n := b.toNat % 2 ^ 16
    (0, { s with rule }.evolve n (Automaton.ringReference rule n s.car))
  | .find => (search s.car a, s)
  | .count => (UInt32.ofNat (liveCells s.car), s)
  | .life =>
    let n := b.toNat % 2 ^ 16
    (0, s.evolve n (Automaton.torusReference n s.car))
  | .undo => (0, s.undo)
  | .burstLoad => s.burst .load a b
  | .burstStore => s.burst .store a b

def outcomes (s : Architecture) : List Instruction → List (UInt32 × Architecture)
  | [] => []
  | i :: instructions =>
    let outcome := s.execute i.rs1 i.rs2 i.operation
    outcome :: outcome.2.outcomes instructions

end Architecture

namespace Automaton

theorem toNat_window (s : UInt64) {k : Nat} (hk : k ≤ 32) :
    (window s k).toNat = s.toNat / 2 ^ k % 2 ^ 32 := by
  have hShift : (UInt64.ofNat k).toNat % 64 = k := by
    rw [UInt64.toNat_ofNat']
    omega
  rw [window, UInt64.toNat_toUInt32, UInt64.toNat_shiftRight, hShift, Nat.shiftRight_eq_div_pow]

theorem findResult_eq (s : UInt64) (pattern : UInt32) :
    findResult s pattern = Architecture.search s pattern := by
  have hMatch : ∀ k ≤ 32, window s k == pattern ↔ s.toNat / 2 ^ k % 2 ^ 32 = pattern.toNat := by
    intro k hk
    rw [beq_iff_eq, ← UInt32.toNat_inj, toNat_window s hk]
  rw [findResult, find?, Architecture.search]
  split
  · rename_i start hFind
    rw [List.find?_range_eq_some] at hFind
    obtain ⟨hStart, hRange, hBefore⟩ := hFind
    have hLe : start ≤ 32 := Nat.le_of_lt_succ (List.mem_range.mp hRange)
    have hExists : ∃ k ≤ 32, s.toNat / 2 ^ k % 2 ^ 32 = pattern.toNat :=
      ⟨start, hLe, (hMatch start hLe).mp hStart⟩
    have hLeast : Nat.find hExists = start := by
      rw [Nat.find_eq_iff]
      refine ⟨⟨hLe, (hMatch start hLe).mp hStart⟩, ?_⟩
      rintro k hk ⟨hkLe, hkMatch⟩
      have hNone := hBefore k hk
      rw [(hMatch k hkLe).mpr hkMatch] at hNone
      cases hNone
    rw [dif_pos hExists, hLeast]
  · rename_i hFind
    rw [List.find?_range_eq_none] at hFind
    have hNone : ¬ ∃ k ≤ 32, s.toNat / 2 ^ k % 2 ^ 32 = pattern.toNat := by
      rintro ⟨k, hkLe, hkMatch⟩
      have hNot := hFind k (by omega)
      rw [(hMatch k hkLe).mpr hkMatch] at hNot
      cases hNot
    rw [dif_neg hNone]
    rfl

theorem population_eq (s : UInt64) : population s = Architecture.liveCells s := by
  rw [population, Architecture.liveCells, Board.toList_ofWord, List.count_eq_countP,
    List.countP_map]
  apply List.countP_congr
  intro i hi
  simp [cell_eq_testBit (List.mem_range.mp hi)]

end Automaton

namespace Registers

theorem carLow_eq (r : Registers) : r.carLow = UInt32.ofNat (r.car.toNat % 2 ^ 32) := by
  apply UInt32.toNat_inj.mp
  simp [carLow]

theorem carHigh_eq (r : Registers) : r.carHigh = UInt32.ofNat (r.car.toNat / 2 ^ 32) := by
  have hLess := r.car.toNat_lt
  apply UInt32.toNat_inj.mp
  simp [carHigh, Nat.shiftRight_eq_div_pow]

theorem car_setCarHigh (r : Registers) (w : UInt32) :
    (r.setCarHigh w).car = UInt64.ofNat (w.toNat * 2 ^ 32 + r.car.toNat % 2 ^ 32) := by
  have hHigh := w.toNat_lt
  have hLow : r.car.toNat % 2 ^ 32 < 2 ^ 32 := Nat.mod_lt _ (by decide)
  have hOr : r.car.toNat % 2 ^ 32 ||| w.toNat <<< 32 =
      w.toNat * 2 ^ 32 + r.car.toNat % 2 ^ 32 := by
    rw [Nat.or_comm, ← Nat.shiftLeft_add_eq_or_of_lt hLow, Nat.shiftLeft_eq]
  have hShift : (w.toUInt64 <<< 32).toNat = w.toNat <<< 32 := by
    rw [UInt64.toNat_shiftLeft, UInt32.toNat_toUInt64]
    apply Nat.mod_eq_of_lt
    rw [show (32 : UInt64).toNat % 64 = 32 from rfl, Nat.shiftLeft_eq]
    omega
  have hLowNat : r.carLow.toUInt64.toNat = r.car.toNat % 2 ^ 32 := by
    rw [UInt32.toNat_toUInt64, carLow, UInt64.toNat_toUInt32]
  apply UInt64.toNat_inj.mp
  rw [setCarHigh, UInt64.toNat_or, hShift, hLowNat, hOr, UInt64.toNat_ofNat']
  omega

end Registers

end CellularCoprocessor
