import CellularCoprocessor.Engine.Execute
import Mathlib.Tactic

/-!
# What an instruction word determines

A word of the coprocessor's opcode and the fields in it determine each other. An engine looks at
`funct3` and the low three bits of `funct7` only: the register numbers and the other bits of a word
may be anything.
-/

namespace CellularCoprocessor

namespace InstructionWord

/-- The fields side by side, with the opcode below them. -/
def assemble (w : InstructionWord) : UInt32 :=
  w.funct7.toUInt32 <<< 25 ||| w.rs2.toUInt32 <<< 20 ||| w.rs1.toUInt32 <<< 15 |||
    w.funct3.toUInt32 <<< 12 ||| w.rd.toUInt32 <<< 7 ||| customOpcode

/-- Every field is as short as its place in a word. -/
structure Fits (w : InstructionWord) : Prop where
  funct7 : w.funct7.toNat < 2 ^ 7
  rs2 : w.rs2.toNat < 2 ^ 5
  rs1 : w.rs1.toNat < 2 ^ 5
  funct3 : w.funct3.toNat < 2 ^ 3
  rd : w.rd.toNat < 2 ^ 5

/-- The number that the fields of a word make up. -/
def value (w : InstructionWord) : Nat :=
  ((((w.funct7.toNat * 2 ^ 5 + w.rs2.toNat) * 2 ^ 5 + w.rs1.toNat) * 2 ^ 3 + w.funct3.toNat) *
    2 ^ 5 + w.rd.toNat) * 2 ^ 7 + 11

end InstructionWord

section Bits

theorem toNat_shiftLeft_field {x : UInt8} {k : UInt32} (bits : Nat) (hx : x.toNat < 2 ^ bits)
    (hk : k.toNat < 32) (hPlace : bits + k.toNat ≤ 32) :
    (x.toUInt32 <<< k).toNat = x.toNat * 2 ^ k.toNat := by
  have hLess : x.toNat * 2 ^ k.toNat < 2 ^ 32 :=
    calc x.toNat * 2 ^ k.toNat
      _ < 2 ^ bits * 2 ^ k.toNat := Nat.mul_lt_mul_of_pos_right hx (Nat.two_pow_pos _)
      _ = 2 ^ (bits + k.toNat) := (Nat.pow_add 2 bits k.toNat).symm
      _ ≤ 2 ^ 32 := Nat.pow_le_pow_right (by decide) hPlace
  rw [UInt32.toNat_shiftLeft, UInt8.toNat_toUInt32, Nat.mod_eq_of_lt hk, Nat.shiftLeft_eq,
    Nat.mod_eq_of_lt hLess]

theorem toNat_or_of_lt {a b : UInt32} {m k : Nat} (ha : a.toNat = m * 2 ^ k)
    (hb : b.toNat < 2 ^ k) : (a ||| b).toNat = m * 2 ^ k + b.toNat := by
  rw [UInt32.toNat_or, ha, Nat.mul_comm, Nat.two_pow_add_eq_or_of_lt hb]

/-- A field is added below those that stand in the word already. -/
theorem toNat_or_field {a : UInt32} {x : UInt8} {k : UInt32} {m : Nat} (bits : Nat)
    (ha : a.toNat = m * 2 ^ (bits + k.toNat)) (hx : x.toNat < 2 ^ bits) (hk : k.toNat < 32)
    (hPlace : bits + k.toNat ≤ 32) :
    (a ||| x.toUInt32 <<< k).toNat = (m * 2 ^ bits + x.toNat) * 2 ^ k.toNat := by
  have hShift := toNat_shiftLeft_field bits hx hk hPlace
  have hLess : (x.toUInt32 <<< k).toNat < 2 ^ (bits + k.toNat) := by
    rw [hShift, Nat.pow_add]
    exact Nat.mul_lt_mul_of_pos_right hx (Nat.two_pow_pos _)
  rw [toNat_or_of_lt ha hLess, hShift, Nat.pow_add, ← Nat.mul_assoc, ← Nat.add_mul]

theorem toNat_and_low (word : UInt32) : (word &&& 0x7F).toNat = word.toNat % 2 ^ 7 := by
  rw [UInt32.toNat_and]
  exact Nat.and_two_pow_sub_one_eq_mod word.toNat 7

theorem toNat_extractField (word : UInt32) {shift bits : Nat} (hBits : bits ≤ 32) :
    (extractField word shift bits).toNat = word.toNat / 2 ^ shift % 2 ^ bits := by
  have hLess : word.toNat / 2 ^ shift % 2 ^ bits < 2 ^ 32 :=
    (Nat.mod_lt _ (Nat.two_pow_pos bits)).trans_le (Nat.pow_le_pow_right (by decide) hBits)
  rw [extractField, UInt32.toNat_ofNat', Nat.shiftRight_eq_div_pow, Nat.one_shiftLeft,
    Nat.mod_eq_of_lt hLess]

theorem extractField_opcode (word : UInt32) : extractField word 0 7 = word &&& 0x7F := by
  apply UInt32.toNat_inj.mp
  rw [toNat_extractField word (by decide), toNat_and_low, Nat.pow_zero, Nat.div_one]

theorem toNat_toUInt8_extractField (word : UInt32) {shift bits : Nat} (hBits : bits ≤ 8) :
    (extractField word shift bits).toUInt8.toNat = word.toNat / 2 ^ shift % 2 ^ bits := by
  have hLess : word.toNat / 2 ^ shift % 2 ^ bits < 2 ^ 8 :=
    (Nat.mod_lt _ (Nat.two_pow_pos bits)).trans_le (Nat.pow_le_pow_right (by decide) hBits)
  rw [UInt32.toNat_toUInt8, toNat_extractField word (by omega), Nat.mod_eq_of_lt hLess]

end Bits

namespace InstructionWord

variable {word : UInt32} {w : InstructionWord}

theorem toNat_assemble (h : w.Fits) : w.assemble.toNat = w.value := by
  have h7 := toNat_shiftLeft_field (k := 25) 7 h.funct7 (by decide) (by decide)
  have h2 := toNat_or_field (k := 20) 5 h7 h.rs2 (by decide) (by decide)
  have h1 := toNat_or_field (k := 15) 5 h2 h.rs1 (by decide) (by decide)
  have h3 := toNat_or_field (k := 12) 3 h1 h.funct3 (by decide) (by decide)
  have hd := toNat_or_field (k := 7) 5 h3 h.rd (by decide) (by decide)
  exact toNat_or_of_lt hd (by decide : customOpcode.toNat < 2 ^ 7)

theorem decode_eq_ok_iff_fields : decode word = .ok w ↔ word.toNat % 2 ^ 7 = 11 ∧
    w.funct7.toNat = word.toNat / 2 ^ 25 % 2 ^ 7 ∧ w.rs2.toNat = word.toNat / 2 ^ 20 % 2 ^ 5 ∧
    w.rs1.toNat = word.toNat / 2 ^ 15 % 2 ^ 5 ∧ w.funct3.toNat = word.toNat / 2 ^ 12 % 2 ^ 3 ∧
    w.rd.toNat = word.toNat / 2 ^ 7 % 2 ^ 5 := by
  obtain ⟨funct7, rs2, rs1, funct3, rd⟩ := w
  have hOpcode : extractField word 0 7 = customOpcode ↔ word.toNat % 2 ^ 7 = 11 := by
    rw [extractField_opcode, ← UInt32.toNat_inj, toNat_and_low]
    exact Iff.rfl
  have hField : ∀ (x : UInt8) (shift bits : Nat), bits ≤ 8 →
      ((extractField word shift bits).toUInt8 = x ↔
        x.toNat = word.toNat / 2 ^ shift % 2 ^ bits) := by
    intro x shift bits hBits
    rw [← UInt8.toNat_inj, toNat_toUInt8_extractField word hBits, eq_comm]
  simp only [decode]
  split
  · rename_i hCustom
    rw [Except.ok.injEq, mk.injEq, hField _ 25 7 (by decide), hField _ 20 5 (by decide),
      hField _ 15 5 (by decide), hField _ 12 3 (by decide), hField _ 7 5 (by decide),
      and_iff_right (hOpcode.mp hCustom)]
  · rename_i hOther
    exact iff_of_false nofun fun h => hOther (hOpcode.mpr h.1)

/-- Reading a word gives the fields that make it up, and there is at most one way to fill them. -/
theorem decode_eq_ok_iff : decode word = .ok w ↔ w.Fits ∧ w.assemble = word := by
  have hWord := word.toNat_lt
  rw [decode_eq_ok_iff_fields]
  constructor
  · rintro ⟨hOpcode, h7, h2, h1, h3, hd⟩
    have hFits : w.Fits := by constructor <;> omega
    refine ⟨hFits, UInt32.toNat_inj.mp ?_⟩
    rw [toNat_assemble hFits, value]
    omega
  · rintro ⟨hFits, rfl⟩
    rw [toNat_assemble hFits, value]
    obtain ⟨h7, h2, h1, h3, hd⟩ := hFits
    omega

theorem decode_eq_error (h : word &&& 0x7F ≠ customOpcode) :
    decode word = .error ⟨word &&& 0x7F, word⟩ := by
  simp only [decode, extractField_opcode, if_neg h]

theorem exists_decode_iff : (∃ w, decode word = .ok w) ↔ word &&& 0x7F = customOpcode := by
  constructor
  · rintro ⟨w, h⟩
    by_contra hOther
    rw [decode_eq_error hOther] at h
    cases h
  · intro hCustom
    simp only [decode, extractField_opcode, if_pos hCustom]
    exact ⟨_, rfl⟩

end InstructionWord

/-- Only the low three bits of `funct7` select the operation. -/
theorem Operation.decode_mod (funct3 funct7 : UInt8) :
    decode funct3 (funct7 % 8) = decode funct3 funct7 := by
  have hBit : ∀ i < 3, (funct7 % 8).toNat.testBit i = funct7.toNat.testBit i := by
    intro i hi
    rw [UInt8.toNat_mod, show (8 : UInt8).toNat = 2 ^ 3 from rfl, Nat.testBit_mod_two_pow,
      decide_eq_true hi, Bool.true_and]
  have hModifiers : Modifiers.ofFunct7 (funct7 % 8) = .ofFunct7 funct7 := by
    rw [Modifiers.ofFunct7, Modifiers.ofFunct7, hBit 0 (by decide), hBit 1 (by decide),
      hBit 2 (by decide)]
  rw [decode, decode, hModifiers]

namespace Engine

variable {e : Engine}

/-- An instruction acts through its operation and its operands. -/
theorem execute_congr {i j : Instruction} (hOperation : i.operation = j.operation)
    (hRs1 : i.rs1 = j.rs1) (hRs2 : i.rs2 = j.rs2) : e.execute i = e.execute j := by
  simp only [execute, issue, Controller.issue, hOperation, hRs1, hRs2]

theorem executeWord_of_decode {word : UInt32} {w : InstructionWord}
    (h : InstructionWord.decode word = .ok w) (a b : UInt32) :
    e.executeWord word a b = e.execute (w.withOperands a b) := by
  rw [executeWord, h]

theorem executeWord_eq_selected {word : UInt32} {w : InstructionWord}
    (h : InstructionWord.decode word = .ok w) (a b : UInt32) :
    e.executeWord word a b = e.execute ⟨w.funct3, w.funct7 % 8, a, b⟩ := by
  rw [executeWord_of_decode h]
  exact execute_congr (Operation.decode_mod w.funct3 w.funct7).symm rfl rfl

end Engine

namespace InstructionWord

/-- Reading and assembling words are inverse to each other on the words of the coprocessor. Words
that agree in `funct3` and in the low three bits of `funct7` are carried out alike, as the
instruction with no other bits than these. -/
theorem words_round_trip :
    (∀ word, (∃ w, decode word = .ok w) ↔ word &&& 0x7F = 0x0B) ∧
    (∀ word w, decode word = .ok w → w.Fits ∧ w.assemble = word) ∧
    (∀ w : InstructionWord, w.Fits → decode w.assemble = .ok w) ∧
    ∀ (e : Engine) (a b word word' : UInt32) (w w' : InstructionWord),
      decode word = .ok w → decode word' = .ok w' →
      w.funct3 = w'.funct3 → w.funct7 % 8 = w'.funct7 % 8 →
        e.executeWord word a b = e.executeWord word' a b ∧
        e.executeWord word a b = e.execute ⟨w.funct3, w.funct7 % 8, a, b⟩ := by
  refine ⟨fun word => exists_decode_iff, fun word w h => decode_eq_ok_iff.mp h,
    fun w h => decode_eq_ok_iff.mpr ⟨h, rfl⟩, ?_⟩
  intro e a b word word' w w' hWord hWord' hFunct3 hFunct7
  have hSelected : e.executeWord word a b = e.execute ⟨w.funct3, w.funct7 % 8, a, b⟩ :=
    Engine.executeWord_eq_selected hWord a b
  refine ⟨?_, hSelected⟩
  rw [hSelected, hFunct3, hFunct7, Engine.executeWord_eq_selected hWord' a b]

/-- An undo with every field that does not matter filled, against one with all of them zero. -/
theorem words_round_trip_undo :
    let w : InstructionWord := ⟨0b1111001, 31, 17, 7, 5⟩
    let w' : InstructionWord := ⟨1, 0, 0, 7, 0⟩
    let e := ((Engine.ofLatency 1 0).execute (.setLow 9)).2
    w.Fits ∧ w'.Fits ∧ decode w.assemble = .ok w ∧ decode w'.assemble = .ok w' ∧
      w.funct3 = w'.funct3 ∧ w.funct7 % 8 = w'.funct7 % 8 ∧
      e.executeWord w.assemble 3 4 = e.executeWord w'.assemble 3 4 := by
  intro w w' e
  obtain ⟨-, -, hDecode, hInert⟩ := words_round_trip
  have hFits : w.Fits := by constructor <;> decide
  have hFits' : w'.Fits := by constructor <;> decide
  have hSelector : w.funct7 % 8 = w'.funct7 % 8 := by decide
  exact ⟨hFits, hFits', hDecode w hFits, hDecode w' hFits', rfl, hSelector,
    (hInert e 3 4 _ _ w w' (hDecode w hFits) (hDecode w' hFits') rfl hSelector).1⟩

end InstructionWord

end CellularCoprocessor
