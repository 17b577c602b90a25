import CellularCoprocessor.Proofs.Engine.Suspension
import CellularCoprocessor.Proofs.Instruction.Words
import CellularCoprocessor.Proofs.Machine.Sessions

/-!
# Calls that do all or nothing

A busy engine refuses every call and stays as it is. On an idle engine all cells are set by two
instructions and read by two. None of these takes a cycle after its dispatch, so whatever the
limit on cycles is, the second is carried out if the first one is.
-/

namespace CellularCoprocessor

theorem UInt64.join_halves (w : UInt64) :
    w.toUInt32.toUInt64 ||| (w >>> 32).toUInt32.toUInt64 <<< 32 = w := by
  have hLess := w.toNat_lt
  have hHigh := Registers.carHigh_eq { Registers.zero with car := w }
  have hJoined := Registers.car_setCarHigh { Registers.zero with car := w } (w >>> 32).toUInt32
  rw [show (w >>> 32).toUInt32 = UInt32.ofNat (w.toNat / 2 ^ 32) from hHigh] at hJoined ⊢
  refine hJoined.trans (UInt64.toNat_inj.mp ?_)
  rw [UInt32.toNat_ofNat', UInt64.toNat_ofNat']
  simp only []
  omega

namespace Engine

variable {e : Engine}

/-- The instruction is complete at its dispatch, with some result and some registers. The bus does
not take part. -/
structure AtOnce (e : Engine) (i : Instruction) (result : UInt32) (r : Registers) : Prop where
  execute : e.execute i = (.ok ⟨result, 0⟩, e.dispatched i)
  registers : (e.dispatched i).controller.registers = r
  idle : (e.dispatched i).controller.phase = .idle
  bus : (e.dispatched i).bus = e.bus

theorem atOnce_of_complete (hIdle : e.controller.phase = .idle) {i : Instruction}
    {c : Controller} {result : UInt32} (hBegin : e.controller.begin i = c.complete result) :
    e.AtOnce i result c.registers := by
  have hController : (e.dispatched i).controller = (c.complete result).2 := by
    rw [controller_dispatched, hBegin]
  constructor
  · simp only [Engine.execute, issue_of_idle hIdle, hBegin, Controller.complete, Signals.done,
      if_true]
  · rw [hController]
    rfl
  · rw [hController]
    rfl
  · exact settle_bus _ _

section Halves

variable (hIdle : e.controller.phase = .idle)

include hIdle

theorem atOnce_setLow (w : UInt32) : e.AtOnce (.setLow w) successResult
    { e.controller.registers with
      car := w.toUInt64, history := e.controller.registers.history.clear } := by
  refine atOnce_of_complete hIdle
    (c := { e.controller.lowerReady with operation := some (.set .low) }.setLow w) ?_
  rw [Controller.begin, Instruction.operation_setLow]
  rfl

theorem atOnce_setHigh (w : UInt32) :
    e.AtOnce (.setHigh w) successResult (e.controller.registers.setCarHigh w) := by
  refine atOnce_of_complete hIdle
    (c := { e.controller.lowerReady with operation := some (.set .high) }.setHigh w) ?_
  rw [Controller.begin, Instruction.operation_setHigh]
  rfl

theorem atOnce_getLow :
    e.AtOnce .getLow e.controller.registers.carLow e.controller.registers :=
  atOnce_of_complete hIdle
    (c := { e.controller.lowerReady with operation := some (.get .low) }) rfl

theorem atOnce_getHigh :
    e.AtOnce .getHigh e.controller.registers.carHigh e.controller.registers :=
  atOnce_of_complete hIdle
    (c := { e.controller.lowerReady with operation := some (.get .high) }) rfl

end Halves

/-- All cells are set and the history is forgotten. Nothing else in the registers changes, and the
bus does not take part. -/
structure SetsWhole (e : Engine) (w : UInt64) : Prop where
  outcome : (e.setCar w).1 = .ok ()
  registers : (e.setCar w).2.controller.registers =
    { e.controller.registers with
      car := w, history := e.controller.registers.history.clear }
  history : (e.setCar w).2.controller.registers.history.toList = []
  idle : (e.setCar w).2.controller.phase = .idle
  bus : (e.setCar w).2.bus = e.bus

structure ReadsWhole (e : Engine) : Prop where
  outcome : e.getCar.1 = .ok e.car
  registers : e.getCar.2.controller.registers = e.controller.registers
  idle : e.getCar.2.controller.phase = .idle
  bus : e.getCar.2.bus = e.bus

theorem setsWhole_of_idle (hIdle : e.controller.phase = .idle) (w : UInt64) : e.SetsWhole w := by
  have hLow := atOnce_setLow hIdle w.toUInt32
  have hHigh := atOnce_setHigh hLow.idle (w >>> 32).toUInt32
  have hSet : e.setCar w = (.ok (),
      (e.dispatched (.setLow w.toUInt32)).dispatched (.setHigh (w >>> 32).toUInt32)) := by
    simp only [setCar, hLow.execute, hHigh.execute]
  have hRegisters := hHigh.registers
  rw [hLow.registers, Registers.setCarHigh, Registers.carLow, UInt32.toUInt32_toUInt64,
    UInt64.join_halves] at hRegisters
  refine ⟨?_, ?_, ?_, ?_, ?_⟩
  · rw [hSet]
  · rw [hSet, hRegisters]
  · rw [hSet, hRegisters]
    rfl
  · rw [hSet, hHigh.idle]
  · rw [hSet, hHigh.bus, hLow.bus]

theorem readsWhole_of_idle (hIdle : e.controller.phase = .idle) : e.ReadsWhole := by
  have hLow := atOnce_getLow hIdle
  have hHigh := atOnce_getHigh hLow.idle
  have hJoined : e.controller.registers.carHigh.toUInt64 <<< 32 |||
      e.controller.registers.carLow.toUInt64 = e.car := by
    rw [UInt64.or_comm]
    exact UInt64.join_halves e.car
  have hGet : e.getCar = (.ok e.car, (e.dispatched .getLow).dispatched .getHigh) := by
    simp only [getCar, hLow.execute, hHigh.execute, hLow.registers, hJoined]
  refine ⟨?_, ?_, ?_, ?_⟩
  · rw [hGet]
  · rw [hGet, hHigh.registers, hLow.registers]
  · rw [hGet, hHigh.idle]
  · rw [hGet, hHigh.bus, hLow.bus]

/-- Every call on the coprocessor is answered with the phase it is in, and has no effect. -/
structure Refuses (e : Engine) : Prop where
  issue : ∀ i, e.issue i = .error ⟨⟨e.controller.phase⟩, e⟩ ∧ e.move (.issue i) = e
  execute : ∀ i, e.execute i = (.error (.busy ⟨e.controller.phase⟩), e)
  setCar : ∀ w, e.setCar w = (.error (.busy ⟨e.controller.phase⟩), e)
  getCar : e.getCar = (.error (.busy ⟨e.controller.phase⟩), e)
  executeWord : ∀ word a b, word &&& 0x7F = 0x0B →
    e.executeWord word a b = (.error (.busy ⟨e.controller.phase⟩), e)

theorem refuses_of_busy (hBusy : e.controller.phase ≠ .idle) : e.Refuses where
  issue i := ⟨issue_of_busy hBusy i, move_of_refused (issue_of_busy hBusy i)⟩
  execute i := execute_of_busy hBusy i
  setCar w := by rw [Engine.setCar, execute_of_busy hBusy]
  getCar := by rw [Engine.getCar, execute_of_busy hBusy]
  executeWord word a b hCustom := by
    obtain ⟨w, hDecode⟩ := InstructionWord.exists_decode_iff.mpr hCustom
    rw [executeWord_of_decode hDecode, execute_of_busy hBusy]

theorem executeWord_of_other {word : UInt32} (h : word &&& 0x7F ≠ InstructionWord.customOpcode)
    (a b : UInt32) :
    e.executeWord word a b = (.error (.wrongOpcode ⟨word &&& 0x7F, word⟩), e) := by
  rw [Engine.executeWord, InstructionWord.decode_eq_error h]

/-- A call is refused and has no effect, or it is carried out as a whole. The limit on cycles plays
no part in this, as the engine may have any. -/
theorem calls_all_or_nothing (e : Engine) :
    (e.controller.isIdle = false → e.Refuses) ∧
    (∀ word a b, word &&& 0x7F ≠ 0x0B →
      e.executeWord word a b = (.error (.wrongOpcode ⟨word &&& 0x7F, word⟩), e)) ∧
    (e.controller.isIdle = true →
      e.ReadsWhole ∧ ∀ w, e.SetsWhole w ∧ (e.setCar w).2.getCar.1 = .ok w) := by
  refine ⟨?_, fun word a b hOther => executeWord_of_other hOther a b, ?_⟩
  · intro hBusy
    exact refuses_of_busy (of_decide_eq_false hBusy)
  · intro hIdle
    have hPhase : e.controller.phase = .idle := of_decide_eq_true hIdle
    refine ⟨readsWhole_of_idle hPhase, fun w => ?_⟩
    have hSet := setsWhole_of_idle hPhase w
    have hCar : (e.setCar w).2.car = w := congrArg Registers.car hSet.registers
    refine ⟨hSet, ?_⟩
    rw [(readsWhole_of_idle hSet.idle).outcome, hCar]

/-- A burst is cut short by a limit of no cycles, and the engine refuses to be read. After a reset
all its cells can be set at once, under the same limit. -/
theorem calls_all_or_nothing_burst :
    let e := (fresh .empty 2 0).actAll [.execute (.setLow 5), .execute (.burstStore 16 2)]
    let t := e.reset
    e.controller.isIdle = false ∧ e.getCar = (.error (.busy ⟨.bursting⟩), e) ∧
      t.controller.isIdle = true ∧ (t.setCar 0x123456789).1 = .ok () ∧
      (t.setCar 0x123456789).2.getCar.1 = .ok 0x123456789 ∧ (0x33 : UInt32) &&& 0x7F ≠ 0x0B ∧
      e.executeWord 0x33 1 2 = (.error (.wrongOpcode ⟨0x33, 0x33⟩), e) := by
  intro e t
  have hBusy : e.controller.isIdle = false := rfl
  have hIdle : t.controller.isIdle = true := rfl
  have hOther : (0x33 : UInt32) &&& 0x7F ≠ 0x0B := by decide
  have hWhole := (calls_all_or_nothing t).2.2 hIdle
  exact ⟨hBusy, ((calls_all_or_nothing e).1 hBusy).getCar, hIdle,
    (hWhole.2 0x123456789).1.outcome, (hWhole.2 0x123456789).2, hOther,
    (calls_all_or_nothing e).2.1 0x33 1 2 hOther⟩

end Engine

end CellularCoprocessor
