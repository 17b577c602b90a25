import CellularCoprocessor.Controller.Advance

/-!
# One cycle in each phase

What a work cycle does, stated for each phase and each answer of the bus. The later proofs use
these equations only and do not open the cycle again.
-/

namespace CellularCoprocessor

namespace Burst

/-- The descriptor after the pending word was moved. -/
def next (b : Burst) : Burst :=
  { b with index := b.index + 1, pending := false }

/-- The increment never passes the length, so it never wraps. -/
theorem toNat_index_next {b : Burst} (hIndex : b.index.toNat < b.length.toNat) :
    b.next.index.toNat = b.index.toNat + 1 := by
  have := b.length.toNat_lt
  simp only [next, UInt32.toNat_add, UInt32.toNat_one]
  omega

theorem isExhausted_iff (b : Burst) : b.isExhausted = true ↔ b.length.toNat ≤ b.index.toNat := by
  simp [isExhausted, UInt32.le_iff_toNat_le]

theorem lengthFits_iff (length : UInt32) :
    lengthFits length = true ↔ length.toNat ≤ scratchpadSize :=
  decide_eq_true_iff

end Burst

namespace Controller

variable {c : Controller} (r : Response)

theorem advance_idle (hPhase : c.phase = .idle) : c.advance r = (.busy, c.lowerReady) := by
  simp [advance, lowerReady, hPhase]

theorem advance_evolving {kind : Evolution} (hPhase : c.phase = .evolving kind) :
    c.advance r = c.lowerReady.advanceEvolution kind := by
  simp [advance, lowerReady, hPhase]

theorem advance_accessing (hPhase : c.phase = .accessing) :
    c.advance r = c.lowerReady.advanceAccess r := by
  simp [advance, lowerReady, hPhase]

theorem advance_bursting (hPhase : c.phase = .bursting) :
    c.advance r = c.lowerReady.advanceBurst r := by
  simp [advance, lowerReady, hPhase]

theorem receive_read {a : UInt32} (hRequest : c.request = some (.read a)) (data : UInt64) :
    c.receive data = { c.withCar data with request := none } := by
  simp [receive, hRequest, Request.read]

theorem receive_write {a : UInt32} {w : UInt64} (hRequest : c.request = some (.write a w))
    (data : UInt64) : c.receive data = { c with request := none } := by
  simp [receive, hRequest, Request.write]

def moveWord (c : Controller) (data : UInt64) : Controller :=
  { c with
    registers :=
      { c.registers with
        burst := c.registers.burst.next
        scratchpad := c.registers.burst.receive c.registers.scratchpad data }
    request := none }

def requestWord (c : Controller) : Controller :=
  { c with
    registers :=
      { c.registers with burst := { c.registers.burst with pending := true } }
    request := some (c.registers.burst.request c.registers.scratchpad) }

theorem advanceBurst_waiting (hPending : c.registers.burst.pending = true)
    (hReady : r.ready = false) : c.advanceBurst r = (.busy, c) := by
  simp [advanceBurst, Burst.advance, hPending, hReady]

theorem advanceBurst_committed (hPending : c.registers.burst.pending = true)
    (hReady : r.ready = true) :
    c.advanceBurst r = if c.registers.burst.next.isExhausted then (c.moveWord r.data).finishBurst
      else (.busy, c.moveWord r.data) := by
  simp only [advanceBurst, Burst.advance, hPending, hReady, if_true]
  rfl

theorem advanceBurst_issued (hPending : c.registers.burst.pending = false)
    (hIndex : c.registers.burst.index.toNat < c.registers.burst.length.toNat) :
    c.advanceBurst r = (.busy, c.requestWord) := by
  have hExhausted : ¬ c.registers.burst.isExhausted = true := by
    rw [Burst.isExhausted_iff]
    omega
  simp [advanceBurst, Burst.advance, hPending, hExhausted, requestWord, present]

theorem advanceBurst_done (hPending : c.registers.burst.pending = false)
    (hIndex : c.registers.burst.length.toNat ≤ c.registers.burst.index.toNat) :
    c.advanceBurst r = c.finishBurst := by
  have hExhausted := (Burst.isExhausted_iff c.registers.burst).mpr hIndex
  simp [advanceBurst, Burst.advance, hPending, hExhausted]

theorem operation_advance (c : Controller) : (c.advance r).2.operation = c.operation := by
  simp only [advance]
  split
  · rfl
  · rw [advanceEvolution]
    split <;> rfl
  · rw [advanceAccess]
    split
    · rw [receive]
      split <;> rfl
    · rfl
  · simp only [advanceBurst]
    split
    · rfl
    · rfl
    · split <;> rfl
    · rfl

/-- A cycle reports either that the instruction is under way or its result. -/
def Reports (outcome : Signals × Controller) : Prop :=
  (outcome.1 = .busy ∧ outcome.2.phase ≠ .idle) ∨
    (outcome.1.ready = true ∧ outcome.2.output = outcome.1 ∧ outcome.2.phase = .idle)

theorem reports_complete (result : UInt32) : Reports (c.complete result) :=
  .inr ⟨rfl, rfl, rfl⟩

theorem reports_busy (hPhase : c.phase ≠ .idle) : Reports (.busy, c) :=
  .inl ⟨rfl, hPhase⟩

theorem reports_advance (hPhase : c.phase ≠ .idle) : Reports (c.advance r) := by
  cases hCase : c.phase with
  | idle => exact absurd hCase hPhase
  | evolving kind =>
    rw [advance_evolving r hCase, advanceEvolution]
    split
    · exact reports_complete _
    · exact reports_busy hPhase
  | accessing =>
    rw [advance_accessing r hCase, advanceAccess]
    split
    · exact reports_complete _
    · exact reports_busy hPhase
  | bursting =>
    rw [advance_bursting r hCase]
    cases hPending : c.registers.burst.pending with
    | true =>
      cases hReady : r.ready with
      | false =>
        rw [advanceBurst_waiting (c := c.lowerReady) r hPending hReady]
        exact reports_busy hPhase
      | true =>
        rw [advanceBurst_committed (c := c.lowerReady) r hPending hReady]
        split
        · exact reports_complete _
        · exact reports_busy hPhase
    | false =>
      by_cases hLess : c.registers.burst.index.toNat < c.registers.burst.length.toNat
      · rw [advanceBurst_issued (c := c.lowerReady) r hPending hLess]
        exact reports_busy hPhase
      · rw [advanceBurst_done (c := c.lowerReady) r hPending (Nat.le_of_not_lt hLess)]
        exact reports_complete _

end Controller

end CellularCoprocessor
