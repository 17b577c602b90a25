import CellularCoprocessor.Proofs.Engine.Latency

/-!
# What the controller counts

The dispatch of an instruction enters it into the counters, except that the words of a burst are
entered at its end. If they are taken as entered while the burst is in flight, a work cycle changes
nothing but the number of passes.
-/

namespace CellularCoprocessor

namespace Controller

def undos (c : Controller) : Nat :=
  c.counters.undosApplied + c.counters.undosEmpty

/-- The words of all bursts, those still to be moved included. -/
def burstWords (c : Controller) : Nat :=
  c.counters.wordsMoved + if c.phase = .bursting then c.registers.burst.length.toNat else 0

/-- The bursts that were rejected, and the one in flight. -/
def openBursts (c : Controller) : Nat :=
  c.counters.burstsRejected + if c.phase = .bursting then 1 else 0

section Phases

variable {c : Controller}

theorem burstWords_of_bursting (hPhase : c.phase = .bursting) :
    c.burstWords = c.counters.wordsMoved + c.registers.burst.length.toNat := by
  rw [burstWords, if_pos hPhase]

theorem burstWords_of_ne (hPhase : c.phase ≠ .bursting) :
    c.burstWords = c.counters.wordsMoved := by
  rw [burstWords, if_neg hPhase, Nat.add_zero]

theorem openBursts_of_bursting (hPhase : c.phase = .bursting) :
    c.openBursts = c.counters.burstsRejected + 1 := by
  rw [openBursts, if_pos hPhase]

theorem openBursts_of_ne (hPhase : c.phase ≠ .bursting) :
    c.openBursts = c.counters.burstsRejected := by
  rw [openBursts, if_neg hPhase, Nat.add_zero]

end Phases

/-- What a work cycle leaves alone. The burst in flight may end in it. -/
structure Keeps (c d : Controller) : Prop where
  history : d.registers.history = c.registers.history
  snapshots : d.counters.snapshots = c.counters.snapshots
  undosApplied : d.counters.undosApplied = c.counters.undosApplied
  undosEmpty : d.counters.undosEmpty = c.counters.undosEmpty
  burstWords : d.burstWords = c.burstWords
  openBursts : d.openBursts ≤ c.openBursts

section Advance

variable {c d : Controller} (r : Response)

theorem keeps_lowerReady (c : Controller) : c.Keeps c.lowerReady :=
  ⟨rfl, rfl, rfl, rfl, rfl, Nat.le_refl _⟩

theorem Keeps.trans {t : Controller} (h : c.Keeps t) (ht : t.Keeps d) : c.Keeps d where
  history := ht.history.trans h.history
  snapshots := ht.snapshots.trans h.snapshots
  undosApplied := ht.undosApplied.trans h.undosApplied
  undosEmpty := ht.undosEmpty.trans h.undosEmpty
  burstWords := ht.burstWords.trans h.burstWords
  openBursts := Nat.le_trans ht.openBursts h.openBursts

/-- Only a burst enters anything but passes, so only the phases matter outside of one. -/
theorem keeps_of_ne (hBefore : c.phase ≠ .bursting) (hAfter : d.phase ≠ .bursting)
    (hHistory : d.registers.history = c.registers.history)
    (hCounters : { d.counters with passes := c.counters.passes } = c.counters) : c.Keeps d := by
  have hSame := hCounters.symm
  refine ⟨hHistory, ?_, ?_, ?_, ?_, ?_⟩
  · rw [hSame]
  · rw [hSame]
  · rw [hSame]
  · rw [burstWords_of_ne hBefore, burstWords_of_ne hAfter, hSame]
  · refine Nat.le_of_eq ?_
    rw [openBursts_of_ne hBefore, openBursts_of_ne hAfter, hSame]

theorem keeps_finishBurst (hPhase : c.phase = .bursting) : c.Keeps c.finishBurst.2 := by
  refine ⟨rfl, rfl, rfl, rfl, ?_, ?_⟩
  · rw [burstWords_of_bursting hPhase, burstWords_of_ne (by exact fun h => by cases h)]
    rfl
  · rw [openBursts_of_bursting hPhase, openBursts_of_ne (by exact fun h => by cases h)]
    exact Nat.le_succ _

theorem keeps_advanceEvolution {kind : Evolution} (hPhase : c.phase = .evolving kind) :
    c.Keeps (c.advanceEvolution kind).2 := by
  have hBefore : c.phase ≠ .bursting := fun h => by cases hPhase.symm.trans h
  simp only [advanceEvolution]
  split
  · exact keeps_of_ne hBefore (fun h => by cases h) rfl rfl
  · exact keeps_of_ne hBefore hBefore rfl rfl

theorem keeps_advanceAccess (hPhase : c.phase = .accessing) : c.Keeps (c.advanceAccess r).2 := by
  have hBefore : c.phase ≠ .bursting := fun h => by cases hPhase.symm.trans h
  simp only [advanceAccess]
  split
  · rw [receive]
    split
    · exact keeps_of_ne hBefore (fun h => by cases h) rfl rfl
    · exact keeps_of_ne hBefore (fun h => by cases h) rfl rfl
  · exact keeps_of_ne hBefore hBefore rfl rfl

theorem keeps_advanceBurst (hPhase : c.phase = .bursting) : c.Keeps (c.advanceBurst r).2 := by
  have hMoved : ∀ data, c.Keeps (c.moveWord data) := fun _ =>
    ⟨rfl, rfl, rfl, rfl, rfl, Nat.le_refl _⟩
  cases hPending : c.registers.burst.pending with
  | true =>
    cases hReady : r.ready with
    | false =>
      rw [advanceBurst_waiting r hPending hReady]
      exact ⟨rfl, rfl, rfl, rfl, rfl, Nat.le_refl _⟩
    | true =>
      rw [advanceBurst_committed r hPending hReady]
      split
      · exact (hMoved r.data).trans (keeps_finishBurst hPhase)
      · exact hMoved r.data
  | false =>
    by_cases hLess : c.registers.burst.index.toNat < c.registers.burst.length.toNat
    · rw [advanceBurst_issued r hPending hLess]
      exact ⟨rfl, rfl, rfl, rfl, rfl, Nat.le_refl _⟩
    · rw [advanceBurst_done r hPending (Nat.le_of_not_lt hLess)]
      exact keeps_finishBurst hPhase

theorem keeps_advance (c : Controller) : c.Keeps (c.advance r).2 := by
  cases hPhase : c.phase with
  | idle =>
    rw [advance_idle r hPhase]
    exact keeps_lowerReady c
  | evolving kind =>
    rw [advance_evolving r hPhase]
    exact (keeps_lowerReady c).trans (keeps_advanceEvolution hPhase)
  | accessing =>
    rw [advance_accessing r hPhase]
    exact (keeps_lowerReady c).trans (keeps_advanceAccess r hPhase)
  | bursting =>
    rw [advance_bursting r hPhase]
    exact (keeps_lowerReady c).trans (keeps_advanceBurst r hPhase)

end Advance

/-- What the dispatch of an operation that is to move some words enters into the counters. -/
structure Enters (o : Operation) (words : Nat) (c d : Controller) : Prop where
  undos : d.undos = c.undos + if o = .undo then 1 else 0
  burstWords : d.burstWords + ((if o = .load then 1 else 0) + if o = .store then 1 else 0) =
    c.burstWords + words
  openBursts : d.openBursts = c.openBursts +
    ((if o = .burstLoad then 1 else 0) + if o = .burstStore then 1 else 0)
  snapshots : d.counters.snapshots ≤ c.counters.snapshots +
    ((if o = .step then 1 else 0) + if o = .life then 1 else 0)
  history : d.registers.history.count + d.counters.undosApplied + c.counters.snapshots ≤
    c.registers.history.count + c.counters.undosApplied + d.counters.snapshots

section Dispatch

variable {c d : Controller}

section Rules

variable {o : Operation} {words : Nat}

/-- Without a burst in flight the words and the bursts are those of the counters. -/
theorem enters_of_ne (hBefore : c.phase ≠ .bursting) (hAfter : d.phase ≠ .bursting)
    (hUndos : d.undos = c.undos + if o = .undo then 1 else 0)
    (hWords : d.counters.wordsMoved +
      ((if o = .load then 1 else 0) + if o = .store then 1 else 0) =
        c.counters.wordsMoved + words)
    (hRejected : d.counters.burstsRejected = c.counters.burstsRejected +
      ((if o = .burstLoad then 1 else 0) + if o = .burstStore then 1 else 0))
    (hSnapshots : d.counters.snapshots ≤ c.counters.snapshots +
      ((if o = .step then 1 else 0) + if o = .life then 1 else 0))
    (hHistory : d.registers.history.count + d.counters.undosApplied + c.counters.snapshots ≤
      c.registers.history.count + c.counters.undosApplied + d.counters.snapshots) :
    Enters o words c d := by
  refine ⟨hUndos, ?_, ?_, hSnapshots, hHistory⟩
  · rw [burstWords_of_ne hBefore, burstWords_of_ne hAfter, hWords]
  · rw [openBursts_of_ne hBefore, openBursts_of_ne hAfter, hRejected]

theorem enters_of_counters_eq (hBefore : c.phase ≠ .bursting) (hAfter : d.phase ≠ .bursting)
    (hCounters : d.counters = c.counters)
    (hHistory : d.registers.history.count ≤ c.registers.history.count)
    (hWords : (if o = .load then 1 else 0) + (if o = .store then 1 else 0) = words)
    (hOther : o ≠ .undo ∧ o ≠ .burstLoad ∧ o ≠ .burstStore) : Enters o words c d := by
  obtain ⟨hUndo, hLoad, hStore⟩ := hOther
  refine enters_of_ne hBefore hAfter ?_ ?_ ?_ ?_ ?_
  · rw [undos, hCounters, if_neg hUndo]
    rfl
  · rw [hCounters, hWords]
  · rw [hCounters, if_neg hLoad, if_neg hStore, Nat.add_zero]
  · rw [hCounters]
    omega
  · rw [hCounters]
    omega

end Rules

theorem enters_beginEvolution (hBefore : c.phase ≠ .bursting) (kind : Evolution) (steps : UInt16) :
    Enters kind.operation 0 c (c.beginEvolution kind steps).2 := by
  simp only [beginEvolution]
  split
  · exact enters_of_counters_eq hBefore (fun h => by cases h) rfl (Nat.le_refl _)
      (by cases kind <;> rfl) (by cases kind <;> decide)
  · have hCount := Nat.min_le_left (c.registers.history.count + 1) historyDepth
    refine enters_of_ne hBefore (fun h => by cases h) ?_ ?_ ?_ ?_ ?_
    · cases kind <;> rfl
    · cases kind <;> rfl
    · cases kind <;> rfl
    · cases kind <;> exact Nat.le_refl _
    · simp only [enter, snapshot, latchSteps, History.push]
      omega

theorem enters_undo (hBefore : c.phase ≠ .bursting) :
    Enters .undo 0 c (c.undo.complete successResult).2 := by
  rw [undo]
  split
  · rename_i hPop
    have hCount := History.count_of_pop? hPop
    refine enters_of_ne hBefore (fun h => by cases h) ?_ rfl rfl (Nat.le_refl _) ?_
    · simp only [complete, undos, if_true]
      omega
    · simp only [complete]
      omega
  · exact enters_of_ne hBefore (fun h => by cases h) rfl rfl rfl (Nat.le_refl _) (Nat.le_refl _)

theorem enters_beginBurst (hBefore : c.phase ≠ .bursting) (direction : Direction)
    (base length : UInt32) :
    Enters direction.operation (if length.toNat > 256 then 0 else length.toNat) c
      (c.beginBurst direction base length).2 := by
  rw [beginBurst]
  by_cases hFits : Burst.lengthFits length = true
  · have hLength : length.toNat ≤ 256 := (Burst.lengthFits_iff length).mp hFits
    rw [if_pos hFits, if_neg (Nat.not_lt.mpr hLength)]
    refine ⟨?_, ?_, ?_, ?_, ?_⟩
    · cases direction <;> rfl
    · rw [burstWords_of_ne hBefore, burstWords_of_bursting rfl]
      cases direction <;> rfl
    · rw [openBursts_of_ne hBefore, openBursts_of_bursting rfl]
      cases direction <;> rfl
    · cases direction <;> exact Nat.le_refl _
    · exact Nat.le_refl _
  · have hMore : length.toNat > 256 :=
      Nat.lt_of_not_le fun hLength => hFits ((Burst.lengthFits_iff length).mpr hLength)
    rw [if_neg hFits, if_pos hMore]
    cases direction <;>
      exact enters_of_ne hBefore (fun h => by cases h) rfl rfl rfl (Nat.le_refl _) (Nat.le_refl _)

theorem enters_dispatch (hBefore : c.phase ≠ .bursting) (i : Instruction) :
    Enters i.operation i.words c (c.dispatch i.rs1 i.rs2 i.operation).2 := by
  rw [Instruction.words]
  cases i.operation with
  | get half =>
    cases half <;>
      exact enters_of_counters_eq hBefore (fun h => by cases h) rfl (Nat.le_refl _) rfl (by decide)
  | set half =>
    cases half with
    | low =>
      exact enters_of_counters_eq hBefore (fun h => by cases h) rfl (Nat.zero_le _) rfl (by decide)
    | high =>
      exact enters_of_counters_eq hBefore (fun h => by cases h) rfl (Nat.le_refl _) rfl (by decide)
  | step =>
    have hEntered := enters_beginEvolution (c := c.latchRule i.rs1.toUInt8) hBefore .elementary
      i.rs2.toUInt16
    exact ⟨hEntered.undos, hEntered.burstWords, hEntered.openBursts, hEntered.snapshots,
      hEntered.history⟩
  | life => exact enters_beginEvolution hBefore .life _
  | undo => exact enters_undo hBefore
  | burstLoad => exact enters_beginBurst hBefore .load _ _
  | burstStore => exact enters_beginBurst hBefore .store _ _
  | _ =>
    exact enters_of_counters_eq hBefore (fun h => by cases h) rfl (Nat.le_refl _) rfl (by decide)

theorem enters_begin (hIdle : c.phase = .idle) (i : Instruction) :
    Enters i.operation i.words c (c.begin i).2 := by
  have hEntered := enters_dispatch
    (c := { c.lowerReady with operation := some i.operation })
    (fun h => by cases hIdle.symm.trans h) i
  exact ⟨hEntered.undos, hEntered.burstWords, hEntered.openBursts, hEntered.snapshots,
    hEntered.history⟩

end Dispatch

end Controller

end CellularCoprocessor
