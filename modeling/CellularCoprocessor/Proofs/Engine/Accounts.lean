import CellularCoprocessor.Proofs.Engine.Counters
import CellularCoprocessor.Proofs.Engine.Reset
import CellularCoprocessor.Proofs.Engine.Suspension

/-!
# The counters of the components agree

The engine, its controller and its bus count different things in different cycles. If each operation
is counted from its dispatch on, also while it is in flight, the counts agree after every move; what
the counters say of the operations that were completed follows from the phase.
-/

namespace CellularCoprocessor

namespace Operation

theorem ofMnemonic?_mnemonic (o : Operation) : ofMnemonic? o.mnemonic = some o := by
  cases o with
  | get half => cases half <;> decide
  | set half => cases half <;> decide
  | _ => decide

theorem mnemonic_injective {o o' : Operation} (h : o.mnemonic = o'.mnemonic) : o = o' := by
  apply Option.some.inj
  rw [← ofMnemonic?_mnemonic o, h, ofMnemonic?_mnemonic]

end Operation

namespace Tally

/-- The sum of the counts of all mnemonics. -/
def total (t : Tally) : Nat :=
  (t.entries.map Prod.snd).sum

/-- The sum of the counts of all mnemonics but one. -/
def totalWithout (t : Tally) (mnemonic : String) : Nat :=
  ((t.entries.filter fun entry => decide ¬ (mnemonic == entry.1) = true).map Prod.snd).sum

theorem total_empty : empty.total = 0 :=
  rfl

theorem total_of_getElem?_eq {t u : Tally} {mnemonic : String} {n : Nat}
    (h : ∀ m : String, u.counts[m]? = (t.counts.insert mnemonic n)[m]?) :
    u.total = n + t.totalWithout mnemonic := by
  have hEntries : u.entries.Perm ((mnemonic, n) ::
      t.entries.filter fun entry => decide ¬ (mnemonic == entry.1) = true) := by
    rw [entries, (Std.TreeMap.Equiv.of_forall_constGet?_eq h).toList_eq]
    exact Std.TreeMap.toList_insert_perm
  rw [total, (hEntries.map Prod.snd).sum_eq, List.map_cons, List.sum_cons]
  rfl

theorem total_eq (t : Tally) (mnemonic : String) :
    t.total = t.count mnemonic + t.totalWithout mnemonic := by
  rw [count, Std.TreeMap.getD_eq_getD_getElem?]
  cases hCount : t.counts[mnemonic]? with
  | some n =>
    refine total_of_getElem?_eq fun m => ?_
    rw [Std.TreeMap.getElem?_insert]
    split
    · rename_i hSame
      rw [← Std.LawfulEqCmp.compare_eq_iff_eq.mp hSame, hCount]
      rfl
    · rfl
  | none =>
    have hAll : (t.entries.filter fun entry => decide ¬ (mnemonic == entry.1) = true) =
        t.entries := by
      refine List.filter_eq_self.mpr fun entry hEntry => decide_eq_true fun hSame => ?_
      have hSome := Std.TreeMap.mem_toList_iff_getElem?_eq_some.mp hEntry
      rw [← beq_iff_eq.mp hSame, hCount] at hSome
      cases hSome
    rw [totalWithout, hAll, Option.getD_none, Nat.zero_add, total]

theorem total_add (t : Tally) (o : Operation) : (t.add o).total = t.total + 1 := by
  have hAdded : (t.add o).total = t.count o.mnemonic + 1 + t.totalWithout o.mnemonic := by
    refine total_of_getElem?_eq fun m => ?_
    rw [add, Std.TreeMap.getElem?_alter, Std.TreeMap.getElem?_insert, increment, count,
      Std.TreeMap.getD_eq_getD_getElem?]
  rw [hAdded, t.total_eq o.mnemonic]
  omega

theorem count_add_mnemonic (t : Tally) (o o' : Operation) :
    (t.add o).count o'.mnemonic = t.count o'.mnemonic + if o = o' then 1 else 0 := by
  rw [count_add]
  congr 1
  exact if_congr ⟨Operation.mnemonic_injective, congrArg Operation.mnemonic⟩ rfl rfl

end Tally

namespace Engine

def completions (e : Engine) (o : Operation) : Nat :=
  e.completed.count o.mnemonic

/-- How often an operation was dispatched, that is, completed or still in flight. -/
def dispatches (e : Engine) (o : Operation) : Nat :=
  e.completions o +
    if e.controller.phase ≠ .idle ∧ e.controller.operation = some o then 1 else 0

/-- The instructions completed and the one in flight. -/
def accepted (e : Engine) : Nat :=
  e.instructions + if e.controller.isIdle then 0 else 1

variable {e : Engine} {o : Operation} {signals : Signals}

theorem dispatches_of_idle (hIdle : e.controller.phase = .idle) (o : Operation) :
    e.dispatches o = e.completions o := by
  rw [dispatches, if_neg (fun h => h.1 hIdle), Nat.add_zero]

theorem dispatches_of_busy (hBusy : e.controller.phase ≠ .idle)
    (hOperation : e.controller.operation = some o) (o' : Operation) :
    e.dispatches o' = e.completions o' + if o = o' then 1 else 0 := by
  rw [dispatches, hOperation]
  congr 1
  exact if_congr ⟨fun h => Option.some.inj h.2, fun h => ⟨hBusy, congrArg some h⟩⟩ rfl rfl

theorem accepted_of_idle (hIdle : e.controller.phase = .idle) : e.accepted = e.instructions := by
  rw [accepted, Controller.isIdle, decide_eq_true hIdle, if_pos rfl, Nat.add_zero]

theorem accepted_of_busy (hBusy : e.controller.phase ≠ .idle) :
    e.accepted = e.instructions + 1 := by
  rw [accepted, Controller.isIdle, decide_eq_false hBusy, if_neg Bool.false_ne_true]

section Moves

def Move.isStep : Move → Bool
  | .step => true
  | _ => false

def accepts (e : Engine) : Move → Bool
  | .issue i => (e.issue i).isOk
  | _ => false

/-- The instructions accepted in the course of some moves. -/
def issues (e : Engine) : List Move → Nat
  | [] => 0
  | m :: moves => (e.move m).issues moves + if e.accepts m then 1 else 0

/-- The cycles after its dispatch that an instruction has reportedly taken. -/
def reportedCycles : Except EngineError Completion → Nat
  | .ok completion => completion.cycles
  | .error (.timeout cycles) => cycles
  | .error _ => 0

theorem issues_awaitMoves (budget : Nat) (e : Engine) : e.issues (awaitMoves budget e) = 0 := by
  induction budget generalizing e with
  | zero => rfl
  | succ budget ih =>
    rw [awaitMoves, issues]
    split
    · rfl
    · exact ih e.step.2

theorem issues_executeMoves (e : Engine) (i : Instruction) :
    e.issues (e.executeMoves i) = if e.controller.isIdle then 1 else 0 := by
  by_cases hIdle : e.controller.phase = .idle
  · rw [Controller.isIdle, decide_eq_true hIdle, executeMoves]
    simp only [issues, accepts, move, issue_of_idle hIdle]
    split
    · rfl
    · rw [issues_awaitMoves]
      rfl
  · rw [Controller.isIdle, decide_eq_false hIdle, executeMoves]
    simp only [issues, accepts, issue_of_busy hIdle]
    rfl

theorem steps_awaitMoves (spent budget : Nat) (e : Engine) :
    spent + (awaitMoves budget e).countP Move.isStep = reportedCycles (await spent budget e).1 := by
  induction budget generalizing spent e with
  | zero => rfl
  | succ budget ih =>
    rw [awaitMoves, await_succ, List.countP_cons_of_pos (by rfl)]
    split
    · rfl
    · rw [← ih (spent + 1) e.step.2]
      omega

theorem steps_executeMoves (e : Engine) (i : Instruction) :
    (e.executeMoves i).countP Move.isStep = reportedCycles (e.execute i).1 := by
  rw [executeMoves, execute, List.countP_cons_of_neg (by exact Bool.false_ne_true)]
  cases e.issue i with
  | error refusal => rfl
  | ok issued =>
    obtain ⟨signals, t⟩ := issued
    simp only []
    split
    · rfl
    · rw [← steps_awaitMoves 0, Nat.zero_add]

theorem ne_reset_awaitMoves (budget : Nat) (e : Engine) :
    ∀ m ∈ awaitMoves budget e, m ≠ .reset := by
  induction budget generalizing e with
  | zero => exact List.forall_mem_singleton.mpr fun h => by cases h
  | succ budget ih =>
    rw [awaitMoves]
    refine List.forall_mem_cons.mpr ⟨(fun h => by cases h), ?_⟩
    split
    · exact List.forall_mem_nil _
    · exact ih e.step.2

theorem ne_reset_executeMoves (e : Engine) (i : Instruction) :
    ∀ m ∈ e.executeMoves i, m ≠ .reset := by
  rw [executeMoves]
  refine List.forall_mem_cons.mpr ⟨(fun h => by cases h), ?_⟩
  split
  · exact List.forall_mem_nil _
  · split
    · exact List.forall_mem_nil _
    · exact ne_reset_awaitMoves _ _

theorem ne_reset_executeTwoMoves (e : Engine) (i j : Instruction) :
    ∀ m ∈ e.executeTwoMoves i j, m ≠ .reset := by
  rw [executeTwoMoves]
  split
  · exact ne_reset_executeMoves e i
  · exact List.forall_mem_append.mpr ⟨ne_reset_executeMoves e i, ne_reset_executeMoves _ j⟩

theorem ne_reset_allMoves {actions : List Action} (hReset : ∀ a ∈ actions, a ≠ .reset)
    (e : Engine) : ∀ m ∈ e.allMoves actions, m ≠ .reset := by
  have hAction : ∀ (e : Engine) (a : Action), a ≠ .reset → ∀ m ∈ e.actionMoves a, m ≠ .reset := by
    intro e a ha
    cases a with
    | execute i => exact ne_reset_executeMoves e i
    | executeWord word rs1 rs2 =>
      rw [actionMoves]
      split
      · exact List.forall_mem_nil _
      · exact ne_reset_executeMoves e _
    | setCar w => exact ne_reset_executeTwoMoves e _ _
    | getCar => exact ne_reset_executeTwoMoves e _ _
    | reset => exact absurd rfl ha
    | _ => exact List.forall_mem_singleton.mpr fun h => by cases h
  induction actions generalizing e with
  | nil => exact List.forall_mem_nil _
  | cons a actions ih =>
    obtain ⟨hFirst, hRest⟩ := List.forall_mem_cons.mp hReset
    exact List.forall_mem_append.mpr ⟨hAction e a hFirst, ih hRest _⟩

end Moves

/-- What the counters agree on in every cycle. -/
structure Balanced (e : Engine) : Prop where
  total : e.instructions = e.completed.total
  accesses : e.bus.accesses + e.wordsLeft =
    e.dispatches .load + e.dispatches .store + e.controller.burstWords
  undos : e.controller.undos = e.dispatches .undo
  openBursts : e.controller.openBursts ≤ e.dispatches .burstLoad + e.dispatches .burstStore
  snapshots : e.controller.counters.snapshots ≤ e.dispatches .step + e.dispatches .life
  history : e.controller.registers.history.count + e.controller.counters.undosApplied ≤
    e.controller.counters.snapshots

section Settle

theorem total_settle (hOperation : e.controller.operation = some o)
    (hTotal : e.instructions = e.completed.total) :
    (e.settle signals).instructions = (e.settle signals).completed.total := by
  rw [settle_instructions, settle_completed, hOperation]
  split
  · rw [hTotal]
    exact (Tally.total_add _ _).symm
  · exact hTotal

variable (hReports : Controller.Reports (signals, e.controller))

include hReports

/-- A cycle that reports on an instruction leaves it completed or in flight. -/
theorem accepted_settle : (e.settle signals).accepted = e.instructions + 1 := by
  rcases hReports with ⟨(hSignals : signals = .busy), hBusy⟩ | ⟨hReady, -, hIdle⟩
  · have hStill : (e.settle signals).controller.phase ≠ .idle := by rwa [settle_controller]
    rw [accepted_of_busy hStill, settle_instructions, hSignals]
    rfl
  · have hDone : (e.settle signals).controller.phase = .idle := by rwa [settle_controller]
    rw [accepted_of_idle hDone, settle_instructions, if_pos hReady]

theorem dispatches_settle (hOperation : e.controller.operation = some o) (o' : Operation) :
    (e.settle signals).dispatches o' = e.completions o' + if o = o' then 1 else 0 := by
  have hSame : (e.settle signals).controller.operation = some o := by rwa [settle_controller]
  rcases hReports with ⟨(hSignals : signals = .busy), hBusy⟩ | ⟨hReady, -, hIdle⟩
  · have hStill : (e.settle signals).controller.phase ≠ .idle := by rwa [settle_controller]
    rw [dispatches_of_busy hStill hSame, completions, settle_completed, hSignals]
    rfl
  · have hDone : (e.settle signals).controller.phase = .idle := by rwa [settle_controller]
    rw [dispatches_of_idle hDone, completions, settle_completed, if_pos hReady, hOperation]
    exact Tally.count_add_mnemonic _ _ _

end Settle

section Step

theorem Coherent.step_of_idle (h : e.Coherent) (hIdle : e.controller.phase = .idle) :
    e.step.2 = { e with controller := e.controller.lowerReady, cycles := e.cycles + 1 } := by
  rw [h.step_quiet (h.controller.idle hIdle).request, Controller.advance_idle _ hIdle]
  rfl

theorem Coherent.exists_operation (h : e.Coherent) (hBusy : e.controller.phase ≠ .idle) :
    ∃ o, e.controller.operation = some o := by
  cases hPhase : e.controller.phase with
  | idle => exact absurd hPhase hBusy
  | evolving kind => exact ⟨_, (h.controller.evolving kind hPhase).operation⟩
  | accessing =>
    rcases (h.controller.accessing hPhase).request with ⟨hLoad, _⟩ | ⟨hStore, _⟩
    · exact ⟨_, hLoad⟩
    · exact ⟨_, hStore⟩
  | bursting => exact ⟨_, (h.controller.bursting hPhase).operation⟩

theorem Coherent.accepted_step (h : e.Coherent) : e.step.2.accepted = e.accepted := by
  by_cases hIdle : e.controller.phase = .idle
  · rw [h.step_of_idle hIdle]
    rfl
  · rw [accepted_of_busy hIdle]
    exact accepted_settle (Controller.reports_advance _ hIdle)

theorem Coherent.dispatches_step (h : e.Coherent) (o : Operation) :
    e.step.2.dispatches o = e.dispatches o := by
  by_cases hIdle : e.controller.phase = .idle
  · rw [h.step_of_idle hIdle]
    rfl
  · obtain ⟨o', hOperation⟩ := h.exists_operation hIdle
    rw [dispatches_of_busy hIdle hOperation]
    exact dispatches_settle (Controller.reports_advance _ hIdle)
      ((Controller.operation_advance _ _).trans hOperation) o

theorem Balanced.step (h : e.Balanced) (hCoherent : e.Coherent) : e.step.2.Balanced := by
  have hKeeps : e.controller.Keeps e.step.2.controller := by
    rw [controller_step]
    exact Controller.keeps_advance _ _
  have hTotal : e.step.2.instructions = e.step.2.completed.total := by
    by_cases hIdle : e.controller.phase = .idle
    · rw [hCoherent.step_of_idle hIdle]
      exact h.total
    · obtain ⟨o, hOperation⟩ := hCoherent.exists_operation hIdle
      exact total_settle ((Controller.operation_advance _ _).trans hOperation) h.total
  refine ⟨hTotal, ?_, ?_, ?_, ?_, ?_⟩
  · rw [hCoherent.accesses_step, hCoherent.dispatches_step, hCoherent.dispatches_step,
      hKeeps.burstWords]
    exact h.accesses
  · rw [hCoherent.dispatches_step, Controller.undos, hKeeps.undosApplied, hKeeps.undosEmpty]
    exact h.undos
  · rw [hCoherent.dispatches_step, hCoherent.dispatches_step]
    exact Nat.le_trans hKeeps.openBursts h.openBursts
  · rw [hCoherent.dispatches_step, hCoherent.dispatches_step, hKeeps.snapshots]
    exact h.snapshots
  · rw [hKeeps.history, hKeeps.undosApplied, hKeeps.snapshots]
    exact h.history

end Step

section Issue

theorem accepted_dispatched (hIdle : e.controller.phase = .idle) (i : Instruction) :
    (e.dispatched i).accepted = e.accepted + 1 := by
  rw [accepted_of_idle hIdle]
  exact accepted_settle (e.controller.reports_begin i)

theorem dispatches_dispatched (hIdle : e.controller.phase = .idle) (i : Instruction)
    (o : Operation) :
    (e.dispatched i).dispatches o = e.dispatches o + if i.operation = o then 1 else 0 := by
  rw [dispatches_of_idle hIdle]
  exact dispatches_settle (e.controller.reports_begin i) (e.controller.operation_begin i) o

theorem Balanced.dispatched (h : e.Balanced) (hIdle : e.controller.phase = .idle)
    (i : Instruction) : (e.dispatched i).Balanced := by
  have hEnters : Controller.Enters i.operation i.words e.controller
      (e.dispatched i).controller := by
    rw [controller_dispatched]
    exact Controller.enters_begin hIdle i
  have hTotal : (e.dispatched i).instructions = (e.dispatched i).completed.total :=
    total_settle (e.controller.operation_begin i) h.total
  have hBus : (e.dispatched i).bus = e.bus := settle_bus _ _
  have hWords : (e.dispatched i).wordsLeft = i.words := by
    rw [Engine.dispatched, wordsLeft_settle, wordsLeft_begin]
  have hDispatches := dispatches_dispatched hIdle i
  have hBefore := h.accesses
  rw [wordsLeft_of_idle hIdle] at hBefore
  refine ⟨hTotal, ?_, ?_, ?_, ?_, ?_⟩
  · have hAfter := hEnters.burstWords
    rw [hBus, hWords, hDispatches, hDispatches]
    omega
  · rw [hDispatches, hEnters.undos, h.undos]
  · have hBursts := h.openBursts
    rw [hDispatches, hDispatches, hEnters.openBursts]
    omega
  · have hSnapshots := h.snapshots
    have hTaken := hEnters.snapshots
    rw [hDispatches, hDispatches]
    omega
  · have hHistory := h.history
    have hPushed := hEnters.history
    omega

end Issue

section Phases

/-- The phase tells which kind of operation is in flight, and an undo never is. -/
structure AttributedByPhase (e : Engine) : Prop where
  accesses : e.dispatches .load + e.dispatches .store =
    e.completions .load + e.completions .store + if e.controller.phase = .accessing then 1 else 0
  undos : e.dispatches .undo = e.completions .undo
  bursts : e.dispatches .burstLoad + e.dispatches .burstStore =
    e.completions .burstLoad + e.completions .burstStore +
      if e.controller.phase = .bursting then 1 else 0
  evolutions : e.dispatches .step + e.dispatches .life =
    e.completions .step + e.completions .life +
      match e.controller.phase with
      | .evolving _ => 1
      | _ => 0

theorem Coherent.attributedByPhase (h : e.Coherent) : e.AttributedByPhase := by
  cases hPhase : e.controller.phase with
  | idle =>
    have hDispatches := dispatches_of_idle hPhase
    constructor <;> simp only [hDispatches, hPhase, reduceCtorEq, if_false] <;> omega
  | evolving kind =>
    have hOperation := (h.controller.evolving kind hPhase).operation
    have hDispatches := dispatches_of_busy (fun h => by cases hPhase.symm.trans h) hOperation
    cases kind <;> constructor <;>
      simp only [hDispatches, hPhase, Evolution.operation, reduceCtorEq, if_true, if_false] <;> omega
  | accessing =>
    have hBusy : e.controller.phase ≠ .idle := fun h => by cases hPhase.symm.trans h
    rcases (h.controller.accessing hPhase).request with ⟨hLoad, _⟩ | ⟨hStore, _⟩
    · have hDispatches := dispatches_of_busy hBusy hLoad
      constructor <;> simp only [hDispatches, hPhase, reduceCtorEq, if_true, if_false] <;> omega
    · have hDispatches := dispatches_of_busy hBusy hStore
      constructor <;> simp only [hDispatches, hPhase, reduceCtorEq, if_true, if_false] <;> omega
  | bursting =>
    have hOperation := (h.controller.bursting hPhase).operation
    have hDispatches := dispatches_of_busy (fun h => by cases hPhase.symm.trans h) hOperation
    cases hDirection : e.controller.registers.burst.direction <;> constructor <;>
      simp only [hDispatches, hPhase, hDirection, Direction.operation, reduceCtorEq, if_true,
        if_false] <;>
      omega

/-- The words that the instruction in flight has moved are those of a burst up to its index. -/
theorem Coherent.wordsLeft_phase (h : e.Coherent) :
    e.controller.burstWords + (if e.controller.phase = .accessing then 1 else 0) =
      e.controller.counters.wordsMoved + e.wordsLeft +
        if e.controller.phase = .bursting then e.controller.registers.burst.index.toNat else 0 := by
  cases hPhase : e.controller.phase with
  | idle =>
    rw [Controller.burstWords_of_ne (fun h => by cases hPhase.symm.trans h),
      wordsLeft_of_idle hPhase]
    rfl
  | evolving kind =>
    rw [Controller.burstWords_of_ne (fun h => by cases hPhase.symm.trans h),
      wordsLeft_of_evolving hPhase]
    rfl
  | accessing =>
    rw [Controller.burstWords_of_ne (fun h => by cases hPhase.symm.trans h),
      wordsLeft_of_accessing hPhase]
    rfl
  | bursting =>
    have hIndex := (h.controller.bursting hPhase).index
    rw [Controller.burstWords_of_bursting hPhase, wordsLeft_of_bursting hPhase, Burst.remaining,
      if_neg (by decide), if_pos rfl]
    omega

end Phases

/-- What the counters say of the operations that were completed, after some accepted instructions
and some calls for another cycle. -/
structure Reconciles (issues steps : Nat) (e : Engine) : Prop where
  instructions : e.instructions = e.completed.total
  accepted : issues = e.instructions + if e.controller.isIdle then 0 else 1
  cycles : e.cycles = issues + steps
  accesses : e.bus.reads + e.bus.writes =
    e.completions .load + e.completions .store + e.controller.counters.wordsMoved +
      if e.controller.phase = .bursting then e.controller.registers.burst.index.toNat else 0
  undos : e.controller.counters.undosApplied + e.controller.counters.undosEmpty =
    e.completions .undo
  burstsRejected : e.controller.counters.burstsRejected ≤
    e.completions .burstLoad + e.completions .burstStore
  snapshots : e.controller.counters.snapshots ≤ e.completions .step + e.completions .life +
    match e.controller.phase with
    | .evolving _ => 1
    | _ => 0
  undosApplied : e.controller.counters.undosApplied ≤ e.controller.counters.snapshots
  history : e.controller.registers.history.count ≤
    e.controller.counters.snapshots - e.controller.counters.undosApplied

/-- The counters after some accepted instructions and some calls for another cycle. -/
structure Accounts (issues steps : Nat) (e : Engine) : Prop where
  coherent : e.Coherent
  balanced : e.Balanced
  accepted : e.accepted = issues
  cycles : e.cycles = issues + steps

section Run

variable {issues steps : Nat}

theorem Accounts.reconciles (h : e.Accounts issues steps) : e.Reconciles issues steps := by
  obtain ⟨hCoherent, hBalanced, hAccepted, hCycles⟩ := h
  have hAttributed := hCoherent.attributedByPhase
  have hHistory := hBalanced.history
  refine ⟨hBalanced.total, hAccepted.symm, hCycles, ?_, ?_, ?_, ?_, ?_, ?_⟩
  · have hAccesses := hBalanced.accesses
    have hWords := hCoherent.wordsLeft_phase
    rw [hAttributed.accesses, Bus.accesses] at hAccesses
    omega
  · exact hBalanced.undos.trans hAttributed.undos
  · have hBursts := hBalanced.openBursts
    rw [hAttributed.bursts, Controller.openBursts] at hBursts
    omega
  · rw [← hAttributed.evolutions]
    exact hBalanced.snapshots
  · omega
  · omega

theorem Accounts.step (h : e.Accounts issues steps) : e.step.2.Accounts issues (steps + 1) where
  coherent := h.coherent.coherent_step
  balanced := h.balanced.step h.coherent
  accepted := h.coherent.accepted_step.trans h.accepted
  cycles := by rw [cycles_step, h.cycles, Nat.add_assoc]

theorem Accounts.dispatched (h : e.Accounts issues steps) (hIdle : e.controller.phase = .idle)
    (i : Instruction) : (e.dispatched i).Accounts (issues + 1) steps where
  coherent := h.coherent.coherent_dispatched hIdle i
  balanced := h.balanced.dispatched hIdle i
  accepted := by rw [accepted_dispatched hIdle, h.accepted]
  cycles := by
    rw [Engine.dispatched, settle_cycles, h.cycles]
    omega

theorem accounts_fresh (memory : Memory) (latency timeout : Nat) :
    (fresh memory latency timeout).Accounts 0 0 where
  coherent := coherent_fresh memory latency timeout
  balanced := ⟨Tally.total_empty.symm, rfl, rfl, Nat.le_refl _, Nat.le_refl _, Nat.le_refl _⟩
  accepted := rfl
  cycles := rfl

theorem Accounts.move (h : e.Accounts issues steps) {m : Move} (hReset : m ≠ .reset) :
    (e.move m).Accounts (issues + if e.accepts m then 1 else 0)
      (steps + if m.isStep then 1 else 0) := by
  obtain ⟨hTotal, hAccesses, hUndos, hBursts, hSnapshots, hHistory⟩ := h.balanced
  cases m with
  | issue i =>
    by_cases hIdle : e.controller.phase = .idle
    · rw [Engine.move, accepts, issue_of_idle hIdle]
      exact h.dispatched hIdle i
    · rw [Engine.move, accepts, issue_of_busy hIdle]
      exact h
  | step => exact h.step
  | reset => exact absurd rfl hReset
  | _ =>
    exact ⟨h.coherent.coherent_move _,
      ⟨hTotal, hAccesses, hUndos, hBursts, hSnapshots, hHistory⟩, h.accepted, h.cycles⟩

theorem Accounts.moveAll (h : e.Accounts issues steps) {moves : List Move}
    (hReset : ∀ m ∈ moves, m ≠ .reset) :
    (e.moveAll moves).Accounts (issues + e.issues moves) (steps + moves.countP Move.isStep) := by
  -- Both counts are carried along, so that each move adds to what went before.
  induction moves generalizing e issues steps with
  | nil => exact h
  | cons m moves ih =>
    obtain ⟨hFirst, hRest⟩ := List.forall_mem_cons.mp hReset
    have hMoved := ih (h.move hFirst) hRest
    rw [moveAll_cons, Engine.issues, List.countP_cons, Nat.add_comm ((e.move m).issues moves),
      Nat.add_comm (moves.countP Move.isStep), ← Nat.add_assoc, ← Nat.add_assoc]
    exact hMoved

end Run

/-- However a new engine is used, as long as it is not reset, the counters of the engine, of its
controller and of its bus agree with each other, with the instructions that it accepted and with the
cycles that it was clocked for. An instruction that is waited for is accepted if the engine is idle,
and the engine is clocked for the cycles that it reports. -/
theorem counters_reconcile (memory : Memory) (latency timeout : Nat) {actions : List Action}
    (hReset : ∀ a ∈ actions, a ≠ .reset) :
    let start := fresh memory latency timeout
    let e := start.actAll actions
    let moves := start.allMoves actions
    start.moveAll moves = e ∧ e.Reconciles (start.issues moves) (moves.countP Move.isStep) ∧
      ∀ (f : Engine) (i : Instruction),
        f.issues (f.executeMoves i) = (if f.controller.isIdle then 1 else 0) ∧
        (f.executeMoves i).countP Move.isStep = reportedCycles (f.execute i).1 := by
  intro start e moves
  have hRun := (accounts_fresh memory latency timeout).moveAll
    (ne_reset_allMoves hReset (fresh memory latency timeout))
  rw [Nat.zero_add, Nat.zero_add, moveAll_allMoves] at hRun
  exact ⟨moveAll_allMoves start actions, hRun.reconciles,
    fun f i => ⟨f.issues_executeMoves i, f.steps_executeMoves i⟩⟩

/-- A burst is in flight, with one of its two words moved, and an instruction has been refused. -/
theorem counters_reconcile_burst :
    let actions : List Action := [.setCar 0x100000005, .execute (.step 30 3), .execute .undo,
      .execute .undo, .execute (.burstStore 0 300), .access (fun m => m.writeWord 8 7),
      .execute (.load 8), .execute (.burstLoad 8 2), .issue .count]
    let start := fresh .empty 1 4
    let moves := start.allMoves actions
    (∀ a ∈ actions, a ≠ .reset) ∧ start.issues moves = 8 ∧ moves.countP Move.isStep = 9 ∧
      (start.actAll actions).Reconciles 8 9 := by
  intro actions start moves
  have hReset : ∀ a ∈ actions, a ≠ .reset := by simp [actions]
  have hIssues : start.issues moves = 8 := by decide +kernel
  have hSteps : moves.countP Move.isStep = 9 := by decide +kernel
  have hReconciles := (counters_reconcile .empty 1 4 hReset).2.1
  rw [hIssues, hSteps] at hReconciles
  exact ⟨hReset, hIssues, hSteps, hReconciles⟩

end Engine

end CellularCoprocessor
