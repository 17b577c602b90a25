import CellularCoprocessor.Proofs.Engine.Latency
import CellularCoprocessor.Proofs.Machine.Refinement

/-!
# How far undoing reaches

Every evolution records the configuration that it starts from, and the last eight records are kept.
So undoing goes back through the evolutions one by one, then through what was recorded before, and
never past a point at which the lower half was set.
-/

namespace CellularCoprocessor

/-- An evolution of at least one pass. -/
def Instruction.evolves (i : Instruction) : Bool :=
  match i.operation with
  | .step | .life => i.rs2.toNat % 65536 != 0
  | _ => false

namespace Architecture

variable (s : Architecture)

theorem history_evolve (n : Nat) (car : UInt64) :
    (s.evolve n car).history =
      if n != 0 then (s.car :: s.history).take historyDepth else s.history := by
  rw [evolve]
  by_cases hNone : n = 0
  · simp [hNone]
  · simp [hNone]

theorem history_burst (d : Direction) (a n : UInt32) : (s.burst d a n).2.history = s.history := by
  rw [burst]
  split
  · induction List.range n.toNat generalizing s with
    | nil => rfl
    | cons i rest ih =>
      rw [List.foldl_cons, ih]
      cases d <;> rfl
  · rfl

theorem history_execute {i : Instruction} (hSet : i.operation ≠ .set .low)
    (hUndo : i.operation ≠ .undo) :
    (s.execute i.rs1 i.rs2 i.operation).2.history =
      if i.evolves then (s.car :: s.history).take historyDepth else s.history := by
  rw [Instruction.evolves]
  cases hOperation : i.operation with
  | get half => cases half <;> rfl
  | set half =>
    cases half with
    | low => exact absurd hOperation hSet
    | high => rfl
  | undo => exact absurd hOperation hUndo
  | step => exact history_evolve _ _ _
  | life => exact history_evolve _ _ _
  | burstLoad => exact history_burst s .load _ _
  | burstStore => exact history_burst s .store _ _
  | _ => simp only [execute, Bool.false_eq_true, if_false]

theorem history_undo : s.undo.history = s.history.tail := by
  rw [undo]
  cases hHistory : s.history with
  | nil => exact hHistory
  | cons car history => rfl

theorem car_undo : s.undo.car = s.history.headD s.car := by
  rw [undo]
  cases hHistory : s.history with
  | nil => rfl
  | cons car history => rfl

end Architecture

namespace Engine

/-- The snapshots that undoing goes back to, the most recent one first. -/
def history (e : Engine) : List UInt64 :=
  e.controller.registers.history.toList

def executeAll (e : Engine) (instructions : List Instruction) : Engine :=
  instructions.foldl (fun e i => (e.execute i).2) e

/-- The configurations in which the evolutions among some instructions are dispatched. -/
def origins (e : Engine) : List Instruction → List UInt64
  | [] => []
  | i :: instructions =>
    if i.evolves then e.car :: (e.execute i).2.origins instructions
    else (e.execute i).2.origins instructions

theorem length_origins (e : Engine) (instructions : List Instruction) :
    (e.origins instructions).length = instructions.countP Instruction.evolves := by
  induction instructions generalizing e with
  | nil => rfl
  | cons i instructions ih =>
    rw [origins]
    by_cases hEvolves : i.evolves = true
    · rw [if_pos hEvolves, List.length_cons, ih, List.countP_cons_of_pos hEvolves]
    · rw [if_neg hEvolves, ih, List.countP_cons_of_neg hEvolves]

section Ready

variable {e : Engine}

theorem Ready.architecture_execute (h : e.Ready) (i : Instruction) :
    (e.execute i).2.architecture = (e.architecture.execute i.rs1 i.rs2 i.operation).2 :=
  (h.coherent.refines h.idle (Nat.le_trans (i.cost_le e.bus.latency) h.limit)).architecture

theorem Ready.ready_executeAll (h : e.Ready) (instructions : List Instruction) :
    (e.executeAll instructions).Ready := by
  induction instructions generalizing e with
  | nil => exact h
  | cons i instructions ih => exact ih (h.ready_execute i)

theorem Ready.history_execute (h : e.Ready) {i : Instruction} (hSet : i.operation ≠ .set .low)
    (hUndo : i.operation ≠ .undo) :
    (e.execute i).2.history =
      if i.evolves then (e.car :: e.history).take historyDepth else e.history :=
  (congrArg Architecture.history (h.architecture_execute i)).trans
    (e.architecture.history_execute hSet hUndo)

theorem Ready.history_execute_low (h : e.Ready) {i : Instruction}
    (hSet : i.operation = .set .low) : (e.execute i).2.history = [] := by
  refine (congrArg Architecture.history (h.architecture_execute i)).trans ?_
  rw [hSet]
  rfl

theorem Ready.history_execute_undo (h : e.Ready) {i : Instruction} (hUndo : i.operation = .undo) :
    (e.execute i).2.history = e.history.tail := by
  refine (congrArg Architecture.history (h.architecture_execute i)).trans ?_
  rw [hUndo]
  exact e.architecture.history_undo

theorem Ready.car_execute_undo (h : e.Ready) {i : Instruction} (hUndo : i.operation = .undo) :
    (e.execute i).2.car = e.history.headD e.car := by
  refine (congrArg Architecture.car (h.architecture_execute i)).trans ?_
  rw [hUndo]
  exact e.architecture.car_undo

theorem Coherent.length_history_le (h : e.Coherent) : e.history.length ≤ historyDepth := by
  rw [history, History.length_toList]
  exact h.controller.history

/-- What was recorded last is kept, down to the depth of the history. -/
theorem Ready.history_executeAll (h : e.Ready) {instructions : List Instruction}
    (hKept : ∀ i ∈ instructions, i.operation ≠ .set .low ∧ i.operation ≠ .undo) :
    (e.executeAll instructions).history =
      ((e.origins instructions).reverse ++ e.history).take historyDepth := by
  -- What a full history drops at one snapshot is beyond the depth for all later ones too.
  induction instructions generalizing e with
  | nil => exact (List.take_of_length_le h.coherent.length_history_le).symm
  | cons i instructions ih =>
    obtain ⟨⟨hSet, hUndo⟩, hRest⟩ := List.forall_mem_cons.mp hKept
    have hFirst := h.history_execute hSet hUndo
    rw [origins]
    refine (ih (h.ready_execute i) hRest).trans ?_
    rw [hFirst]
    by_cases hEvolves : i.evolves = true
    · rw [if_pos hEvolves, if_pos hEvolves, List.reverse_cons, List.append_assoc,
        List.singleton_append, List.take_append, List.take_append, List.take_take,
        Nat.min_eq_left (Nat.sub_le _ _)]
    · rw [if_neg hEvolves, if_neg hEvolves]

theorem Ready.executeAll_undos (h : e.Ready) {undos : List Instruction}
    (hUndos : ∀ u ∈ undos, u.operation = .undo) :
    (e.executeAll undos).history = e.history.drop undos.length ∧
      (e.executeAll undos).car = (e.history.take undos.length).getLastD e.car := by
  induction undos generalizing e with
  | nil => exact ⟨rfl, rfl⟩
  | cons u undos ih =>
    obtain ⟨hUndo, hRest⟩ := List.forall_mem_cons.mp hUndos
    have hHistory := h.history_execute_undo hUndo
    have hCar := h.car_execute_undo hUndo
    obtain ⟨hLeft, hLast⟩ := ih (h.ready_execute u) hRest
    rw [hHistory] at hLeft hLast
    rw [hCar] at hLast
    refine ⟨hLeft.trans ?_, hLast.trans ?_⟩
    · rw [List.drop_tail, List.length_cons]
    · cases hSnapshots : e.history with
      | nil => rw [List.tail_nil, List.take_nil, List.take_nil]; rfl
      | cons w rest => rw [List.length_cons, List.take_succ_cons, List.getLastD_cons]; rfl

theorem Ready.getElem?_history_of_undos (h : e.Ready) {undos : List Instruction}
    (hUndos : ∀ u ∈ undos, u.operation = .undo) (hSome : 1 ≤ undos.length)
    (hFew : undos.length ≤ e.history.length) :
    e.history[undos.length - 1]? = some (e.executeAll undos).car := by
  obtain ⟨k, hLength⟩ := Nat.exists_eq_add_of_le' hSome
  have hLess : k < e.history.length := by omega
  rw [(h.executeAll_undos hUndos).2, hLength, Nat.add_sub_cancel, List.take_add_one,
    List.getElem?_eq_getElem hLess, Option.toList_some, List.getLastD_concat]

theorem Ready.getLast?_history_of_undos (h : e.Ready) {undos : List Instruction}
    (hUndos : ∀ u ∈ undos, u.operation = .undo) (hSome : e.history ≠ [])
    (hMany : e.history.length ≤ undos.length) :
    e.history.getLast? = some (e.executeAll undos).car := by
  rw [(h.executeAll_undos hUndos).2, List.take_of_length_le hMany, List.getLastD_eq_getLast?,
    List.getLast?_eq_some_getLast hSome, Option.getD_some]

theorem Ready.history_execute_sublist (h : e.Ready) (i : Instruction) :
    (e.execute i).2.history.Sublist ((if i.evolves then [e.car] else []) ++ e.history) := by
  by_cases hSet : i.operation = .set .low
  · rw [h.history_execute_low hSet]
    exact List.nil_sublist _
  · by_cases hUndo : i.operation = .undo
    · rw [h.history_execute_undo hUndo]
      exact e.history.tail_sublist.trans (List.sublist_append_right _ _)
    · rw [h.history_execute hSet hUndo]
      split
      · exact List.take_sublist _ _
      · exact List.Sublist.refl _

/-- Whatever is executed, the history holds snapshots of its own evolutions, and only the snapshots
that it began with besides. -/
theorem Ready.history_executeAll_sublist (h : e.Ready) (instructions : List Instruction) :
    (e.executeAll instructions).history.Sublist
      ((e.origins instructions).reverse ++ e.history) := by
  induction instructions generalizing e with
  | nil => exact List.Sublist.refl _
  | cons i instructions ih =>
    have hFirst := h.history_execute_sublist i
    refine (ih (h.ready_execute i)).trans ((hFirst.append_left _).trans ?_)
    rw [origins]
    by_cases hEvolves : i.evolves = true
    · rw [if_pos hEvolves, if_pos hEvolves, List.reverse_cons, List.append_assoc]
    · rw [if_neg hEvolves, if_neg hEvolves, List.nil_append]

section Depth

variable {instructions undos : List Instruction}
  (hKept : ∀ i ∈ instructions, i.operation ≠ .set .low ∧ i.operation ≠ .undo)
  (hUndos : ∀ u ∈ undos, u.operation = .undo)

include hKept

/-- As long as the history is not full, what it held before is still there. -/
theorem Ready.history_executeAll_of_lt (h : e.Ready)
    (hRoom : (e.origins instructions).length < 8) :
    (e.executeAll instructions).history = (e.origins instructions).reverse ++
      e.history.take (8 - (e.origins instructions).length) := by
  rw [h.history_executeAll hKept, List.take_append, List.length_reverse,
    List.take_of_length_le (by rw [List.length_reverse]; exact Nat.le_of_lt hRoom)]
  rfl

include hUndos

theorem Ready.getElem?_origins_of_undos (h : e.Ready) (hSome : 1 ≤ undos.length)
    (hFew : undos.length ≤ min (e.origins instructions).length 8) :
    (e.origins instructions)[(e.origins instructions).length - undos.length]? =
      some ((e.executeAll instructions).executeAll undos).car := by
  have hStack := h.history_executeAll hKept
  have hDepth : undos.length ≤ (e.executeAll instructions).history.length := by
    rw [hStack, List.length_take, List.length_append, List.length_reverse, historyDepth]
    omega
  rw [← (h.ready_executeAll instructions).getElem?_history_of_undos hUndos hSome hDepth, hStack,
    List.getElem?_take_of_lt (by rw [historyDepth]; omega),
    List.getElem?_append_left (by rw [List.length_reverse]; omega),
    List.getElem?_reverse (by omega)]
  exact congrArg (fun k => (e.origins instructions)[k]?) (by omega)

/-- The eighth undo reaches the oldest snapshot of a full history, and the later ones stay there. -/
theorem Ready.getElem?_origins_of_le (h : e.Ready) (hFull : 8 ≤ (e.origins instructions).length)
    (hMany : 8 ≤ undos.length) :
    (e.origins instructions)[(e.origins instructions).length - 8]? =
        some ((e.executeAll instructions).executeAll undos).car ∧
      ((e.executeAll instructions).executeAll undos).history = [] := by
  have hDone := h.ready_executeAll instructions
  have hStack : (e.executeAll instructions).history =
      ((e.origins instructions).reverse ++ e.history).take 8 := h.history_executeAll hKept
  have hFilled : (e.executeAll instructions).history.length = 8 := by
    rw [hStack, List.length_take, List.length_append, List.length_reverse]
    omega
  have hSome : (e.executeAll instructions).history ≠ [] := List.ne_nil_of_length_pos (by omega)
  have hOldest := hDone.getLast?_history_of_undos hUndos hSome (by rwa [hFilled])
  refine ⟨?_, (hDone.executeAll_undos hUndos).1.trans
    (List.drop_of_length_le (by rwa [hFilled]))⟩
  rw [← hOldest, List.getLast?_eq_getElem?, hFilled, hStack,
    List.getElem?_take_of_lt (by decide),
    List.getElem?_append_left (by rw [List.length_reverse]; omega),
    List.getElem?_reverse (by omega)]
  exact congrArg (fun k => (e.origins instructions)[k]?) (by omega)

theorem Ready.history_of_undos_past (h : e.Ready) (hRoom : (e.origins instructions).length < 8)
    (hPast : (e.origins instructions).length ≤ undos.length) :
    ((e.executeAll instructions).executeAll undos).history =
      (e.history.take (8 - (e.origins instructions).length)).drop
        (undos.length - (e.origins instructions).length) := by
  rw [((h.ready_executeAll instructions).executeAll_undos hUndos).1,
    h.history_executeAll_of_lt hKept hRoom, List.drop_append, List.length_reverse,
    List.drop_of_length_le (by rwa [List.length_reverse]), List.nil_append]

theorem Ready.getElem?_kept_of_undos (h : e.Ready) (hRoom : (e.origins instructions).length < 8)
    (hPast : (e.origins instructions).length < undos.length)
    (hFew : undos.length ≤ (e.origins instructions).length +
      (e.history.take (8 - (e.origins instructions).length)).length) :
    (e.history.take (8 - (e.origins instructions).length))[
        undos.length - (e.origins instructions).length - 1]? =
      some ((e.executeAll instructions).executeAll undos).car := by
  have hStack := h.history_executeAll_of_lt hKept hRoom
  have hDepth : undos.length ≤ (e.executeAll instructions).history.length := by
    rwa [hStack, List.length_append, List.length_reverse]
  rw [← (h.ready_executeAll instructions).getElem?_history_of_undos hUndos (by omega) hDepth,
    hStack, List.getElem?_append_right (by rw [List.length_reverse]; omega), List.length_reverse]
  congr 1
  omega

end Depth

/-- After the lower half was set, an undo finds nothing or a snapshot taken since. -/
theorem Ready.car_execute_undo_of_low (h : e.Ready) {low u : Instruction}
    (hLow : low.operation = .set .low) (hUndo : u.operation = .undo)
    (instructions : List Instruction) :
    let s := (e.execute low).2
    let t := s.executeAll instructions
    t.history.Sublist (s.origins instructions).reverse ∧
      (t.history = [] ∧ (t.execute u).2.car = t.car ∨
        (t.execute u).2.car ∈ s.origins instructions) := by
  intro s t
  have hSet : s.Ready := h.ready_execute low
  have hEmpty : s.history = [] := h.history_execute_low hLow
  have hOwn : t.history.Sublist (s.origins instructions).reverse := by
    have hSublist := hSet.history_executeAll_sublist instructions
    rwa [hEmpty, List.append_nil] at hSublist
  have hCar : (t.execute u).2.car = t.history.headD t.car :=
    (hSet.ready_executeAll instructions).car_execute_undo hUndo
  refine ⟨hOwn, ?_⟩
  cases hSnapshots : t.history with
  | nil =>
    rw [hSnapshots] at hCar
    exact .inl ⟨rfl, hCar⟩
  | cons w rest =>
    rw [hSnapshots] at hCar hOwn
    rw [hCar]
    exact .inr (List.mem_reverse.mp (hOwn.subset List.mem_cons_self))

end Ready

variable {e : Engine}

/-- Undoing goes back through the evolutions since some point one by one, and then through what the
history held at that point, as far as its depth reaches; it does not go back past a setting of the
lower half. -/
theorem undo_depth (h : e.Reachable) (hIdle : e.controller.isIdle = true)
    (hTimeout : max 65535 (256 * (e.bus.latency + 2)) ≤ e.timeout) :
    (∀ instructions : List Instruction,
      (∀ i ∈ instructions, i.operation ≠ .set .low ∧ i.operation ≠ .undo) →
      ∀ undos : List Instruction, (∀ u ∈ undos, u.operation = .undo) →
      let origins := e.origins instructions
      let m := instructions.countP Instruction.evolves
      let j := undos.length
      let kept := e.history.take (8 - m)
      let t := (e.executeAll instructions).executeAll undos
      origins.length = m ∧
      (1 ≤ j → j ≤ min m 8 → origins[m - j]? = some t.car) ∧
      (8 ≤ m → 8 ≤ j → origins[m - 8]? = some t.car ∧ t.history = []) ∧
      (m < 8 → kept.length = min e.history.length (8 - m) ∧
        (m ≤ j → t.history = kept.drop (j - m)) ∧
        (m < j → j ≤ m + kept.length → kept[j - m - 1]? = some t.car))) ∧
    ∀ (low : Instruction) (instructions : List Instruction) (u : Instruction),
      low.operation = .set .low → u.operation = .undo →
      let s := (e.execute low).2
      let t := s.executeAll instructions
      t.history.Sublist (s.origins instructions).reverse ∧
      (t.history = [] ∧ (t.execute u).2.car = t.car ∨
        (t.execute u).2.car ∈ s.origins instructions) := by
  have hReady : e.Ready := ⟨h.coherent, of_decide_eq_true hIdle, hTimeout⟩
  refine ⟨?_, ?_⟩
  · intro instructions hKept undos hUndos
    rw [← e.length_origins instructions]
    refine ⟨rfl, ?_, ?_, fun hRoom => ⟨?_, ?_, ?_⟩⟩
    · exact hReady.getElem?_origins_of_undos hKept hUndos
    · exact hReady.getElem?_origins_of_le hKept hUndos
    · rw [List.length_take, Nat.min_comm]
    · exact hReady.history_of_undos_past hKept hUndos hRoom
    · exact hReady.getElem?_kept_of_undos hKept hUndos hRoom
  · intro low instructions u hLow hUndo
    exact hReady.car_execute_undo_of_low hLow hUndo instructions

/-- Two evolutions are undone, although the upper half is set between them, and then an earlier one.
Nothing else is left. -/
theorem undo_depth_earlier :
    let e := (fresh .empty 2 65535).actAll [.execute (.setLow 5), .execute (.step 30 1)]
    let instructions : List Instruction := [.step 110 2, .setHigh 7, .life 1, .step 90 0]
    let back := (e.executeAll instructions).executeAll [.undo, .undo]
    let t := (e.executeAll instructions).executeAll [.undo, .undo, .undo]
    let cleared := ((e.execute (.setLow 9)).2.executeAll [.setHigh 1])
    e.Reachable ∧ e.controller.isIdle = true ∧
      max 65535 (256 * (e.bus.latency + 2)) ≤ e.timeout ∧
      (e.origins instructions)[0]? = some back.car ∧
      e.history = [5] ∧ t.car = 5 ∧ t.history = [] ∧ cleared.history.Sublist [] := by
  intro e instructions back t cleared
  have hReachable : e.Reachable := ⟨_, _, _, _, rfl⟩
  have hIdle : e.controller.isIdle = true := rfl
  have hTimeout : max 65535 (256 * (e.bus.latency + 2)) ≤ e.timeout := by decide
  have hHistory : e.history = [5] := by decide +kernel
  have hLaw := undo_depth hReachable hIdle hTimeout
  have hKept : ∀ i ∈ instructions, i.operation ≠ .set .low ∧ i.operation ≠ .undo := by decide
  have hBack := hLaw.1 instructions hKept [.undo, .undo] (by decide)
  obtain ⟨-, -, -, hRoom⟩ := hLaw.1 instructions hKept [.undo, .undo, .undo] (by decide)
  obtain ⟨-, hLeft, hCar⟩ := hRoom (by decide)
  rw [hHistory] at hLeft hCar
  exact ⟨hReachable, hIdle, hTimeout, hBack.2.1 (by decide) (by decide), hHistory,
    (Option.some.inj (hCar (by decide) (by decide))).symm, hLeft (by decide),
    (hLaw.2 (.setLow 9) [.setHigh 1] .undo rfl rfl).1⟩

end Engine

end CellularCoprocessor
