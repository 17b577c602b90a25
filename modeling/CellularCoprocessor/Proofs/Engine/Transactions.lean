import CellularCoprocessor.Proofs.Engine.Cycle
import CellularCoprocessor.Proofs.Memory.Bytes

/-!
# Transactions on the memory bus

The log of a run records when a request appears and disappears at the controller and when the bus
carries one out. It is a sequence of transactions, one after another. A request that was served
was carried out once, as it was first presented; one that a reset dropped was never carried out.
The bytes of the memory change by the writes that the log says were carried out, and by direct
access only.
-/

namespace CellularCoprocessor

inductive BusEntry where
  | presented (q : Request)
  | performed (q : Request)
  | consumed (q : Request)
  | dropped (q : Request)

inductive Transaction where
  | served (q : Request)
  | dropped (q : Request)

def Transaction.entries : Transaction → List BusEntry
  | served q => [.presented q, .performed q, .consumed q]
  | dropped q => [.presented q, .dropped q]

/-- The bytes of the memory after an entry. -/
def BusEntry.applied (bytes : UInt64 → UInt8) : BusEntry → UInt64 → UInt8
  | performed ⟨address, .write w⟩ => Memory.replaceWord bytes address.toUInt64 w
  | _ => bytes

namespace Bus

def accesses (p : Bus) : Nat :=
  p.reads + p.writes

theorem accesses_perform (p : Bus) (q : Request) :
    (p.perform q).2.accesses = p.accesses + 1 := by
  rw [perform]
  split <;> simp only [accesses] <;> omega

theorem readByte_perform (p : Bus) (q : Request) :
    (p.perform q).2.memory.readByte = (BusEntry.performed q).applied p.memory.readByte := by
  obtain ⟨address, access⟩ := q
  cases access with
  | read => rfl
  | write w => exact Memory.readByte_writeWord p.memory address.toUInt64 w

end Bus

namespace Engine

variable {e : Engine} {q : Request}

/-- The request that the bus attends to: the one in flight, else the one presented. -/
def attended (e : Engine) : Option Request :=
  (e.bus.inFlight.map InFlight.request).or e.controller.request

def Move.withdrawal : Move → Request → BusEntry
  | .reset, q => .dropped q
  | _, q => .consumed q

/-- A request that changes counts as withdrawn and as presented anew. -/
def requestEntries (e : Engine) (m : Move) : List BusEntry :=
  match e.controller.request, (e.move m).controller.request with
  | none, none => []
  | none, some r => [.presented r]
  | some q, none => [m.withdrawal q]
  | some q, some r => if q = r then [] else [m.withdrawal q, .presented r]

def accessEntries (e : Engine) (m : Move) : List BusEntry :=
  if (e.move m).bus.accesses = e.bus.accesses then [] else e.attended.toList.map .performed

def log (e : Engine) : List Move → List BusEntry
  | [] => []
  | m :: moves => e.accessEntries m ++ e.requestEntries m ++ (e.move m).log moves

def openEntries (e : Engine) : List BusEntry :=
  e.controller.request.toList.map .presented

/-- The controller takes the answer to its request in the coming cycle. -/
def Consumes (e : Engine) (q : Request) : Prop :=
  e.controller.request = some q ∧ e.step.2.controller.request = none

/-- In the coming cycle the bus carries out what the controller consumes, and nothing else. A read
hands over the word at its address and changes no byte; a write replaces the word at its address and
changes no other byte. -/
structure ServesExactly (e : Engine) : Prop where
  counted : e.step.2.bus.accesses = e.bus.accesses + 1 ↔ ∃ q, e.Consumes q
  served : ∀ q, e.Consumes q → e.step.2.bus = (e.bus.perform q).2 ∧
    e.step.2.controller = (e.controller.advance (e.bus.perform q).1).2
  read : ∀ a, e.Consumes (.read a) →
    e.step.2.controller = (e.controller.advance
      (.answer (Memory.wordIn e.memory.readByte a.toUInt64))).2 ∧
    e.step.2.memory.readByte = e.memory.readByte ∧
    e.step.2.bus.reads = e.bus.reads + 1 ∧ e.step.2.bus.writes = e.bus.writes
  written : ∀ a w, e.Consumes (.write a w) →
    e.step.2.memory.readByte = Memory.replaceWord e.memory.readByte a.toUInt64 w ∧
    e.step.2.bus.reads = e.bus.reads ∧ e.step.2.bus.writes = e.bus.writes + 1
  unserved : (¬ ∃ q, e.Consumes q) → e.step.2.bus.memory = e.bus.memory ∧
    e.step.2.bus.reads = e.bus.reads ∧ e.step.2.bus.writes = e.bus.writes

/-- Presenting an instruction leaves the bus alone, whether it is accepted or not. -/
theorem bus_move_issue (e : Engine) (i : Instruction) : (e.move (.issue i)).bus = e.bus := by
  cases hIssue : e.issue i with
  | error refusal => rw [move_of_refused hIssue]
  | ok issued =>
    obtain ⟨c, _, hEngine⟩ := issue_ok_iff.mp hIssue
    simp only [move, hIssue, hEngine, settle_bus]

theorem latency_move (e : Engine) (m : Move) : (e.move m).bus.latency = e.bus.latency := by
  cases m with
  | issue i => rw [bus_move_issue]
  | step =>
    simp only [move, step, settle_bus]
    exact Bus.latency_respond _ _
  | _ => rfl

theorem Coherent.bus_step_quiet (h : e.Coherent) (hRequest : e.controller.request = none) :
    e.step.2.bus = e.bus := by
  rw [h.step_quiet hRequest, settle_bus]

theorem Coherent.bus_step_serving (h : e.Coherent) (hRequest : e.controller.request = some q)
    (hWait : e.bus.wait = 0) : e.step.2.bus = (e.bus.perform q).2 := by
  rw [h.step_serving hRequest hWait, settle_bus]

/-- In the coming cycle the bus carries out the request that it attends to, and the controller takes
the answer. -/
structure Serves (e : Engine) (q : Request) : Prop where
  consumed : e.Consumes q
  attended : e.attended = some q
  bus : e.step.2.bus = (e.bus.perform q).2
  controller : e.step.2.controller = (e.controller.advance (e.bus.perform q).1).2

/-- In the coming cycle the bus carries out nothing, and a request stays presented. -/
structure Waits (e : Engine) : Prop where
  request : e.controller.request = none ∨ e.step.2.controller.request = e.controller.request
  memory : e.step.2.memory = e.memory
  reads : e.step.2.bus.reads = e.bus.reads
  writes : e.step.2.bus.writes = e.bus.writes

theorem Coherent.serves_of_wait (h : e.Coherent) (hRequest : e.controller.request = some q)
    (hWait : e.bus.wait = 0) : e.Serves q := by
  have hController : e.step.2.controller = (e.controller.advance (e.bus.perform q).1).2 := by
    rw [h.step_serving hRequest hWait, settle_controller]
  refine ⟨⟨hRequest, ?_⟩, ?_, h.bus_step_serving hRequest hWait, hController⟩
  · rw [hController]
    exact h.controller.request_advance_of_ready hRequest (Bus.ready_perform _ _)
  · rw [attended, hRequest]
    cases hFlight : e.bus.inFlight with
    | none => rfl
    | some t => simp [h.request_of_inFlight hRequest t hFlight]

/-- All that a cycle can do on the bus. -/
theorem Coherent.serves_or_waits (h : e.Coherent) : (∃ q, e.Serves q) ∨ e.Waits := by
  cases hRequest : e.controller.request with
  | none =>
    have hBus := h.bus_step_quiet hRequest
    exact .inr ⟨.inl hRequest, congrArg Bus.memory hBus, congrArg Bus.reads hBus,
      congrArg Bus.writes hBus⟩
  | some q =>
    cases hWait : e.bus.wait with
    | zero => exact .inl ⟨q, h.serves_of_wait hRequest hWait⟩
    | succ n =>
      have hStep := h.step_waiting hRequest hWait
      refine .inr ⟨.inr ?_, ?_, ?_, ?_⟩ <;> rw [hStep] <;> rfl

theorem Waits.not_consumes (h : e.Waits) : ¬ ∃ q, e.Consumes q := by
  rintro ⟨q, hSome, hGone⟩
  rcases h.request with hNone | hKept
  · cases hNone.symm.trans hSome
  · cases hGone.symm.trans (hKept.trans hSome)

theorem Waits.accesses (h : e.Waits) : e.step.2.bus.accesses = e.bus.accesses := by
  rw [Bus.accesses, Bus.accesses, h.reads, h.writes]

theorem Waits.servesExactly (h : e.Waits) : e.ServesExactly where
  counted := by
    rw [h.accesses]
    exact ⟨fun hCount => absurd hCount (Nat.ne_of_lt (Nat.lt_succ_self _)),
      fun hSome => absurd hSome h.not_consumes⟩
  served _ hConsumes := absurd ⟨_, hConsumes⟩ h.not_consumes
  read _ hConsumes := absurd ⟨_, hConsumes⟩ h.not_consumes
  written _ _ hConsumes := absurd ⟨_, hConsumes⟩ h.not_consumes
  unserved _ := ⟨h.memory, h.reads, h.writes⟩

theorem Serves.memory (h : e.Serves q) : e.step.2.memory = (e.bus.perform q).2.memory :=
  congrArg Bus.memory h.bus

theorem Serves.servesExactly (h : e.Serves q) : e.ServesExactly := by
  have hOnly : ∀ r, e.Consumes r → r = q := fun r hOther =>
    Option.some.inj (hOther.1.symm.trans h.consumed.1)
  refine ⟨?_, ?_, ?_, ?_, ?_⟩
  · rw [h.bus, Bus.accesses_perform]
    exact ⟨fun _ => ⟨q, h.consumed⟩, fun _ => rfl⟩
  · intro r hOther
    obtain rfl := hOnly r hOther
    exact ⟨h.bus, h.controller⟩
  · intro a hRead
    obtain rfl := hOnly _ hRead
    rw [h.controller, h.memory, h.bus, Bus.readByte_perform, Bus.perform_read, Memory.peekWord_eq]
    exact ⟨rfl, rfl, rfl, rfl⟩
  · intro a w hWrite
    obtain rfl := hOnly _ hWrite
    rw [h.memory, h.bus, Bus.readByte_perform, Bus.perform_write]
    exact ⟨rfl, rfl, rfl⟩
  · exact fun hNone => absurd ⟨q, h.consumed⟩ hNone

theorem Coherent.servesExactly (h : e.Coherent) : e.ServesExactly := by
  rcases h.serves_or_waits with ⟨q, hServes⟩ | hWaits
  · exact hServes.servesExactly
  · exact hWaits.servesExactly

theorem accessEntries_of_kept {m : Move} (hAccesses : (e.move m).bus.accesses = e.bus.accesses) :
    e.accessEntries m = [] :=
  if_pos hAccesses

theorem Serves.accessEntries (h : e.Serves q) : e.accessEntries .step = [.performed q] := by
  have hAccesses : (e.move .step).bus.accesses ≠ e.bus.accesses := by
    simp only [move, h.bus, Bus.accesses_perform]
    omega
  rw [Engine.accessEntries, if_neg hAccesses, h.attended]
  rfl

theorem applied_withdrawal (bytes : UInt64 → UInt8) (m : Move) (q : Request) :
    (m.withdrawal q).applied bytes = bytes := by
  cases m <;> rfl

/-- Requests that come and go change no byte. -/
theorem foldl_applied_requestEntries (e : Engine) (m : Move) (bytes : UInt64 → UInt8) :
    (e.requestEntries m).foldl BusEntry.applied bytes = bytes := by
  rw [requestEntries]
  split
  · rfl
  · rfl
  · exact applied_withdrawal bytes m _
  · split
    · rfl
    · exact applied_withdrawal bytes m _

theorem readByte_of_kept {m : Move} (hAccesses : (e.move m).bus.accesses = e.bus.accesses)
    (hMemory : (e.move m).memory = e.memory) :
    (e.move m).memory.readByte =
      (e.accessEntries m).foldl BusEntry.applied e.memory.readByte := by
  rw [accessEntries_of_kept hAccesses, hMemory]
  rfl

theorem Coherent.readByte_step (h : e.Coherent) :
    (e.move .step).memory.readByte =
      (e.accessEntries .step).foldl BusEntry.applied e.memory.readByte := by
  rcases h.serves_or_waits with ⟨q, hServes⟩ | hWaits
  · rw [hServes.accessEntries, move, hServes.memory, Bus.readByte_perform]
    rfl
  · exact readByte_of_kept hWaits.accesses hWaits.memory

theorem Coherent.readByte_move (h : e.Coherent) {m : Move} (hMove : ∀ f, .access f ≠ m) :
    (e.move m).memory.readByte =
      (e.accessEntries m).foldl BusEntry.applied e.memory.readByte := by
  cases m with
  | issue i =>
    have hBus := bus_move_issue e i
    exact readByte_of_kept (congrArg Bus.accesses hBus) (congrArg Bus.memory hBus)
  | step => exact h.readByte_step
  | access f => exact absurd rfl (hMove f)
  | _ => exact readByte_of_kept rfl rfl

theorem Coherent.readByte_moveAll (h : e.Coherent) {moves : List Move}
    (hMoves : ∀ f, .access f ∉ moves) :
    (e.moveAll moves).memory.readByte =
      (e.log moves).foldl BusEntry.applied e.memory.readByte := by
  induction moves generalizing e with
  | nil => rfl
  | cons m moves ih =>
    have hFirst : ∀ f, .access f ≠ m := fun f => List.ne_of_not_mem_cons (hMoves f)
    have hRest : ∀ f, .access f ∉ moves := fun f => List.not_mem_of_not_mem_cons (hMoves f)
    rw [moveAll_cons, ih (h.coherent_move m) hRest, h.readByte_move hFirst, log, List.foldl_append,
      List.foldl_append, foldl_applied_requestEntries]

/-- The log is made of finished transactions, with the one under way at its end. -/
def Transacted (e : Engine) (m : Move) : Prop :=
  ∃ transactions : List Transaction,
    e.openEntries ++ (e.accessEntries m ++ e.requestEntries m) =
      transactions.flatMap Transaction.entries ++ (e.move m).openEntries

theorem transacted_of_kept {m : Move} (hAccesses : (e.move m).bus.accesses = e.bus.accesses)
    (hRequest : (e.move m).controller.request = e.controller.request) : e.Transacted m := by
  refine ⟨[], ?_⟩
  cases hBefore : e.controller.request <;>
    simp [openEntries, accessEntries_of_kept hAccesses, requestEntries, hRequest, hBefore]

theorem transacted_of_free {m : Move} (hAccesses : (e.move m).bus.accesses = e.bus.accesses)
    (hRequest : e.controller.request = none) : e.Transacted m := by
  refine ⟨[], ?_⟩
  cases hAfter : (e.move m).controller.request <;>
    simp [openEntries, accessEntries_of_kept hAccesses, requestEntries, hRequest, hAfter]

theorem Coherent.transacted_step (h : e.Coherent) : e.Transacted .step := by
  rcases h.serves_or_waits with ⟨q, hServes⟩ | hWaits
  · have hRequest : e.controller.request = some q := hServes.consumed.1
    have hGone : (e.move .step).controller.request = none := hServes.consumed.2
    refine ⟨[.served q], ?_⟩
    simp [openEntries, hServes.accessEntries, requestEntries, hRequest, hGone,
      Transaction.entries, Move.withdrawal]
  · rcases hWaits.request with hNone | hKept
    · exact transacted_of_free hWaits.accesses hNone
    · exact transacted_of_kept hWaits.accesses hKept

theorem Coherent.transacted_issue (h : e.Coherent) (i : Instruction) : e.Transacted (.issue i) := by
  have hAccesses := congrArg Bus.accesses (bus_move_issue e i)
  cases hIssue : e.issue i with
  | error refusal => exact transacted_of_kept hAccesses (by rw [move_of_refused hIssue])
  | ok issued =>
    obtain ⟨c, hController, _⟩ := issue_ok_iff.mp hIssue
    have hIdle := (Controller.issue_ok_iff.mp hController).1
    exact transacted_of_free hAccesses (h.controller.idle hIdle).request

theorem transacted_reset (e : Engine) : e.Transacted .reset := by
  have hGone : (e.move .reset).controller.request = none := rfl
  cases hRequest : e.controller.request with
  | none => exact transacted_of_free rfl hRequest
  | some q =>
    have hAccesses : e.accessEntries .reset = [] := accessEntries_of_kept rfl
    refine ⟨[.dropped q], ?_⟩
    simp [openEntries, hAccesses, requestEntries, hRequest, hGone, Transaction.entries,
      Move.withdrawal]

theorem Coherent.transacted (h : e.Coherent) (m : Move) : e.Transacted m := by
  cases m with
  | issue i => exact h.transacted_issue i
  | step => exact h.transacted_step
  | reset => exact transacted_reset e
  | _ => exact transacted_of_kept rfl rfl

theorem Coherent.log_eq (h : e.Coherent) (moves : List Move) :
    ∃ transactions : List Transaction,
      e.openEntries ++ e.log moves =
        transactions.flatMap Transaction.entries ++ (e.moveAll moves).openEntries := by
  -- What the first move leaves open is what the log of the other moves begins with.
  induction moves generalizing e with
  | nil => exact ⟨[], by simp [log]⟩
  | cons m moves ih =>
    obtain ⟨first, hFirst⟩ := h.transacted m
    obtain ⟨rest, hRest⟩ := ih (h.coherent_move m)
    refine ⟨first ++ rest, ?_⟩
    calc
      e.openEntries ++ e.log (m :: moves) =
          (e.openEntries ++ (e.accessEntries m ++ e.requestEntries m)) ++ (e.move m).log moves := by
        simp only [log, List.append_assoc]
      _ = first.flatMap Transaction.entries ++ ((e.move m).openEntries ++ (e.move m).log moves) := by
        rw [hFirst, List.append_assoc]
      _ = (first ++ rest).flatMap Transaction.entries ++ (e.moveAll (m :: moves)).openEntries := by
        rw [hRest, List.flatMap_append, List.append_assoc, moveAll_cons]

theorem latency_actAll_fresh (memory : Memory) (latency timeout : Nat) (actions : List Action) :
    ((fresh memory latency timeout).actAll actions).bus.latency = latency := by
  rw [← moveAll_allMoves]
  apply moveAll_induction (P := fun e => e.bus.latency = latency)
  · intro e m he
    rw [latency_move, he]
  · rfl

/-- However a new engine is used, the transaction in flight is the request being presented, each
cycle serves exactly the request that the controller consumes in it, the log of the whole run is a
sequence of transactions, and from any point on the bytes of the memory are what the logged writes
make of them, until the memory is accessed directly. -/
theorem transactions_actAll (memory : Memory) (latency timeout : Nat) (actions : List Action) :
    let start := fresh memory latency timeout
    let e := start.actAll actions
    (∀ t, e.bus.inFlight = some t →
      e.controller.request = some t.request ∧ t.remaining < latency) ∧
    (e.controller.request = none → e.bus.isBusy = false) ∧
    (e.controller.isIdle = true → e.controller.request = none) ∧
    e.ServesExactly ∧
    start.moveAll (start.allMoves actions) = e ∧
    (∃ transactions : List Transaction,
      start.log (start.allMoves actions) =
        transactions.flatMap Transaction.entries ++ e.openEntries) ∧
    ∀ moves : List Move, (∀ f, .access f ∉ moves) →
      (e.moveAll moves).memory.readByte =
        (e.log moves).foldl BusEntry.applied e.memory.readByte := by
  intro start e
  have hReachable : e.Reachable := ⟨memory, latency, timeout, actions, rfl⟩
  have hCoherent := hReachable.coherent
  refine ⟨?_, ?_, ?_, hCoherent.servesExactly,
    moveAll_allMoves start actions, ?_, fun moves hMoves => hCoherent.readByte_moveAll hMoves⟩
  · intro t hFlight
    rw [← latency_actAll_fresh memory latency timeout actions]
    exact hCoherent.inFlight t hFlight
  · intro hRequest
    rw [Bus.isBusy, hCoherent.inFlight_eq_none hRequest]
    rfl
  · intro hIdle
    exact (hCoherent.controller.idle (of_decide_eq_true hIdle)).request
  · obtain ⟨transactions, hLog⟩ :=
      (coherent_fresh memory latency timeout).log_eq (start.allMoves actions)
    refine ⟨transactions, ?_⟩
    rw [moveAll_allMoves] at hLog
    exact hLog

end Engine

end CellularCoprocessor
