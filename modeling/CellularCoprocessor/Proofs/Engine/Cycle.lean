import CellularCoprocessor.Proofs.Controller.Answers
import CellularCoprocessor.Proofs.Engine.Moves

/-!
# Clock cycles

A cycle of an engine is of one of three kinds. In a quiet cycle no request is presented, and the
bus takes no part. In a waiting cycle the bus has not finished, and the controller stands still.
In a serving cycle the bus carries out the presented request, and the controller takes the answer.
-/

namespace CellularCoprocessor

namespace Bus

/-- The cycles after this one until a presented request is answered. -/
def wait (p : Bus) : Nat :=
  match p.inFlight with
  | some t => t.remaining
  | none => p.latency

theorem wait_of_free {p : Bus} (hFree : p.inFlight = none) : p.wait = p.latency := by
  rw [wait, hFree]

theorem respond_none {p : Bus} (hFree : p.inFlight = none) : p.respond none = (.idle, p) := by
  simp [respond, hFree]

theorem respond_waiting {p : Bus} {q : Request} {n : Nat}
    (hRequest : ∀ t, p.inFlight = some t → t.request = q) (hWait : p.wait = n + 1) :
    p.respond (some q) = (.idle, { p with inFlight := some ⟨q, n⟩ }) := by
  obtain ⟨memory, latency, inFlight, reads, writes⟩ := p
  cases inFlight with
  | none =>
    have hLatency : latency = n + 1 := hWait
    simp [respond, hLatency]
  | some t =>
    obtain ⟨r, remaining⟩ := t
    have hSame : r = q := hRequest _ rfl
    have hRemaining : remaining = n + 1 := hWait
    simp [respond, hSame, hRemaining]

theorem respond_serving {p : Bus} {q : Request}
    (hRequest : ∀ t, p.inFlight = some t → t.request = q) (hWait : p.wait = 0) :
    p.respond (some q) = p.perform q := by
  obtain ⟨memory, latency, inFlight, reads, writes⟩ := p
  cases inFlight with
  | none =>
    have hLatency : latency = 0 := hWait
    simp [respond, hLatency]
  | some t =>
    obtain ⟨r, remaining⟩ := t
    have hSame : r = q := hRequest _ rfl
    have hRemaining : remaining = 0 := hWait
    simp [respond, hSame, hRemaining]

theorem perform_read (p : Bus) (a : UInt32) :
    p.perform (.read a) = (.answer (p.memory.peekWord a.toUInt64),
      { p with
        memory := (p.memory.readWord a.toUInt64).2
        inFlight := none
        reads := p.reads + 1 }) :=
  rfl

theorem perform_write (p : Bus) (a : UInt32) (w : UInt64) :
    p.perform (.write a w) = (.answer 0,
      { p with
        memory := p.memory.writeWord a.toUInt64 w
        inFlight := none
        writes := p.writes + 1 }) :=
  rfl

theorem ready_perform (p : Bus) (q : Request) : (p.perform q).1.ready = true := by
  rw [perform]
  split <;> rfl

theorem inFlight_perform (p : Bus) (q : Request) : (p.perform q).2.inFlight = none := by
  rw [perform]
  split <;> rfl

theorem latency_perform (p : Bus) (q : Request) : (p.perform q).2.latency = p.latency := by
  rw [perform]
  split <;> rfl

theorem latency_respond (p : Bus) (presented : Option Request) :
    (p.respond presented).2.latency = p.latency := by
  rw [respond.eq_def]
  split
  · exact latency_perform p _
  · rfl
  · rfl
  · split
    · exact latency_perform p _
    · rfl

end Bus

namespace Engine

@[simp] theorem settle_controller (e : Engine) (signals : Signals) :
    (e.settle signals).controller = e.controller := by
  rw [settle]
  split <;> rfl

@[simp] theorem settle_bus (e : Engine) (signals : Signals) :
    (e.settle signals).bus = e.bus := by
  rw [settle]
  split <;> rfl

@[simp] theorem settle_timeout (e : Engine) (signals : Signals) :
    (e.settle signals).timeout = e.timeout := by
  rw [settle]
  split <;> rfl

@[simp] theorem settle_cycles (e : Engine) (signals : Signals) :
    (e.settle signals).cycles = e.cycles + 1 := by
  rw [settle]
  split <;> rfl

@[simp] theorem settle_timeouts (e : Engine) (signals : Signals) :
    (e.settle signals).timeouts = e.timeouts := by
  rw [settle]
  split <;> rfl

theorem settle_instructions (e : Engine) (signals : Signals) :
    (e.settle signals).instructions = e.instructions + if signals.ready then 1 else 0 := by
  rw [settle]
  split <;> simp_all [retire]

theorem settle_completed (e : Engine) (signals : Signals) :
    (e.settle signals).completed =
      if signals.ready then tallied e.completed e.controller.operation else e.completed := by
  rw [settle]
  split <;> simp_all [retire]

/-- The transaction in flight is the request that the controller presents. -/
structure Coherent (e : Engine) : Prop where
  controller : e.controller.Coherent
  inFlight : ∀ t, e.bus.inFlight = some t →
    e.controller.request = some t.request ∧ t.remaining < e.bus.latency

variable {e : Engine} {q : Request}

theorem Coherent.request_of_inFlight (h : e.Coherent) (hRequest : e.controller.request = some q)
    (t : InFlight) (hFlight : e.bus.inFlight = some t) : t.request = q :=
  Option.some.inj ((h.inFlight t hFlight).1.symm.trans hRequest)

theorem Coherent.inFlight_eq_none (h : e.Coherent) (hRequest : e.controller.request = none) :
    e.bus.inFlight = none := by
  cases hFlight : e.bus.inFlight with
  | none => rfl
  | some t => cases hRequest.symm.trans (h.inFlight t hFlight).1

theorem Coherent.step_quiet (h : e.Coherent) (hRequest : e.controller.request = none) :
    e.step = ((e.controller.advance .idle).1,
      { e with controller := (e.controller.advance .idle).2 }.settle
        (e.controller.advance .idle).1) := by
  rw [step, hRequest, Bus.respond_none (h.inFlight_eq_none hRequest)]

theorem Coherent.step_waiting (h : e.Coherent) (hRequest : e.controller.request = some q)
    {n : Nat} (hWait : e.bus.wait = n + 1) :
    e.step = (.busy,
      { e with
        controller := e.controller.lowerReady
        bus := { e.bus with inFlight := some ⟨q, n⟩ }
        cycles := e.cycles + 1 }) := by
  rw [step, hRequest, Bus.respond_waiting (h.request_of_inFlight hRequest) hWait]
  simp only [h.controller.advance_of_not_ready hRequest (r := .idle) rfl]
  rfl

theorem Coherent.step_serving (h : e.Coherent) (hRequest : e.controller.request = some q)
    (hWait : e.bus.wait = 0) :
    e.step = ((e.controller.advance (e.bus.perform q).1).1,
      { e with
        controller := (e.controller.advance (e.bus.perform q).1).2
        bus := (e.bus.perform q).2 }.settle (e.controller.advance (e.bus.perform q).1).1) := by
  rw [step, hRequest, Bus.respond_serving (h.request_of_inFlight hRequest) hWait]

theorem controller_step (e : Engine) :
    e.step.2.controller = (e.controller.advance (e.bus.respond e.controller.request).1).2 := by
  simp [step]

theorem Coherent.coherent_step (h : e.Coherent) : e.step.2.Coherent := by
  have hController : e.step.2.controller.Coherent := by
    rw [controller_step]
    exact h.controller.coherent_advance _
  refine ⟨hController, ?_⟩
  intro t hFlight
  cases hRequest : e.controller.request with
  | none =>
    rw [h.step_quiet hRequest] at hFlight
    simp only [settle_bus, h.inFlight_eq_none hRequest] at hFlight
    cases hFlight
  | some q =>
    cases hWait : e.bus.wait with
    | zero =>
      rw [h.step_serving hRequest hWait] at hFlight
      simp only [settle_bus, Bus.inFlight_perform] at hFlight
      cases hFlight
    | succ n =>
      have hLess : n < e.bus.latency := by
        rw [Bus.wait] at hWait
        cases hBefore : e.bus.inFlight with
        | none =>
          simp only [hBefore] at hWait
          omega
        | some t =>
          have hRemaining := (h.inFlight t hBefore).2
          simp only [hBefore] at hWait
          omega
      rw [h.step_waiting hRequest hWait] at hFlight ⊢
      cases hFlight
      exact ⟨hRequest, hLess⟩

theorem issue_ok_iff {i : Instruction} {signals : Signals} {t : Engine} :
    e.issue i = .ok (signals, t) ↔ ∃ controller,
      e.controller.issue i = .ok (signals, controller) ∧
        t = { e with controller }.settle signals := by
  rw [issue]
  cases hIssue : e.controller.issue i with
  | error refusal => simp
  | ok issued =>
    obtain ⟨s, controller⟩ := issued
    constructor
    · intro h
      cases h
      exact ⟨controller, rfl, rfl⟩
    · rintro ⟨d, hd, rfl⟩
      cases hd
      rfl

theorem issue_error_iff {i : Instruction} {refusal : Refusal Engine} :
    e.issue i = .error refusal ↔
      e.controller.phase ≠ .idle ∧ refusal = ⟨⟨e.controller.phase⟩, e⟩ := by
  rw [issue]
  cases hIssue : e.controller.issue i with
  | error refused =>
    obtain ⟨hBusy, rfl⟩ := Controller.issue_error_iff.mp hIssue
    simp [hBusy, eq_comm]
  | ok issued =>
    have hIdle := (Controller.issue_ok_iff.mp hIssue).1
    simp [hIdle]

theorem move_of_refused {i : Instruction} {refusal : Refusal Engine}
    (hIssue : e.issue i = .error refusal) : e.move (.issue i) = e := by
  obtain ⟨_, rfl⟩ := issue_error_iff.mp hIssue
  simp only [move, hIssue]

theorem Coherent.coherent_issue (h : e.Coherent) {i : Instruction} {signals : Signals} {t : Engine}
    (hIssue : e.issue i = .ok (signals, t)) : t.Coherent := by
  obtain ⟨c, hController, rfl⟩ := issue_ok_iff.mp hIssue
  have hIdle := (Controller.issue_ok_iff.mp hController).1
  have hFree := h.inFlight_eq_none (h.controller.idle hIdle).request
  refine ⟨?_, ?_⟩
  · rw [settle_controller]
    exact h.controller.coherent_issue hController
  · intro t hFlight
    rw [settle_bus] at hFlight
    cases hFree.symm.trans hFlight

theorem coherent_fresh (memory : Memory) (latency timeout : Nat) :
    (fresh memory latency timeout).Coherent where
  controller := Controller.coherent_initial
  inFlight t hFlight := by cases hFlight

theorem Coherent.coherent_move (h : e.Coherent) (m : Move) : (e.move m).Coherent := by
  cases m with
  | issue i =>
    cases hIssue : e.issue i with
    | error refusal =>
      rw [move_of_refused hIssue]
      exact h
    | ok issued =>
      simp only [move, hIssue]
      exact h.coherent_issue hIssue
  | step => exact h.coherent_step
  | reset => exact ⟨Controller.coherent_initial, fun t hFlight => by cases hFlight⟩
  | access f => exact ⟨h.controller, h.inFlight⟩
  | limit timeout => exact ⟨h.controller, h.inFlight⟩
  | expire => exact ⟨h.controller, h.inFlight⟩

theorem Reachable.coherent (h : e.Reachable) : e.Coherent :=
  h.induction coherent_fresh fun _ m he => he.coherent_move m

end Engine

end CellularCoprocessor
