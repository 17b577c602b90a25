import CellularCoprocessor.Proofs.Engine.Transactions
import CellularCoprocessor.Proofs.Memory.Bytes

/-!
# Service on time

A bus may be presented anything in any cycle, and it may be reset and its memory used directly
between the cycles. It carries out a request that it accepts exactly one latency later, as the
request was when it was accepted, and answers in no other cycle.
-/

namespace CellularCoprocessor.Bus

/-- What a bus meets in one clock cycle, and what is done with it just before. -/
structure Tick where
  reset : Bool
  /-- The direct uses of the memory. -/
  access : Memory → Memory
  presented : Option Request

def prepare (p : Bus) (tick : Tick) : Bus :=
  let p := if tick.reset then p.reset else p
  { p with memory := tick.access p.memory }

/-- The bus at the start of a cycle. -/
def start (p : Bus) (ticks : Nat → Tick) : Nat → Bus
  | 0 => p.prepare (ticks 0)
  | t + 1 => ((p.start ticks t).respond (ticks t).presented).2.prepare (ticks (t + 1))

/-- The answer in a cycle, with the bus at the end of it. -/
def cycle (p : Bus) (ticks : Nat → Tick) (t : Nat) : Response × Bus :=
  (p.start ticks t).respond (ticks t).presented

/-- The request is presented while no transaction is in flight. -/
structure Accepts (p : Bus) (ticks : Nat → Tick) (t : Nat) (q : Request) : Prop where
  free : (p.start ticks t).inFlight = none
  presented : (ticks t).presented = some q

/-- There is no reset after the cycle `s` and up to the cycle `t`. -/
def Undisturbed (ticks : Nat → Tick) (s t : Nat) : Prop :=
  ∀ u, s < u → u ≤ t → (ticks u).reset = false

/-- What was accepted in the cycle `s` is carried out in the cycle `t`. -/
structure Serves (p : Bus) (ticks : Nat → Tick) (s t : Nat) (q : Request) : Prop where
  accepted : p.Accepts ticks s q
  undisturbed : Undisturbed ticks s t
  time : t = s + p.latency

section Respond

variable {p : Bus} {q : Request} {n : Nat}

theorem respond_due (hFlight : p.inFlight = some ⟨q, 0⟩) (presented : Option Request) :
    p.respond presented = p.perform q := by
  simp only [respond, hFlight]

theorem respond_counting (hFlight : p.inFlight = some ⟨q, n + 1⟩) (presented : Option Request) :
    p.respond presented = (.idle, { p with inFlight := some ⟨q, n⟩ }) := by
  simp only [respond, hFlight]

theorem respond_at_once (hFree : p.inFlight = none) (hLatency : p.latency = 0) :
    p.respond (some q) = p.perform q := by
  simp only [respond, hFree, hLatency]

theorem respond_latching (hFree : p.inFlight = none) (hLatency : p.latency = n + 1) :
    p.respond (some q) = (.idle, { p with inFlight := some ⟨q, n⟩ }) := by
  simp only [respond, hFree, hLatency]

/-- A cycle carries out one request and reports it, or it changes nothing but the transaction in
flight. -/
theorem respond_cases (p : Bus) (presented : Option Request) :
    (∃ q, p.respond presented = p.perform q ∧
      (p.inFlight = some ⟨q, 0⟩ ∨
        p.inFlight = none ∧ presented = some q ∧ p.latency = 0)) ∨
    ∃ inFlight, p.respond presented = (.idle, { p with inFlight }) := by
  rcases hFlight : p.inFlight with _ | ⟨q, _ | n⟩
  · rcases presented with _ | q
    · exact .inr ⟨none, by rw [respond_none hFlight, ← hFlight]⟩
    · by_cases hLatency : p.latency = 0
      · exact .inl ⟨q, respond_at_once hFlight hLatency, .inr ⟨rfl, rfl, hLatency⟩⟩
      · obtain ⟨n, hMore⟩ := Nat.exists_eq_succ_of_ne_zero hLatency
        exact .inr ⟨_, respond_latching hFlight hMore⟩
  · exact .inl ⟨q, respond_due hFlight presented, .inl rfl⟩
  · exact .inr ⟨_, respond_counting hFlight presented⟩

theorem accesses_respond (p : Bus) (presented : Option Request) :
    (p.respond presented).2.accesses =
      p.accesses + if (p.respond presented).1.ready then 1 else 0 := by
  rcases p.respond_cases presented with ⟨q, hRespond, _⟩ | ⟨inFlight, hRespond⟩
  · rw [hRespond, accesses_perform, ready_perform, if_pos rfl]
  · rw [hRespond]
    rfl

end Respond

section Stream

variable {p : Bus} {ticks : Nat → Tick} {s t : Nat} {q : Request}

theorem Undisturbed.mono {u : Nat} (h : Undisturbed ticks s t) (hu : u ≤ t) :
    Undisturbed ticks s u :=
  fun v hAfter hBefore => h v hAfter (Nat.le_trans hBefore hu)

theorem Undisturbed.succ (h : Undisturbed ticks s t) (hReset : (ticks (t + 1)).reset = false) :
    Undisturbed ticks s (t + 1) := by
  intro u hAfter hBefore
  rcases Nat.lt_or_eq_of_le hBefore with hLess | rfl
  · exact h u hAfter (Nat.le_of_lt_succ hLess)
  · exact hReset

theorem start_succ (p : Bus) (ticks : Nat → Tick) (t : Nat) :
    p.start ticks (t + 1) = (p.cycle ticks t).2.prepare (ticks (t + 1)) :=
  rfl

theorem latency_prepare (p : Bus) (tick : Tick) : (p.prepare tick).latency = p.latency := by
  simp only [prepare]
  split <;> rfl

theorem accesses_prepare (p : Bus) (tick : Tick) : (p.prepare tick).accesses = p.accesses := by
  simp only [prepare]
  split <;> rfl

theorem reads_prepare (p : Bus) (tick : Tick) : (p.prepare tick).reads = p.reads := by
  simp only [prepare]
  split <;> rfl

theorem writes_prepare (p : Bus) (tick : Tick) : (p.prepare tick).writes = p.writes := by
  simp only [prepare]
  split <;> rfl

theorem memory_prepare (p : Bus) (tick : Tick) :
    (p.prepare tick).memory = tick.access p.memory := by
  simp only [prepare]
  split <;> rfl

theorem inFlight_prepare (p : Bus) (tick : Tick) :
    (p.prepare tick).inFlight = if tick.reset then none else p.inFlight := by
  simp only [prepare]
  split <;> rfl

theorem latency_start (p : Bus) (ticks : Nat → Tick) (t : Nat) :
    (p.start ticks t).latency = p.latency := by
  induction t with
  | zero => exact latency_prepare _ _
  | succ t ih => rw [start, latency_prepare, latency_respond, ih]

theorem accesses_start (p : Bus) (ticks : Nat → Tick) (t : Nat) :
    (p.start ticks t).accesses =
      p.accesses + (List.range t).countP fun u => (p.cycle ticks u).1.ready := by
  induction t with
  | zero => exact accesses_prepare _ _
  | succ t ih =>
    rw [start_succ, accesses_prepare, cycle, accesses_respond, ih, List.range_succ,
      List.countP_append, List.countP_singleton, Nat.add_assoc]
    rfl

/-- What is in flight was accepted, and the cycles it still waits lead to the end of the latency. -/
theorem exists_accepts_of_inFlight (hFree : p.inFlight = none) {n : Nat}
    (hFlight : (p.start ticks t).inFlight = some ⟨q, n⟩) :
    ∃ s, s < t ∧ p.Accepts ticks s q ∧ Undisturbed ticks s t ∧ t + n = s + p.latency := by
  induction t generalizing n with
  | zero =>
    rw [start, inFlight_prepare, hFree, ite_self] at hFlight
    cases hFlight
  | succ t ih =>
    rw [start_succ, inFlight_prepare, cycle] at hFlight
    split at hFlight
    · cases hFlight
    · rename_i hReset
      rw [Bool.not_eq_true] at hReset
      rcases hBefore : (p.start ticks t).inFlight with _ | ⟨r, _ | k⟩
      · rcases hPresented : (ticks t).presented with _ | r
        · rw [hPresented, respond_none hBefore, hBefore] at hFlight
          cases hFlight
        · rcases hLatency : p.latency with _ | k
          · rw [hPresented, respond_at_once hBefore ((latency_start p ticks t).trans hLatency),
              inFlight_perform] at hFlight
            cases hFlight
          · rw [hPresented,
              respond_latching hBefore ((latency_start p ticks t).trans hLatency)] at hFlight
            cases hFlight
            have hAlone : Undisturbed ticks t t := fun u hAfter hUpTo => by omega
            exact ⟨t, Nat.lt_succ_self t, ⟨hBefore, hPresented⟩, hAlone.succ hReset, by omega⟩
      · rw [respond_due hBefore, inFlight_perform] at hFlight
        cases hFlight
      · rw [respond_counting hBefore] at hFlight
        cases hFlight
        obtain ⟨s, hLess, hAccepts, hUndisturbed, hTime⟩ := ih hBefore
        exact ⟨s, Nat.lt_succ_of_lt hLess, hAccepts, hUndisturbed.succ hReset, by omega⟩

/-- What was accepted stays in flight to the end of the latency, whatever is presented. -/
theorem Accepts.inFlight_start (h : p.Accepts ticks s q) {d : Nat}
    (hUndisturbed : Undisturbed ticks s (s + 1 + d)) {n : Nat} (hTime : d + 1 + n = p.latency) :
    (p.start ticks (s + 1 + d)).inFlight = some ⟨q, n⟩ := by
  have hKept : (ticks (s + 1 + d)).reset = false := hUndisturbed _ (by omega) (Nat.le_refl _)
  induction d generalizing n with
  | zero =>
    have hLatency : (p.start ticks s).latency = n + 1 := by
      rw [latency_start]
      omega
    rw [Nat.add_zero] at hKept ⊢
    rw [start_succ, inFlight_prepare, hKept, cycle, h.presented, respond_latching h.free hLatency]
    rfl
  | succ d ih =>
    have hEarlier : Undisturbed ticks s (s + 1 + d) := hUndisturbed.mono (by omega)
    have hBefore := ih hEarlier (n := n + 1) (by omega) (hEarlier _ (by omega) (Nat.le_refl _))
    rw [← Nat.add_assoc] at hKept ⊢
    rw [start_succ, inFlight_prepare, hKept, cycle, respond_counting hBefore]
    rfl

theorem Serves.cycle_eq (h : p.Serves ticks s t q) :
    p.cycle ticks t = (p.start ticks t).perform q := by
  obtain ⟨hAccepts, hUndisturbed, rfl⟩ := h
  rcases hLatency : p.latency with _ | n
  · rw [Nat.add_zero, cycle, hAccepts.presented,
      respond_at_once hAccepts.free ((latency_start p ticks s).trans hLatency)]
  · have hLast : s + (n + 1) = s + 1 + n := by omega
    rw [hLatency, hLast] at hUndisturbed
    rw [hLast, cycle, respond_due (hAccepts.inFlight_start hUndisturbed (by omega))]

theorem exists_serves_of_ready (hFree : p.inFlight = none)
    (hReady : (p.cycle ticks t).1.ready = true) : ∃ s q, p.Serves ticks s t q := by
  rcases (p.start ticks t).respond_cases (ticks t).presented with
    ⟨q, _, hFlight | ⟨hBefore, hPresented, hLatency⟩⟩ | ⟨inFlight, hIdle⟩
  · obtain ⟨s, _, hAccepts, hUndisturbed, hTime⟩ := exists_accepts_of_inFlight hFree hFlight
    exact ⟨s, q, hAccepts, hUndisturbed, hTime⟩
  · rw [latency_start] at hLatency
    exact ⟨t, q, ⟨hBefore, hPresented⟩, fun u hAfter hUpTo => by omega, by omega⟩
  · rw [cycle, hIdle] at hReady
    cases hReady

theorem ready_cycle_iff (hFree : p.inFlight = none) :
    (p.cycle ticks t).1.ready = true ↔ ∃ s q, p.Serves ticks s t q := by
  constructor
  · exact exists_serves_of_ready hFree
  · rintro ⟨s, q, hServes⟩
    rw [hServes.cycle_eq]
    exact ready_perform _ _

theorem cycle_of_not_ready (hReady : ¬ (p.cycle ticks t).1.ready = true) :
    ∃ inFlight, p.cycle ticks t = (.idle, { p.start ticks t with inFlight }) := by
  rw [cycle] at hReady ⊢
  rcases (p.start ticks t).respond_cases (ticks t).presented with ⟨q, hRespond, _⟩ | hIdle
  · rw [hRespond] at hReady
    exact absurd (ready_perform _ _) hReady
  · exact hIdle

/-- While a transaction is in flight nothing else is accepted. -/
theorem Accepts.lt_of_accepts (h : p.Accepts ticks s q) (hLess : s < t)
    (hUndisturbed : Undisturbed ticks s t) {r : Request} (hNext : p.Accepts ticks t r) :
    s + p.latency < t := by
  apply Nat.lt_of_not_le
  intro hEarly
  obtain ⟨d, rfl⟩ := Nat.exists_eq_add_of_le (Nat.succ_le_of_lt hLess)
  have hFlight := h.inFlight_start hUndisturbed (n := s + p.latency - (s + 1 + d)) (by omega)
  cases hNext.free.symm.trans hFlight

theorem Accepts.not_ready (h : p.Accepts ticks s q) (hFree : p.inFlight = none) (hFrom : s ≤ t)
    (hEarly : t < s + p.latency) : ¬ (p.cycle ticks t).1.ready = true := by
  intro hReady
  obtain ⟨r, q', hServes⟩ := exists_serves_of_ready hFree hReady
  have hTime := hServes.time
  have hPast := hServes.accepted.lt_of_accepts (by omega) (hServes.undisturbed.mono hFrom) h
  omega

theorem Accepts.counters_start (h : p.Accepts ticks s q) (hFree : p.inFlight = none) {d : Nat}
    (hEarly : d ≤ p.latency) :
    (p.start ticks (s + d)).reads = (p.start ticks s).reads ∧
      (p.start ticks (s + d)).writes = (p.start ticks s).writes := by
  induction d with
  | zero => exact ⟨rfl, rfl⟩
  | succ d ih =>
    have hWaiting := h.not_ready (t := s + d) hFree (by omega) (by omega)
    obtain ⟨inFlight, hIdle⟩ := cycle_of_not_ready hWaiting
    obtain ⟨hReads, hWrites⟩ := ih (by omega)
    rw [← Nat.add_assoc, start_succ, hIdle, reads_prepare, writes_prepare]
    exact ⟨hReads, hWrites⟩

end Stream

/-- The transaction accepted in the cycle `s` is dropped by the reset before the cycle `t`. -/
structure Dropped (p : Bus) (ticks : Nat → Tick) (s t : Nat) : Prop where
  free : (p.start ticks t).inFlight = none
  reads : (p.start ticks t).reads = (p.start ticks s).reads
  writes : (p.start ticks t).writes = (p.start ticks s).writes
  silent : ∀ u, s ≤ u → u < t →
    (p.cycle ticks u).1 = .idle ∧ (p.cycle ticks u).2.memory = (p.start ticks u).memory
  memory : (p.start ticks t).memory = (ticks t).access (p.cycle ticks (t - 1)).2.memory
  later : ∀ r u q, t ≤ u → p.Serves ticks r u q → t ≤ r

section Stream

variable {p : Bus} {ticks : Nat → Tick} {s t : Nat} {q : Request}

theorem Accepts.dropped (h : p.Accepts ticks s q) (hFree : p.inFlight = none) (hLess : s < t)
    (hEarly : t ≤ s + p.latency) (hReset : (ticks t).reset = true) : p.Dropped ticks s t := by
  obtain ⟨d, rfl⟩ := Nat.exists_eq_add_of_le (Nat.le_of_lt hLess)
  obtain ⟨hReads, hWrites⟩ := h.counters_start hFree (d := d) (by omega)
  obtain ⟨v, hv⟩ : ∃ v, s + d = v + 1 := ⟨s + d - 1, by omega⟩
  refine ⟨?_, hReads, hWrites, ?_, ?_, ?_⟩
  · rw [hv] at hReset ⊢
    rw [start_succ, inFlight_prepare, if_pos hReset]
  · intro u hFrom hBefore
    obtain ⟨inFlight, hIdle⟩ := cycle_of_not_ready (h.not_ready hFree hFrom (by omega))
    rw [hIdle]
    exact ⟨rfl, rfl⟩
  · rw [hv, start_succ, memory_prepare, Nat.add_sub_cancel]
  · intro r u q' hFrom hServes
    apply Nat.le_of_not_lt
    intro hBefore
    rw [hServes.undisturbed _ hBefore hFrom] at hReset
    cases hReset

theorem readByte_cycle (hFree : p.inFlight = none)
    (hNone : ∀ s a w, ¬ p.Serves ticks s t (.write a w)) :
    (p.cycle ticks t).2.memory.readByte = (p.start ticks t).memory.readByte := by
  by_cases hReady : (p.cycle ticks t).1.ready = true
  · obtain ⟨s, ⟨a, access⟩, hServes⟩ := exists_serves_of_ready hFree hReady
    cases access with
    | read =>
      rw [hServes.cycle_eq]
      rfl
    | write w => exact absurd hServes (hNone s a w)
  · obtain ⟨inFlight, hIdle⟩ := cycle_of_not_ready hReady
    rw [hIdle]

end Stream

/-- What a bus of fixed latency promises. -/
structure Punctual (p : Bus) (ticks : Nat → Tick) : Prop where
  performed : ∀ s q, p.Accepts ticks s q → Undisturbed ticks s (s + p.latency) →
    p.cycle ticks (s + p.latency) = (p.start ticks (s + p.latency)).perform q
  read : ∀ s t a, p.Serves ticks s t (.read a) →
    (p.cycle ticks t).1 =
      .answer (Memory.wordIn (p.start ticks t).memory.readByte a.toUInt64)
  written : ∀ s t a w, p.Serves ticks s t (.write a w) →
    (p.cycle ticks t).2.memory.readByte =
      Memory.replaceWord (p.start ticks t).memory.readByte a.toUInt64 w
  ready : ∀ t, (p.cycle ticks t).1.ready = true ↔ ∃ s q, p.Serves ticks s t q
  spaced : ∀ s t q r, p.Accepts ticks s q → s < t → Undisturbed ticks s t →
    p.Accepts ticks t r → s + p.latency + 1 ≤ t
  freed : ∀ s t q, p.Serves ticks s t q → (p.cycle ticks t).2.inFlight = none
  dropped : ∀ s t q, p.Accepts ticks s q → s < t → t ≤ s + p.latency →
    (ticks t).reset = true → p.Dropped ticks s t
  counted : ∀ t, (p.start ticks t).reads + (p.start ticks t).writes =
    (List.range t).countP fun u => (p.cycle ticks u).1.ready
  unchanged : ∀ t, (∀ s a w, ¬ p.Serves ticks s t (.write a w)) →
    (p.cycle ticks t).2.memory.readByte = (p.start ticks t).memory.readByte

/-- Whatever is presented and whenever the bus is reset, a request that it accepts is carried out
one latency later on the memory of that cycle, and in no other cycle; a reset before that drops it
without a trace. -/
theorem punctual_ofMemory (memory : Memory) (latency : Nat) (ticks : Nat → Tick) :
    (ofMemory memory latency).Punctual ticks := by
  have hFree : (ofMemory memory latency).inFlight = none := rfl
  constructor
  · intro s q hAccepts hUndisturbed
    exact Serves.cycle_eq ⟨hAccepts, hUndisturbed, rfl⟩
  · intro s t a hServes
    rw [hServes.cycle_eq, perform_read, Memory.peekWord_eq]
  · intro s t a w hServes
    rw [hServes.cycle_eq, perform_write, Memory.readByte_writeWord]
  · intro t
    exact ready_cycle_iff hFree
  · intro s t q r hAccepts hLess hUndisturbed hNext
    exact hAccepts.lt_of_accepts hLess hUndisturbed hNext
  · intro s t q hServes
    rw [hServes.cycle_eq, inFlight_perform]
  · intro s t q hAccepts hLess hEarly hReset
    exact hAccepts.dropped hFree hLess hEarly hReset
  · intro t
    have hCount := accesses_start (ofMemory memory latency) ticks t
    exact hCount.trans (Nat.zero_add _)
  · intro t hNone
    exact readByte_cycle hFree hNone

/-- A write is accepted, replaced by a read while it waits, and carried out in time; the read that
is presented last is accepted after it and dropped by a reset. -/
theorem punctual_ofMemory_replaced :
    let p := ofMemory .empty 2
    let ticks : Nat → Tick
      | 0 => ⟨false, id, some (.write 8 5)⟩
      | 1 => ⟨false, id, some (.read 16)⟩
      | 2 => ⟨false, (·.writeWord 8 7), some (.read 24)⟩
      | 3 => ⟨false, id, some (.read 32)⟩
      | 4 => ⟨true, id, none⟩
      | _ => ⟨false, id, none⟩
    p.Accepts ticks 0 (.write 8 5) ∧ Undisturbed ticks 0 2 ∧
      p.cycle ticks 2 = (p.start ticks 2).perform (.write 8 5) ∧
      p.Accepts ticks 3 (.read 32) ∧ (ticks 4).reset = true ∧ p.Dropped ticks 3 4 := by
  intro p ticks
  have hPunctual := punctual_ofMemory .empty 2 ticks
  have hAccepts : p.Accepts ticks 0 (.write 8 5) := ⟨rfl, rfl⟩
  have hUndisturbed : Undisturbed ticks 0 2 := by
    intro u hAfter hUpTo
    obtain rfl | rfl : u = 1 ∨ u = 2 := by omega
    · rfl
    · rfl
  have hLast : p.Accepts ticks 3 (.read 32) := ⟨rfl, rfl⟩
  have hReset : (ticks 4).reset = true := rfl
  exact ⟨hAccepts, hUndisturbed, hPunctual.performed 0 _ hAccepts hUndisturbed, hLast, hReset,
    hPunctual.dropped 3 4 _ hLast (by decide) (by decide) hReset⟩

end CellularCoprocessor.Bus
