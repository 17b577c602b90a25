import CellularCoprocessor.Proofs.Controller.Coherence

/-!
# Answers of the bus

A controller looks at an answer only while it presents a request, and it takes over nothing but the
data of a ready one. So the answers may come early or late: if they carry the same data, the
instruction ends in the same state.
-/

namespace CellularCoprocessor.Controller

variable {c : Controller} {r : Response} {q : Request}

theorem Coherent.advance_of_request_eq_none (h : c.Coherent) (hRequest : c.request = none)
    (r s : Response) : c.advance r = c.advance s := by
  rcases h.phase_of_no_request hRequest with hPhase | ⟨kind, hPhase⟩ | ⟨hPhase, hPending⟩
  · rw [advance_idle r hPhase, advance_idle s hPhase]
  · rw [advance_evolving r hPhase, advance_evolving s hPhase]
  · rw [advance_bursting r hPhase, advance_bursting s hPhase]
    by_cases hLess : c.registers.burst.index.toNat < c.registers.burst.length.toNat
    · rw [advanceBurst_issued (c := c.lowerReady) r hPending hLess,
        advanceBurst_issued (c := c.lowerReady) s hPending hLess]
    · rw [advanceBurst_done (c := c.lowerReady) r hPending (Nat.le_of_not_lt hLess),
        advanceBurst_done (c := c.lowerReady) s hPending (Nat.le_of_not_lt hLess)]

theorem Coherent.advance_of_not_ready (h : c.Coherent) (hRequest : c.request = some q)
    (hReady : r.ready = false) : c.advance r = (.busy, c.lowerReady) := by
  rcases h.phase_of_request hRequest with hPhase | ⟨hPhase, hPending⟩
  · rw [advance_accessing r hPhase]
    simp [advanceAccess, hReady]
  · rw [advance_bursting r hPhase]
    exact advanceBurst_waiting (c := c.lowerReady) r hPending hReady

theorem Coherent.request_advance_of_ready (h : c.Coherent) (hRequest : c.request = some q)
    (hReady : r.ready = true) : (c.advance r).2.request = none := by
  rcases h.phase_of_request hRequest with hPhase | ⟨hPhase, hPending⟩
  · rw [advance_accessing r hPhase, advanceAccess, if_pos hReady]
    change (c.lowerReady.receive r.data).request = none
    rw [receive]
    split <;> rfl
  · rw [advance_bursting r hPhase, advanceBurst_committed (c := c.lowerReady) r hPending hReady]
    split <;> rfl

theorem Coherent.lowerReady_eq (h : c.Coherent) (hBusy : c.phase ≠ .idle) : c.lowerReady = c := by
  have hDown : c.output.ready = false := by
    cases hReady : c.output.ready with
    | false => rfl
    | true => exact absurd (h.ready hReady) hBusy
  rw [lowerReady, ← hDown]

theorem Coherent.busy_of_request (h : c.Coherent) (hRequest : c.request = some q) :
    c.phase ≠ .idle := by
  intro hIdle
  cases (h.idle hIdle).request.symm.trans hRequest

theorem Coherent.advance_waiting (h : c.Coherent) (hRequest : c.request = some q)
    (hReady : r.ready = false) : c.advance r = (.busy, c) := by
  rw [h.advance_of_not_ready hRequest hReady, h.lowerReady_eq (h.busy_of_request hRequest)]

def feed (c : Controller) (answers : List Response) : Controller :=
  answers.foldl (fun c r => (c.advance r).2) c

/-- The data that reach the controller: those of ready answers to a presented request. -/
def accepted (c : Controller) : List Response → List UInt64
  | [] => []
  | r :: answers =>
    if c.request.isSome ∧ r.ready then r.data :: (c.advance r).2.accepted answers
    else (c.advance r).2.accepted answers

/-- The cycle with the last answer completes an instruction. -/
def Completes (c : Controller) : List Response → Prop
  | [] => False
  | [r] => (c.advance r).1.ready = true
  | r :: answers => (c.advance r).2.Completes answers

theorem feed_cons (c : Controller) (r : Response) (answers : List Response) :
    c.feed (r :: answers) = (c.advance r).2.feed answers :=
  rfl

theorem accepted_cons (c : Controller) (r : Response) (answers : List Response) :
    c.accepted (r :: answers) =
      if c.request.isSome ∧ r.ready then r.data :: (c.advance r).2.accepted answers
      else (c.advance r).2.accepted answers :=
  rfl

theorem not_completes_of_idle (hIdle : c.phase = .idle) (answers : List Response) :
    ¬ c.Completes answers := by
  induction answers generalizing c with
  | nil => exact id
  | cons r answers ih =>
    have hStays : (c.advance r).2.phase = .idle := by
      rw [advance_idle r hIdle]
      exact hIdle
    cases answers with
    | nil =>
      rw [Completes, advance_idle r hIdle]
      exact Bool.false_ne_true
    | cons s answers => exact ih hStays

theorem completes_cons_iff (hBusy : c.phase ≠ .idle) (r : Response) (answers : List Response) :
    c.Completes (r :: answers) ↔
      if (c.advance r).1.ready then answers = [] else (c.advance r).2.Completes answers := by
  rcases reports_advance r hBusy with ⟨hSignals, _⟩ | ⟨hReady, _, hIdle⟩
  · have hDown : ¬ (c.advance r).1.ready = true := by
      rw [hSignals]
      exact Bool.false_ne_true
    rw [if_neg hDown]
    cases answers with
    | nil => exact ⟨hDown, False.elim⟩
    | cons s answers => rfl
  · rw [if_pos hReady]
    cases answers with
    | nil => exact ⟨fun _ => rfl, fun _ => hReady⟩
    | cons s answers =>
      constructor
      · exact fun hLater => absurd hLater (not_completes_of_idle hIdle (s :: answers))
      · exact fun hNil => by cases hNil

section Waiting

variable {answers : List Response} (h : c.Coherent) (hRequest : c.request = some q)
  (hReady : r.ready = false)

include h hRequest hReady

theorem Coherent.completes_waiting : c.Completes (r :: answers) ↔ c.Completes answers := by
  rw [completes_cons_iff (h.busy_of_request hRequest), h.advance_waiting hRequest hReady]
  rfl

theorem Coherent.accepted_waiting : c.accepted (r :: answers) = c.accepted answers := by
  rw [accepted_cons, h.advance_waiting hRequest hReady, hReady, if_neg (by simp)]

theorem Coherent.feed_waiting : c.feed (r :: answers) = c.feed answers := by
  rw [feed_cons, h.advance_waiting hRequest hReady]

end Waiting

theorem response_eq {r s : Response} (hr : r.ready = true) (hs : s.ready = true)
    (hData : r.data = s.data) : r = s := by
  obtain ⟨ready, data⟩ := r
  obtain ⟨ready', data'⟩ := s
  cases hr
  cases hs
  cases hData
  rfl

/-- While a request is presented, the answers before the first ready one may be left out. -/
theorem Coherent.exists_ready (h : c.Coherent) (hRequest : c.request = some q)
    {answers : List Response} (hCompletes : c.Completes answers) :
    ∃ r rest, r.ready = true ∧ c.Completes (r :: rest) ∧
      c.accepted answers = c.accepted (r :: rest) ∧ c.feed answers = c.feed (r :: rest) := by
  induction answers with
  | nil => exact hCompletes.elim
  | cons r answers ih =>
    cases hReady : r.ready with
    | true => exact ⟨r, answers, hReady, hCompletes, rfl, rfl⟩
    | false =>
      rw [h.completes_waiting hRequest hReady] at hCompletes
      rw [h.accepted_waiting hRequest hReady, h.feed_waiting hRequest hReady]
      exact ih hCompletes

theorem Coherent.feed_eq (h : c.Coherent) {xs ys : List Response} (hxs : c.Completes xs)
    (hys : c.Completes ys) (hAccepted : c.accepted xs = c.accepted ys) :
    c.feed xs = c.feed ys := by
  induction xs generalizing c ys with
  | nil => exact hxs.elim
  | cons x xs ih =>
    have hBusy : c.phase ≠ .idle := fun hIdle => not_completes_of_idle hIdle _ hxs
    have hNext := h.coherent_advance x
    -- Once the first cycles agree, the rest of both sequences is fed to the same controller.
    have hTails : ∀ y zs, c.advance y = c.advance x → c.Completes (y :: zs) →
        (c.advance x).2.accepted xs = (c.advance x).2.accepted zs →
        c.feed (x :: xs) = c.feed (y :: zs) := by
      intro y zs hSame hzs hRest
      rw [completes_cons_iff hBusy] at hxs hzs
      rw [feed_cons, feed_cons, hSame]
      rw [hSame] at hzs
      cases hReady : (c.advance x).1.ready with
      | true =>
        rw [hReady, if_pos rfl] at hxs hzs
        rw [hxs, hzs]
      | false =>
        rw [hReady, if_neg Bool.false_ne_true] at hxs hzs
        exact ih hNext hxs hzs hRest
    cases hRequest : c.request with
    | none =>
      cases ys with
      | nil => exact hys.elim
      | cons y ys =>
        have hSame := h.advance_of_request_eq_none hRequest y x
        rw [accepted_cons, accepted_cons, hSame, hRequest] at hAccepted
        exact hTails y ys hSame hys hAccepted
    | some q =>
      cases hReady : x.ready with
      | false =>
        rw [h.completes_waiting hRequest hReady] at hxs
        rw [h.accepted_waiting hRequest hReady] at hAccepted
        rw [h.feed_waiting hRequest hReady]
        exact ih h hxs hys hAccepted
      | true =>
        obtain ⟨y, zs, hy, hzs, hData, hFeed⟩ := h.exists_ready hRequest hys
        rw [hData, accepted_cons, accepted_cons, hRequest, hReady, hy, if_pos ⟨rfl, rfl⟩,
          if_pos ⟨rfl, rfl⟩, List.cons.injEq] at hAccepted
        have hSame : y = x := response_eq hy hReady hAccepted.1.symm
        rw [hFeed]
        refine hTails y zs (by rw [hSame]) hzs ?_
        rw [hAccepted.2, hSame]

/-- However the answers of the bus are spread over the cycles, an instruction ends in the same state
if the same data reach the controller. An answer without a request has no effect, and neither has
one that is not ready. -/
theorem feed_eq_of_accepted_eq (events : List Event) :
    let c := run events
    (∀ xs ys, c.Completes xs → c.Completes ys → c.accepted xs = c.accepted ys →
      c.feed xs = c.feed ys) ∧
    (c.request = none → ∀ r, c.advance r = c.advance .idle) ∧
    (∀ q, c.request = some q → ∀ r : Response, r.ready = false → c.advance r = (.busy, c)) := by
  intro c
  have h : c.Coherent := coherent_foldl coherent_initial events
  refine ⟨?_, ?_, ?_⟩
  · intro xs ys hxs hys hAccepted
    exact h.feed_eq hxs hys hAccepted
  · intro hRequest r
    exact h.advance_of_request_eq_none hRequest r .idle
  · intro q hRequest r hReady
    exact h.advance_waiting hRequest hReady

theorem feed_eq_of_accepted_eq_burst :
    let c := run [.issue (.burstLoad 16 2)]
    let early : List Response := [⟨true, 9⟩, ⟨true, 5⟩, ⟨true, 9⟩, ⟨true, 6⟩]
    let late : List Response := [.idle, ⟨false, 9⟩, .idle, ⟨true, 5⟩, .idle, ⟨true, 6⟩]
    let s := run [.issue (.store 8)]
    c.Completes early ∧ c.Completes late ∧ c.accepted early = c.accepted late ∧
      c.feed early = c.feed late ∧ c.request = none ∧ c.advance ⟨true, 9⟩ = c.advance .idle ∧
      s.request = some (.write 8 0) ∧ s.advance ⟨false, 9⟩ = (.busy, s) := by
  intro c early late s
  have hEarly : c.Completes early := (rfl : true = true)
  have hLate : c.Completes late := (rfl : true = true)
  have hAccepted : c.accepted early = c.accepted late := rfl
  have hRequest : c.request = none := rfl
  have hHeld : s.request = some (.write 8 0) := rfl
  have hBurst := feed_eq_of_accepted_eq [.issue (.burstLoad 16 2)]
  have hStore := feed_eq_of_accepted_eq [.issue (.store 8)]
  exact ⟨hEarly, hLate, hAccepted, hBurst.1 early late hEarly hLate hAccepted, hRequest,
    hBurst.2.1 hRequest ⟨true, 9⟩, hHeld, hStore.2.2 _ hHeld ⟨false, 9⟩ rfl⟩

end CellularCoprocessor.Controller
