import CellularCoprocessor.Burst.Sequencer
import CellularCoprocessor.Proofs.Controller.Phases
import Mathlib

/-!
# The delivery of a burst

A burst is fed with the answers of the bus one by one. Its words follow each other in order. Each of
them is requested once, waits for the first ready answer and is committed with it. After the last
one the burst is done for good.
-/

namespace CellularCoprocessor.Burst

/-- The activations of a burst over some answers, and what they leave. -/
def run (b : Burst) (s : Scratchpad) : List Response → List Activation × Burst × Scratchpad
  | [] => ([], b, s)
  | r :: answers =>
    let (activation, b, s) := b.advance s r
    let (activations, b, s) := b.run s answers
    (activation :: activations, b, s)

def Activation.request? : Activation → Option Request
  | .issued request => some request
  | _ => .none

theorem scratchpadSize_pos : 0 < scratchpadSize := by decide

/-- What is asked of the bus for a word of a burst that began with the scratchpad `s`. -/
def wordRequest (b : Burst) (s : Scratchpad) (i : Nat) : Request :=
  let address := UInt32.ofNat ((b.base.toNat + 8 * i) % 2 ^ 32)
  match b.direction with
  | .load => .read address
  | .store => .write address (s.words.get ⟨i % scratchpadSize, Nat.mod_lt i scratchpadSize_pos⟩)

/-- The activations that deliver the words before `n` from the word `i` on, if the bus gives some
answers, and the data of the words that are delivered. The answer at a request is ignored. -/
inductive Delivers (n : Nat) (request : Nat → Request) :
    Nat → List Response → List Activation → List UInt64 → Prop
  | done {i : Nat} (hPast : n ≤ i) (answers : List Response) :
    Delivers n request i answers (answers.map fun _ => .done) []
  | stopped {i : Nat} (hLess : i < n) : Delivers n request i [] [] []
  | waiting {i : Nat} (hLess : i < n) (ignored : Response) {waits : List Response}
    (hWaits : ∀ r ∈ waits, r.ready = false) :
    Delivers n request i (ignored :: waits)
      (.issued (request i) :: waits.map fun _ => .waiting) []
  | committed {i : Nat} (hLess : i < n) (ignored : Response) {waits : List Response}
    (hWaits : ∀ r ∈ waits, r.ready = false) {answer : Response} (hReady : answer.ready = true)
    {answers : List Response} {activations : List Activation} {data : List UInt64}
    (hRest : Delivers n request (i + 1) answers activations data) :
    Delivers n request i (ignored :: (waits ++ answer :: answers))
      (.issued (request i) ::
        (waits.map (fun _ => .waiting) ++ .committed (decide (i + 1 = n)) :: activations))
      (answer.data :: data)

/-- What the scratchpad `s` becomes when the words from `i` on are filled with `data`: in each place
the last word that belongs there. -/
def Filled (i : Nat) (data : List UInt64) (s t : Scratchpad) : Prop :=
  ∀ j : Fin scratchpadSize,
    (∀ k, (hk : k < data.length) → (i + k) % scratchpadSize = j →
      (∀ m < data.length, k < m → (i + m) % scratchpadSize ≠ j) → t.words.get j = data[k]) ∧
    ((∀ k < data.length, (i + k) % scratchpadSize ≠ j) → t.words.get j = s.words.get j)

section Activations

variable {b : Burst} {s : Scratchpad} {r : Response}

theorem advance_waiting (hPending : b.pending = true) (hReady : r.ready = false) :
    b.advance s r = (.waiting, b, s) := by
  simp [advance, hPending, hReady]

theorem advance_committed (hPending : b.pending = true) (hReady : r.ready = true) :
    b.advance s r = (.committed b.next.isExhausted, b.next, b.receive s r.data) := by
  simp [advance, hPending, hReady, next]

theorem advance_issued (hPending : b.pending = false) (hLess : b.index.toNat < b.length.toNat) :
    b.advance s r = (.issued (b.request s), { b with pending := true }, s) := by
  have hMore : ¬ b.isExhausted = true := by
    rw [isExhausted_iff]
    omega
  simp [advance, hPending, hMore]

theorem advance_done (hPending : b.pending = false) (hPast : b.length.toNat ≤ b.index.toNat) :
    b.advance s r = (.done, b, s) := by
  simp [advance, hPending, (isExhausted_iff b).mpr hPast]

theorem run_cons (b : Burst) (s : Scratchpad) (r : Response) (answers : List Response) :
    b.run s (r :: answers) =
      ((b.advance s r).1 :: ((b.advance s r).2.1.run (b.advance s r).2.2 answers).1,
        ((b.advance s r).2.1.run (b.advance s r).2.2 answers).2) :=
  rfl

theorem run_append (b : Burst) (s : Scratchpad) (answers more : List Response) :
    b.run s (answers ++ more) =
      ((b.run s answers).1 ++ ((b.run s answers).2.1.run (b.run s answers).2.2 more).1,
        ((b.run s answers).2.1.run (b.run s answers).2.2 more).2) := by
  induction answers generalizing b s with
  | nil => rfl
  | cons r answers ih => rw [List.cons_append, run_cons, ih, run_cons, List.cons_append]

theorem run_waiting (hPending : b.pending = true) {waits : List Response}
    (hWaits : ∀ r ∈ waits, r.ready = false) :
    b.run s waits = (waits.map fun _ => .waiting, b, s) := by
  induction waits with
  | nil => rfl
  | cons r waits ih =>
    obtain ⟨hFirst, hRest⟩ := List.forall_mem_cons.mp hWaits
    rw [run_cons, advance_waiting hPending hFirst, ih hRest, List.map_cons]

theorem run_done (hPending : b.pending = false) (hPast : b.length.toNat ≤ b.index.toNat)
    (answers : List Response) : b.run s answers = (answers.map fun _ => .done, b, s) := by
  induction answers with
  | nil => rfl
  | cons r answers ih => rw [run_cons, advance_done hPending hPast, ih, List.map_cons]

/-- A word is asked for, waits and is committed with the first ready answer. -/
theorem run_word (hPending : b.pending = false) (hLess : b.index.toNat < b.length.toNat)
    (ignored : Response) {waits : List Response} (hWaits : ∀ r ∈ waits, r.ready = false)
    {answer : Response} (hReady : answer.ready = true) (answers : List Response) :
    b.run s (ignored :: (waits ++ answer :: answers)) =
      (.issued (b.request s) :: (waits.map (fun _ => .waiting) ++ .committed b.next.isExhausted ::
        (b.next.run (b.receive s answer.data) answers).1),
        (b.next.run (b.receive s answer.data) answers).2) := by
  have hWaiting := run_waiting (b := { b with pending := true }) (s := s) rfl hWaits
  have hCommitted := advance_committed (b := { b with pending := true }) (s := s) rfl hReady
  rw [run_cons, advance_issued hPending hLess, run_append, hWaiting, run_cons, hCommitted]
  rfl

end Activations

section Words

variable {b : Burst} {s : Scratchpad}

theorem request_eq (b : Burst) (s : Scratchpad) : b.request s = b.wordRequest s b.index.toNat := by
  have hAddress : b.address = UInt32.ofNat ((b.base.toNat + 8 * b.index.toNat) % 2 ^ 32) := by
    apply UInt32.toNat_inj.mp
    simp only [address, UInt32.toNat_add, UInt32.toNat_mul, UInt32.toNat_ofNat',
      UInt32.reduceToNat]
    omega
  cases hDirection : b.direction with
  | load => simp only [request, wordRequest, hAddress, hDirection]
  | store =>
    have hWord : s.read b.index =
        s.words.get ⟨b.index.toNat % scratchpadSize, Nat.mod_lt _ scratchpadSize_pos⟩ := rfl
    simp only [request, wordRequest, hAddress, hDirection, hWord]

/-- A word received does not change what is asked for the later ones. -/
theorem wordRequest_next (b : Burst) (s : Scratchpad) (data : UInt64) :
    b.next.wordRequest (b.receive s data) = b.wordRequest s := by
  funext i
  simp only [wordRequest, next, receive]
  cases b.direction <;> rfl

theorem isExhausted_next (hLess : b.index.toNat < b.length.toNat) :
    b.next.isExhausted = decide (b.index.toNat + 1 = b.length.toNat) := by
  have hNext := toNat_index_next hLess
  have hLength : b.next.length = b.length := rfl
  rw [Bool.eq_iff_iff, isExhausted_iff, hLength, hNext, decide_eq_true_iff]
  omega

theorem filled_nil (i : Nat) (s : Scratchpad) : Filled i [] s s := by
  intro j
  exact ⟨fun k hk => absurd hk (Nat.not_lt_zero k), fun _ => rfl⟩

theorem get_write (s : Scratchpad) (index : UInt32) (w : UInt64) (j : Fin scratchpadSize) :
    (s.write index w).words.get j =
      if index.toNat % scratchpadSize = j then w else s.words.get j := by
  have hSet : (s.words.set (Scratchpad.slot index) w (Scratchpad.slot index).isLt)[j.val] =
      if (Scratchpad.slot index).val = j.val then w else s.words[j.val] :=
    Vector.getElem_set _ _
  exact hSet

/-- A later word takes the place of an earlier one. -/
theorem Filled.cons {index : UInt32} {w : UInt64} {data : List UInt64} {s t : Scratchpad}
    (h : Filled (index.toNat + 1) data (s.write index w) t) :
    Filled index.toNat (w :: data) s t := by
  have hShift : ∀ k, index.toNat + 1 + k = index.toNat + (k + 1) := fun k => by omega
  intro j
  obtain ⟨hLast, hNone⟩ := h j
  rw [get_write] at hNone
  constructor
  · intro k hk hPlace hLater
    cases k with
    | zero =>
      have hFirst : index.toNat % scratchpadSize = j := hPlace
      rw [hNone, if_pos hFirst, List.getElem_cons_zero]
      intro m hm
      rw [hShift]
      exact hLater (m + 1) (Nat.succ_lt_succ hm) (Nat.succ_pos m)
    | succ k =>
      rw [List.getElem_cons_succ]
      refine hLast k (Nat.lt_of_succ_lt_succ hk) (by rwa [hShift]) ?_
      intro m hm hMore
      rw [hShift]
      exact hLater (m + 1) (Nat.succ_lt_succ hm) (Nat.succ_lt_succ hMore)
  · intro hElsewhere
    have hFirst : index.toNat % scratchpadSize ≠ j := hElsewhere 0 (Nat.succ_pos _)
    rw [hNone, if_neg hFirst]
    intro k hk
    rw [hShift]
    exact hElsewhere (k + 1) (Nat.succ_lt_succ hk)

end Words

section Delivers

variable {n i : Nat} {request : Nat → Request} {answers : List Response}
  {activations : List Activation} {data : List UInt64}

theorem Delivers.length_le (h : Delivers n request i answers activations data) :
    data.length ≤ n - i := by
  induction h with
  | done hPast answers => exact Nat.zero_le _
  | stopped hLess => exact Nat.zero_le _
  | waiting hLess ignored hWaits => exact Nat.zero_le _
  | committed hLess ignored hWaits hReady hRest ih =>
    rw [List.length_cons]
    omega

theorem Activation.request?_issued (q : Request) : (issued q).request? = some q :=
  rfl

/-- At most one word has been asked for and is not delivered. -/
theorem Delivers.requests (h : Delivers n request i answers activations data) :
    ∃ k, data.length ≤ k ∧ k ≤ data.length + 1 ∧
      activations.filterMap Activation.request? = (List.range' i k).map request := by
  have hNone : ∀ (answers : List Response) (a : Activation), a.request? = .none →
      (answers.map fun _ => a).filterMap Activation.request? = [] := by
    intro answers a ha
    simp [ha]
  induction h with
  | done hPast answers => exact ⟨0, Nat.le_refl _, Nat.zero_le _, hNone answers .done rfl⟩
  | stopped hLess => exact ⟨0, Nat.le_refl _, Nat.zero_le _, rfl⟩
  | waiting hLess ignored hWaits =>
    refine ⟨1, Nat.zero_le _, Nat.le_refl _, ?_⟩
    rw [List.filterMap_cons_some (Activation.request?_issued _), hNone _ .waiting rfl]
    rfl
  | committed hLess ignored hWaits hReady hRest ih =>
    obtain ⟨k, hMore, hFew, hRequests⟩ := ih
    refine ⟨k + 1, Nat.succ_le_succ hMore, Nat.succ_le_succ hFew, ?_⟩
    rw [List.filterMap_cons_some (Activation.request?_issued _), List.filterMap_append,
      hNone _ .waiting rfl, List.nil_append, List.filterMap_cons_none rfl, hRequests]
    rfl

end Delivers

/-- What is left of a burst that began with the scratchpad `s`, once the words of `data` have been
delivered. -/
structure Leaves (b : Burst) (s : Scratchpad) (data : List UInt64) (left : Burst × Scratchpad) :
    Prop where
  index : left.1.index.toNat = b.index.toNat + data.length
  base : left.1.base = b.base
  length : left.1.length = b.length
  direction : left.1.direction = b.direction
  pending : left.1.pending = true → data.length < b.length.toNat - b.index.toNat
  loaded : b.direction = .load → Filled b.index.toNat data s left.2
  stored : b.direction = .store → left.2 = s

section Run

variable {b : Burst} {s : Scratchpad} {data : List UInt64} {left : Burst × Scratchpad}

theorem leaves_self (hPending : b.pending = true → b.index.toNat < b.length.toNat) :
    Leaves b s [] (b, s) where
  index := rfl
  base := rfl
  length := rfl
  direction := rfl
  pending hStill := Nat.sub_pos_of_lt (hPending hStill)
  loaded _ := filled_nil _ _
  stored _ := rfl

theorem Leaves.cons (hLess : b.index.toNat < b.length.toNat) {w : UInt64}
    (h : Leaves b.next (b.receive s w) data left) : Leaves b s (w :: data) left := by
  have hNext := toNat_index_next hLess
  obtain ⟨hIndex, hBase, hLength, hDirection, hPending, hLoaded, hStored⟩ := h
  refine ⟨?_, hBase, hLength, hDirection, ?_, ?_, ?_⟩
  · rw [hIndex, hNext, List.length_cons]
    omega
  · intro hStill
    have hMore := hPending hStill
    change data.length < b.length.toNat - b.next.index.toNat at hMore
    rw [List.length_cons]
    omega
  · intro hLoad
    have hFilled := hLoaded hLoad
    rw [hNext, receive, hLoad] at hFilled
    exact hFilled.cons
  · intro hStore
    rw [hStored hStore, receive, hStore]

/-- The answers up to the first ready one, if there is one. -/
theorem waits_or_ready (answers : List Response) :
    (∀ r ∈ answers, r.ready = false) ∨
      ∃ waits answer rest, answers = waits ++ answer :: rest ∧
        (∀ r ∈ waits, r.ready = false) ∧ answer.ready = true := by
  cases hFind : answers.find? (·.ready) with
  | none => exact .inl fun r hr => by simpa using List.find?_eq_none.mp hFind r hr
  | some answer =>
    obtain ⟨hReady, waits, rest, hSplit, hWaits⟩ := List.find?_eq_some_iff_append.mp hFind
    exact .inr ⟨waits, answer, rest, hSplit, fun r hr => by simpa using hWaits r hr, hReady⟩

theorem exists_delivers (hFree : b.pending = false) (answers : List Response) :
    ∃ data,
      Delivers b.length.toNat (b.wordRequest s) b.index.toNat answers (b.run s answers).1 data ∧
      Leaves b s data (b.run s answers).2 := by
  -- The induction is on the number of answers: a word takes up several of them at once.
  induction hCount : answers.length using Nat.strongRecOn generalizing b s answers with
  | ind count ih =>
    have hSelf : Leaves b s [] (b, s) := leaves_self fun hStill => by
      rw [hFree] at hStill
      cases hStill
    by_cases hLess : b.index.toNat < b.length.toNat
    · cases answers with
      | nil => exact ⟨[], .stopped hLess, hSelf⟩
      | cons ignored answers =>
        rcases waits_or_ready answers with hWaits | ⟨waits, answer, rest, rfl, hWaits, hReady⟩
        · refine ⟨[], ?_⟩
          rw [run_cons, advance_issued hFree hLess,
            run_waiting (b := { b with pending := true }) rfl hWaits, request_eq]
          exact ⟨.waiting hLess ignored hWaits, ⟨rfl, rfl, rfl, rfl,
            fun _ => Nat.sub_pos_of_lt hLess, fun _ => filled_nil _ _, fun _ => rfl⟩⟩
        · have hFewer : rest.length < count := by
            simp only [List.length_cons, List.length_append] at hCount
            omega
          obtain ⟨data, hRest, hLeaves⟩ := ih rest.length hFewer (b := b.next)
            (s := b.receive s answer.data) rfl rest rfl
          rw [toNat_index_next hLess, wordRequest_next] at hRest
          refine ⟨answer.data :: data, ?_⟩
          rw [run_word hFree hLess ignored hWaits hReady, request_eq, isExhausted_next hLess]
          exact ⟨.committed hLess ignored hWaits hReady hRest, hLeaves.cons hLess⟩
    · have hPast := Nat.le_of_not_lt hLess
      rw [run_done hFree hPast]
      exact ⟨[], .done hPast answers, hSelf⟩

/-- Once the last word is delivered nothing happens any more. -/
theorem Leaves.run_done (h : Leaves b s data left)
    (hAll : b.length.toNat - b.index.toNat ≤ data.length) (more : List Response) :
    left.1.run left.2 more = (more.map fun _ => .done, left) := by
  have hFree : left.1.pending = false := by
    cases hPending : left.1.pending with
    | false => rfl
    | true => exact absurd (h.pending hPending) (Nat.not_lt_of_le hAll)
  have hPast : left.1.length.toNat ≤ left.1.index.toNat := by
    rw [h.length, h.index]
    omega
  exact Burst.run_done hFree hPast more

/-- Whatever the bus answers, a burst delivers its words in order, each of them once. -/
theorem run_delivers_once (b : Burst) (s : Scratchpad) (answers : List Response)
    (hFree : b.pending = false) :
    let activations := (b.run s answers).1
    let left := (b.run s answers).2
    ∃ data : List UInt64,
      Delivers b.length.toNat (b.wordRequest s) b.index.toNat answers activations data ∧
      (∃ k, data.length ≤ k ∧ k ≤ data.length + 1 ∧
        activations.filterMap Activation.request? =
          (List.range' b.index.toNat k).map (b.wordRequest s)) ∧
      data.length ≤ b.length.toNat - b.index.toNat ∧
      (data.length = b.length.toNat - b.index.toNat → ∀ more : List Response,
        b.run s (answers ++ more) = (activations ++ more.map fun _ => .done, left)) ∧
      left.1.index.toNat ≤ max b.index.toNat b.length.toNat ∧
      Leaves b s data left := by
  intro activations left
  obtain ⟨data, hDelivers, hLeaves⟩ := exists_delivers (s := s) hFree answers
  have hFew := hDelivers.length_le
  refine ⟨data, hDelivers, hDelivers.requests, hFew, ?_, ?_, hLeaves⟩
  · intro hAll more
    rw [run_append, hLeaves.run_done (Nat.le_of_eq hAll.symm)]
  · rw [hLeaves.index]
    omega

/-- The last words of two bursts longer than the scratchpad, at addresses past the end of the 32-bit
space. The words stored are the last and then the first ones of the scratchpad. -/
theorem run_delivers_once_wrapping :
    let load : Burst := ⟨0xFFFFF808, 258, 255, .load, false⟩
    let loaded : List Response := [.answer 1, .idle, .answer 7, .answer 2, .answer 8, .idle,
      .answer 9, .answer 3]
    let store : Burst := ⟨0xFFFFF808, 258, 255, .store, false⟩
    let stored : List Response := [.answer 1, .answer 0, .idle, .idle, .answer 0, .idle, .answer 0,
      .idle]
    let s := ((Scratchpad.blank.write 255 5).write 0 6).write 1 7
    load.pending = false ∧ store.pending = false ∧
      (load.run .blank loaded).1 = [.issued (.read 0), .waiting, .committed false,
        .issued (.read 8), .committed false, .issued (.read 16), .committed true, .done] ∧
      (store.run s stored).1 = [.issued (.write 0 5), .committed false,
        .issued (.write 8 6), .waiting, .committed false, .issued (.write 16 7), .committed true,
        .done] ∧
      (∃ data, Delivers 258 (load.wordRequest .blank) 255 loaded (load.run .blank loaded).1 data ∧
        Leaves load .blank data (load.run .blank loaded).2) ∧
      ∃ data, Delivers 258 (store.wordRequest s) 255 stored (store.run s stored).1 data ∧
        Leaves store s data (store.run s stored).2 := by
  intro load loaded store stored s
  obtain ⟨data, hDelivers, -, -, -, -, hLeaves⟩ := run_delivers_once load .blank loaded rfl
  obtain ⟨words, hStores, -, -, -, -, hKept⟩ := run_delivers_once store s stored rfl
  exact ⟨rfl, rfl, by decide +kernel, by decide +kernel, ⟨data, hDelivers, hLeaves⟩, words,
    hStores, hKept⟩

end Run

end CellularCoprocessor.Burst
