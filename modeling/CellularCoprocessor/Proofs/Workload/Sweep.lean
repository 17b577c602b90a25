import CellularCoprocessor.Proofs.Machine.Sessions
import CellularCoprocessor.Workload.Sweep

/-!
# What a sweep achieves

All evolutions of a sweep agree with the boards, and its cycles follow from the numbers of seeds and
rules. An evolution leaves the memory and the scratchpad as they are, so each seed is found again
whenever it is fetched. Where another word is found in its place, the evolution of that word is
taken for a wrong one.
-/

namespace CellularCoprocessor.Sweep

open Session (Achieves Fails)

variable {latency limit : Nat} {p : Parameters} {bytes : UInt64 → UInt8} {m : Memory}
  {scratchpad : Fin scratchpadSize → UInt64}

/-- The memory and the scratchpad hold what they are to hold. The rest may be anything. -/
def Stored (bytes : UInt64 → UInt8) (scratchpad : Fin scratchpadSize → UInt64)
    (s : Architecture) : Prop :=
  s.memory = bytes ∧ s.scratchpad = scratchpad

/-- The instruction brings a word into the configuration and leaves the storage as it is. -/
def Fetches (bytes : UInt64 → UInt8) (scratchpad : Fin scratchpadSize → UInt64)
    (i : Instruction) (w : UInt64) : Prop :=
  ∀ s, Stored bytes scratchpad s →
    ∃ t, s.perform i = (0, t) ∧ Stored bytes scratchpad t ∧ t.car = w

theorem fetches_load {a : UInt32} {w : UInt64} (hWord : Memory.wordIn bytes a.toUInt64 = w) :
    Fetches bytes scratchpad (.load a) w := by
  rintro s ⟨hMemory, hScratchpad⟩
  refine ⟨_, s.perform_load a, ⟨hMemory, hScratchpad⟩, ?_⟩
  rw [hMemory]
  exact hWord

theorem fetches_scratchToCar {index : UInt32} {w : UInt64}
    (hWord : scratchpad (Architecture.slot index.toNat) = w) :
    Fetches bytes scratchpad (.scratchToCar index) w := by
  rintro s ⟨hMemory, hScratchpad⟩
  refine ⟨_, s.perform_scratchToCar index, ⟨hMemory, hScratchpad⟩, ?_⟩
  rw [hScratchpad]
  exact hWord

/-- The place of a seed that comes after the first one. -/
theorem add_ofNat_succ (index : UInt32) (i : Nat) :
    index + UInt32.ofNat (i + 1) = index + 1 + UInt32.ofNat i := by
  rw [UInt32.ofNat_add, UInt32.add_comm (UInt32.ofNat i), ← UInt32.add_assoc]
  rfl

section Check

variable {rule : UInt8} {seed : UInt64} {e : Engine}

theorem run_check (p : Parameters) (rule : UInt8) (seed : UInt64) (e : Engine) :
    (check p rule seed).run e =
      (if e.car = Automaton.ringReference rule p.steps.toNat seed then .ok ()
        else .error (.wrongEvolution rule seed e.car
          (Automaton.ringReference rule p.steps.toNat seed)), e) := by
  have hSeen : (Session.engine : Run Engine).run e = (.ok e, e) := rfl
  rw [check, Session.run_bind_ok hSeen, Session.run_require]
  simp only [beq_iff_eq]

/-- A check succeeds exactly when the configuration is the one on boards. -/
theorem check_eq_ok_iff :
    (check p rule seed).run e = (.ok (), e) ↔
      e.car = Automaton.ringReference rule p.steps.toNat seed := by
  rw [run_check]
  split <;> simp [*]

theorem check_eq_error_iff {failure : Failure} :
    (check p rule seed).run e = (.error failure, e) ↔
      e.car ≠ Automaton.ringReference rule p.steps.toNat seed ∧
        failure = .wrongEvolution rule seed e.car
          (Automaton.ringReference rule p.steps.toNat seed) := by
  rw [run_check]
  split
  · rename_i hSame
    simp [hSame]
  · rename_i hDiffers
    simp [hDiffers, eq_comm (a := failure)]

variable {P : Architecture → Prop} {w : UInt64} (hCar : ∀ s, P s → s.car = w)

include hCar

theorem achieves_check (hRight : w = Automaton.ringReference rule p.steps.toNat seed) :
    Achieves latency limit P (check p rule seed) () P := by
  intro e hRests
  have hSame : e.car = Automaton.ringReference rule p.steps.toNat seed :=
    (hCar _ hRests.holds).trans hRight
  exact ⟨e, check_eq_ok_iff.mpr hSame, hRests⟩

theorem fails_check (hWrong : w ≠ Automaton.ringReference rule p.steps.toNat seed) :
    Fails latency limit P (check p rule seed)
      (.wrongEvolution rule seed w (Automaton.ringReference rule p.steps.toNat seed)) := by
  intro e hRests
  have hWord : e.car = w := hCar _ hRests.holds
  have hFailed := check_eq_error_iff.mpr ⟨hWord ▸ hWrong, rfl⟩
  rw [hFailed, hWord]

end Check

section Loops

variable {fetch : UInt32 → Instruction} {cost : Nat} (hSteps : p.steps.toNat ≤ limit)
  (hCost : ∀ index, (fetch index).cost latency = cost) (hLimit : cost ≤ limit)

theorem achieves_step (rule : UInt8) {w : UInt64} (hSteps : p.steps.toNat ≤ limit) :
    Achieves latency limit (fun s => Stored bytes scratchpad s ∧ s.car = w)
      (execute (.step rule p.steps)) ⟨0, p.steps.toNat⟩
      (fun s => Stored bytes scratchpad s ∧
        s.car = Automaton.ringReference rule p.steps.toNat w) := by
  have hStep := Instruction.cost_step rule p.steps latency
  have hEvolves : ∀ s, Stored bytes scratchpad s ∧ s.car = w →
      ∃ t, s.perform (.step rule p.steps) = (0, t) ∧ Stored bytes scratchpad t ∧
        t.car = Automaton.ringReference rule p.steps.toNat w := by
    rintro s ⟨⟨hMemory, hScratchpad⟩, hCar⟩
    obtain ⟨t, hPerform, hMemory', hScratchpad', hCar'⟩ := s.exists_perform_step rule p.steps
    exact ⟨t, hPerform, ⟨hMemory'.trans hMemory, hScratchpad'.trans hScratchpad⟩, hCar ▸ hCar'⟩
  have hExecuted := Session.achieves_execute Failure.engine (hStep.trans_le hSteps) hEvolves
  rwa [hStep] at hExecuted

include hSteps hCost hLimit

theorem achieves_evolve (rule : UInt8) {index : UInt32} {seed : UInt64}
    (hFetch : Fetches bytes scratchpad (fetch index) seed) :
    Achieves latency limit (Stored bytes scratchpad) (evolve p fetch rule index seed)
      (cost + p.steps.toNat + 2) (Stored bytes scratchpad) := by
  have hFetched := Session.achieves_execute Failure.engine ((hCost index).trans_le hLimit) hFetch
  have hTotal : Completion.cost ⟨0, (fetch index).cost latency⟩ +
      Completion.cost ⟨0, p.steps.toNat⟩ = cost + p.steps.toNat + 2 := by
    rw [hCost]
    change cost + 1 + (p.steps.toNat + 1) = cost + p.steps.toNat + 2
    omega
  rw [← hTotal]
  exact hFetched.bind ((achieves_step rule hSteps).bind ((achieves_check (fun _ h => h.2) rfl).bind
    ((Session.achieves_pure _).weaken (fun _ h => h.1) fun _ h => h)))

theorem fails_evolve (rule : UInt8) {index : UInt32} {seed w : UInt64}
    (hFetch : Fetches bytes scratchpad (fetch index) w)
    (hWrong : Automaton.ringReference rule p.steps.toNat w ≠
      Automaton.ringReference rule p.steps.toNat seed) :
    Fails latency limit (Stored bytes scratchpad) (evolve p fetch rule index seed)
      (.wrongEvolution rule seed (Automaton.ringReference rule p.steps.toNat w)
        (Automaton.ringReference rule p.steps.toNat seed)) := by
  have hFetched := Session.achieves_execute Failure.engine ((hCost index).trans_le hLimit) hFetch
  exact hFetched.bind_fails ((achieves_step rule hSteps).bind_fails
    ((fails_check (fun _ h => h.2) hWrong).bind _))

theorem achieves_evolveSeeds (rule : UInt8) {seeds : List UInt64} {index : UInt32}
    (hFetch : ∀ (i : Nat) (hi : i < seeds.length),
      Fetches bytes scratchpad (fetch (index + UInt32.ofNat i)) seeds[i]) :
    Achieves latency limit (Stored bytes scratchpad) (evolveSeeds p fetch rule index seeds)
      (seeds.length * (cost + p.steps.toNat + 2)) (Stored bytes scratchpad) := by
  induction seeds generalizing index with
  | nil =>
    rw [List.length_nil, Nat.zero_mul]
    exact Session.achieves_pure 0
  | cons seed seeds ih =>
    have hHead := hFetch 0 (Nat.succ_pos _)
    rw [show index + UInt32.ofNat 0 = index from UInt32.add_zero index] at hHead
    have hTail : ∀ (i : Nat) (hi : i < seeds.length),
        Fetches bytes scratchpad (fetch (index + 1 + UInt32.ofNat i)) seeds[i] :=
      fun i hi => add_ofNat_succ index i ▸ hFetch (i + 1) (Nat.succ_lt_succ hi)
    have hEvolved := achieves_evolve hSteps hCost hLimit rule hHead
    rw [List.length_cons, Nat.succ_mul, Nat.add_comm]
    exact hEvolved.bind ((ih hTail).bind (Session.achieves_pure _))

/-- The seeds before `k` are evolved, and another word is found in its place. -/
theorem fails_evolveSeeds (rule : UInt8) {seeds : List UInt64} {index : UInt32} {k : Nat}
    (hk : k < seeds.length) {w : UInt64}
    (hFetch : ∀ (i : Nat) (hi : i < k),
      Fetches bytes scratchpad (fetch (index + UInt32.ofNat i)) seeds[i])
    (hOther : Fetches bytes scratchpad (fetch (index + UInt32.ofNat k)) w)
    (hWrong : Automaton.ringReference rule p.steps.toNat w ≠
      Automaton.ringReference rule p.steps.toNat seeds[k]) :
    Fails latency limit (Stored bytes scratchpad) (evolveSeeds p fetch rule index seeds)
      (.wrongEvolution rule seeds[k] (Automaton.ringReference rule p.steps.toNat w)
        (Automaton.ringReference rule p.steps.toNat seeds[k])) := by
  induction seeds generalizing index k with
  | nil => exact absurd hk (Nat.not_lt_zero k)
  | cons seed seeds ih =>
    have hNone : index + UInt32.ofNat 0 = index := UInt32.add_zero index
    cases k with
    | zero =>
      rw [hNone] at hOther
      rw [List.getElem_cons_zero] at hWrong ⊢
      exact (fails_evolve hSteps hCost hLimit rule hOther hWrong).bind _
    | succ k =>
      have hHead := hFetch 0 (Nat.succ_pos k)
      rw [hNone] at hHead
      have hRoom : k < seeds.length := Nat.lt_of_succ_lt_succ hk
      have hTail : ∀ (i : Nat) (hi : i < k),
          Fetches bytes scratchpad (fetch (index + 1 + UInt32.ofNat i)) seeds[i] := by
        intro i hi
        rw [← add_ofNat_succ]
        exact hFetch (i + 1) (Nat.succ_lt_succ hi)
      rw [add_ofNat_succ] at hOther
      rw [List.getElem_cons_succ] at hWrong ⊢
      have hEvolved := achieves_evolve hSteps hCost hLimit rule hHead
      exact hEvolved.bind_fails ((ih hRoom hTail hOther hWrong).bind _)

theorem achieves_evolveAll {rules : List UInt8}
    (hFetch : ∀ (i : Nat) (hi : i < p.seeds.length),
      Fetches bytes scratchpad (fetch (UInt32.ofNat i)) p.seeds[i]) :
    Achieves latency limit (Stored bytes scratchpad) (evolveAll p fetch rules)
      (p.seeds.length * rules.length * (cost + p.steps.toNat + 2))
      (Stored bytes scratchpad) := by
  induction rules with
  | nil =>
    rw [List.length_nil, Nat.mul_zero, Nat.zero_mul]
    exact Session.achieves_pure 0
  | cons rule rules ih =>
    have hPlaces : ∀ (i : Nat) (hi : i < p.seeds.length),
        Fetches bytes scratchpad (fetch (0 + UInt32.ofNat i)) p.seeds[i] := by
      intro i hi
      rw [UInt32.zero_add]
      exact hFetch i hi
    have hSeeds := achieves_evolveSeeds hSteps hCost hLimit rule hPlaces
    rw [List.length_cons, Nat.mul_succ p.seeds.length, Nat.add_mul, Nat.add_comm]
    exact hSeeds.bind (ih.bind (Session.achieves_pure _))

end Loops

/-- What a sweep reports on a memory of some latency. -/
def Parameters.report (p : Parameters) (latency : Nat) : Report :=
  let evolutions := p.seeds.length * p.rules.length
  let burst := Instruction.burstCycles latency p.seeds.length
  ⟨evolutions, evolutions * (latency + p.steps.toNat + 3), burst,
    burst + evolutions * (p.steps.toNat + 2)⟩

/-- The bytes after the seeds were written. -/
def seeded (p : Parameters) (m : Memory) : UInt64 → UInt8 :=
  (m.writeWords p.base.toUInt64 p.seeds).readByte

/-- The words that are found where the seeds are to be. -/
def found (p : Parameters) (m : Memory) : Nat → UInt64 :=
  Architecture.upToEnd p.base (p.seeds.getD · 0) fun i =>
    Memory.wordIn m.readByte (Architecture.burstAddress p.base i)

/-- The scratchpad after the seeds were brought there. -/
def filled (p : Parameters) (scratchpad : Fin scratchpadSize → UInt64) :
    Fin scratchpadSize → UInt64 :=
  fun i => if i.val < p.seeds.length then p.seeds.getD i 0 else scratchpad i

theorem found_of_fits (hFits : (p.base &&& ~~~7).toNat + 8 * p.seeds.length ≤ 2 ^ 32) {i : Nat}
    (hi : i < p.seeds.length) : found p m i = p.seeds[i] := by
  rw [found, Architecture.upToEnd_of_fits hFits hi, List.getD_eq_getElem _ _ hi]

theorem achieves_write :
    Achieves latency limit (Stored m.readByte scratchpad)
      (Session.updateMemory (·.writeWords p.base.toUInt64 p.seeds) : Run Unit) ()
      (Stored (seeded p m) scratchpad) := by
  apply Session.achieves_updateMemory
  rintro s ⟨hMemory, hScratchpad⟩ m' hBytes
  exact ⟨Memory.readByte_writeWords_congr (hBytes.trans hMemory) _ _, hScratchpad⟩

section Seeds

variable (hSeeds : p.seeds.length ≤ scratchpadSize)

include hSeeds

theorem fetches_address {i : Nat} (hi : i < p.seeds.length) :
    Fetches (seeded p m) scratchpad (.load (p.address (UInt32.ofNat i))) (found p m i) := by
  apply fetches_load
  rw [Parameters.address, Architecture.toUInt64_add_mul_eight,
    Architecture.toNat_ofNat_of_le (hi.le.trans hSeeds)]
  exact Architecture.wordIn_writeWords hSeeds hi m

theorem fetches_filled {i : Nat} (hi : i < p.seeds.length) :
    Fetches bytes (filled p scratchpad) (.scratchToCar (UInt32.ofNat i)) p.seeds[i] := by
  apply fetches_scratchToCar
  have hSlot : (Architecture.slot i).val = i := Nat.mod_eq_of_lt (hi.trans_le hSeeds)
  rw [Architecture.toNat_ofNat_of_le (hi.le.trans hSeeds), filled, hSlot, if_pos hi,
    List.getD_eq_getElem _ _ hi]

theorem perform_burstLoad (hFits : (p.base &&& ~~~7).toNat + 8 * p.seeds.length ≤ 2 ^ 32)
    {s : Architecture} (h : Stored (seeded p m) scratchpad s) :
    ∃ t, s.perform (.burstLoad p.base (UInt32.ofNat p.seeds.length)) = (0, t) ∧
      Stored (seeded p m) (filled p scratchpad) t := by
  have hLength := Architecture.toNat_ofNat_of_le hSeeds
  refine ⟨_, s.perform_burstLoad p.base (hLength.trans_le hSeeds), h.1, ?_⟩
  funext i
  simp only [hLength, filled, h.1, h.2]
  split
  · rename_i hi
    rw [seeded, Architecture.wordIn_writeWords hSeeds hi, Architecture.upToEnd_of_fits hFits hi]
  · rfl

theorem achieves_run (hSteps : p.steps.toNat ≤ limit) (hLoad : latency + 1 ≤ limit)
    (hBurst : max 1 (p.seeds.length * (latency + 2)) ≤ limit)
    (hFits : (p.base &&& ~~~7).toNat + 8 * p.seeds.length ≤ 2 ^ 32) :
    Achieves latency limit (Stored m.readByte scratchpad) (run p) (p.report latency)
      (Stored (seeded p m) (filled p scratchpad)) := by
  have hLength := Architecture.toNat_ofNat_of_le hSeeds
  have hIsBurst := Instruction.operation_burstLoad p.base (UInt32.ofNat p.seeds.length)
  have hReload : Achieves latency limit (Stored (seeded p m) scratchpad)
      (evolveAll p (fun index => .load (p.address index)) p.rules) _
      (Stored (seeded p m) scratchpad) :=
    achieves_evolveAll hSteps (fun index => Instruction.cost_load (p.address index) latency) hLoad
      fun i hi => found_of_fits (m := m) hFits hi ▸ fetches_address hSeeds hi
  have hMoved : Achieves latency limit (Stored (seeded p m) scratchpad)
      (execute (.burstLoad p.base (UInt32.ofNat p.seeds.length))) _
      (Stored (seeded p m) (filled p scratchpad)) :=
    Session.achieves_execute Failure.engine
      (Instruction.cost_burst_le (.inl hIsBurst) (hLength.symm ▸ hBurst))
      fun s h => perform_burstLoad hSeeds hFits h
  have hReuse : Achieves latency limit (Stored (seeded p m) (filled p scratchpad))
      (evolveAll p .scratchToCar p.rules) _ (Stored (seeded p m) (filled p scratchpad)) :=
    achieves_evolveAll hSteps (fun index => Instruction.cost_scratchToCar index latency)
      (Nat.zero_le limit) fun i hi => fetches_filled hSeeds hi
  have hCost := Instruction.cost_burst (.inl hIsBurst) hLength hSeeds 0 latency
  have hReport : (⟨p.seeds.length * p.rules.length,
      p.seeds.length * p.rules.length * (latency + 1 + p.steps.toNat + 2),
      Instruction.burstCycles latency p.seeds.length,
      Instruction.burstCycles latency p.seeds.length +
        p.seeds.length * p.rules.length * (0 + p.steps.toNat + 2)⟩ : Report) =
      p.report latency := by
    rw [Nat.zero_add, Nat.add_right_comm latency 1]
    rfl
  rw [← hReport, ← hCost]
  exact (Session.achieves_require (decide_eq_true hSeeds) _).bind
    (achieves_write.bind (hReload.bind (hMoved.bind
      ((Session.achieves_require rfl _).bind (hReuse.bind (Session.achieves_pure _))))))

/-- A sweep that goes past the end finds the first word of the memory in place of the seed `k`, and
reports a wrong evolution if that word evolves differently. -/
theorem fails_run {rule : UInt8} {rules : List UInt8} {k : Nat} (hSteps : p.steps.toNat ≤ limit)
    (hLoad : latency + 1 ≤ limit) (hRules : p.rules = rule :: rules) (hk : k < p.seeds.length)
    (hEnd : (p.base &&& ~~~7).toNat + 8 * k = 2 ^ 32)
    (hWrong : Automaton.ringReference rule p.steps.toNat (m.peekWord 0) ≠
      Automaton.ringReference rule p.steps.toNat p.seeds[k]) :
    Fails latency limit (Stored m.readByte scratchpad) (run p)
      (.wrongEvolution rule p.seeds[k]
        (Automaton.ringReference rule p.steps.toNat (m.peekWord 0))
        (Automaton.ringReference rule p.steps.toNat p.seeds[k])) := by
  have hBefore : ∀ (i : Nat) (hi : i < k), Fetches (seeded p m) scratchpad
      (.load (p.address (0 + UInt32.ofNat i))) p.seeds[i] := by
    intro i hi
    have hFound : found p m i = p.seeds[i] := by
      rw [found, Architecture.upToEnd_of_fits (Nat.le_of_eq hEnd) hi,
        List.getD_eq_getElem _ _ (hi.trans hk)]
    rw [UInt32.zero_add, ← hFound]
    exact fetches_address hSeeds (hi.trans hk)
  have hFirst : Fetches (seeded p m) scratchpad (.load (p.address (0 + UInt32.ofNat k)))
      (m.peekWord 0) := by
    have hFound : found p m k = m.peekWord 0 := by
      rw [found, Architecture.upToEnd_of_end hEnd, Memory.peekWord_eq]
      apply Memory.wordIn_of_div_eq
      rw [Memory.toNat_and_not_seven] at hEnd
      rw [Architecture.burstAddress_div, UInt64.toNat_zero]
      omega
    rw [UInt32.zero_add, ← hFound]
    exact fetches_address hSeeds hk
  have hCost := fun index => Instruction.cost_load (p.address index) latency
  have hSeedsFail := fails_evolveSeeds hSteps hCost hLoad rule hk hBefore hFirst hWrong
  have hAllFail : Fails latency limit (Stored (seeded p m) scratchpad)
      (evolveAll p (fun index => .load (p.address index)) (rule :: rules)) _ := hSeedsFail.bind _
  rw [← hRules] at hAllFail
  exact (Session.achieves_require (decide_eq_true hSeeds) _).bind_fails
    (achieves_write.bind_fails (hAllFail.bind _))

end Seeds

theorem Report.bmod_saved (r : Report) :
    Int.bmod r.saved UInt64.size = Int.bmod (r.reload - r.scratchpad) UInt64.size :=
  (Int.sub_bmod _ _ _).symm

theorem Report.signed_of_lt {n : Nat} (hn : n < 2 ^ 63) : signed n = n := by
  have hSize : (UInt64.size : Int) = 2 ^ 64 := by norm_num [UInt64.size]
  apply Int.bmod_eq_of_le
  · rw [hSize]
    omega
  · rw [hSize]
    omega

/-- With enough cycles, and seeds that end within the 32-bit space, a sweep finds all evolutions
right. Its cycles follow from the numbers of seeds and rules, and the seeds are in the scratchpad at
the end. Seeds that do not fit in the scratchpad are refused before anything is done. -/
theorem run_sweeps (p : Parameters) :
    (∀ e : Engine, e.Reachable → e.controller.isIdle = true → p.seeds.length ≤ 256 →
      max (max p.steps.toNat (e.bus.latency + 1))
        (max 1 (p.seeds.length * (e.bus.latency + 2))) ≤ e.timeout →
      (p.base &&& ~~~7).toNat + 8 * p.seeds.length ≤ 2 ^ 32 →
      let n := p.seeds.length
      let r := p.rules.length
      let burst := if n = 0 then 2 else 1 + n * (e.bus.latency + 2)
      ∃ (report : Report) (t : Engine), (run p).run e = (.ok report, t) ∧
        report.evolutions = n * r ∧
        report.reload = n * r * (e.bus.latency + p.steps.toNat + 3) ∧
        report.burst = burst ∧
        report.scratchpad = burst + n * r * (p.steps.toNat + 2) ∧
        (report.reload : Int) - report.scratchpad = n * r * (e.bus.latency + 1) - burst ∧
        Int.bmod report.saved (2 ^ 64) = Int.bmod (n * r * (e.bus.latency + 1) - burst) (2 ^ 64) ∧
        (report.reload < 2 ^ 63 → report.scratchpad < 2 ^ 63 →
          report.saved = n * r * (e.bus.latency + 1) - burst) ∧
        t.controller.isIdle = true ∧
        ∀ (i : Fin scratchpadSize) (hi : i.val < n),
          t.controller.registers.scratchpad.words[i] = p.seeds[i.val]) ∧
    (256 < p.seeds.length →
      ∀ e : Engine, (run p).run e = (.error (.tooManySeeds p.seeds.length), e)) := by
  constructor
  · intro e hReachable hIdle hSeeds hLimit hFits n r burst
    rw [max_le_iff, max_le_iff] at hLimit
    obtain ⟨⟨hSteps, hLoad⟩, hBurst⟩ := hLimit
    have hStart : e.Rests e.bus.latency e.timeout
        (Stored e.memory.readByte e.architecture.scratchpad) := hReachable.rests hIdle ⟨rfl, rfl⟩
    obtain ⟨t, hRun, hEnd⟩ := achieves_run hSeeds hSteps hLoad hBurst hFits e hStart
    have hDifference : ((p.report e.bus.latency).reload : Int) -
        (p.report e.bus.latency).scratchpad = n * r * (e.bus.latency + 1) - burst := by
      change ((n * r * (e.bus.latency + p.steps.toNat + 3) : Nat) : Int) -
        ((burst + n * r * (p.steps.toNat + 2) : Nat) : Int) = _
      push_cast
      ring
    refine ⟨p.report e.bus.latency, t, hRun, rfl, rfl, rfl, rfl, hDifference, ?_, ?_,
      decide_eq_true hEnd.idle, ?_⟩
    · rw [← hDifference]
      exact Report.bmod_saved _
    · intro hReload hReuse
      rw [← hDifference]
      rw [Report.saved, Report.signed_of_lt hReload, Report.signed_of_lt hReuse]
    · intro i hi
      have hWord : t.controller.registers.scratchpad.words[i] = _ := congrFun hEnd.holds.2 i
      rw [hWord, filled, if_pos hi, List.getD_eq_getElem _ _ hi]
  · intro hMany e
    exact Session.run_require_bind (decide_eq_false (Nat.not_le.mpr hMany)) _ _ e

/-- Two seeds in the last words of the 32-bit space, under one rule: the burst costs three cycles
more than it saves. -/
theorem run_sweeps_losing :
    let e := (Engine.fresh .empty 1 9).actAll
      [.execute (.setLow 5), .issue (.load 8), .step, .reset]
    let p : Parameters := ⟨[1, 2], [30], 3, 0xFFFFFFF0⟩
    let many : Parameters := ⟨List.replicate 257 1, [30], 3, 0⟩
    e.Reachable ∧ e.controller.isIdle = true ∧ p.seeds.length ≤ 256 ∧
      max (max p.steps.toNat (e.bus.latency + 1))
        (max 1 (p.seeds.length * (e.bus.latency + 2))) ≤ e.timeout ∧
      (p.base &&& ~~~7).toNat + 8 * p.seeds.length ≤ 2 ^ 32 ∧
      256 < many.seeds.length ∧
      (∃ (report : Report) (t : Engine), (run p).run e = (.ok report, t) ∧ report = ⟨2, 14, 7, 17⟩ ∧
        report.saved = -3 ∧ t.controller.registers.scratchpad.words[1] = 2) ∧
      (run many).run e = (.error (.tooManySeeds 257), e) := by
  intro e p many
  have hReachable : e.Reachable := ⟨_, _, _, _, rfl⟩
  have hIdle : e.controller.isIdle = true := rfl
  have hSeeds : p.seeds.length ≤ 256 := by decide
  have hLimit : max (max p.steps.toNat (e.bus.latency + 1))
      (max 1 (p.seeds.length * (e.bus.latency + 2))) ≤ e.timeout := by decide
  have hFits : (p.base &&& ~~~7).toNat + 8 * p.seeds.length ≤ 2 ^ 32 := by decide
  have hLength : many.seeds.length = 257 := List.length_replicate
  have hMany : 256 < many.seeds.length := hLength.symm ▸ Nat.lt_succ_self 256
  obtain ⟨⟨_, _, _, _⟩, t, hRun, rfl, rfl, rfl, rfl, -, -, hSaved, -, hWords⟩ :=
    (run_sweeps p).1 e hReachable hIdle hSeeds hLimit hFits
  refine ⟨hReachable, hIdle, hSeeds, hLimit, hFits, hMany, ⟨_, t, hRun, rfl, ?_, ?_⟩, ?_⟩
  · exact hSaved (by decide) (by decide)
  · exact hWords ⟨1, by decide⟩ (by decide)
  · exact hLength ▸ (run_sweeps many).2 hMany e

end CellularCoprocessor.Sweep
