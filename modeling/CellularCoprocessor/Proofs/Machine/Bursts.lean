import CellularCoprocessor.Proofs.Machine.Refinement

/-!
# Where a burst lives

The words of a burst lie at addresses that wrap at 32 bits and are aligned on access. No two of them
share a word of the memory, so what a burst stores another one loads again, from any base in the
same word.
-/

namespace CellularCoprocessor

namespace Architecture

variable {base : UInt32} {n : Nat}

theorem burstAddress_div (base : UInt32) (i : Nat) :
    (burstAddress base i).toNat / 8 = (base.toNat / 8 + i) % 2 ^ 29 := by
  rw [burstAddress, UInt64.toNat_ofNat']
  omega

theorem burstAddress_div_ne {i j : Nat} (hi : i < 2 ^ 29) (hj : j < 2 ^ 29) (hne : i ≠ j) :
    (burstAddress base i).toNat / 8 ≠ (burstAddress base j).toNat / 8 := by
  rw [burstAddress_div, burstAddress_div]
  omega

/-- The bytes after the words `f 0`, `f 1`, … of a burst were stored. -/
def storeWords (base : UInt32) (f : Nat → UInt64) (n : Nat) (bytes : UInt64 → UInt8) :
    UInt64 → UInt8 :=
  (List.range n).foldl (fun bytes i => Memory.replaceWord bytes (burstAddress base i) (f i)) bytes

theorem storeWords_succ (f : Nat → UInt64) (bytes : UInt64 → UInt8) :
    storeWords base f (n + 1) bytes =
      Memory.replaceWord (storeWords base f n bytes) (burstAddress base n) (f n) := by
  simp only [storeWords, List.range_succ, List.foldl_append, List.foldl_cons, List.foldl_nil]

theorem storeWords_congr {f g : Nat → UInt64} {bytes : UInt64 → UInt8}
    (h : ∀ i < n, f i = g i) : storeWords base f n bytes = storeWords base g n bytes := by
  rw [storeWords, storeWords]
  apply List.foldl_ext
  intro bytes i hi
  rw [h i (List.mem_range.mp hi)]

theorem storeWords_of_ne {f : Nat → UInt64} {bytes : UInt64 → UInt8} {b : UInt64}
    (h : ∀ i < n, b.toNat / 8 ≠ (burstAddress base i).toNat / 8) :
    storeWords base f n bytes b = bytes b := by
  induction n with
  | zero => rfl
  | succ n ih =>
    rw [storeWords_succ, Memory.replaceWord, if_neg (h n (by omega))]
    exact ih fun i hi => h i (by omega)

theorem wordIn_storeWords {f : Nat → UInt64} {bytes : UInt64 → UInt8} (hn : n ≤ 2 ^ 29) {i : Nat}
    (hi : i < n) : Memory.wordIn (storeWords base f n bytes) (burstAddress base i) = f i := by
  induction n with
  | zero => omega
  | succ n ih =>
    rw [storeWords_succ]
    by_cases hLast : i = n
    · rw [hLast, Memory.wordIn_replaceWord]
    · rw [Memory.wordIn_replaceWord_of_ne (burstAddress_div_ne (by omega) (by omega) hLast)]
      exact ih (by omega) (by omega)

theorem wordIn_storeWords_of_same {f : Nat → UInt64} {bytes : UInt64 → UInt8} {a b : UInt32}
    (hSame : a &&& ~~~7 = b &&& ~~~7) (hn : n ≤ 2 ^ 29) {i : Nat} (hi : i < n) :
    Memory.wordIn (storeWords a f n bytes) (burstAddress b i) = f i := by
  -- Both bases lie in the same word, so the words of the two bursts are the same.
  have hBase : a.toNat / 8 = b.toNat / 8 := by
    have hNat := congrArg UInt32.toNat hSame
    rw [Memory.toNat_and_not_seven, Memory.toNat_and_not_seven] at hNat
    omega
  have hWord : (burstAddress b i).toNat / 8 = (burstAddress a i).toNat / 8 := by
    rw [burstAddress_div, burstAddress_div, hBase]
  rw [Memory.wordIn_of_div_eq hWord, wordIn_storeWords hn hi]

theorem nodup_burstAddress (hn : n ≤ 2 ^ 29) :
    ((List.range n).map fun i => Memory.wordAddress (burstAddress base i)).Nodup := by
  refine List.Nodup.map_on ?_ List.nodup_range
  intro i hi j hj hPlaces
  have hiLess := List.mem_range.mp hi
  have hjLess := List.mem_range.mp hj
  by_contra hne
  exact burstAddress_div_ne (by omega) (by omega) hne (Memory.wordAddress_eq_iff.mp hPlaces)

theorem foldl_store (s : Architecture) (base : UInt32) (n : Nat) :
    (List.range n).foldl (moveWord .store base) s =
      { s with memory := storeWords base (fun i => s.scratchpad (slot i)) n s.memory } := by
  induction n with
  | zero => rfl
  | succ n ih =>
    rw [List.range_succ, List.foldl_append, ih, storeWords_succ]
    rfl

theorem foldl_load (s : Architecture) (base : UInt32) (hn : n ≤ scratchpadSize) :
    (List.range n).foldl (moveWord .load base) s =
      { s with
        scratchpad := fun i =>
          if i.val < n then Memory.wordIn s.memory (burstAddress base i) else s.scratchpad i } := by
  induction n with
  | zero => rfl
  | succ n ih =>
    have hSlot : (slot n).val = n := Nat.mod_eq_of_lt hn
    rw [List.range_succ, List.foldl_append, ih (by omega), List.foldl_cons, List.foldl_nil,
      moveWord]
    simp only [mk.injEq, true_and, and_true]
    funext i
    by_cases hLast : i = slot n
    · have hVal : i.val = n := by rw [hLast, hSlot]
      rw [hLast, Function.update_self, hSlot, if_pos (Nat.lt_succ_self n)]
    · have hVal : i.val ≠ n := fun h => hLast (Fin.ext (h.trans hSlot.symm))
      have hLess : i.val < n + 1 ↔ i.val < n := by omega
      rw [Function.update_of_ne hLast]
      simp only [hLess]

theorem burst_store (s : Architecture) (base : UInt32) {length : UInt32}
    (hLength : length.toNat ≤ scratchpadSize) :
    s.burst .store base length = (0, { s with
      memory := storeWords base (fun i => s.scratchpad (slot i)) length.toNat s.memory }) := by
  rw [burst, if_pos hLength, foldl_store]

theorem burst_load (s : Architecture) (base : UInt32) {length : UInt32}
    (hLength : length.toNat ≤ scratchpadSize) :
    s.burst .load base length = (0, { s with
      scratchpad := fun i =>
        if i.val < length.toNat then Memory.wordIn s.memory (burstAddress base i)
        else s.scratchpad i }) := by
  rw [burst, if_pos hLength, foldl_load s base hLength]

end Architecture

namespace Instruction

theorem operation_burstLoad (base length : UInt32) :
    (burstLoad base length).operation = .burstLoad :=
  (by decide : Operation.decode 0 1 = .burstLoad)

theorem operation_burstStore (base length : UInt32) :
    (burstStore base length).operation = .burstStore :=
  (by decide : Operation.decode 1 1 = .burstStore)

theorem cost_burst_le {i : Instruction}
    (hBurst : i.operation = .burstLoad ∨ i.operation = .burstStore) {latency limit : Nat}
    (hLimit : max 1 (i.rs2.toNat * (latency + 2)) ≤ limit) : i.cost latency ≤ limit := by
  have hCost : i.cost latency = if i.rs2.toNat > 256 then 0 else if i.rs2.toNat = 0 then 1
      else i.rs2.toNat * (latency + 2) := by
    rw [cost]
    rcases hBurst with hLoad | hStore
    · rw [hLoad]
    · rw [hStore]
  rw [hCost]
  split
  · omega
  · split
    · omega
    · omega

end Instruction

namespace Engine

variable {e : Engine}

theorem Coherent.coherent_reset (h : e.Coherent) : e.reset.Coherent :=
  h.coherent_move .reset

theorem architecture_reset (e : Engine) :
    e.reset.architecture = ⟨0, fun _ => 0, [], 0, e.architecture.memory⟩ := by
  have hBlank : (fun i : Fin scratchpadSize => Scratchpad.blank.words[i]) = fun _ => 0 := by
    funext i
    simp [Scratchpad.blank]
  exact congrArg (fun f => Architecture.mk 0 f [] 0 e.architecture.memory) hBlank

section Burst

variable {a n : UInt32}

theorem Refines.burstStore (h : e.Refines (.burstStore a n)) (hn : n.toNat ≤ scratchpadSize) :
    (e.execute (.burstStore a n)).1 =
        .ok ⟨0, (Instruction.burstStore a n).cost e.bus.latency⟩ ∧
      (e.execute (.burstStore a n)).2.architecture = { e.architecture with
        memory := Architecture.storeWords a
          (fun i => e.architecture.scratchpad (Architecture.slot i)) n.toNat
          e.architecture.memory } := by
  obtain ⟨hDone, hState, -⟩ := h
  rw [Instruction.operation_burstStore, Architecture.execute, Instruction.burstStore,
    Architecture.burst_store _ _ hn] at hDone hState
  exact ⟨hDone, hState⟩

theorem Refines.burstLoad (h : e.Refines (.burstLoad a n)) (hn : n.toNat ≤ scratchpadSize) :
    (e.execute (.burstLoad a n)).1 =
        .ok ⟨0, (Instruction.burstLoad a n).cost e.bus.latency⟩ ∧
      (e.execute (.burstLoad a n)).2.architecture = { e.architecture with
        scratchpad := fun i =>
          if i.val < n.toNat then
            Memory.wordIn e.architecture.memory (Architecture.burstAddress a i)
          else e.architecture.scratchpad i } := by
  obtain ⟨hDone, hState, -⟩ := h
  rw [Instruction.operation_burstLoad, Architecture.execute, Instruction.burstLoad,
    Architecture.burst_load _ _ hn] at hDone hState
  exact ⟨hDone, hState⟩

end Burst

/-- What a burst stores, another burst loads after a reset, also if the base is not aligned or the
addresses wrap. The words of a burst are apart from each other, and no byte outside them changes. -/
theorem burst_store_load (h : e.Reachable) (hIdle : e.controller.isIdle = true) {n a b : UInt32}
    (hn : n.toNat ≤ 256) (hLimit : max 1 (n.toNat * (e.bus.latency + 2)) ≤ e.timeout)
    (hSame : a &&& ~~~7 = b &&& ~~~7) :
    let stored := e.execute (.burstStore a n)
    let loaded := stored.2.reset.execute (.burstLoad b n)
    let places := (List.range n.toNat).map fun i =>
      Memory.wordAddress (UInt64.ofNat ((a.toNat + 8 * i) % 2 ^ 32))
    stored.1 = .ok ⟨0, (Instruction.burstStore a n).cost e.bus.latency⟩ ∧
    loaded.1 = .ok ⟨0, (Instruction.burstLoad b n).cost e.bus.latency⟩ ∧
    (∀ i : Fin scratchpadSize, loaded.2.controller.registers.scratchpad.words[i] =
      if i.val < n.toNat then e.controller.registers.scratchpad.words[i] else 0) ∧
    places.Nodup ∧
    ∀ address : UInt64, Memory.wordAddress address ∉ places →
      loaded.2.memory.readByte address = e.memory.readByte address := by
  intro stored loaded places
  have hPhase : e.controller.phase = .idle := of_decide_eq_true hIdle
  have hStored := h.coherent.refines hPhase
    (Instruction.cost_burst_le (.inr (Instruction.operation_burstStore a n)) hLimit)
  have hReset : stored.2.reset.Coherent := hStored.coherent.coherent_reset
  have hLatency : stored.2.reset.bus.latency = e.bus.latency := hStored.latency
  have hTimeout : stored.2.reset.timeout = e.timeout := hStored.timeout
  have hLoaded := hReset.refines (i := .burstLoad b n) rfl (by
    rw [hLatency, hTimeout]
    exact Instruction.cost_burst_le (.inl (Instruction.operation_burstLoad b n)) hLimit)
  obtain ⟨hStoredDone, hStoredState⟩ := hStored.burstStore hn
  obtain ⟨hLoadedDone, hLoadedState⟩ := hLoaded.burstLoad hn
  rw [architecture_reset, hStoredState] at hLoadedState
  rw [hLatency] at hLoadedDone
  refine ⟨hStoredDone, hLoadedDone, ?_, Architecture.nodup_burstAddress (by omega), ?_⟩
  · intro i
    have hWord := congrFun (congrArg Architecture.scratchpad hLoadedState) i
    simp only [architecture, Architecture.ofRegisters] at hWord
    rw [hWord]
    split
    · rename_i hLess
      have hSlot : Architecture.slot i = i := Fin.ext (Nat.mod_eq_of_lt i.isLt)
      rw [Architecture.wordIn_storeWords_of_same hSame (by omega) hLess, hSlot]
    · rfl
  · intro address hOutside
    have hByte := congrFun (congrArg Architecture.memory hLoadedState) address
    refine hByte.trans (Architecture.storeWords_of_ne ?_)
    intro i hi hSameWord
    exact hOutside (List.mem_map.mpr
      ⟨i, List.mem_range.mpr hi, (Memory.wordAddress_eq_iff.mpr hSameWord).symm⟩)

/-- Three words across the end of the 32-bit addresses, from bases that are not aligned. -/
theorem burst_store_load_wrapping :
    let e := (fresh .empty 1 9).actAll
      [.execute (.setLow 5), .execute (.carToScratch 2), .issue (.load 8), .step, .reset]
    let stored := e.execute (.burstStore 0xFFFFFFF3 3)
    let loaded := stored.2.reset.execute (.burstLoad 0xFFFFFFF6 3)
    e.Reachable ∧ e.controller.isIdle = true ∧ (3 : UInt32).toNat ≤ 256 ∧
      max 1 ((3 : UInt32).toNat * (e.bus.latency + 2)) ≤ e.timeout ∧
      (0xFFFFFFF3 : UInt32) &&& ~~~7 = 0xFFFFFFF6 &&& ~~~7 ∧
      ∀ i : Fin scratchpadSize, loaded.2.architecture.scratchpad i =
        if i.val < 3 then e.architecture.scratchpad i else 0 := by
  intro e stored loaded
  have hReachable : e.Reachable := ⟨_, _, _, _, rfl⟩
  have hIdle : e.controller.isIdle = true := rfl
  have hFits : (3 : UInt32).toNat ≤ 256 := by decide
  have hLimit : max 1 ((3 : UInt32).toNat * (e.bus.latency + 2)) ≤ e.timeout := by decide
  have hSame : (0xFFFFFFF3 : UInt32) &&& ~~~7 = 0xFFFFFFF6 &&& ~~~7 := by decide
  have hLossless := burst_store_load hReachable hIdle hFits hLimit hSame
  exact ⟨hReachable, hIdle, hFits, hLimit, hSame, hLossless.2.2.1⟩

end Engine

end CellularCoprocessor
