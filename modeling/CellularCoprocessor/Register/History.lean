/-!
# Undo history

Snapshots are kept in a ring of eight slots. Once the ring is full a new snapshot overwrites the
oldest, so at most eight evolutions can be undone. Clearing forgets the snapshots but leaves the
slots as they are; a slot that holds no snapshot is never read.
-/

namespace CellularCoprocessor

def historyDepth : Nat := 8

structure History where
  slots : Vector UInt64 historyDepth
  /-- The slot the next snapshot goes to. -/
  next : Fin historyDepth
  count : Nat
  deriving DecidableEq

namespace History

def empty : History := ⟨Vector.replicate historyDepth 0, ⟨0, by decide⟩, 0⟩

def successor (i : Fin historyDepth) : Fin historyDepth :=
  ⟨(i + 1) % historyDepth, Nat.mod_lt _ (by decide)⟩

def predecessor (i : Fin historyDepth) : Fin historyDepth :=
  ⟨(i + 7) % historyDepth, Nat.mod_lt _ (by decide)⟩

def slot (h : History) (i : Fin historyDepth) : UInt64 :=
  h.slots[i]

def isEmpty (h : History) : Bool :=
  h.count == 0

def push (h : History) (w : UInt64) : History :=
  ⟨h.slots.set h.next w h.next.isLt, successor h.next, min (h.count + 1) historyDepth⟩

/-- The most recent snapshot, and the history without it. -/
def pop? (h : History) : Option (UInt64 × History) :=
  match h.count with
  | 0 => none
  | n + 1 => some (h.slot (predecessor h.next), { h with next := predecessor h.next, count := n })

def clear (h : History) : History :=
  { h with next := ⟨0, by decide⟩, count := 0 }

/-- The slot of the snapshot that `i` younger ones follow. -/
def slotOf (h : History) (i : Nat) : Fin historyDepth :=
  ⟨(h.next + historyDepth - 1 - i % historyDepth) % historyDepth, Nat.mod_lt _ (by decide)⟩

/-- The snapshots, the most recent one first. -/
def toList (h : History) : List UInt64 :=
  (List.range h.count).map fun i => h.slot (h.slotOf i)

def describe (h : History) : String :=
  let slots := ", ".intercalate (h.slots.toList.map fun w => toString w.toNat)
  s!"History \x7b slots: [{slots}], ptr: {h.next.val}, count: {h.count} \x7d"

theorem slotOf_push_succ (h : History) (w : UInt64) {i : Nat} (hi : i < 7) :
    (h.push w).slotOf (i + 1) = h.slotOf i := by
  have := h.next.isLt
  apply Fin.ext
  simp only [slotOf, push, successor, historyDepth] at *
  omega

theorem toList_push (h : History) (w : UInt64) (hc : h.count ≤ historyDepth) :
    (h.push w).toList = (w :: h.toList).take historyDepth := by
  have hn := h.next.isLt
  have hzero : (h.push w).slotOf 0 = h.next := by
    apply Fin.ext
    simp only [slotOf, push, successor, historyDepth] at *
    omega
  apply List.ext_getElem
  · simp [toList, push]; omega
  · intro i h1 h2
    cases i with
    | zero => simp [toList, hzero]; simp [slot, push]
    | succ i =>
      have hi : i < 7 := by simp [toList, push, historyDepth] at h1; omega
      have hne : h.next.val ≠ (h.slotOf i).val := by
        simp only [slotOf, historyDepth] at *
        omega
      simp only [toList, List.getElem_map, List.getElem_range, List.getElem_take,
        List.getElem_cons_succ, slotOf_push_succ h w hi]
      simp [slot, push, hne]

theorem length_toList (h : History) : h.toList.length = h.count := by
  rw [toList, List.length_map, List.length_range]

section Pop

variable {h t : History} {w : UInt64}

theorem count_of_pop? (hPop : h.pop? = some (w, t)) : h.count = t.count + 1 := by
  rw [pop?] at hPop
  split at hPop
  · cases hPop
  · rename_i n hCount
    cases hPop
    exact hCount

theorem next_of_pop? (hPop : h.pop? = some (w, t)) : t.next = predecessor h.next := by
  rw [pop?] at hPop
  split at hPop
  · cases hPop
  · cases hPop
    rfl

end Pop

theorem pop?_eq_none_iff (h : History) : h.pop? = none ↔ h.toList = [] := by
  rcases h with ⟨slots, next, count⟩
  cases count <;> simp [pop?, toList]

theorem toList_of_pop? {h t : History} {w : UInt64} (hc : h.count ≤ historyDepth)
    (hp : h.pop? = some (w, t)) : h.toList = w :: t.toList := by
  rcases h with ⟨slots, next, count⟩
  cases count with
  | zero => simp [pop?] at hp
  | succ n =>
    simp only [pop?, Option.some.injEq, Prod.mk.injEq] at hp
    obtain ⟨rfl, rfl⟩ := hp
    have hn := next.isLt
    have hzero : slotOf ⟨slots, next, n + 1⟩ 0 = predecessor next := by
      apply Fin.ext
      simp only [slotOf, predecessor, historyDepth] at *
      omega
    have hsucc : ∀ i < n, slotOf ⟨slots, next, n + 1⟩ (i + 1) =
        slotOf ⟨slots, predecessor next, n⟩ i := by
      intro i hi
      apply Fin.ext
      simp only [slotOf, predecessor, historyDepth] at *
      omega
    simp only [toList, List.range_succ_eq_map, List.map_cons, List.map_map, hzero]
    congr 1
    apply List.map_congr_left
    intro i hi
    simp [hsucc i (List.mem_range.mp hi), slot]

end History

end CellularCoprocessor
