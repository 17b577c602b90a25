import CellularCoprocessor.Register.History
import Mathlib

/-!
# The history as a bounded stack

Seen through its commands the ring is a list of at most eight snapshots, the most recent one first.
Which slot comes next follows from the commands since the last clear. What the slots without a
snapshot hold, whether it was popped, overwritten or cleared away, has no influence on any answer.
-/

namespace CellularCoprocessor.History

inductive Command where
  | push (w : UInt64)
  | pop
  | clear
  deriving DecidableEq

def Command.isPush : Command → Bool
  | push _ => true
  | _ => false

/-- Only a pop answers with a snapshot. A pop of an empty history leaves it as it is. -/
def perform (h : History) : Command → Option UInt64 × History
  | .push w => (none, h.push w)
  | .pop =>
    match h.pop? with
    | some (w, t) => (some w, t)
    | none => (none, h)
  | .clear => (none, h.clear)

/-- The same on a list. A push drops all but the eight newest snapshots. -/
def performOnList (s : List UInt64) : Command → Option UInt64 × List UInt64
  | .push w => (none, (w :: s).take 8)
  | .pop => (s.head?, s.tail)
  | .clear => (none, [])

/-- What is seen of a command: its answer, and the number of snapshots after it. -/
structure Entry where
  command : Command
  answer : Option UInt64
  length : Nat
  deriving DecidableEq

def trace (h : History) : List Command → List Entry
  | [] => []
  | c :: commands =>
    ⟨c, (h.perform c).1, (h.perform c).2.count⟩ :: (h.perform c).2.trace commands

def traceOnList (s : List UInt64) : List Command → List Entry
  | [] => []
  | c :: commands =>
    ⟨c, (performOnList s c).1, (performOnList s c).2.length⟩ ::
      traceOnList (performOnList s c).2 commands

def performAll (h : History) (commands : List Command) : History :=
  commands.foldl (fun h c => (h.perform c).2) h

/-- The entries after the last clear, the latest one first. -/
def sinceClear (entries : List Entry) : List Entry :=
  entries.reverse.takeWhile (·.command ≠ .clear)

/-- The pushes among the entries. -/
def pushes (entries : List Entry) : Nat :=
  entries.countP (·.command.isPush)

/-- The pops among the entries that found a snapshot. -/
def pops (entries : List Entry) : Nat :=
  entries.countP (·.answer.isSome)

/-- The slot holds one of the snapshots. -/
def Holds (h : History) (i : Fin historyDepth) : Prop :=
  ∃ j < h.count, h.slotOf j = i

section Step

variable {h : History} (hc : h.count ≤ historyDepth)

include hc

theorem perform_eq_onList (c : Command) :
    ((h.perform c).1, (h.perform c).2.toList) = performOnList h.toList c := by
  cases c with
  | push w => exact congrArg (none, ·) (toList_push h w hc)
  | pop =>
    rw [perform, performOnList]
    cases hPop : h.pop? with
    | none =>
      simp only [(pop?_eq_none_iff h).mp hPop]
      rfl
    | some popped =>
      simp only [toList_of_pop? hc hPop]
      rfl
  | clear => rfl

theorem count_perform_le (c : Command) : (h.perform c).2.count ≤ historyDepth := by
  cases c with
  | push w => exact Nat.min_le_right _ _
  | pop =>
    rw [perform]
    cases hPop : h.pop? with
    | none => exact hc
    | some popped =>
      have hLess := count_of_pop? hPop
      simp only
      omega
  | clear => exact Nat.zero_le _

theorem count_performAll_le (commands : List Command) :
    (h.performAll commands).count ≤ historyDepth := by
  induction commands generalizing h with
  | nil => exact hc
  | cons c commands ih => exact ih (count_perform_le hc c)

theorem trace_eq_onList (commands : List Command) :
    h.trace commands = traceOnList h.toList commands := by
  induction commands generalizing h with
  | nil => rfl
  | cons c commands ih =>
    rw [trace, traceOnList, ← perform_eq_onList hc c, ih (count_perform_le hc c), length_toList]

end Step

theorem performAll_concat (h : History) (commands : List Command) (c : Command) :
    h.performAll (commands ++ [c]) = ((h.performAll commands).perform c).2 :=
  List.foldl_concat ..

theorem trace_concat (h : History) (commands : List Command) (c : Command) :
    h.trace (commands ++ [c]) = h.trace commands ++
      [⟨c, ((h.performAll commands).perform c).1,
        ((h.performAll commands).perform c).2.count⟩] := by
  induction commands generalizing h with
  | nil => rfl
  | cons d commands ih =>
    rw [List.cons_append, trace, trace, ih]
    rfl

section Pointer

/-- The pushes since the last clear, less the pops since then that found a snapshot. -/
def balance (entries : List Entry) : Int :=
  pushes (sinceClear entries) - pops (sinceClear entries)

variable (entries : List Entry) (answer : Option UInt64) (length : Nat)

theorem sinceClear_concat {c : Command} (hc : c ≠ .clear) :
    sinceClear (entries ++ [⟨c, answer, length⟩]) = ⟨c, answer, length⟩ :: sinceClear entries := by
  have hKept : decide (c ≠ .clear) = true := decide_eq_true hc
  simp only [sinceClear, List.reverse_append, List.reverse_singleton, List.singleton_append,
    List.takeWhile_cons, hKept, if_true]

theorem balance_clear : balance (entries ++ [⟨.clear, answer, length⟩]) = 0 := by
  simp [balance, sinceClear, pushes, pops]

theorem balance_concat {c : Command} (hc : c ≠ .clear) :
    balance (entries ++ [⟨c, answer, length⟩]) =
      balance entries + (if c.isPush then 1 else 0) - (if answer.isSome then 1 else 0) := by
  rw [balance, balance, sinceClear_concat entries answer length hc]
  simp only [pushes, pops, List.countP_cons]
  split <;> split <;> push_cast <;> omega

theorem next_perform {h : History} {n : Int} (hn : (h.next.val : Int) = n % 8) {c : Command}
    (hc : c ≠ .clear) :
    ((h.perform c).2.next.val : Int) =
      (n + (if c.isPush then 1 else 0) - (if (h.perform c).1.isSome then 1 else 0)) % 8 := by
  cases c with
  | push w =>
    have hNext : ((h.perform (.push w)).2.next.val : Int) = (h.next.val + 1) % 8 := rfl
    rw [hNext, hn]
    simp only [perform, Command.isPush, Option.isSome_none, Bool.false_eq_true, if_true, if_false]
    omega
  | pop =>
    rw [perform]
    cases hPop : h.pop? with
    | none =>
      simp only [Command.isPush, Option.isSome_none, Bool.false_eq_true, if_false]
      omega
    | some popped =>
      have hNext : (popped.2.next.val : Int) = (h.next.val + 7) % 8 := by
        rw [next_of_pop? hPop]
        rfl
      simp only [Command.isPush, Option.isSome_some, Bool.false_eq_true, if_true, if_false, hNext,
        hn]
      omega
  | clear => exact absurd rfl hc

theorem next_performAll (commands : List Command) :
    ((empty.performAll commands).next.val : Int) = balance (empty.trace commands) % 8 := by
  induction commands using List.reverseRecOn with
  | nil => rfl
  | append_singleton commands c ih =>
    rw [performAll_concat, trace_concat]
    by_cases hc : c = .clear
    · rw [hc, balance_clear]
      rfl
    · rw [balance_concat _ _ _ hc, next_perform ih hc]

end Pointer

section Slots

theorem toList_eq_of_holds {h other : History} (hNext : other.next = h.next)
    (hCount : other.count = h.count) (hSame : ∀ i, h.Holds i → other.slot i = h.slot i) :
    other.toList = h.toList := by
  rw [toList, toList, hCount]
  apply List.map_congr_left
  intro j hj
  have hSlot : other.slotOf j = h.slotOf j := by simp only [slotOf, hNext]
  rw [hSlot]
  exact hSame _ ⟨j, List.mem_range.mp hj, rfl⟩

/-- A pop finds what the list held already or what was pushed since. -/
theorem mem_of_answer {s : List UInt64} {commands : List Command} {entry : Entry}
    (hEntry : entry ∈ traceOnList s commands) {w : UInt64} (hw : entry.answer = some w) :
    w ∈ s ∨ .push w ∈ commands := by
  induction commands generalizing s with
  | nil => cases hEntry
  | cons c commands ih =>
    rcases List.mem_cons.mp hEntry with rfl | hLater
    · cases c with
      | pop => exact .inl (List.mem_of_head? hw)
      | _ => cases hw
    · rcases ih hLater with hHeld | hPushed
      · cases c with
        | push x =>
          rcases List.mem_cons.mp (List.mem_of_mem_take hHeld) with rfl | hOld
          · exact .inr List.mem_cons_self
          · exact .inl hOld
        | pop => exact .inl (List.mem_of_mem_tail hHeld)
        | clear => cases hHeld
      · exact .inr (List.mem_cons_of_mem c hPushed)

end Slots

/-- After any commands the history has answered as a stack of the eight newest snapshots, and its
next slot follows from the pushes and pops since the last clear. Whatever is done later, a pop finds
a snapshot still held or pushed later, and the other slots may hold anything. -/
theorem ring_refines_stack (commands : List Command) :
    let h := empty.performAll commands
    empty.trace commands = traceOnList [] commands ∧
    (h.next.val : Int) =
      ((pushes (sinceClear (empty.trace commands)) : Int) -
        pops (sinceClear (empty.trace commands))) % 8 ∧
    ∀ later : List Command,
      (∀ entry ∈ h.trace later, ∀ w, entry.answer = some w → w ∈ h.toList ∨ .push w ∈ later) ∧
      ∀ other : History, other.next = h.next → other.count = h.count →
        (∀ i, h.Holds i → other.slot i = h.slot i) → other.trace later = h.trace later := by
  intro h
  have hEmpty : empty.count ≤ historyDepth := Nat.zero_le _
  have hCount : h.count ≤ historyDepth := count_performAll_le hEmpty commands
  refine ⟨trace_eq_onList hEmpty commands, next_performAll commands, fun later => ⟨?_, ?_⟩⟩
  · intro entry hEntry w hw
    rw [trace_eq_onList hCount] at hEntry
    exact mem_of_answer hEntry hw
  · intro other hNext hSize hSame
    rw [trace_eq_onList hCount, trace_eq_onList (hSize ▸ hCount),
      toList_eq_of_holds hNext hSize hSame]

/-- A snapshot that was popped and one that was cleared away are still in their slots. Other words
there make no difference to the pops that follow. -/
theorem ring_refines_stack_stale :
    let h := empty.performAll [.push 1, .push 2, .pop, .clear, .push 3]
    let other : History := { h with slots := #v[3, 9, 9, 9, 9, 9, 9, 9] }
    h.slots = #v[3, 2, 0, 0, 0, 0, 0, 0] ∧ h.next.val = 1 ∧
      (∀ i, h.Holds i → other.slot i = h.slot i) ∧
      other.trace [.pop, .pop] = h.trace [.pop, .pop] := by
  intro h other
  have hSame : ∀ i, h.Holds i → other.slot i = h.slot i := by
    rintro i ⟨j, hj, rfl⟩
    have hCount : h.count = 1 := rfl
    obtain rfl : j = 0 := by omega
    decide
  refine ⟨rfl, rfl, hSame, ?_⟩
  exact ((ring_refines_stack _).2.2 [.pop, .pop]).2 other rfl rfl hSame

end CellularCoprocessor.History
