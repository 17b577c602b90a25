import CellularCoprocessor.Program.Source
import CellularCoprocessor.Proofs.Text.Layout
import CellularCoprocessor.Proofs.Text.Natural
import Mathlib.Tactic

/-!
# The notation of programs

What a program text may look like, said without its reader, in three layers. A numeral spells a
number, a row of the text holds at most one statement, and a program is laid out on numbered rows.
On each layer the reader accepts exactly what the notation allows and finds what is written there.
-/

namespace CellularCoprocessor

/-- The operands with which program text builds an instruction, each in the type of its field. No
other instructions can be written. -/
inductive Instruction.Takes : Instruction → List Nat → Prop
  | load (address : UInt32) : Takes (load address) [address.toNat]
  | store (address : UInt32) : Takes (store address) [address.toNat]
  | getLow : Takes getLow []
  | getHigh : Takes getHigh []
  | setLow (w : UInt32) : Takes (setLow w) [w.toNat]
  | setHigh (w : UInt32) : Takes (setHigh w) [w.toNat]
  | scratchToCar (index : UInt32) : Takes (scratchToCar index) [index.toNat]
  | carToScratch (index : UInt32) : Takes (carToScratch index) [index.toNat]
  | step (rule : UInt8) (steps : UInt16) : Takes (step rule steps) [rule.toNat, steps.toNat]
  | find (pattern : UInt32) : Takes (find pattern) [pattern.toNat]
  | count : Takes count []
  | life (steps : UInt16) : Takes (life steps) [steps.toNat]
  | undo : Takes undo []
  | burstLoad (base length : UInt32) : Takes (burstLoad base length) [base.toNat, length.toNat]
  | burstStore (base length : UInt32) : Takes (burstStore base length) [base.toNat, length.toNat]

namespace Program

/-! ### Numerals -/

/-- Decimal, or hexadecimal after its mark. -/
inductive Spelling (n : Nat) : List Char → Prop
  | decimal {cs : List Char} : Text.Natural 10 n cs → Spelling n cs
  | hexadecimal {mark : Char} {cs : List Char} (hMark : mark = 'x' ∨ mark = 'X') :
      Text.Natural 16 n cs → Spelling n ('0' :: mark :: cs)

/-- The token is a spelling of the number with any underscores between its characters. -/
def Spells (token : List Char) (n : Nat) : Prop :=
  Spelling n (token.filter (· ≠ '_'))

theorem afterHexMark?_eq_some_iff {cs digits : List Char} :
    afterHexMark? cs = some digits ↔
      ∃ mark, (mark = 'x' ∨ mark = 'X') ∧ cs = '0' :: mark :: digits := by
  constructor
  · fun_cases afterHexMark? cs with
    | case1 digits =>
      rintro ⟨⟩
      exact ⟨'x', .inl rfl, rfl⟩
    | case2 digits =>
      rintro ⟨⟩
      exact ⟨'X', .inr rfl, rfl⟩
    | case3 => nofun
  · rintro ⟨mark, rfl | rfl, rfl⟩
    · rfl
    · rfl

theorem magnitude?_eq_some_iff {cs : List Char} {n : Nat} :
    magnitude? cs = some n ↔ Spelling n cs := by
  constructor
  · intro h
    rw [magnitude?] at h
    split at h
    · rename_i digits hCut
      obtain ⟨mark, hMark, rfl⟩ := afterHexMark?_eq_some_iff.mp hCut
      exact .hexadecimal hMark ((Text.natural?_eq_some_iff (by decide) (by decide)).mp h)
    · exact .decimal ((Text.natural?_eq_some_iff (by decide) (by decide)).mp h)
  · rintro (h | ⟨hMark, h⟩)
    · have hRead := (Text.natural?_eq_some_iff (by decide) (by decide)).mpr h
      -- Neither mark is a decimal digit, so a decimal spelling is not taken for a hexadecimal one.
      have hNoMark : afterHexMark? cs = none := by
        cases hCut : afterHexMark? cs with
        | none => rfl
        | some digits =>
          obtain ⟨mark, rfl | rfl, rfl⟩ := afterHexMark?_eq_some_iff.mp hCut
          · cases hRead
          · cases hRead
      rw [magnitude?, hNoMark]
      exact hRead
    · rw [magnitude?, afterHexMark?_eq_some_iff.mpr ⟨_, hMark, rfl⟩]
      exact (Text.natural?_eq_some_iff (by decide) (by decide)).mpr h

theorem numeral?_eq_some_iff {token : List Char} {n : Nat} :
    numeral? token = some n ↔ Spells token n ∧ n < UInt64.size := by
  rw [numeral?, Option.filter_eq_some_iff, magnitude?_eq_some_iff, decide_eq_true_iff]
  exact Iff.rfl

/-- Neither mark of a comment occurs in a numeral. -/
theorem Spells.unmarked {token : List Char} {n : Nat} (h : Spells token n) {c : Char}
    (hc : c ∈ token) : c ≠ '#' ∧ c ≠ '/' := by
  have hNatural : ∀ base cs, 1 < base → base ≤ 16 → Text.Natural base n cs → c ∈ cs →
      c ≠ '#' ∧ c ≠ '/' := by
    intro base cs hBase hHex hNatural hMem
    rcases hNatural.mem hBase hHex hMem with rfl | ⟨d, hd⟩
    · decide
    · constructor
      · rintro rfl
        cases hd
      · rintro rfl
        cases hd
  by_cases hSeparator : c = '_'
  · subst hSeparator
    decide
  · have hMem : c ∈ token.filter (· ≠ '_') := by simpa using ⟨hc, hSeparator⟩
    rw [Spells] at h
    generalize token.filter (· ≠ '_') = cs at h hMem
    rcases h with h | ⟨hMark, h⟩
    · exact hNatural 10 cs (by decide) (by decide) h hMem
    · rcases List.mem_cons.mp hMem with rfl | hMem
      · decide
      · rcases List.mem_cons.mp hMem with rfl | hMem
        · rcases hMark with rfl | rfl
          · decide
          · decide
        · exact hNatural 16 _ (by decide) (by decide) h hMem

/-! ### Statements -/

/-- The head and the operands of a statement. -/
inductive Statement.Written : Statement → String → List Nat → Prop
  | execute {i : Instruction} {ns : List Nat} :
      i.Takes ns → Written (.execute i) i.operation.mnemonic ns
  | preload (address : UInt32) (w : UInt64) :
      Written (.preload address w) "mem" [address.toNat, w.toNat]
  | expectResult (result : UInt32) : Written (.expectResult result) "expect" [result.toNat]
  | expectCar (w : UInt64) : Written (.expectCar w) "expect_car" [w.toNat]

theorem Head.ofName?_eq_some_iff {name : String} {head : Head} :
    ofName? name = some head ↔ head.name = name := by
  constructor
  · intro h
    rw [ofName?] at h
    split_ifs at h with hPreload hResult hCar
    · cases h
      exact hPreload.symm
    · cases h
      exact hResult.symm
    · cases h
      exact hCar.symm
    · obtain ⟨o, hFind, rfl⟩ := Option.map_eq_some_iff.mp h
      rw [Operation.ofMnemonic?] at hFind
      have hName := List.find?_some hFind
      exact beq_iff_eq.mp hName
  · rintro rfl
    rcases head with (_ | _ | (_ | _) | (_ | _) | _ | _ | _ | _ | _ | _ | _ | _ | _) | _ | _ | _
    all_goals rfl

end Program

theorem UInt8.exists_toNat {n : Nat} (h : n < UInt8.size) : ∃ x : UInt8, x.toNat = n :=
  ⟨.ofNat n, UInt8.toNat_ofNat_of_lt' h⟩

theorem UInt16.exists_toNat {n : Nat} (h : n < UInt16.size) : ∃ x : UInt16, x.toNat = n :=
  ⟨.ofNat n, UInt16.toNat_ofNat_of_lt' h⟩

theorem UInt32.exists_toNat {n : Nat} (h : n < UInt32.size) : ∃ x : UInt32, x.toNat = n :=
  ⟨.ofNat n, UInt32.toNat_ofNat_of_lt' h⟩

theorem UInt64.exists_toNat {n : Nat} (h : n < UInt64.size) : ∃ x : UInt64, x.toNat = n :=
  ⟨.ofNat n, UInt64.toNat_ofNat_of_lt' h⟩

/-- The values fit their quantities one by one. -/
def Quantity.Fit (qs : List Quantity) (ns : List Nat) : Prop :=
  List.Forall₂ (fun q n => n < q.limit) qs ns

section Fit

variable {q r : Quantity} {ns : List Nat}

theorem Quantity.fit_nil : Fit [] ns ↔ ns = [] :=
  List.forall₂_nil_left_iff

theorem Quantity.fit_singleton : Fit [q] ns ↔ ∃ n, n < q.limit ∧ ns = [n] := by
  simp [Fit, List.forall₂_cons_left_iff]

theorem Quantity.fit_pair : Fit [q, r] ns ↔ ∃ m n, m < q.limit ∧ n < r.limit ∧ ns = [m, n] := by
  simp only [Fit, List.forall₂_cons_left_iff, List.forall₂_nil_left_iff]
  constructor
  · rintro ⟨m, ms, hm, ⟨n, ns, hn, rfl, rfl⟩, rfl⟩
    exact ⟨m, n, hm, hn, rfl⟩
  · rintro ⟨m, n, hm, hn, rfl⟩
    exact ⟨m, _, hm, ⟨n, _, hn, rfl, rfl⟩, rfl⟩

theorem Quantity.Fit.lt {qs : List Quantity} (h : Fit qs ns) : ∀ n ∈ ns, n < UInt64.size := by
  have hLimit : ∀ q : Quantity, q.limit ≤ UInt64.size := by
    intro q
    cases q <;> decide
  induction h with
  | nil => exact List.forall_mem_nil _
  | cons hn _ ih => exact List.forall_mem_cons.mpr ⟨hn.trans_le (hLimit _), ih⟩

end Fit

/-- The operands fit their quantities, and the reader's table builds the instruction from them. -/
theorem Instruction.takes_iff {i : Instruction} {ns : List Nat} : i.Takes ns ↔
    ∃ o : Operation, Quantity.Fit o.operands ns ∧
      ofOperation (ns.getD 0 0) (ns.getD 1 0) o = i := by
  have hOne : ∀ {q : Quantity} {n : Nat}, n < q.limit → Quantity.Fit [q] [n] :=
    fun h => Quantity.fit_singleton.mpr ⟨_, h, rfl⟩
  have hTwo : ∀ {q r : Quantity} {m n : Nat}, m < q.limit → n < r.limit →
      Quantity.Fit [q, r] [m, n] :=
    fun h h' => Quantity.fit_pair.mpr ⟨_, _, h, h', rfl⟩
  constructor
  · intro h
    cases h with
    | load x => exact ⟨.load, hOne x.toNat_lt_size, by simp [ofOperation]⟩
    | store x => exact ⟨.store, hOne x.toNat_lt_size, by simp [ofOperation]⟩
    | getLow => exact ⟨.get .low, .nil, rfl⟩
    | getHigh => exact ⟨.get .high, .nil, rfl⟩
    | setLow x => exact ⟨.set .low, hOne x.toNat_lt_size, by simp [ofOperation]⟩
    | setHigh x => exact ⟨.set .high, hOne x.toNat_lt_size, by simp [ofOperation]⟩
    | scratchToCar x => exact ⟨.scratchToCar, hOne x.toNat_lt_size, by simp [ofOperation]⟩
    | carToScratch x => exact ⟨.carToScratch, hOne x.toNat_lt_size, by simp [ofOperation]⟩
    | step x y => exact ⟨.step, hTwo x.toNat_lt_size y.toNat_lt_size, by simp [ofOperation]⟩
    | find x => exact ⟨.find, hOne x.toNat_lt_size, by simp [ofOperation]⟩
    | count => exact ⟨.count, .nil, rfl⟩
    | life x => exact ⟨.life, hOne x.toNat_lt_size, by simp [ofOperation]⟩
    | undo => exact ⟨.undo, .nil, rfl⟩
    | burstLoad x y =>
      exact ⟨.burstLoad, hTwo x.toNat_lt_size y.toNat_lt_size, by simp [ofOperation]⟩
    | burstStore x y =>
      exact ⟨.burstStore, hTwo x.toNat_lt_size y.toNat_lt_size, by simp [ofOperation]⟩
  · rintro ⟨o, hFit, rfl⟩
    rcases o with _ | _ | (_ | _) | (_ | _) | _ | _ | _ | _ | _ | _ | _ | _ | _
    case get.low | get.high | count | undo =>
      obtain rfl := Quantity.fit_nil.mp hFit
      constructor
    case load | store | set.low | set.high | scratchToCar | carToScratch | find =>
      obtain ⟨n, hn, rfl⟩ := Quantity.fit_singleton.mp hFit
      obtain ⟨x, rfl⟩ := UInt32.exists_toNat hn
      simp only [ofOperation, List.getD_cons_zero, UInt32.ofNat_toNat]
      constructor
    case life =>
      obtain ⟨n, hn, rfl⟩ := Quantity.fit_singleton.mp hFit
      obtain ⟨x, rfl⟩ := UInt16.exists_toNat hn
      simp only [ofOperation, List.getD_cons_zero, UInt16.ofNat_toNat]
      constructor
    case step =>
      obtain ⟨m, n, hm, hn, rfl⟩ := Quantity.fit_pair.mp hFit
      obtain ⟨x, rfl⟩ := UInt8.exists_toNat hm
      obtain ⟨y, rfl⟩ := UInt16.exists_toNat hn
      simp only [ofOperation, List.getD_cons_zero, List.getD_cons_succ, UInt8.ofNat_toNat,
        UInt16.ofNat_toNat]
      constructor
    case burstLoad | burstStore =>
      obtain ⟨m, n, hm, hn, rfl⟩ := Quantity.fit_pair.mp hFit
      obtain ⟨x, rfl⟩ := UInt32.exists_toNat hm
      obtain ⟨y, rfl⟩ := UInt32.exists_toNat hn
      simp only [ofOperation, List.getD_cons_zero, List.getD_cons_succ, UInt32.ofNat_toNat]
      constructor

theorem Instruction.operation_ofOperation (a b : Nat) (o : Operation) :
    (ofOperation a b o).operation = o := by
  rcases o with _ | _ | (_ | _) | (_ | _) | _ | _ | _ | _ | _ | _ | _ | _ | _
  all_goals
    simp only [operation, ofOperation, load, store, getLow, getHigh, setLow, setHigh, scratchToCar,
      carToScratch, step, find, count, life, undo, burstLoad, burstStore]
    decide

namespace Program

theorem Statement.written_iff {s : Statement} {keyword : String} {ns : List Nat} :
    s.Written keyword ns ↔ ∃ head, Head.ofName? keyword = some head ∧
      Quantity.Fit head.operands ns ∧ head.statement (ns.getD 0 0) (ns.getD 1 0) = s := by
  constructor
  · intro h
    cases h with
    | @execute i _ hTakes =>
      obtain ⟨o, hFit, rfl⟩ := Instruction.takes_iff.mp hTakes
      refine ⟨.operation o, Head.ofName?_eq_some_iff.mpr ?_, hFit, rfl⟩
      rw [Instruction.operation_ofOperation, Head.name]
    | preload address w =>
      have hFit : Quantity.Fit [.address, .word] [address.toNat, w.toNat] :=
        Quantity.fit_pair.mpr ⟨_, _, address.toNat_lt_size, w.toNat_lt_size, rfl⟩
      exact ⟨.preload, rfl, hFit, by simp [Head.statement]⟩
    | expectResult result =>
      have hFit : Quantity.Fit [.result] [result.toNat] :=
        Quantity.fit_singleton.mpr ⟨_, result.toNat_lt_size, rfl⟩
      exact ⟨.expectResult, rfl, hFit, by simp [Head.statement]⟩
    | expectCar w =>
      have hFit : Quantity.Fit [.word] [w.toNat] :=
        Quantity.fit_singleton.mpr ⟨_, w.toNat_lt_size, rfl⟩
      exact ⟨.expectCar, rfl, hFit, by simp [Head.statement]⟩
  · rintro ⟨head, hName, hFit, rfl⟩
    obtain rfl := Head.ofName?_eq_some_iff.mp hName
    cases head with
    | operation o =>
      have h := Written.execute (Instruction.takes_iff.mpr ⟨o, hFit, rfl⟩)
      rwa [Instruction.operation_ofOperation] at h
    | preload =>
      obtain ⟨m, n, hm, hn, rfl⟩ := Quantity.fit_pair.mp hFit
      obtain ⟨address, rfl⟩ := UInt32.exists_toNat hm
      obtain ⟨w, rfl⟩ := UInt64.exists_toNat hn
      simpa [Head.statement, Head.name] using Written.preload address w
    | expectResult =>
      obtain ⟨n, hn, rfl⟩ := Quantity.fit_singleton.mp hFit
      obtain ⟨result, rfl⟩ := UInt32.exists_toNat hn
      simpa [Head.statement, Head.name] using Written.expectResult result
    | expectCar =>
      obtain ⟨n, hn, rfl⟩ := Quantity.fit_singleton.mp hFit
      obtain ⟨w, rfl⟩ := UInt64.exists_toNat hn
      simpa [Head.statement, Head.name] using Written.expectCar w

theorem bind_eq_ok_iff {ε α β : Type} {x : Except ε α} {f : α → Except ε β} {b : β} :
    (x >>= f) = .ok b ↔ ∃ a, x = .ok a ∧ f a = .ok b := by
  cases x with
  | error e => exact iff_of_false nofun (by rintro ⟨_, h, _⟩; cases h)
  | ok a =>
    constructor
    · intro h
      exact ⟨a, rfl, h⟩
    · rintro ⟨_, ⟨⟩, h⟩
      exact h

section Operands

variable {tokens : List (List Char)} {ns : List Nat}

theorem readNumber_eq_ok_iff {token : List Char} {n : Nat} :
    readNumber token = .ok n ↔ numeral? token = some n := by
  rw [readNumber]
  split
  · rename_i m h
    rw [h, Except.ok.injEq, Option.some.injEq]
  · rename_i h
    rw [h]
    exact iff_of_false nofun nofun

theorem readNumbers_eq_ok_iff : readNumbers tokens = .ok ns ↔
    List.Forall₂ Spells tokens ns ∧ ∀ n ∈ ns, n < UInt64.size := by
  induction tokens generalizing ns with
  | nil =>
    rw [List.forall₂_nil_left_iff]
    constructor
    · rintro ⟨⟩
      exact ⟨rfl, List.forall_mem_nil _⟩
    · rintro ⟨rfl, _⟩
      rfl
  | cons token tokens ih =>
    simp only [readNumbers, bind_eq_ok_iff, readNumber_eq_ok_iff, numeral?_eq_some_iff, ih]
    constructor
    · rintro ⟨n, ⟨hSpells, hn⟩, ns, ⟨hRest, hns⟩, ⟨⟩⟩
      exact ⟨.cons hSpells hRest, List.forall_mem_cons.mpr ⟨hn, hns⟩⟩
    · rintro ⟨hSpells | ⟨hSpells, hRest⟩, hBound⟩
      obtain ⟨hn, hns⟩ := List.forall_mem_cons.mp hBound
      exact ⟨_, ⟨hSpells, hn⟩, _, ⟨hRest, hns⟩, rfl⟩

theorem checkBounds_eq_ok_iff {qs : List Quantity} (h : qs.length = ns.length) :
    checkBounds (qs.zip ns) = .ok () ↔ Quantity.Fit qs ns := by
  induction qs generalizing ns with
  | nil =>
    obtain rfl := List.length_eq_zero_iff.mp h.symm
    exact iff_of_true rfl .nil
  | cons q qs ih =>
    cases ns with
    | nil => cases h
    | cons n ns =>
      rw [List.zip_cons_cons, checkBounds, Quantity.Fit, List.forall₂_cons, ← Quantity.Fit,
        ← ih (Nat.succ.inj h)]
      split
      · rename_i hq
        exact (and_iff_right (decide_eq_true_iff.mp hq)).symm
      · rename_i hq
        exact iff_of_false nofun fun hFit => hq (decide_eq_true hFit.1)

theorem readOperands_eq_ok_iff {head : Head} : readOperands head tokens = .ok ns ↔
    List.Forall₂ Spells tokens ns ∧ Quantity.Fit head.operands ns := by
  rw [readOperands]
  by_cases hCount : tokens.length ≠ head.operands.length
  · rw [if_pos hCount]
    refine iff_of_false nofun ?_
    rintro ⟨hSpells, hFit⟩
    exact hCount (hSpells.length_eq.trans hFit.length_eq.symm)
  · rw [if_neg hCount]
    simp only [bind_eq_ok_iff, readNumbers_eq_ok_iff]
    constructor
    · rintro ⟨ns, ⟨hSpells, hWord⟩, ⟨⟩, hBounds, ⟨⟩⟩
      have hLength : head.operands.length = ns.length :=
        (not_ne_iff.mp hCount).symm.trans hSpells.length_eq
      exact ⟨hSpells, (checkBounds_eq_ok_iff hLength).mp hBounds⟩
    · rintro ⟨hSpells, hFit⟩
      exact ⟨ns, ⟨hSpells, hFit.lt⟩, (), (checkBounds_eq_ok_iff hFit.length_eq).mpr hFit, rfl⟩

end Operands

/-! ### Rows -/

/-- What a sequence of words says: nothing, or a statement whose head is in any letter case. -/
inductive Phrase : List (List Char) → Option Statement → Prop
  | empty : Phrase [] none
  | statement {s : Statement} {keyword : String} {ns : List Nat} {first : List Char}
      {tokens : List (List Char)} (hWritten : s.Written keyword ns)
      (hFirst : first.map Char.toLower = keyword.toList) (hTokens : List.Forall₂ Spells tokens ns) :
      Phrase (first :: tokens) (some s)

inductive Comment : List Char → Prop
  | absent : Comment []
  | hash (text : List Char) : Comment ('#' :: text)
  | slashes (text : List Char) : Comment ('/' :: '/' :: text)

/-- A row of program text: the words, spaced, and a comment behind them. -/
inductive Row : List Char → Option Statement → Prop
  | mk {words : List (List Char)} {x : Option Statement} {body comment : List Char}
      (hPhrase : Phrase words x) (hBody : Text.Spaced words body) (hComment : Comment comment) :
      Row (body ++ comment) x

theorem readWords_eq_ok_iff {words : List (List Char)} {x : Option Statement} :
    readWords words = .ok x ↔ Phrase words x := by
  constructor
  · intro h
    cases words with
    | nil =>
      cases h
      exact .empty
    | cons first tokens =>
      simp only [readWords] at h
      split at h
      · cases h
      · rename_i head hName
        obtain ⟨ns, hOperands, ⟨⟩⟩ := bind_eq_ok_iff.mp h
        obtain ⟨hTokens, hFit⟩ := readOperands_eq_ok_iff.mp hOperands
        have hWritten := Statement.written_iff.mpr ⟨head, hName, hFit, rfl⟩
        exact .statement hWritten String.toList_ofList.symm hTokens
  · rintro (_ | ⟨hWritten, hFirst, hTokens⟩)
    · rfl
    · obtain ⟨head, hName, hFit, rfl⟩ := Statement.written_iff.mp hWritten
      simp only [readWords, hFirst, String.ofList_toList, hName]
      exact bind_eq_ok_iff.mpr ⟨_, readOperands_eq_ok_iff.mpr ⟨hTokens, hFit⟩, rfl⟩

theorem Head.name_plain (head : Head) : ∀ c ∈ head.name.toList,
    c.toLower = c ∧ Text.isBlank c = false ∧ c ≠ '#' ∧ c ≠ '/' := by
  have hAll : head.name.toList.all (fun c =>
      c.toLower = c ∧ Text.isBlank c = false ∧ c ≠ '#' ∧ c ≠ '/') = true := by
    rcases head with (_ | _ | (_ | _) | (_ | _) | _ | _ | _ | _ | _ | _ | _ | _ | _) | _ | _ | _
    all_goals rfl
  intro c hc
  exact of_decide_eq_true (List.all_eq_true.mp hAll c hc)

theorem Head.name_ne_nil (head : Head) : head.name.toList ≠ [] := by
  rcases head with (_ | _ | (_ | _) | (_ | _) | _ | _ | _ | _ | _ | _ | _ | _ | _) | _ | _ | _
  all_goals decide

theorem Phrase.unmarked {words : List (List Char)} {x : Option Statement} (h : Phrase words x) :
    ∀ w ∈ words, ∀ c ∈ w, c ≠ '#' ∧ c ≠ '/' := by
  cases h with
  | empty => exact List.forall_mem_nil _
  | @statement s keyword ns first tokens hWritten hFirst hTokens =>
    refine List.forall_mem_cons.mpr ⟨fun c hc => ?_, ?_⟩
    · obtain ⟨head, hName, -⟩ := Statement.written_iff.mp hWritten
      have hMem : c.toLower ∈ head.name.toList := by
        rw [Head.ofName?_eq_some_iff.mp hName, ← hFirst]
        exact List.mem_map_of_mem hc
      obtain ⟨-, -, hHash, hSlash⟩ := head.name_plain _ hMem
      -- Neither mark is a letter, so folding the letter case does not hide it.
      constructor
      · rintro rfl
        exact hHash rfl
      · rintro rfl
        exact hSlash rfl
    · clear hWritten hFirst
      induction hTokens with
      | nil => exact List.forall_mem_nil _
      | cons hSpells _ ih => exact List.forall_mem_cons.mpr ⟨fun c hc => hSpells.unmarked hc, ih⟩

theorem beforeComment_append {body comment : List Char} (hBody : ∀ c ∈ body, c ≠ '#' ∧ c ≠ '/')
    (hComment : Comment comment) : beforeComment (body ++ comment) = body := by
  induction body with
  | nil =>
    cases hComment with
    | absent => rfl
    | hash text => rfl
    | slashes text => rfl
  | cons c body ih =>
    obtain ⟨hc, hBody⟩ := List.forall_mem_cons.mp hBody
    rw [List.cons_append, beforeComment, ih hBody]
    · exact hc.1
    · exact fun _ hSlash => absurd hSlash hc.2

theorem exists_comment (line : List Char) :
    ∃ comment, Comment comment ∧ beforeComment line ++ comment = line := by
  fun_induction beforeComment line with
  | case1 => exact ⟨[], .absent, rfl⟩
  | case2 text => exact ⟨_, .hash text, rfl⟩
  | case3 text => exact ⟨_, .slashes text, rfl⟩
  | case4 c cs _ _ ih =>
    obtain ⟨comment, hComment, hLine⟩ := ih
    exact ⟨comment, hComment, congrArg (c :: ·) hLine⟩

theorem read_eq_ok_iff {line : List Char} {x : Option Statement} :
    Statement.read line = .ok x ↔ Row line x := by
  rw [Statement.read, readWords_eq_ok_iff]
  constructor
  · intro hPhrase
    obtain ⟨comment, hComment, hLine⟩ := exists_comment line
    have h := Row.mk hPhrase (Text.words_eq_iff.mp rfl) hComment
    rwa [hLine] at h
  · rintro ⟨hPhrase, hBody, hComment⟩
    rw [beforeComment_append ?_ hComment, Text.words_eq_iff.mpr hBody]
    · exact hPhrase
    · intro c hc
      rcases hBody.mem hc with hBlank | ⟨w, hw, hc⟩
      · constructor
        · rintro rfl
          cases hBlank
        · rintro rfl
          cases hBlank
      · exact hPhrase.unmarked w hw c hc

/-! ### Programs -/

/-- The statements of the rows in order, each under the number of its row. The first row has the
number given. -/
inductive LaidOut : Nat → List (List Char) → List Line → Prop
  | nil {n : Nat} : LaidOut n [] []
  | blank {n : Nat} {row : List Char} {rows : List (List Char)} {lines : List Line}
      (hRow : Row row none) (hRows : LaidOut (n + 1) rows lines) : LaidOut n (row :: rows) lines
  | statement {n : Nat} {row : List Char} {rows : List (List Char)} {lines : List Line}
      {s : Statement} (hRow : Row row (some s)) (hRows : LaidOut (n + 1) rows lines) :
      LaidOut n (row :: rows) (⟨n, s⟩ :: lines)

section Rows

variable {n : Nat} {rows : List (List Char)} {ls : List Line}

theorem readLine_eq_ok_iff {row : List Char} {line : Option Line} :
    readLine n row = .ok line ↔ ∃ x, Row row x ∧ line = x.map (Line.mk n) := by
  rw [readLine]
  split
  · rename_i x h
    constructor
    · rintro ⟨⟩
      exact ⟨x, read_eq_ok_iff.mp h, rfl⟩
    · rintro ⟨x, hRow, rfl⟩
      rw [read_eq_ok_iff.mpr hRow] at h
      cases h
      rfl
  · rename_i cause h
    refine iff_of_false nofun ?_
    rintro ⟨x, hRow, -⟩
    rw [read_eq_ok_iff.mpr hRow] at h
    cases h

theorem readLines_eq_ok_iff : readLines n rows = .ok ls ↔ LaidOut n rows ls := by
  induction rows generalizing n ls with
  | nil =>
    constructor
    · rintro ⟨⟩
      exact .nil
    · rintro ⟨⟩
      rfl
  | cons row rows ih =>
    simp only [readLines, bind_eq_ok_iff, readLine_eq_ok_iff, ih]
    constructor
    · rintro ⟨_, ⟨x, hRow, rfl⟩, lines, hRows, ⟨⟩⟩
      cases x with
      | none => exact .blank hRow hRows
      | some s => exact .statement hRow hRows
    · rintro (_ | ⟨hRow, hRows⟩ | ⟨hRow, hRows⟩)
      · exact ⟨_, ⟨_, hRow, rfl⟩, _, hRows, rfl⟩
      · exact ⟨_, ⟨_, hRow, rfl⟩, _, hRows, rfl⟩

/-- A carriage return at the end of a row changes nothing about it. -/
theorem beforeComment_append_return (row : List Char) :
    beforeComment (row ++ ['\r']) = beforeComment row ∨
      beforeComment (row ++ ['\r']) = beforeComment row ++ ['\r'] := by
  fun_induction beforeComment row with
  | case1 => exact .inr rfl
  | case2 text => exact .inl rfl
  | case3 text => exact .inl rfl
  | case4 c cs hHash hSlash ih =>
    have hStep : beforeComment (c :: cs ++ ['\r']) = c :: beforeComment (cs ++ ['\r']) := by
      rw [List.cons_append, beforeComment]
      · exact hHash
      · rintro text rfl hText
        cases cs with
        | nil => cases hText
        | cons d cs =>
          obtain ⟨rfl, -⟩ := List.cons.inj hText
          exact hSlash cs rfl rfl
    rw [hStep]
    exact ih.imp (congrArg (c :: ·)) (congrArg (c :: ·))

theorem readLine_append_return (row : List Char) : readLine n (row ++ ['\r']) = readLine n row := by
  have hRead : Statement.read (row ++ ['\r']) = Statement.read row := by
    rw [Statement.read, Statement.read]
    rcases beforeComment_append_return row with h | h
    · rw [h]
    · rw [h, Text.words_append_blank rfl]
  rw [readLine, readLine, hRead, Text.trim_append_blank rfl]

/-- Rows joined by line feeds are read back one by one. -/
theorem readLines_lines (hRows : ∀ row ∈ rows, '\n' ∉ row) :
    readLines n (Text.lines (['\n'].intercalate rows)) = readLines n rows := by
  induction rows generalizing n with
  | nil => rfl
  | cons row rows ih =>
    obtain ⟨hRow, hRest⟩ := List.forall_mem_cons.mp hRows
    cases rows with
    | nil =>
      rw [List.intercalate_singleton]
      by_cases hEmpty : row = []
      · rw [hEmpty]
        rfl
      · rw [Text.lines_last hRow hEmpty]
    | cons next rows =>
      obtain ⟨line, hLine, hLines⟩ := Text.lines_row hRow (['\n'].intercalate (next :: rows))
      have hSame : readLine n line = readLine n row := by
        rcases hLine with rfl | rfl
        · rfl
        · rw [readLine_append_return]
      rw [List.intercalate_cons_cons, List.append_assoc, List.singleton_append, hLines]
      simp only [readLines, hSame, ih hRest]

end Rows

theorem parse_join_eq_ok_iff {rows : List (List Char)} (hRows : ∀ row ∈ rows, '\n' ∉ row)
    {p : Program} :
    parse (String.ofList (['\n'].intercalate rows)) = .ok p ↔ LaidOut 1 rows p.lines := by
  rw [parse, String.toList_ofList, readLines_lines hRows, ← readLines_eq_ok_iff]
  cases readLines 1 rows with
  | error e => exact iff_of_false nofun nofun
  | ok lines =>
    constructor
    · rintro ⟨⟩
      rfl
    · rintro ⟨⟩
      rfl

theorem parse_eq_ok_iff {source : String} {p : Program} :
    parse source = .ok p ↔ LaidOut 1 (source.toList.splitOn '\n') p.lines := by
  have hRows : ∀ row ∈ source.toList.splitOn '\n', '\n' ∉ row :=
    fun _ => Text.not_mem_of_mem_splitOn
  have h := parse_join_eq_ok_iff hRows (p := p)
  rwa [List.intercalate_splitOn, String.ofList_toList] at h

end Program

end CellularCoprocessor
