import CellularCoprocessor.Proofs.Program.Notation

/-!
# Program texts put together

If the last row of a text is ended, another text may be put behind it. The two are read one after
the other, and only the numbers of the second one change. What is reported of a text that cannot be
read is its first row at fault.
-/

namespace CellularCoprocessor

namespace Text

/-- A text with no row, or whose last row is ended. -/
def Ended (cs : List Char) : Prop :=
  cs = [] ∨ cs.getLast? = some '\n'

theorem Ended.cases {cs : List Char} (h : Ended cs) : cs = [] ∨ ∃ rows, cs = rows ++ ['\n'] := by
  rcases h with h | h
  · exact .inl h
  · exact .inr (List.getLast?_eq_some_iff.mp h)

theorem lines_append_of_ended {a : List Char} (h : Ended a) (b : List Char) :
    lines (a ++ b) = lines a ++ lines b := by
  rcases h.cases with rfl | ⟨rows, rfl⟩
  · rfl
  · rw [List.append_assoc, List.singleton_append, lines_append]

theorem length_extendFirst (c : Char) {xs : List (List Char)} (h : xs ≠ []) :
    (extendFirst c xs).length = xs.length := by
  cases xs with
  | nil => exact absurd rfl h
  | cons x xs => rfl

theorem length_lines_append (cs : List Char) :
    (lines (cs ++ ['\n'])).length = cs.count '\n' + 1 := by
  fun_induction lines cs with
  | case1 => rfl
  | case2 cs ih =>
    rw [List.cons_append, lines, List.length_cons, ih, List.count_cons_self]
  | case3 cs ih =>
    rw [List.cons_append, List.cons_append, lines, List.length_cons, ih,
      List.count_cons_of_ne (by decide), List.count_cons_self]
  | case4 c cs hFeed hReturn ih =>
    have hc : c ≠ '\n' := fun h => hFeed h
    rw [List.count_cons_of_ne hc]
    by_cases hLast : c = '\r' ∧ cs = []
    · obtain ⟨rfl, rfl⟩ := hLast
      rfl
    · rw [List.cons_append, lines, length_extendFirst, ih]
      · simp [lines_eq_nil_iff]
      · exact hFeed
      · rintro tail rfl hTail
        cases cs with
        | nil => exact hLast ⟨rfl, rfl⟩
        | cons d cs =>
          obtain ⟨rfl, -⟩ := List.cons.inj hTail
          exact hReturn cs rfl rfl

theorem length_lines_of_ended {a : List Char} (h : Ended a) : (lines a).length = a.count '\n' := by
  rcases h.cases with rfl | ⟨rows, rfl⟩
  · rfl
  · rw [length_lines_append, List.count_append, List.count_singleton_self]

end Text

namespace Program

def Line.shift (k : Nat) (line : Line) : Line :=
  { line with number := line.number + k }

def SyntaxError.shift (k : Nat) (e : SyntaxError) : SyntaxError :=
  { e with number := e.number + k }

section Rows

variable {n : Nat} {rows : List (List Char)}

theorem readLines_append (n : Nat) (rows more : List (List Char)) :
    readLines n (rows ++ more) = do
      let ls ← readLines n rows
      let ms ← readLines (n + rows.length) more
      return ls ++ ms := by
  induction rows generalizing n with
  | nil =>
    have hStart : n + ([] : List (List Char)).length = n := rfl
    rw [List.nil_append, hStart]
    cases readLines n more <;> rfl
  | cons row rows ih =>
    have hLength : n + 1 + rows.length = n + (row :: rows).length := by
      rw [List.length_cons]
      omega
    rw [List.cons_append, readLines, readLines, ih (n + 1), hLength]
    cases readLine n row with
    | error e => rfl
    | ok line =>
      cases readLines (n + 1) rows with
      | error e => rfl
      | ok ls =>
        cases readLines (n + (row :: rows).length) more with
        | error e => rfl
        | ok ms => exact congrArg Except.ok (List.append_assoc _ _ _).symm

theorem readLine_shift (n k : Nat) (row : List Char) :
    readLine (n + k) row =
      ((readLine n row).map (Option.map (Line.shift k))).mapError (SyntaxError.shift k) := by
  rw [readLine, readLine]
  split
  · rename_i statement _
    cases statement <;> rfl
  · rfl

theorem readLines_shift (n k : Nat) (rows : List (List Char)) :
    readLines (n + k) rows =
      ((readLines n rows).map (List.map (Line.shift k))).mapError (SyntaxError.shift k) := by
  induction rows generalizing n with
  | nil => rfl
  | cons row rows ih =>
    rw [readLines, readLines, readLine_shift, Nat.add_right_comm, ih (n + 1)]
    cases readLine n row with
    | error e => rfl
    | ok line =>
      cases readLines (n + 1) rows with
      | error e => rfl
      | ok ls => cases line <;> rfl

/-- The error is the one of the first row at fault, and it has its number and its text. The first of
all rows has the number `n`. -/
def Blames (n : Nat) (rows : List (List Char)) (e : SyntaxError) : Prop :=
  ∃ before row after, rows = before ++ row :: after ∧
    (∀ r ∈ before, ∃ x, Statement.read r = .ok x) ∧ Statement.read row = .error e.cause ∧
    e.number = n + before.length ∧ e.text = String.ofList (Text.trim row)

theorem readLine_eq_error_iff {row : List Char} {e : SyntaxError} :
    readLine n row = .error e ↔ Statement.read row = .error e.cause ∧ e.number = n ∧
      e.text = String.ofList (Text.trim row) := by
  rw [readLine]
  split
  · rename_i h
    rw [h]
    constructor
    · rintro ⟨⟩
    · rintro ⟨⟨⟩, -⟩
  · rename_i cause h
    rw [h]
    constructor
    · rintro ⟨⟩
      exact ⟨rfl, rfl, rfl⟩
    · obtain ⟨number, text, cause⟩ := e
      rintro ⟨⟨⟩, rfl, rfl⟩
      rfl

theorem exists_readLines (h : ∀ r ∈ rows, ∃ x, Statement.read r = .ok x) (n : Nat) :
    ∃ ls, readLines n rows = .ok ls := by
  induction rows generalizing n with
  | nil => exact ⟨[], rfl⟩
  | cons row rows ih =>
    obtain ⟨⟨x, hRow⟩, hRest⟩ := List.forall_mem_cons.mp h
    obtain ⟨ls, hLines⟩ := ih hRest (n + 1)
    exact ⟨_, by rw [readLines, readLine, hRow, hLines]; rfl⟩

theorem readLines_eq_error_iff {e : SyntaxError} :
    readLines n rows = .error e ↔ Blames n rows e := by
  constructor
  · intro h
    induction rows generalizing n with
    | nil => cases h
    | cons row rows ih =>
      rw [readLines] at h
      cases hRow : readLine n row with
      | error f =>
        rw [hRow] at h
        cases h
        obtain ⟨hCause, hNumber, hText⟩ := readLine_eq_error_iff.mp hRow
        exact ⟨[], row, rows, rfl, List.forall_mem_nil _, hCause, hNumber, hText⟩
      | ok line =>
        obtain ⟨x, hRead, -⟩ := readLine_eq_ok_iff.mp hRow
        have hRest : readLines (n + 1) rows = .error e := by
          rw [hRow] at h
          cases hRows : readLines (n + 1) rows with
          | error f =>
            rw [hRows] at h
            cases h
            rfl
          | ok ls =>
            rw [hRows] at h
            cases h
        obtain ⟨before, fault, after, rfl, hBefore, hCause, hNumber, hText⟩ := ih hRest
        refine ⟨row :: before, fault, after, rfl, ?_, hCause, ?_, hText⟩
        · exact List.forall_mem_cons.mpr ⟨⟨x, read_eq_ok_iff.mpr hRead⟩, hBefore⟩
        · rw [hNumber, List.length_cons]
          omega
  · rintro ⟨before, row, after, rfl, hBefore, hCause, hNumber, hText⟩
    obtain ⟨ls, hLines⟩ := exists_readLines hBefore n
    have hRow := readLine_eq_error_iff.mpr ⟨hCause, hNumber, hText⟩
    rw [readLines_append, hLines, readLines, hRow]
    rfl

/-- The numbers of the statements rise, and none is below that of the first row. -/
theorem LaidOut.increasing {ls : List Line} (h : LaidOut n rows ls) :
    (∀ line ∈ ls, n ≤ line.number) ∧ ls.Pairwise fun x y => x.number < y.number := by
  induction h with
  | nil => exact ⟨List.forall_mem_nil _, .nil⟩
  | blank _ _ ih => exact ⟨fun line hLine => Nat.le_of_succ_le (ih.1 line hLine), ih.2⟩
  | statement _ _ ih =>
    obtain ⟨hLeast, hRise⟩ := ih
    refine ⟨List.forall_mem_cons.mpr ⟨Nat.le_refl _, ?_⟩, List.pairwise_cons.mpr ⟨hLeast, hRise⟩⟩
    exact fun line hLine => Nat.le_of_succ_le (hLeast line hLine)

end Rows

theorem parse_append {a : String} (h : Text.Ended a.toList) (b : String) :
    parse (a ++ b) = do
      let p ← parse a
      let q ← (parse b).mapError (SyntaxError.shift (a.toList.count '\n'))
      return ⟨p.lines ++ q.lines.map (Line.shift (a.toList.count '\n'))⟩ := by
  rw [parse, parse, parse, String.toList_append, Text.lines_append_of_ended h, readLines_append,
    Text.length_lines_of_ended h, readLines_shift]
  cases readLines 1 (Text.lines a.toList) with
  | error e => rfl
  | ok ls =>
    cases readLines 1 (Text.lines b.toList) with
    | error e => rfl
    | ok ms => rfl

section Parts

variable {a b : String} (h : Text.Ended a.toList)

include h

theorem parse_append_of_ok {p q : Program} (hFirst : parse a = .ok p) (hSecond : parse b = .ok q) :
    parse (a ++ b) = .ok ⟨p.lines ++ q.lines.map (Line.shift (a.toList.count '\n'))⟩ := by
  rw [parse_append h, hFirst, hSecond]
  rfl

theorem parse_append_of_first_error {e : SyntaxError} (hFirst : parse a = .error e) :
    parse (a ++ b) = .error e := by
  rw [parse_append h, hFirst]
  rfl

theorem parse_append_of_second_error {p : Program} {e : SyntaxError} (hFirst : parse a = .ok p)
    (hSecond : parse b = .error e) :
    parse (a ++ b) = .error (e.shift (a.toList.count '\n')) := by
  rw [parse_append h, hFirst, hSecond]
  rfl

theorem exists_parse_append_iff :
    (∃ p, parse (a ++ b) = .ok p) ↔ (∃ p, parse a = .ok p) ∧ ∃ q, parse b = .ok q := by
  constructor
  · rintro ⟨r, hBoth⟩
    cases hFirst : parse a with
    | error e => cases hBoth.symm.trans (parse_append_of_first_error h hFirst)
    | ok p =>
      cases hSecond : parse b with
      | error e => cases hBoth.symm.trans (parse_append_of_second_error h hFirst hSecond)
      | ok q => exact ⟨⟨p, rfl⟩, ⟨q, rfl⟩⟩
  · rintro ⟨⟨p, hFirst⟩, ⟨q, hSecond⟩⟩
    exact ⟨_, parse_append_of_ok h hFirst hSecond⟩

end Parts

theorem parse_eq_error_iff {source : String} {e : SyntaxError} :
    parse source = .error e ↔ Blames 1 (source.toList.splitOn '\n') e := by
  have hRows : ∀ row ∈ source.toList.splitOn '\n', '\n' ∉ row :=
    fun _ => Text.not_mem_of_mem_splitOn
  have hLines := readLines_lines (n := 1) hRows
  rw [List.intercalate_splitOn] at hLines
  rw [parse, hLines, ← readLines_eq_error_iff]
  cases readLines 1 (source.toList.splitOn '\n') with
  | error f =>
    constructor
    · rintro ⟨⟩
      rfl
    · rintro ⟨⟩
      rfl
  | ok ls =>
    constructor
    · rintro ⟨⟩
    · rintro ⟨⟩

/-- A text is read as its parts are, if the first one ends with a line feed: the statements and the
errors of the second part are numbered on from the first one, and nothing else changes. An error
is always that of the first row at fault, and its number counts all rows up to there. The
statements of a program have rising numbers. -/
theorem parse_compositional :
    (∀ a b : String, a = "" ∨ a.toList.getLast? = some '\n' →
      let k := a.toList.count '\n'
      ((∃ p, parse (a ++ b) = .ok p) ↔ (∃ p, parse a = .ok p) ∧ ∃ q, parse b = .ok q) ∧
      (∀ p q, parse a = .ok p → parse b = .ok q →
        parse (a ++ b) = .ok ⟨p.lines ++ q.lines.map (Line.shift k)⟩) ∧
      (∀ e, parse a = .error e → parse (a ++ b) = .error e) ∧
      ∀ p e, parse a = .ok p → parse b = .error e → parse (a ++ b) = .error (e.shift k)) ∧
    (∀ source e, parse source = .error e ↔
      ∃ before row after, source.toList.splitOn '\n' = before ++ row :: after ∧
        (∀ r ∈ before, ∃ x, Statement.read r = .ok x) ∧ Statement.read row = .error e.cause ∧
        e.number = 1 + before.length ∧ e.text = String.ofList (Text.trim row)) ∧
    ∀ source p, parse source = .ok p → p.lines.Pairwise fun x y => x.number < y.number := by
  refine ⟨?_, fun source e => parse_eq_error_iff, ?_⟩
  · intro a b h k
    have hEnded : Text.Ended a.toList := h.imp (fun hEmpty => by rw [hEmpty]; rfl) id
    exact ⟨exists_parse_append_iff hEnded, fun p q => parse_append_of_ok hEnded,
      fun e => parse_append_of_first_error hEnded, fun p e => parse_append_of_second_error hEnded⟩
  · intro source p hParse
    exact (parse_eq_ok_iff.mp hParse).increasing.2

/-- A part with a comment and a carriage return, and a second one whose third row is at fault. -/
theorem parse_compositional_fault :
    let a := "# set\r\nca_set 1\n"
    let b := "ca_count\n \nca_step 300 1\n"
    let p : Program := ⟨[⟨2, .execute (.setLow 1)⟩]⟩
    let e : SyntaxError := ⟨3, "ca_step 300 1", .outOfRange .rule 300⟩
    (a = "" ∨ a.toList.getLast? = some '\n') ∧ parse a = .ok p ∧ parse b = .error e ∧
      parse (a ++ b) = .error ⟨5, "ca_step 300 1", .outOfRange .rule 300⟩ ∧
      parse (a ++ a) = .ok ⟨[⟨2, .execute (.setLow 1)⟩, ⟨4, .execute (.setLow 1)⟩]⟩ ∧
      parse (b ++ a) = .error e := by
  intro a b p e
  have hEnded : a = "" ∨ a.toList.getLast? = some '\n' := .inr (by decide)
  have hOther : b = "" ∨ b.toList.getLast? = some '\n' := .inr (by decide)
  have hRows : a.toList.count '\n' = 2 := by decide
  have hFirst : parse a = .ok p := by decide
  have hSecond : parse b = .error e := by decide
  obtain ⟨-, -, -, hFault⟩ := parse_compositional.1 a b hEnded
  obtain ⟨-, hBoth, -, -⟩ := parse_compositional.1 a a hEnded
  obtain ⟨-, -, hEarly, -⟩ := parse_compositional.1 b a hOther
  refine ⟨hEnded, hFirst, hSecond, ?_, ?_, hEarly e hSecond⟩
  · rw [hFault p e hFirst hSecond, hRows]
    rfl
  · rw [hBoth p p hFirst hFirst, hRows]
    rfl

end Program

end CellularCoprocessor
