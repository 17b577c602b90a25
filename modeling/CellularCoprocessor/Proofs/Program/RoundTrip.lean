import CellularCoprocessor.Proofs.Program.Notation
import Mathlib.Tactic

/-!
# Writing programs down and reading them back

A program is printed with every statement on the row of its number, so that reading the text gives
the same program again, the numbers included.
-/

namespace CellularCoprocessor

/-- The operands of an instruction as program text has them. -/
def Instruction.values (i : Instruction) : List Nat :=
  match i.operation with
  | .get _ | .count | .undo => []
  | .load | .store | .set _ | .scratchToCar | .carToScratch | .find => [i.rs1.toNat]
  | .life => [i.rs2.toNat]
  | .step | .burstLoad | .burstStore => [i.rs1.toNat, i.rs2.toNat]

theorem Instruction.Takes.values_eq {i : Instruction} {ns : List Nat} (h : i.Takes ns) :
    i.values = ns := by
  obtain ⟨o, hFit, rfl⟩ := takes_iff.mp h
  rw [values, operation_ofOperation]
  rcases o with _ | _ | (_ | _) | (_ | _) | _ | _ | _ | _ | _ | _ | _ | _ | _
  case get.low | get.high | count | undo => exact (Quantity.fit_nil.mp hFit).symm
  case load | store | set.low | set.high | scratchToCar | carToScratch | find =>
    obtain ⟨n, hn, rfl⟩ := Quantity.fit_singleton.mp hFit
    obtain ⟨x, rfl⟩ := UInt32.exists_toNat hn
    exact congrArg (fun y : UInt32 => [y.toNat]) UInt32.ofNat_toNat
  case life =>
    obtain ⟨n, hn, rfl⟩ := Quantity.fit_singleton.mp hFit
    obtain ⟨x, rfl⟩ := UInt16.exists_toNat hn
    simp [ofOperation, Instruction.life]
  case step =>
    obtain ⟨m, n, hm, hn, rfl⟩ := Quantity.fit_pair.mp hFit
    obtain ⟨x, rfl⟩ := UInt8.exists_toNat hm
    obtain ⟨y, rfl⟩ := UInt16.exists_toNat hn
    simp [ofOperation, Instruction.step]
  case burstLoad | burstStore =>
    obtain ⟨m, n, hm, hn, rfl⟩ := Quantity.fit_pair.mp hFit
    obtain ⟨x, rfl⟩ := UInt32.exists_toNat hm
    obtain ⟨y, rfl⟩ := UInt32.exists_toNat hn
    simp [ofOperation, Instruction.burstLoad, Instruction.burstStore]

theorem Instruction.Takes.fit {i : Instruction} {ns : List Nat} (h : i.Takes ns) :
    Quantity.Fit i.operation.operands ns := by
  obtain ⟨o, hFit, rfl⟩ := takes_iff.mp h
  rwa [operation_ofOperation]

namespace Program

def Statement.keyword : Statement → String
  | execute i => i.operation.mnemonic
  | preload .. => "mem"
  | expectResult _ => "expect"
  | expectCar _ => "expect_car"

def Statement.values : Statement → List Nat
  | execute i => i.values
  | preload address w => [address.toNat, w.toNat]
  | expectResult result => [result.toNat]
  | expectCar w => [w.toNat]

def Statement.print (s : Statement) : List Char :=
  s.keyword.toList ++ (s.values.map (Nat.toDigits 10)).flatMap (' ' :: ·)

/-- Rows for the statements, where the first row has the number given. -/
def printRows (n : Nat) : List Line → List (List Char)
  | [] => []
  | line :: lines =>
    List.replicate (line.number - n) [] ++ line.statement.print :: printRows (line.number + 1) lines

def render (p : Program) : String :=
  String.ofList (['\n'].intercalate (printRows 1 p.lines))

/-- The statements can be written down, and there are rows with their numbers from `n` on. -/
inductive Placed : Nat → List Line → Prop
  | nil {n : Nat} : Placed n []
  | cons {n : Nat} {line : Line} {lines : List Line} {keyword : String} {ns : List Nat}
      (hNumber : n ≤ line.number) (hWritten : line.statement.Written keyword ns)
      (hLines : Placed (line.number + 1) lines) : Placed n (line :: lines)

section Printer

variable {s : Statement} {keyword : String} {ns : List Nat}

theorem Statement.Written.keyword_eq (h : s.Written keyword ns) : s.keyword = keyword := by
  cases h <;> rfl

theorem Statement.Written.values_eq (h : s.Written keyword ns) : s.values = ns := by
  cases h with
  | execute hTakes => exact hTakes.values_eq
  | preload => rfl
  | expectResult => rfl
  | expectCar => rfl

theorem isBlank_of_isDigit {c : Char} (h : c.isDigit) : Text.isBlank c = false := by
  have hRange := Char.isDigit_iff_toNat.mp h
  simp only [Char.reduceToNat] at hRange
  simp [Text.isBlank]
  omega

theorem spells_toDigits (n : Nat) : Spells (Nat.toDigits 10 n) n := by
  have hKept : (Nat.toDigits 10 n).filter (· ≠ '_') = Nat.toDigits 10 n := by
    refine List.filter_eq_self.mpr fun c hc => decide_eq_true ?_
    rintro rfl
    exact Nat.underscore_not_in_toDigits hc
  rw [Spells, hKept]
  exact .decimal (.unsigned (Text.Digits.toDigits n))

theorem head_flatMap (ws : List (List Char)) :
    ∀ c ∈ (ws.flatMap (' ' :: ·)).head?, Text.isBlank c := by
  cases ws with
  | nil => nofun
  | cons w ws =>
    rintro c ⟨⟩
    rfl

theorem spaced_flatMap {ws : List (List Char)}
    (hWords : ∀ w ∈ ws, w ≠ [] ∧ ∀ c ∈ w, Text.isBlank c = false) :
    Text.Spaced ws (ws.flatMap (' ' :: ·)) := by
  induction ws with
  | nil => exact .nil
  | cons w ws ih =>
    obtain ⟨⟨hWord, hSolid⟩, hRest⟩ := List.forall_mem_cons.mp hWords
    exact (Text.Spaced.first hWord hSolid (head_flatMap ws) (ih hRest)).cons_blank rfl

theorem row_print (h : s.Written keyword ns) : Row s.print (some s) := by
  obtain ⟨head, hName, hFit, -⟩ := Statement.written_iff.mp h
  obtain rfl := Head.ofName?_eq_some_iff.mp hName
  have hTokens : List.Forall₂ Spells (ns.map (Nat.toDigits 10)) ns := by
    rw [List.forall₂_map_left_iff, List.forall₂_same]
    exact fun n _ => spells_toDigits n
  have hNumbers : ∀ w ∈ ns.map (Nat.toDigits 10), w ≠ [] ∧ ∀ c ∈ w, Text.isBlank c = false := by
    intro w hw
    obtain ⟨n, -, rfl⟩ := List.mem_map.mp hw
    exact ⟨Nat.toDigits_ne_nil, fun c hc =>
      isBlank_of_isDigit (Nat.isDigit_of_mem_toDigits (by decide) (by decide) hc)⟩
  have hLower : head.name.toList.map Char.toLower = head.name.toList := by
    refine (List.map_congr_left fun c hc => ?_).trans (List.map_id _)
    exact (head.name_plain c hc).1
  have hPhrase := Phrase.statement h hLower hTokens
  have hBody : Text.Spaced (head.name.toList :: ns.map (Nat.toDigits 10)) s.print := by
    rw [Statement.print, h.keyword_eq, h.values_eq]
    exact .first head.name_ne_nil (fun c hc => (head.name_plain c hc).2.1) (head_flatMap _)
      (spaced_flatMap hNumbers)
  have hRow := Row.mk hPhrase hBody .absent
  rwa [List.append_nil] at hRow

end Printer

section Program

variable {n : Nat} {rows : List (List Char)} {ls : List Line}

theorem row_nil : Row [] none :=
  .mk .empty .nil .absent

theorem LaidOut.replicate {m k : Nat} (h : LaidOut (m + k) rows ls) :
    LaidOut m (List.replicate k [] ++ rows) ls := by
  induction k generalizing m with
  | zero => exact h
  | succ k ih =>
    rw [List.replicate_succ, List.cons_append]
    exact .blank row_nil (ih (by rwa [Nat.add_right_comm] ))

theorem Placed.laidOut (h : Placed n ls) : LaidOut n (printRows n ls) ls := by
  induction h with
  | nil => exact .nil
  | @cons n line lines _ _ hNumber hWritten _ ih =>
    refine .replicate ?_
    rw [Nat.add_sub_cancel' hNumber]
    exact .statement (row_print hWritten) ih

theorem LaidOut.placed (h : LaidOut n rows ls) {m : Nat} (hm : m ≤ n) : Placed m ls := by
  induction h generalizing m with
  | nil => exact .nil
  | blank _ _ ih => exact ih (Nat.le_succ_of_le hm)
  | statement hRow _ ih =>
    obtain ⟨hPhrase, -, -⟩ := hRow
    cases hPhrase with
    | statement hWritten => exact .cons hm hWritten (ih le_rfl)

theorem not_mem_print (s : Statement) : '\n' ∉ s.print := by
  intro h
  rcases List.mem_append.mp h with h | h
  · obtain ⟨head, hHead⟩ : ∃ head : Head, head.name = s.keyword := by
      cases s with
      | execute i => exact ⟨.operation i.operation, rfl⟩
      | preload => exact ⟨.preload, rfl⟩
      | expectResult => exact ⟨.expectResult, rfl⟩
      | expectCar => exact ⟨.expectCar, rfl⟩
    rw [← hHead] at h
    obtain ⟨-, hSolid, -⟩ := head.name_plain _ h
    cases hSolid
  · obtain ⟨token, hToken, hChar⟩ := List.mem_flatMap.mp h
    obtain ⟨n, -, rfl⟩ := List.mem_map.mp hToken
    rcases List.mem_cons.mp hChar with hChar | hChar
    · cases hChar
    · cases Nat.isDigit_of_mem_toDigits (by decide) (by decide) hChar

theorem not_mem_printRows (n : Nat) (ls : List Line) : ∀ row ∈ printRows n ls, '\n' ∉ row := by
  induction ls generalizing n with
  | nil => exact List.forall_mem_nil _
  | cons line lines ih =>
    intro row hRow
    rcases List.mem_append.mp hRow with hRow | hRow
    · rw [List.eq_of_mem_replicate hRow]
      exact List.not_mem_nil
    · rcases List.mem_cons.mp hRow with rfl | hRow
      · exact not_mem_print _
      · exact ih _ row hRow

/-- A printed program is read back as it is. -/
theorem parse_render {p : Program} (h : Placed 1 p.lines) : parse p.render = .ok p :=
  (parse_join_eq_ok_iff (not_mem_printRows 1 p.lines)).mpr h.laidOut

/-- The row a statement was read from. -/
theorem LaidOut.row_of_mem (h : LaidOut n rows ls) {number : Nat} {s : Statement}
    (hLine : ⟨number, s⟩ ∈ ls) :
    ∃ k row, number = n + k ∧ rows[k]? = some row ∧ Row row (some s) := by
  induction h with
  | nil => cases hLine
  | blank _ _ ih =>
    obtain ⟨k, row, hNumber, hGet, hRow⟩ := ih hLine
    exact ⟨k + 1, row, by omega, hGet, hRow⟩
  | statement hRow _ ih =>
    rcases List.mem_cons.mp hLine with h | hLine
    · cases h
      exact ⟨0, _, rfl, rfl, hRow⟩
    · obtain ⟨k, row, hNumber, hGet, hRow⟩ := ih hLine
      exact ⟨k + 1, row, by omega, hGet, hRow⟩

/-- Texts and programs correspond. A text whose rows lay a program out is read as that program and
as no other, every program whose numbers allow it has such a text, and an instruction that was read
has the mnemonic and the operands that stand on its row. -/
theorem parse_round_trip :
    (∀ rows ls, (∀ row ∈ rows, '\n' ∉ row) →
      (parse (String.ofList (['\n'].intercalate rows)) = .ok ⟨ls⟩ ↔ LaidOut 1 rows ls)) ∧
    (∀ p : Program, Placed 1 p.lines → parse p.render = .ok p) ∧
    ∀ source p, parse source = .ok p →
      parse p.render = .ok p ∧
      ∀ number i, ⟨number, .execute i⟩ ∈ p.lines → ∃ body comment first tokens ns,
        (source.toList.splitOn '\n')[number - 1]? = some (body ++ comment) ∧
        Comment comment ∧ Text.Spaced (first :: tokens) body ∧
        first.map Char.toLower = i.operation.mnemonic.toList ∧
        List.Forall₂ Spells tokens ns ∧ i.Takes ns ∧ Quantity.Fit i.operation.operands ns := by
  refine ⟨fun rows ls hRows => parse_join_eq_ok_iff hRows, fun p => parse_render, ?_⟩
  intro source p hParse
  have hLaidOut := parse_eq_ok_iff.mp hParse
  refine ⟨parse_render (hLaidOut.placed le_rfl), ?_⟩
  intro number i hLine
  obtain ⟨k, row, hNumber, hGet, hRow⟩ := hLaidOut.row_of_mem hLine
  obtain ⟨hPhrase, hBody, hComment⟩ := hRow
  cases hPhrase with
  | statement hWritten hFirst hTokens =>
    cases hWritten with
    | execute hTakes =>
      have hIndex : number - 1 = k := by omega
      exact ⟨_, _, _, _, _, hIndex ▸ hGet, hComment, hBody, hFirst, hTokens, hTakes, hTakes.fit⟩

theorem parse_round_trip_spellings :
    let rows := ["// rule".toList, [], " CA_Step 0X1_e\t+1_0#".toList]
    let p : Program := ⟨[⟨3, .execute (.step 30 10)⟩]⟩
    (∀ row ∈ rows, '\n' ∉ row) ∧ LaidOut 1 rows p.lines ∧ Placed 1 p.lines ∧
      parse (String.ofList (['\n'].intercalate rows)) = .ok p ∧ parse p.render = .ok p ∧
      ∃ ns, (Instruction.step 30 10).Takes ns := by
  intro rows p
  have hRows : ∀ row ∈ rows, '\n' ∉ row := by decide
  have hLaidOut : LaidOut 1 rows p.lines := readLines_eq_ok_iff.mp rfl
  have hPlaced : Placed 1 p.lines := .cons (by decide) (.execute (.step 30 10)) .nil
  obtain ⟨hReads, hPrints, hFaithful⟩ := parse_round_trip
  have hParse := (hReads rows p.lines hRows).mpr hLaidOut
  obtain ⟨-, hRow⟩ := hFaithful _ p hParse
  obtain ⟨_, _, _, _, ns, _, _, _, _, _, hTakes, _⟩ := hRow 3 _ List.mem_cons_self
  exact ⟨hRows, hLaidOut, hPlaced, hParse, hPrints p hPlaced, ns, hTakes⟩

end Program

end Program

end CellularCoprocessor
