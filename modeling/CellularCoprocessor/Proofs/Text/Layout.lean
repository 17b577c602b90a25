import CellularCoprocessor.Text.Lines
import Mathlib.Tactic

/-!
# How a text lies on its lines

Words stand in a line with blanks around them, and at least one between two of them. Rows without
a line feed stand in a text with a line feed between any two.
-/

namespace CellularCoprocessor.Text

/-- The words stand in the text in order, with blanks between them and perhaps around them. -/
inductive Spaced : List (List Char) → List Char → Prop
  | blank {gap : List Char} (hGap : ∀ c ∈ gap, isBlank c) : Spaced [] gap
  | word {gap w rest : List Char} {ws : List (List Char)} (hGap : ∀ c ∈ gap, isBlank c)
      (hWord : w ≠ []) (hSolid : ∀ c ∈ w, isBlank c = false) (hCut : ∀ c ∈ rest.head?, isBlank c)
      (hRest : Spaced ws rest) : Spaced (w :: ws) (gap ++ (w ++ rest))

section Words

variable {ws : List (List Char)} {cs : List Char}

theorem words_append_gap {gap : List Char} (hGap : ∀ c ∈ gap, isBlank c) (cs : List Char) :
    words (gap ++ cs) = words cs := by
  induction gap with
  | nil => rfl
  | cons b gap ih =>
    rw [List.cons_append, words_cons_blank (hGap b List.mem_cons_self)]
    exact ih fun c hc => hGap c (List.mem_cons_of_mem b hc)

theorem Spaced.words_eq (h : Spaced ws cs) : words cs = ws := by
  induction h with
  | @blank gap hGap =>
    have h := words_append_gap hGap []
    rwa [List.append_nil] at h
  | @word gap w rest ws hGap hWord hSolid hCut _ ih =>
    rw [words_append_gap hGap]
    cases rest with
    | nil =>
      obtain rfl : [] = ws := ih
      rw [List.append_nil, words_word hWord hSolid]
    | cons b rest =>
      have hb : isBlank b := hCut b rfl
      rw [words_append hWord hSolid hb, ← words_cons_blank hb, ih]

theorem Spaced.first {w rest : List Char} (hWord : w ≠ []) (hSolid : ∀ c ∈ w, isBlank c = false)
    (hCut : ∀ c ∈ rest.head?, isBlank c) (hRest : Spaced ws rest) : Spaced (w :: ws) (w ++ rest) :=
  .word (List.forall_mem_nil _) hWord hSolid hCut hRest

theorem Spaced.nil : Spaced [] [] :=
  .blank (List.forall_mem_nil _)

theorem Spaced.cons_blank {b : Char} (hb : isBlank b) (h : Spaced ws cs) : Spaced ws (b :: cs) := by
  cases h with
  | blank hGap => exact .blank (List.forall_mem_cons.mpr ⟨hb, hGap⟩)
  | word hGap hWord hSolid hCut hRest =>
    exact .word (List.forall_mem_cons.mpr ⟨hb, hGap⟩) hWord hSolid hCut hRest

/-- A character joins the first word when it stands right in front of it. -/
theorem Spaced.extendFirst {c d : Char} (hc : isBlank c = false) (hd : isBlank d = false)
    (h : Spaced ws (d :: cs)) : Spaced (extendFirst c ws) (c :: d :: cs) := by
  generalize hText : d :: cs = text at h
  cases h with
  | blank hGap =>
    have := hGap d (by rw [← hText]; exact List.mem_cons_self)
    simp [hd] at this
  | @word gap w rest ws hGap hWord hSolid hCut hRest =>
    have hNoGap : gap = [] := by
      cases gap with
      | nil => rfl
      | cons b gap =>
        obtain rfl : d = b := (List.cons.inj hText).1
        have := hGap d List.mem_cons_self
        simp [hd] at this
    subst hNoGap
    exact .first (List.cons_ne_nil _ _) (List.forall_mem_cons.mpr ⟨hc, hSolid⟩) hCut hRest

theorem spaced_words (cs : List Char) : Spaced (words cs) cs := by
  fun_induction words cs with
  | case1 => exact .nil
  | case2 c hc => exact .blank (by simpa using hc)
  | case3 c hc =>
    have hSolid : ∀ x ∈ [c], isBlank x = false := by simpa using hc
    exact .first (List.cons_ne_nil _ _) hSolid (by simp) .nil
  | case4 c d cs hc ih => exact ih.cons_blank hc
  | case5 c d cs hc hd ih =>
    have hSolid : ∀ x ∈ [c], isBlank x = false := by simpa using hc
    exact .first (List.cons_ne_nil _ _) hSolid (by simpa using hd) ih
  | case6 c d cs hc hd ih => exact ih.extendFirst (by simpa using hc) (by simpa using hd)

theorem words_eq_iff : words cs = ws ↔ Spaced ws cs := by
  constructor
  · rintro rfl
    exact spaced_words cs
  · exact Spaced.words_eq

/-- Every character is blank or stands in a word. -/
theorem Spaced.mem (h : Spaced ws cs) {c : Char} (hc : c ∈ cs) : isBlank c ∨ ∃ w ∈ ws, c ∈ w := by
  induction h with
  | blank hGap => exact .inl (hGap c hc)
  | word hGap _ _ _ _ ih =>
    rcases List.mem_append.mp hc with hc | hc
    · exact .inl (hGap c hc)
    · rcases List.mem_append.mp hc with hc | hc
      · exact .inr ⟨_, List.mem_cons_self, hc⟩
      · rcases ih hc with h | ⟨w, hw, hc⟩
        · exact .inl h
        · exact .inr ⟨w, List.mem_cons_of_mem _ hw, hc⟩

theorem Spaced.append_blank {b : Char} (hb : isBlank b) (h : Spaced ws cs) :
    Spaced ws (cs ++ [b]) := by
  induction h with
  | blank hGap =>
    refine .blank fun c hc => ?_
    rcases List.mem_append.mp hc with hc | hc
    · exact hGap c hc
    · exact List.mem_singleton.mp hc ▸ hb
  | @word gap w rest ws hGap hWord hSolid hCut _ ih =>
    rw [List.append_assoc, List.append_assoc]
    refine .word hGap hWord hSolid ?_ ih
    cases rest with
    | nil => simpa using hb
    | cons c rest => exact hCut

theorem words_append_blank {b : Char} (hb : isBlank b) (cs : List Char) :
    words (cs ++ [b]) = words cs :=
  ((spaced_words cs).append_blank hb).words_eq

theorem trim_append_blank {b : Char} (hb : isBlank b) (cs : List Char) :
    trim (cs ++ [b]) = trim cs := by
  rw [trim, trim, List.dropWhile_append]
  split
  · rename_i hBlank
    rw [List.isEmpty_iff.mp hBlank]
    simp [hb]
  · simp [hb]

end Words

section Lines

variable {row : List Char}

/-- A carriage return in front of a line feed is not part of the line. -/
theorem lines_row (h : '\n' ∉ row) (rest : List Char) :
    ∃ line, (row = line ∨ row = line ++ ['\r']) ∧
      lines (row ++ '\n' :: rest) = line :: lines rest := by
  suffices hLine : ∃ line, (row = line ∨ row = line ++ ['\r']) ∧ lines (row ++ ['\n']) = [line] by
    obtain ⟨line, hRow, hLine⟩ := hLine
    exact ⟨line, hRow, by rw [lines_append, hLine, List.singleton_append]⟩
  induction row with
  | nil => exact ⟨[], .inl rfl, rfl⟩
  | cons c row ih =>
    obtain ⟨hc, hRow⟩ := List.ne_and_not_mem_of_not_mem_cons h
    obtain ⟨line, hLine, hRead⟩ := ih hRow
    by_cases hReturn : c = '\r' ∧ row = []
    · obtain ⟨rfl, rfl⟩ := hReturn
      exact ⟨[], .inr rfl, rfl⟩
    · refine ⟨c :: line, hLine.imp (congrArg _) (congrArg _), ?_⟩
      rw [List.cons_append, lines, hRead, extendFirst]
      · exact fun hFeed => hc hFeed.symm
      · rintro tail rfl hTail
        cases row with
        | nil => exact hReturn ⟨rfl, rfl⟩
        | cons d row => simp_all

theorem lines_last (h : '\n' ∉ row) (hRow : row ≠ []) : lines row = [row] := by
  induction row with
  | nil => exact absurd rfl hRow
  | cons c row ih =>
    obtain ⟨hc, hTail⟩ := List.ne_and_not_mem_of_not_mem_cons h
    rw [lines]
    · cases row with
      | nil => rfl
      | cons d row => rw [ih hTail (by simp), extendFirst]
    · exact fun hFeed => hc hFeed.symm
    · rintro tail rfl rfl
      simp at hTail

theorem not_mem_of_mem_splitOn {cs : List Char} (h : row ∈ cs.splitOn '\n') : '\n' ∉ row := by
  induction cs generalizing row with
  | nil =>
    obtain rfl := List.mem_singleton.mp (List.splitOn_nil '\n' ▸ h)
    exact List.not_mem_nil
  | cons c cs ih =>
    rw [List.splitOn_cons_eq_if_modifyHead] at h
    split at h
    · rcases List.mem_cons.mp h with rfl | h
      · exact List.not_mem_nil
      · exact ih h
    · rename_i hc
      cases hRows : cs.splitOn '\n' with
      | nil => exact absurd hRows (List.splitOn_ne_nil _ _)
      | cons first rows =>
        rw [hRows] at h ih
        rcases List.mem_cons.mp h with rfl | h
        · refine List.not_mem_cons_of_ne_of_not_mem ?_ (ih List.mem_cons_self)
          rintro rfl
          exact hc (beq_self_eq_true _)
        · exact ih (List.mem_cons_of_mem _ h)

end Lines

end CellularCoprocessor.Text
