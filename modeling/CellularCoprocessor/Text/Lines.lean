import CellularCoprocessor.Text.Blank

/-!
# Lines

A line ends with a line feed or with a carriage return and a line feed. What follows the last
line end is a line of its own unless it is empty, and there a carriage return is kept.
-/

namespace CellularCoprocessor.Text

def lines : List Char → List (List Char)
  | [] => []
  | '\n' :: cs => [] :: lines cs
  | '\r' :: '\n' :: cs => [] :: lines cs
  | c :: cs => extendFirst c (lines cs)

theorem extendFirst_append (c : Char) {xs : List (List Char)} (ys : List (List Char))
    (h : xs ≠ []) : extendFirst c (xs ++ ys) = extendFirst c xs ++ ys := by
  cases xs with
  | nil => exact absurd rfl h
  | cons x xs => rfl

theorem lines_eq_nil_iff {cs : List Char} : lines cs = [] ↔ cs = [] := by
  fun_cases lines cs with
  | case1 => simp
  | case2 => simp
  | case3 => simp
  | case4 c cs h1 h2 => cases lines cs <;> simp [extendFirst]

/-- A line end cuts the text: what follows it is divided into lines on its own. -/
theorem lines_append (a b : List Char) :
    lines (a ++ '\n' :: b) = lines (a ++ ['\n']) ++ lines b := by
  fun_induction lines a with
  | case1 => rfl
  | case2 cs ih => simp [lines, ih]
  | case3 cs ih => simp [lines, ih]
  | case4 c cs h1 h2 ih =>
    have hne : ∀ d : List Char, cs ++ '\n' :: d ≠ [] := by simp
    have hcut : ∀ d : List Char, ¬ (c = '\r' ∧ cs = []) →
        lines (c :: (cs ++ '\n' :: d)) = extendFirst c (lines (cs ++ '\n' :: d)) := by
      intro d hc
      rw [lines]
      · exact h1
      · rintro rest rfl h
        cases cs with
        | nil => exact hc ⟨rfl, rfl⟩
        | cons e es =>
          simp only [List.cons_append, List.cons.injEq] at h
          exact h2 es rfl (by rw [h.1])
    by_cases hc : c = '\r' ∧ cs = []
    · obtain ⟨rfl, rfl⟩ := hc
      simp [lines]
    · rw [List.cons_append, List.cons_append, hcut b hc, hcut [] hc, ih,
        extendFirst_append _ _ (by simp [lines_eq_nil_iff])]

end CellularCoprocessor.Text
