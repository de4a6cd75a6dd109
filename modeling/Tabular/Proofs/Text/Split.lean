/- The parts of a text between marks, and the text from its parts. -/
import Tabular.Text.Split
import Mathlib.Data.List.Basic

namespace Tabular.Text
variable {mark : Char} {cs part : List Char} {parts : List (List Char)}

theorem splitChars_mark (mark : Char) (cs : List Char) :
    splitChars mark (mark :: cs) = [] :: splitChars mark cs := by
  rw [splitChars, if_pos rfl]

theorem splitChars_ne_nil (mark : Char) (cs : List Char) : splitChars mark cs ≠ [] := by
  cases cs with
  | nil => exact List.cons_ne_nil _ _
  | cons c cs =>
      rw [splitChars]
      split
      · exact List.cons_ne_nil _ _
      · split
        · exact List.cons_ne_nil _ _
        · exact List.cons_ne_nil _ _

/-- A character that is no mark is in front of the first part. -/
theorem splitChars_cons (cs : List Char) {c : Char} (h : c ≠ mark) :
    ∃ part parts, splitChars mark cs = part :: parts ∧
      splitChars mark (c :: cs) = (c :: part) :: parts := by
  obtain ⟨part, parts, hparts⟩ := List.exists_cons_of_ne_nil (splitChars_ne_nil mark cs)
  refine ⟨part, parts, hparts, ?_⟩
  rw [splitChars, if_neg h, hparts]

/-- What has no mark belongs to the part behind it. -/
theorem splitChars_append_of_notMem {rest : List Char} (h : mark ∉ cs)
    (hrest : splitChars mark rest = part :: parts) :
    splitChars mark (cs ++ rest) = (cs ++ part) :: parts := by
  induction cs with
  | nil => exact hrest
  | cons c cs ih =>
      obtain ⟨hc, hcs⟩ := List.ne_and_not_mem_of_not_mem_cons h
      rw [List.cons_append, splitChars, if_neg (Ne.symm hc), ih hcs]
      rfl

/-- A text is its parts with a mark between each two. -/
theorem intercalate_splitChars (mark : Char) (cs : List Char) :
    [mark].intercalate (splitChars mark cs) = cs := by
  induction cs with
  | nil => rfl
  | cons c cs ih =>
      by_cases hc : c = mark
      · obtain ⟨part, parts, hparts⟩ := List.exists_cons_of_ne_nil (splitChars_ne_nil mark cs)
        rw [hc, splitChars_mark, hparts, List.intercalate_cons_cons, ← hparts, ih]
        rfl
      · obtain ⟨part, parts, hparts, hcons⟩ := splitChars_cons cs hc
        rw [hparts] at ih
        rw [hcons, ← ih]
        cases parts with
        | nil => rfl
        | cons next parts =>
            rw [List.intercalate_cons_cons, List.intercalate_cons_cons, List.cons_append,
              List.cons_append]

end Tabular.Text
