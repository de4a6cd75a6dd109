/- Texts in which a mark is doubled, read up to the single mark that closes them. -/
import Tabular.Text.Replace

namespace Tabular.Text
variable {mark : Char}

/-- Reads up to a single mark, and gives what follows it; two marks stand for one. -/
def readDoubled (mark : Char) : List Char → Option (List Char × List Char)
  | [] => none
  | c :: cs =>
    if c = mark then
      match cs with
      | [] => some ([], [])
      | d :: after =>
        if d = mark then (readDoubled mark after).map fun (text, rest) => (mark :: text, rest)
        else some ([], d :: after)
    else (readDoubled mark cs).map fun (text, rest) => (c :: text, rest)

theorem readDoubled_close {rest : List Char} (h : rest.head? ≠ some mark) :
    readDoubled mark (mark :: rest) = some ([], rest) := by
  cases rest with
  | nil => simp only [readDoubled, if_true]
  | cons d after =>
      have hd : d ≠ mark := fun heq => h (congrArg some heq)
      simp only [readDoubled, if_true, if_neg hd]

theorem readDoubled_of_ne {c : Char} (h : c ≠ mark) (cs : List Char) :
    readDoubled mark (c :: cs) =
      (readDoubled mark cs).map fun (text, rest) => (c :: text, rest) := by
  rw [readDoubled.eq_def]
  simp only [if_neg h]

theorem doubled_cons (mark c : Char) (cs : List Char) :
    doubled mark (c :: cs) = (if c = mark then [mark, mark] else [c]) ++ doubled mark cs :=
  List.flatMap_cons

theorem doubled_append (mark : Char) (cs ds : List Char) :
    doubled mark (cs ++ ds) = doubled mark cs ++ doubled mark ds :=
  List.flatMap_append

theorem doubled_of_notMem {cs : List Char} (h : mark ∉ cs) : doubled mark cs = cs := by
  induction cs with
  | nil => rfl
  | cons c cs ih =>
      rw [List.mem_cons, not_or] at h
      rw [doubled_cons, if_neg (Ne.symm h.1), ih h.2, List.singleton_append]

/-- Whatever marks are in a text, it is read back when no further mark follows. -/
theorem readDoubled_doubled {rest : List Char} (h : rest.head? ≠ some mark) (cs : List Char) :
    readDoubled mark (doubled mark cs ++ mark :: rest) = some (cs, rest) := by
  induction cs with
  | nil => exact readDoubled_close h
  | cons c cs ih =>
      rw [doubled_cons, List.append_assoc]
      by_cases hc : c = mark
      · simp only [hc, if_true, List.cons_append, List.nil_append, readDoubled, ih, Option.map_some]
      · rw [if_neg hc, List.singleton_append, readDoubled_of_ne hc, ih, Option.map_some]

/-- What is read is a text with its marks doubled, and the mark that closes it. -/
theorem eq_of_readDoubled {input text rest : List Char}
    (h : readDoubled mark input = some (text, rest)) :
    input = doubled mark text ++ mark :: rest := by
  fun_induction readDoubled mark input generalizing text rest with
  | case1 => cases h
  | case2 =>
      cases h
      rfl
  | case3 after ih =>
      obtain ⟨⟨text', rest'⟩, hread, heq⟩ := Option.map_eq_some_iff.mp h
      cases heq
      rw [ih hread, doubled_cons, if_pos rfl]
      rfl
  | case4 d after hd =>
      cases h
      rfl
  | case5 c cs hc ih =>
      obtain ⟨⟨text', rest'⟩, hread, heq⟩ := Option.map_eq_some_iff.mp h
      cases heq
      rw [ih hread, doubled_cons, if_neg hc]
      rfl

/-- A run of marks in front of another character is not as long as it is with the marks doubled. -/
theorem append_ne_doubled {c : Char} (hc : c ≠ mark) (cs after rest : List Char) (n : Nat) :
    cs ++ c :: after ≠ List.replicate (n + 1) mark ++ (doubled mark cs ++ rest) := by
  induction cs generalizing n with
  | nil =>
      intro heq
      rw [List.replicate_succ, List.nil_append, List.cons_append, List.cons.injEq] at heq
      exact hc heq.1
  | cons d cs ih =>
      intro heq
      rw [List.replicate_succ, List.cons_append, List.cons_append, List.cons.injEq] at heq
      obtain ⟨rfl, heq⟩ := heq
      refine ih (n + 1) (heq.trans ?_)
      rw [doubled_cons, if_pos rfl, List.replicate_succ', List.replicate_succ']
      simp only [List.append_assoc, List.cons_append, List.nil_append]

/-- A text that ends in another character, and is written without doubling the marks in it, is not
    read back if it has any. -/
theorem notMem_of_readDoubled {c : Char} (hc : c ≠ mark) {cs after rest : List Char}
    (h : readDoubled mark (cs ++ c :: after) = some (cs ++ [c], rest)) : mark ∉ cs := by
  have heq := eq_of_readDoubled h
  clear h
  induction cs with
  | nil => exact List.not_mem_nil
  | cons d cs ih =>
      rw [List.cons_append, List.cons_append, doubled_cons] at heq
      by_cases hd : d = mark
      · subst hd
        rw [if_pos rfl, List.cons_append, List.cons_append, List.cons.injEq, List.append_assoc,
          doubled_append, List.append_assoc] at heq
        exact absurd heq.2 (append_ne_doubled hc cs after _ 0)
      · rw [if_neg hd, List.singleton_append, List.cons_append, List.cons.injEq] at heq
        exact fun hmem => (List.mem_cons.mp hmem).elim (fun hmark => hd hmark.symm) (ih heq.2)

end Tabular.Text
