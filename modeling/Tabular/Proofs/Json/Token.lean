/- Numbers and strings that have been written are read back. -/
import Mathlib.Tactic.SplitIfs
import Tabular.Json.Printer
import Tabular.Json.Reader

namespace Tabular.Json
open Tabular.Decimal (digits)
variable {negative : Bool} {limit n taken fuel depth : Nat} {c : Char} {cs ds rest : List Char}

/-- A text in which no number goes on. -/
def EndsNumber : List Char → Prop
  | [] => True
  | c :: _ => c.isDigit = false ∧ c ≠ '.' ∧ c ≠ 'e' ∧ c ≠ 'E'

theorem EndsNumber.startsWithDigit (h : EndsNumber rest) : startsWithDigit rest = false := by
  cases rest with
  | nil => rfl
  | cons c cs => exact h.1

theorem le_ofDigitChars (ds : List Char) (n : Nat) : n ≤ Nat.ofDigitChars 10 ds n := by
  induction ds generalizing n with
  | nil => exact Nat.le_refl n
  | cons d ds ih =>
      rw [Nat.ofDigitChars_cons]
      have hstep := ih (10 * n + (d.toNat - '0'.toNat))
      omega

theorem absorb_append (hds : ∀ d ∈ ds, d.isDigit = true) (hrest : EndsNumber rest)
    (hlimit : Nat.ofDigitChars 10 ds n ≤ limit) :
    absorb limit n taken (ds ++ rest) = (Nat.ofDigitChars 10 ds n, taken + ds.length, rest) := by
  induction ds generalizing n taken with
  | nil =>
      cases rest with
      | nil => rfl
      | cons c cs =>
          rw [List.nil_append, absorb, hrest.1, Bool.false_and, if_neg Bool.false_ne_true]
          rfl
  | cons d ds ih =>
      obtain ⟨hd, hds⟩ := List.forall_mem_cons.mp hds
      rw [Nat.ofDigitChars_cons] at hlimit ⊢
      have hfits : 10 * n + digitValue d ≤ limit := Nat.le_trans (le_ofDigitChars ds _) hlimit
      rw [List.cons_append, absorb, hd, Bool.true_and, if_pos (decide_eq_true hfits)]
      have htaken : taken + 1 + ds.length = taken + (d :: ds).length := by
        rw [List.length_cons]
        omega
      rw [← htaken]
      exact ih hds hlimit

theorem readTail_of_ends (h : EndsNumber rest) :
    readTail negative n rest = finishInteger negative n rest := by
  cases rest with
  | nil => rfl
  | cons c cs =>
      obtain ⟨hdigit, hpoint, hlower, hupper⟩ := h
      rw [readTail, List.takeWhile_cons, List.dropWhile_cons, hdigit]
      split
      all_goals simp_all

theorem eq_zero_of_digitChar : ∀ n < 10, Nat.digitChar n = '0' → n = 0 := by decide

/-- Only zero is written with a zero in front. -/
theorem digits_of_zero_head (h : digits n = '0' :: ds) : n = 0 ∧ ds = [] := by
  induction n using Nat.strongRecOn generalizing ds with
  | _ n ih =>
      rw [digits, Nat.toDigits_eq_if (by decide)] at h
      split at h
      · rename_i hlt
        obtain ⟨hchar, hnil⟩ := List.cons_eq_cons.mp h
        exact ⟨eq_zero_of_digitChar n hlt hchar, hnil.symm⟩
      · rename_i hle
        cases hhigh : Nat.toDigits 10 (n / 10) with
        | nil => exact absurd hhigh Nat.toDigits_ne_nil
        | cons d high =>
            rw [hhigh, List.cons_append] at h
            obtain ⟨rfl, _⟩ := List.cons_eq_cons.mp h
            have hzero := (ih (n / 10) (by omega) hhigh).1
            omega

theorem isDigit_of_mem_digits (h : c ∈ digits n) : c.isDigit = true :=
  Nat.isDigit_of_mem_toDigits (by decide) (by decide) h

theorem digits_eq_cons (n : Nat) : ∃ d ds, digits n = d :: ds ∧ d.isDigit = true := by
  cases h : digits n with
  | nil => exact absurd h Nat.toDigits_ne_nil
  | cons d ds => exact ⟨d, ds, rfl, isDigit_of_mem_digits (h ▸ List.mem_cons_self)⟩

theorem readNumber_digits (hn : n < 0x10000000000000000) (hrest : EndsNumber rest) :
    readNumber negative (digits n ++ rest) = finishInteger negative n rest := by
  obtain ⟨d, ds, hdigits, hd⟩ := digits_eq_cons n
  rw [hdigits, List.cons_append, readNumber]
  by_cases hzero : d = '0'
  · subst hzero
    obtain ⟨rfl, rfl⟩ := digits_of_zero_head hdigits
    rw [if_pos rfl, List.nil_append, hrest.startsWithDigit, if_neg Bool.false_ne_true,
      readTail_of_ends hrest]
  · have hvalue : Nat.ofDigitChars 10 (d :: ds) 0 = n := by
      rw [← hdigits]
      exact Nat.ofDigitChars_ten_toDigits
    have hall : ∀ c ∈ d :: ds, c.isDigit = true := by
      intro c hc
      rw [← hdigits] at hc
      exact isDigit_of_mem_digits hc
    rw [if_neg hzero, if_pos hd, ← List.cons_append,
      absorb_append hall hrest (by rw [hvalue]; omega), hvalue]
    exact readTail_of_ends hrest

theorem finishInteger_natAbs (i : Int) (h : -0x8000000000000000 ≤ i ∧ i < 0x10000000000000000)
    (cs : List Char) :
    finishInteger (decide (i < 0)) i.natAbs cs = .ok (.int i h, cs) := by
  by_cases hi : i < 0
  · have hfloat : (i.natAbs == 0 || decide (0x8000000000000000 < i.natAbs)) = false := by
      simp only [Bool.or_eq_false_iff, beq_eq_false_iff_ne, decide_eq_false_iff_not]
      omega
    have habs : -(i.natAbs : Int) = i := by omega
    simp only [finishInteger, hi, decide_true, Bool.true_and, hfloat, Bool.false_eq_true, if_false,
      if_true, habs, Number.ofInt?, dif_pos h]
  · have habs : (i.natAbs : Int) = i := by omega
    simp only [finishInteger, hi, decide_false, Bool.false_and, Bool.false_eq_true, if_false, habs,
      Number.ofInt?, dif_pos h]

theorem readValue_digit (h : c.isDigit = true) (fuel depth : Nat) (cs : List Char) :
    readValue fuel depth (c :: cs) = (readNumber false (c :: cs)).map .num := by
  have hne : ∀ d : Char, d.isDigit = false → c ≠ d := by
    rintro d hd rfl
    rw [h] at hd
    cases hd
  rw [readValue.eq_def]
  simp [skipBlank, isBlank, hne, h]

theorem readValue_minus (fuel depth : Nat) (cs : List Char) :
    readValue fuel depth ('-' :: cs) = (readNumber true cs).map .num := by
  rw [readValue.eq_def]
  rfl

theorem readValue_int (i : Int) (h : -0x8000000000000000 ≤ i ∧ i < 0x10000000000000000)
    (hrest : EndsNumber rest) :
    readValue fuel depth ((Number.int i h).chars ++ rest) = .ok (.num (.int i h), rest) := by
  have habs : i.natAbs < 0x10000000000000000 := by omega
  have hfinish := finishInteger_natAbs i h rest
  rw [Number.chars]
  by_cases hi : i < 0
  · rw [decide_eq_true hi] at hfinish
    rw [if_pos hi, List.cons_append, readValue_minus, readNumber_digits habs hrest, hfinish]
    rfl
  · obtain ⟨d, ds, hdigits, hd⟩ := digits_eq_cons i.natAbs
    rw [decide_eq_false hi] at hfinish
    rw [if_neg hi, hdigits, List.cons_append, readValue_digit hd, ← List.cons_append, ← hdigits,
      readNumber_digits habs hrest, hfinish]
    rfl

theorem hexWord?_hexDigit :
    ∀ n < 32, hexWord? '0' '0' (hexDigit (n / 16)) (hexDigit (n % 16)) = some n := by decide

theorem readString_letter {e : Char} (h : unescaped? e = some c) (acc cs : List Char) :
    readString acc ('\\' :: e :: cs) = readString (c :: acc) cs := by
  have hu : e ≠ 'u' := by
    rintro rfl
    cases h
  rw [readString.eq_def]
  simp [hu, h]

theorem readString_hex (h : c.toNat < 32) (acc cs : List Char) :
    readString acc ('\\' :: 'u' :: '0' :: '0' :: hexDigit (c.toNat / 16) ::
      hexDigit (c.toNat % 16) :: cs) = readString (c :: acc) cs := by
  have hplain : (decide (c.toNat < 0xd800) || decide (0xdfff < c.toNat)) = true := by
    rw [decide_eq_true (show c.toNat < 0xd800 by omega), Bool.true_or]
  rw [readString.eq_def]
  simp only [hexWord?_hexDigit c.toNat h, hplain, if_true, Char.ofNat_toNat]
  rfl

theorem readString_plain (hquote : c ≠ '"') (hback : c ≠ '\\') (h : ¬ c.toNat < 32)
    (acc cs : List Char) : readString acc (c :: cs) = readString (c :: acc) cs := by
  rw [readString.eq_def]
  simp only [hquote, hback, h, if_false]

theorem readString_escaped (c : Char) (acc cs : List Char) :
    readString acc (escaped c ++ cs) = readString (c :: acc) cs := by
  rw [escaped]
  split_ifs with hquote hback hbackspace hform hline hreturn htab hcontrol
  · subst hquote
    exact readString_letter rfl acc cs
  · subst hback
    exact readString_letter rfl acc cs
  · subst hbackspace
    exact readString_letter rfl acc cs
  · subst hform
    exact readString_letter rfl acc cs
  · subst hline
    exact readString_letter rfl acc cs
  · subst hreturn
    exact readString_letter rfl acc cs
  · subst htab
    exact readString_letter rfl acc cs
  · exact readString_hex hcontrol acc cs
  · exact readString_plain hquote hback hcontrol acc cs

theorem readString_quoted (acc text rest : List Char) :
    readString acc (text.flatMap escaped ++ '"' :: rest) = .ok (acc.reverse ++ text, rest) := by
  induction text generalizing acc with
  | nil =>
      rw [List.flatMap_nil, List.nil_append, readString.eq_def, List.append_nil]
      rfl
  | cons c text ih =>
      rw [List.flatMap_cons, List.append_assoc, readString_escaped, ih, List.reverse_cons,
        List.append_assoc, List.singleton_append]

end Tabular.Json
