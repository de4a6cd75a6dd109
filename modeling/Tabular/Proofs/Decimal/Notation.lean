/- The text of a finite float shows that it is no integer. -/
import Tabular.Json.Printer
import Tabular.Proofs.Json.Token

namespace Tabular.Decimal
open Tabular.Json (EndsNumber)
variable {format : Notation} {negative negative' : Bool} {n : Nat} {d d' : Char}
  {ds ds' cs x y : List Char}

/-- Digits in front of a point or an exponent. -/
def Fractional (cs : List Char) : Prop :=
  ∃ d ds c rest, cs = d :: (ds ++ c :: rest) ∧ (∀ e ∈ d :: ds, e.isDigit = true) ∧
    (c = '.' ∨ c = 'e')

theorem Fractional.of_append (hds : ∀ e ∈ ds, e.isDigit = true) (hne : ds ≠ []) {c : Char}
    (hc : c = '.' ∨ c = 'e') (rest : List Char) : Fractional (ds ++ c :: rest) := by
  cases ds with
  | nil => exact absurd rfl hne
  | cons d ds => exact ⟨d, ds, c, rest, rfl, hds, hc⟩

theorem fractional_plain (hformat : format.fraction = true) (hds : ∀ e ∈ ds, e.isDigit = true)
    (hne : ds ≠ []) (point : Int) : Fractional (format.plain ds point) := by
  rw [Notation.plain]
  split
  · exact ⟨'0', [], '.', _, rfl, List.forall_mem_singleton.mpr rfl, .inl rfl⟩
  · rename_i hpoint
    split
    · refine Fractional.of_append ?_ ?_ (.inl rfl) ['0']
      · intro e he
        rcases List.mem_append.mp he with he | he
        · exact hds e he
        · rw [List.eq_of_mem_replicate he]
          rfl
      · intro heq
        exact hne (List.append_eq_nil_iff.mp heq).1
    · refine Fractional.of_append (fun e he => hds e (List.mem_of_mem_take he)) ?_ (.inl rfl) _
      rw [Ne, List.take_eq_nil_iff, not_or]
      exact ⟨by omega, hne⟩

theorem fractional_scientific (hds : ∀ e ∈ ds, e.isDigit = true) (hne : ds ≠ []) (point : Int) :
    Fractional (scientific ds point) := by
  match ds, hne with
  | [d], _ => exact ⟨d, [], 'e', _, rfl, hds, .inr rfl⟩
  | d :: e :: rest, _ =>
      have hd : ∀ e ∈ [d], e.isDigit = true :=
        List.forall_mem_singleton.mpr (List.forall_mem_cons.mp hds).1
      exact ⟨d, [], '.', _, rfl, hd, .inl rfl⟩

theorem fractional_decimal (hformat : format.fraction = true) (s : Scientific) :
    Fractional (format.decimal s) := by
  have hds : ∀ e ∈ digits s.digits, e.isDigit = true := fun _ he => Json.isDigit_of_mem_digits he
  have hne : digits s.digits ≠ [] := Nat.toDigits_ne_nil
  rw [Notation.decimal]
  split
  · exact fractional_plain hformat hds hne _
  · exact fractional_scientific hds hne _

/-- No integer is written as a fraction is, in front of a text that continues no number. -/
theorem Fractional.append_ne (h : Fractional cs) (hx : EndsNumber x) : digits n ++ x ≠ cs ++ y := by
  intro heq
  obtain ⟨d, ds, c, rest, rfl, hds, hc⟩ := h
  have hdrop := congrArg (List.dropWhile Char.isDigit) heq
  rw [← List.cons_append, List.append_assoc,
    List.dropWhile_append_of_pos fun _ he => Json.isDigit_of_mem_digits he,
    List.dropWhile_append_of_pos hds] at hdrop
  have hcdigit : c.isDigit = false := by rcases hc with rfl | rfl <;> rfl
  rw [List.cons_append, List.dropWhile_cons, hcdigit] at hdrop
  cases x with
  | nil => cases hdrop
  | cons e x =>
      obtain ⟨he, hpoint, hexponent, _⟩ := hx
      rw [List.dropWhile_cons, he] at hdrop
      obtain ⟨rfl, _⟩ := List.cons_eq_cons.mp hdrop
      exact hc.elim hpoint hexponent

theorem signed_append_inj (hd : d.isDigit = true) (hd' : d'.isDigit = true)
    (h : signed negative (d :: ds) ++ x = signed negative' (d' :: ds') ++ y) :
    d :: ds ++ x = d' :: ds' ++ y := by
  have hminus : ∀ e : Char, e.isDigit = true → e ≠ '-' := by
    rintro e he rfl
    cases he
  cases negative with
  | false => cases negative' with
    | false => exact h
    | true => exact absurd (List.cons_eq_cons.mp h).1 (hminus d hd)
  | true => cases negative' with
    | false => exact absurd (List.cons_eq_cons.mp h).1.symm (hminus d' hd')
    | true => exact (List.cons_eq_cons.mp h).2

end Tabular.Decimal

namespace Tabular.Json
open Tabular.Decimal
variable {x y : List Char}

theorem not_isNaN_of_isFinite {x : Float} (h : x.isFinite = true) :
    x.isNaN = false ∧ x.isInf = false := by
  change Float.Model.UnpackedFloat.isFinite x.toModel.unpack = true at h
  change Float.Model.UnpackedFloat.isNaN x.toModel.unpack = false ∧
    Float.Model.UnpackedFloat.isInf x.toModel.unpack = false
  generalize x.toModel.unpack = u at h ⊢
  cases u with
  | infinity s => cases h
  | notANumber => cases h
  | zero s => exact ⟨rfl, rfl⟩
  | finite s m e hm => exact ⟨rfl, rfl⟩

theorem Number.chars_int (i : Int) (h : -0x8000000000000000 ≤ i ∧ i < 0x10000000000000000) :
    (Number.int i h).chars = signed (i < 0) (digits i.natAbs) := by
  rw [Number.chars, signed]
  simp only [decide_eq_true_eq]

theorem Number.chars_float (f : Float) (h : f.isFinite = true) :
    ∃ negative cs, (Number.float f h).chars = signed negative cs ∧ Fractional cs := by
  obtain ⟨hnan, hinf⟩ := not_isNaN_of_isFinite h
  rw [Number.chars, Notation.text]
  simp only [hnan, hinf, Bool.false_eq_true, if_false, String.toList_ofList]
  refine ⟨_, _, rfl, ?_⟩
  split
  · exact fractional_plain rfl (List.forall_mem_singleton.mpr rfl) (List.cons_ne_nil _ _) 1
  · exact fractional_decimal rfl _

/-- A number starts with its sign or with a digit. -/
theorem Number.chars_eq_cons (n : Number) :
    ∃ c cs, n.chars = c :: cs ∧ (c = '-' ∨ c.isDigit = true) := by
  cases n with
  | int i h =>
      obtain ⟨d, ds, hdigits, hd⟩ := digits_eq_cons i.natAbs
      rw [Number.chars_int, hdigits]
      cases decide (i < 0) with
      | false => exact ⟨d, ds, rfl, .inr hd⟩
      | true => exact ⟨'-', _, rfl, .inl rfl⟩
  | float f h =>
      obtain ⟨negative, _, hchars, d, ds, c, rest, rfl, hds, _⟩ := Number.chars_float f h
      rw [hchars]
      cases negative with
      | false => exact ⟨d, _, rfl, .inr (List.forall_mem_cons.mp hds).1⟩
      | true => exact ⟨'-', _, rfl, .inl rfl⟩

theorem Number.chars_int_ne_float {i : Int}
    {hi : -0x8000000000000000 ≤ i ∧ i < 0x10000000000000000} {f : Float}
    {hf : f.isFinite = true} (hx : EndsNumber x) :
    (Number.int i hi).chars ++ x ≠ (Number.float f hf).chars ++ y := by
  intro heq
  obtain ⟨d, ds, hdigits, hd⟩ := digits_eq_cons i.natAbs
  obtain ⟨negative, cs, hchars, hcs⟩ := Number.chars_float f hf
  obtain ⟨d', ds', c, rest, rfl, hds, _⟩ := id hcs
  rw [Number.chars_int, hchars, hdigits] at heq
  have hmagnitude := signed_append_inj hd (List.forall_mem_cons.mp hds).1 heq
  rw [← hdigits] at hmagnitude
  exact hcs.append_ne hx hmagnitude

/-- An integer is told from any other number by its text. -/
theorem Number.chars_inj {n : Number} (i : Int)
    (hi : -0x8000000000000000 ≤ i ∧ i < 0x10000000000000000)
    (hx : EndsNumber x) (hy : EndsNumber y) (h : (Number.int i hi).chars ++ x = n.chars ++ y) :
    Number.int i hi = n ∧ x = y := by
  cases n with
  | float f hf => exact absurd h (Number.chars_int_ne_float hx)
  | int j hj =>
      have hleft : readValue 0 0 ((Number.int i hi).chars ++ x) = .ok (.num (.int i hi), x) :=
        readValue_int i hi hx
      rw [h, readValue_int j hj hy] at hleft
      cases hleft
      exact ⟨rfl, rfl⟩

end Tabular.Json
