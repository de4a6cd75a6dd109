/- Text written in UTF-8 is read back. -/
import Mathlib.Algebra.GroupWithZero.Nat
import Tabular.Text.Utf8
import Tabular.Proofs.Text.Utf16

namespace Tabular.Text.Utf8
variable {n value : Nat} {p : Partial}

theorem toNat_tail (n : Nat) : (tail n).toNat = 0x80 + n % 0x40 := by
  rw [tail, UInt8.toNat_ofNat']
  omega

theorem toNat_lead {b : Nat} (h : b < 0x100) : (UInt8.ofNat b).toNat = b := by
  rw [UInt8.toNat_ofNat', Nat.mod_eq_of_lt h]

/-- What has begun is the character of a number, with `count` bytes of it still to come. -/
structure Partial.Begins (p : Partial) (count n : Nat) : Prop where
  left : p.left = count
  value : p.value = n / 0x40 ^ count
  low : p.low ≤ 0x80 + n / 0x40 ^ (count - 1) % 0x40
  high : 0x80 + n / 0x40 ^ (count - 1) % 0x40 ≤ p.high

theorem exists_lead_two (hlow : 0x80 ≤ n) (hhigh : n < 0x800) :
    ∃ p, lead? (0xc0 + n / 0x40) = some p ∧ p.Begins 1 n := by
  refine ⟨⟨1, n / 0x40, 0x80, 0xbf⟩, ?_, rfl, rfl, Nat.le_add_right _ _, ?_⟩
  · have hvalue : 0xc0 + n / 0x40 - 0xc0 = n / 0x40 := by omega
    rw [lead?, if_neg (by omega), if_pos (by omega), hvalue]
  · dsimp only
    omega

/-- The bounds of the second of three bytes keep out what fits into two, and surrogates. -/
theorem exists_lead_three (hlow : 0x800 ≤ n) (hhigh : n < 0x10000)
    (hplain : n < 0xd800 ∨ 0xdfff < n) :
    ∃ p, lead? (0xe0 + n / 0x1000) = some p ∧ p.Begins 2 n := by
  by_cases hfirst : n < 0x1000
  · refine ⟨⟨2, 0, 0xa0, 0xbf⟩, ?_, rfl, ?_, ?_, ?_⟩
    · rw [lead?, if_neg (by omega), if_neg (by omega), if_pos (by omega)]
    all_goals
      dsimp only
      omega
  · by_cases hlast : n / 0x1000 = 0xd
    · refine ⟨⟨2, 0xd, 0x80, 0x9f⟩, ?_, rfl, ?_, ?_, ?_⟩
      · rw [lead?, if_neg (by omega), if_neg (by omega), if_neg (by omega), if_pos (by omega)]
      all_goals
        dsimp only
        omega
    · refine ⟨⟨2, n / 0x1000, 0x80, 0xbf⟩, ?_, rfl, rfl, ?_, ?_⟩
      · have hvalue : 0xe0 + n / 0x1000 - 0xe0 = n / 0x1000 := by omega
        rw [lead?, if_neg (by omega), if_neg (by omega), if_neg (by omega), if_neg (by omega),
          if_pos (by omega), hvalue]
      all_goals
        dsimp only
        omega

/-- The bounds of the second of four bytes keep out what is short enough for three, and numbers
    beyond the last character. -/
theorem exists_lead_four (hlow : 0x10000 ≤ n) (hhigh : n < 0x110000) :
    ∃ p, lead? (0xf0 + n / 0x40000) = some p ∧ p.Begins 3 n := by
  by_cases hfirst : n < 0x40000
  · refine ⟨⟨3, 0, 0x90, 0xbf⟩, ?_, rfl, ?_, ?_, ?_⟩
    · rw [lead?, if_neg (by omega), if_neg (by omega), if_neg (by omega), if_neg (by omega),
        if_neg (by omega), if_pos (by omega)]
    all_goals
      dsimp only
      omega
  · by_cases hlast : n < 0x100000
    · refine ⟨⟨3, n / 0x40000, 0x80, 0xbf⟩, ?_, rfl, rfl, ?_, ?_⟩
      · have hvalue : 0xf0 + n / 0x40000 - 0xf0 = n / 0x40000 := by omega
        rw [lead?, if_neg (by omega), if_neg (by omega), if_neg (by omega), if_neg (by omega),
          if_neg (by omega), if_neg (by omega), if_pos (by omega), hvalue]
      all_goals
        dsimp only
        omega
    · refine ⟨⟨3, 4, 0x80, 0x8f⟩, ?_, rfl, ?_, ?_, ?_⟩
      · rw [lead?, if_neg (by omega), if_neg (by omega), if_neg (by omega), if_neg (by omega),
          if_neg (by omega), if_neg (by omega), if_neg (by omega), if_pos (by omega)]
      all_goals
        dsimp only
        omega

theorem decodeChars_lead {b : Nat} (h : lead? b = some p) (hlow : 0x80 ≤ b) (hhigh : b < 0x100)
    (rest : List UInt8) : decodeChars none (UInt8.ofNat b :: rest) = decodeChars (some p) rest := by
  rw [decodeChars, toNat_lead hhigh, advance, begin, if_neg (by omega), h]
  rfl

/-- The last byte of a character completes it. -/
theorem decodeChars_last (h : p.Begins 1 n) (rest : List UInt8) :
    decodeChars (some p) (tail n :: rest) = Char.ofNat n :: decodeChars none rest := by
  obtain ⟨hleft, hvalue, hlow, hhigh⟩ := h
  simp only [Nat.sub_self, Nat.pow_zero, Nat.div_one, Nat.pow_one] at hvalue hlow hhigh
  have hbounds :
      (decide (p.low ≤ 0x80 + n % 0x40) && decide (0x80 + n % 0x40 ≤ p.high)) = true := by
    simp only [Bool.and_eq_true, decide_eq_true_eq]
    exact ⟨hlow, hhigh⟩
  have hn : p.value * 0x40 + (0x80 + n % 0x40) % 0x40 = n := by omega
  rw [decodeChars, toNat_tail, advance]
  simp only [hbounds, hleft, hn, if_true, List.cons_append, List.nil_append]

/-- A byte inside a character adds six bits to what has begun. -/
theorem decodeChars_inner {count : Nat} (h : p.Begins (count + 2) n) (rest : List UInt8) :
    ∃ q : Partial, q.Begins (count + 1) n ∧
      decodeChars (some p) (tail (n / 0x40 ^ (count + 1)) :: rest) = decodeChars (some q) rest := by
  obtain ⟨hleft, hvalue, hlow, hhigh⟩ := h
  have hpred : count + 2 - 1 = count + 1 := rfl
  rw [hpred] at hlow hhigh
  have hbounds : (decide (p.low ≤ 0x80 + n / 0x40 ^ (count + 1) % 0x40) &&
      decide (0x80 + n / 0x40 ^ (count + 1) % 0x40 ≤ p.high)) = true := by
    simp only [Bool.and_eq_true, decide_eq_true_eq]
    exact ⟨hlow, hhigh⟩
  have hdiv : n / 0x40 ^ (count + 2) = n / 0x40 ^ (count + 1) / 0x40 := by
    rw [Nat.pow_succ _ (count + 1), Nat.div_div_eq_div_mul]
  have hmore : ¬ p.left = 1 := by omega
  refine ⟨⟨p.left - 1, n / 0x40 ^ (count + 1), 0x80, 0xbf⟩, ⟨?_, rfl, ?_, ?_⟩, ?_⟩
  · dsimp only
    omega
  · exact Nat.le_add_right _ _
  · dsimp only
    omega
  · have hn : p.value * 0x40 + (0x80 + n / 0x40 ^ (count + 1) % 0x40) % 0x40 =
        n / 0x40 ^ (count + 1) := by omega
    rw [decodeChars, toNat_tail, advance]
    simp only [hbounds, hmore, hn, if_true, if_false, List.nil_append]

theorem decodeChars_units (c : Char) (rest : List UInt8) :
    decodeChars none (units c ++ rest) = c :: decodeChars none rest := by
  have hplain := Utf16.not_surrogate c
  have hlt := Utf16.toNat_lt c
  simp only [units]
  split
  · rename_i hone
    have hbyte := toNat_lead (show c.toNat < 0x100 by omega)
    rw [List.cons_append, List.nil_append, decodeChars, hbyte, advance, begin, if_pos hone,
      Char.ofNat_toNat]
    rfl
  · split
    · obtain ⟨p, hlead, hp⟩ : ∃ p, lead? (0xc0 + c.toNat / 0x40) = some p ∧ p.Begins 1 c.toNat :=
        exists_lead_two (by omega) (by omega)
      simp only [List.cons_append, List.nil_append]
      rw [decodeChars_lead hlead (by omega) (by omega), decodeChars_last hp, Char.ofNat_toNat]
    · split
      · obtain ⟨p, hlead, hp⟩ := exists_lead_three (by omega) (by omega) hplain
        simp only [List.cons_append, List.nil_append]
        rw [decodeChars_lead hlead (by omega) (by omega)]
        obtain ⟨q, hq, hinner⟩ := decodeChars_inner hp (tail c.toNat :: rest)
        rw [Nat.zero_add, Nat.pow_one] at hinner
        rw [hinner, decodeChars_last hq, Char.ofNat_toNat]
      · obtain ⟨p, hlead, hp⟩ : ∃ p, lead? (0xf0 + c.toNat / 0x40000) = some p ∧
            p.Begins 3 c.toNat := exists_lead_four (by omega) (by omega)
        simp only [List.cons_append, List.nil_append]
        rw [decodeChars_lead hlead (by omega) (by omega)]
        obtain ⟨q, hq, hinner⟩ :=
          decodeChars_inner hp (tail (c.toNat / 0x40) :: tail c.toNat :: rest)
        obtain ⟨r, hr, hlast⟩ := decodeChars_inner hq (tail c.toNat :: rest)
        have hpow : 0x40 ^ (1 + 1) = 0x1000 := rfl
        rw [hpow] at hinner
        rw [Nat.zero_add, Nat.pow_one] at hlast
        rw [hinner, hlast, decodeChars_last hr, Char.ofNat_toNat]

theorem decode_encode (text : String) : decode (encode text) = text := by
  have hchars : ∀ cs : List Char, decodeChars none (cs.flatMap units) = cs := by
    intro cs
    induction cs with
    | nil => rfl
    | cons c cs ih => rw [List.flatMap_cons, decodeChars_units, ih]
  rw [decode, encode, hchars, String.ofList_toList]

end Tabular.Text.Utf8
