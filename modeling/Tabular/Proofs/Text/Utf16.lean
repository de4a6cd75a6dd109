/- Text written in UTF-16 is read back, and nothing else is read. -/
import Tabular.Text.Utf16

namespace Tabular.Text.Utf16

theorem toNat_ofNat_mod (n : Nat) : (UInt8.ofNat (n % 256)).toNat = n % 256 := by
  rw [UInt8.toNat_ofNat']
  exact Nat.mod_mod n 256

theorem unitOfBytes_unitBytes {u : Nat} (h : u < 0x10000) :
    unitOfBytes (UInt8.ofNat (u % 256)) (UInt8.ofNat (u / 256)) = u := by
  have hhigh : u / 256 % 256 = u / 256 := Nat.mod_eq_of_lt (by omega)
  have htop := toNat_ofNat_mod (u / 256)
  rw [hhigh] at htop
  rw [unitOfBytes, toNat_ofNat_mod, htop]
  omega

/-- No character is a surrogate. -/
theorem not_surrogate (c : Char) : c.toNat < 0xd800 ∨ 0xdfff < c.toNat := by
  have hvalid := c.valid
  simp only [UInt32.isValidChar, Nat.isValidChar] at hvalid
  change (c.toNat < 0xd800 ∨ 0xdfff < c.toNat ∧ c.toNat < 0x110000) at hvalid
  omega

theorem toNat_lt (c : Char) : c.toNat < 0x110000 := by
  have hvalid := c.valid
  simp only [UInt32.isValidChar, Nat.isValidChar] at hvalid
  change (c.toNat < 0xd800 ∨ 0xdfff < c.toNat ∧ c.toNat < 0x110000) at hvalid
  omega

theorem decodeUnits?_plain {u : Nat} (h : u < 0xd800 ∨ 0xdfff < u) (hu : u < 0x10000)
    (acc : List Char) (rest : List UInt8) :
    decodeUnits? acc (unitBytes u ++ rest) = decodeUnits? (Char.ofNat u :: acc) rest := by
  have hplain : (decide (u < 0xd800) || decide (0xdfff < u)) = true := by
    simpa only [Bool.or_eq_true, decide_eq_true_eq] using h
  rw [unitBytes, List.cons_append, List.cons_append, List.nil_append, decodeUnits?.eq_def]
  simp only [unitOfBytes_unitBytes hu, hplain, if_true]

theorem decodeUnits?_pair {u v : Nat} (hu : 0xd800 ≤ u ∧ u < 0xdc00) (hv : 0xdc00 ≤ v ∧ v ≤ 0xdfff)
    (acc : List Char) (rest : List UInt8) :
    decodeUnits? acc (unitBytes u ++ (unitBytes v ++ rest)) =
      decodeUnits? (Char.ofNat (0x10000 + (u - 0xd800) * 0x400 + (v - 0xdc00)) :: acc) rest := by
  have hlead : (decide (u < 0xd800) || decide (0xdfff < u)) = false := by
    simp only [Bool.or_eq_false_iff, decide_eq_false_iff_not]
    omega
  have htrail : (decide (0xdc00 ≤ v) && decide (v ≤ 0xdfff)) = true := by
    simp only [Bool.and_eq_true, decide_eq_true_eq]
    exact hv
  simp only [unitBytes, List.cons_append, List.nil_append]
  rw [decodeUnits?.eq_def]
  simp only [unitOfBytes_unitBytes (show u < 0x10000 by omega), hlead, Bool.false_eq_true, if_false,
    if_neg (show ¬ 0xdc00 ≤ u by omega), unitOfBytes_unitBytes (show v < 0x10000 by omega), htrail,
    if_true]

theorem decodeUnits?_units (c : Char) (acc : List Char) (rest : List UInt8) :
    decodeUnits? acc ((units c).flatMap unitBytes ++ rest) = decodeUnits? (c :: acc) rest := by
  have hc := not_surrogate c
  have hlt := toNat_lt c
  rw [units]
  split
  · rename_i hplane
    rw [List.flatMap_singleton, decodeUnits?_plain hc hplane, Char.ofNat_toNat]
  · rename_i hplane
    have hback : 0x10000 + (0xd800 + (c.toNat - 0x10000) / 0x400 - 0xd800) * 0x400 +
        (0xdc00 + (c.toNat - 0x10000) % 0x400 - 0xdc00) = c.toNat := by omega
    rw [List.flatMap_cons, List.flatMap_singleton, List.append_assoc,
      decodeUnits?_pair (by omega) (by omega), hback, Char.ofNat_toNat]

/-- What has been decoded stands in front of the text whose units follow. -/
theorem decodeUnits?_encode (acc : List Char) (text : String) :
    decodeUnits? acc (encode text) = some (acc.reverse ++ text.toList) := by
  rw [encode]
  induction text.toList generalizing acc with
  | nil => rw [List.flatMap_nil, decodeUnits?, List.append_nil]
  | cons c cs ih =>
      rw [List.flatMap_cons, decodeUnits?_units, ih, List.reverse_cons, List.append_assoc,
        List.singleton_append]

theorem even_length_encode (text : String) : (encode text).length % 2 = 0 := by
  rw [encode]
  induction text.toList with
  | nil => rfl
  | cons c cs ih =>
      have hunits : ((units c).flatMap unitBytes).length % 2 = 0 := by
        rw [units]
        split
        · simp [unitBytes]
        · simp [unitBytes]
      rw [List.flatMap_cons, List.length_append]
      omega

theorem dropMark_of_ne {low high : UInt8} (h : unitOfBytes low high ≠ 0xfeff)
    (rest : List UInt8) : dropMark (low :: high :: rest) = low :: high :: rest := by
  rw [dropMark]
  intro rest' heq
  injection heq with hlow heq
  injection heq with hhigh _
  subst hlow hhigh
  exact h (by decide)

/-- A text that does not begin with the mark is not cut. -/
theorem dropMark_encode {text : String} (h : text.toList.head? ≠ some '\ufeff') :
    dropMark (encode text) = encode text := by
  rw [encode]
  cases htext : text.toList with
  | nil => rfl
  | cons c cs =>
      have hc : c.toNat ≠ 0xfeff := by
        intro heq
        apply h
        rw [htext, List.head?_cons, ← Char.ofNat_toNat c, heq]
      have hlt := toNat_lt c
      rw [List.flatMap_cons, units]
      split
      · rename_i hplane
        apply dropMark_of_ne
        rwa [unitOfBytes_unitBytes hplane]
      · apply dropMark_of_ne
        rw [unitOfBytes_unitBytes (by omega)]
        omega

theorem toNat_ofNat_of_not_surrogate {n : Nat} (h : n < 0xd800 ∨ 0xdfff < n) (hn : n < 0x110000) :
    (Char.ofNat n).toNat = n := by
  have hvalid : n.isValidChar := by
    rw [Nat.isValidChar]
    omega
  rw [Char.ofNat, dif_pos hvalid]
  rfl

theorem unitBytes_unitOfBytes (low high : UInt8) :
    unitBytes (unitOfBytes low high) = [low, high] := by
  have hlow := low.toNat_lt
  have hhigh := high.toNat_lt
  have hmod : (low.toNat + 256 * high.toNat) % 256 = low.toNat := by omega
  have hdiv : (low.toNat + 256 * high.toNat) / 256 = high.toNat := by omega
  rw [unitBytes, unitOfBytes, hmod, hdiv, UInt8.ofNat_toNat, UInt8.ofNat_toNat]

theorem unitOfBytes_lt (low high : UInt8) : unitOfBytes low high < 0x10000 := by
  have hlow := low.toNat_lt
  have hhigh := high.toNat_lt
  rw [unitOfBytes]
  omega

theorem units_plain {u : Nat} (h : u < 0xd800 ∨ 0xdfff < u) (hu : u < 0x10000) :
    units (Char.ofNat u) = [u] := by
  rw [units, toNat_ofNat_of_not_surrogate h (by omega), if_pos hu]

theorem units_pair {u v : Nat} (hu : 0xd800 ≤ u ∧ u < 0xdc00) (hv : 0xdc00 ≤ v ∧ v ≤ 0xdfff) :
    units (Char.ofNat (0x10000 + (u - 0xd800) * 0x400 + (v - 0xdc00))) = [u, v] := by
  have hlead : 0xd800 + (0x10000 + (u - 0xd800) * 0x400 + (v - 0xdc00) - 0x10000) / 0x400 = u := by
    omega
  have htrail : 0xdc00 + (0x10000 + (u - 0xd800) * 0x400 + (v - 0xdc00) - 0x10000) % 0x400 = v := by
    omega
  rw [units, toNat_ofNat_of_not_surrogate (by omega) (by omega), if_neg (by omega), hlead, htrail]

theorem encode_cons_of_units {c : Char} {us : List Nat} (h : units c = us) (cs : List Char) :
    ((c :: cs).flatMap fun c => (units c).flatMap unitBytes) =
      us.flatMap unitBytes ++ cs.flatMap fun c => (units c).flatMap unitBytes := by
  rw [List.flatMap_cons, h]

/-- Bytes that decode are those of the characters that they give. -/
theorem bytes_of_decodeUnits? {acc cs : List Char} {bytes : List UInt8}
    (h : decodeUnits? acc bytes = some cs) :
    ∃ more, cs = acc.reverse ++ more ∧
      bytes = more.flatMap fun c => (units c).flatMap unitBytes := by
  fun_induction decodeUnits? acc bytes with
  | case1 acc =>
      cases h
      exact ⟨[], (List.append_nil _).symm, rfl⟩
  | case2 => cases h
  | case3 acc low high rest u hplain ih =>
      obtain ⟨more, rfl, rfl⟩ := ih h
      rw [Bool.or_eq_true, decide_eq_true_eq, decide_eq_true_eq] at hplain
      refine ⟨Char.ofNat u :: more, by rw [List.reverse_cons, List.append_assoc]; rfl, ?_⟩
      rw [encode_cons_of_units (units_plain hplain (unitOfBytes_lt low high)),
        List.flatMap_singleton, unitBytes_unitOfBytes]
      rfl
  | case4 => cases h
  | case5 acc low high u hsurrogate hlead low' high' rest v htrail ih =>
      obtain ⟨more, rfl, rfl⟩ := ih h
      rw [Bool.or_eq_true, decide_eq_true_eq, decide_eq_true_eq] at hsurrogate
      rw [Bool.and_eq_true, decide_eq_true_eq, decide_eq_true_eq] at htrail
      refine ⟨_ :: more, by rw [List.reverse_cons, List.append_assoc]; rfl, ?_⟩
      rw [encode_cons_of_units (units_pair (by omega) htrail), List.flatMap_cons,
        List.flatMap_singleton, unitBytes_unitOfBytes, unitBytes_unitOfBytes]
      rfl
  | case6 => cases h
  | case7 => cases h

/-- Just the units of a text decode to it. -/
theorem decodeUnits?_eq_some {bytes : List UInt8} {text : String} :
    decodeUnits? [] bytes = some text.toList ↔ bytes = encode text := by
  constructor
  · intro h
    obtain ⟨more, hmore, hbytes⟩ := bytes_of_decodeUnits? h
    rw [hbytes, encode, hmore]
    rfl
  · rintro rfl
    rw [decodeUnits?_encode]
    rfl

theorem dropMark_cases (bytes : List UInt8) :
    (∃ rest, bytes = 0xff :: 0xfe :: rest ∧ dropMark bytes = rest) ∨
      (∀ rest, bytes ≠ 0xff :: 0xfe :: rest) ∧ dropMark bytes = bytes := by
  rw [dropMark.eq_def]
  split
  · exact .inl ⟨_, rfl, rfl⟩
  · rename_i h
    exact .inr ⟨h, rfl⟩

theorem encode_of_mark {text : String} (h : text.toList.head? = some '\ufeff') :
    ∃ rest, encode text = 0xff :: 0xfe :: rest := by
  obtain ⟨cs, htext⟩ := List.head?_eq_some_iff.mp h
  rw [encode, htext, List.flatMap_cons]
  exact ⟨_, rfl⟩

end Tabular.Text.Utf16
