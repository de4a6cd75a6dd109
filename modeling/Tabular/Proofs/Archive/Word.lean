/- Numbers of a fixed width are read back. -/
import Tabular.Archive.Word
import Mathlib.Algebra.GroupWithZero.Nat
import Mathlib.Data.List.Basic

namespace Tabular.Archive
variable {bytes rest : List UInt8} {width n : Nat} {fields : List (Nat × Nat)}

@[simp] theorem length_word (width n : Nat) : (word width n).length = width := by
  induction width generalizing n with
  | zero => rfl
  | succ width ih => rw [word, List.length_cons, ih]

theorem number_word (h : n < 256 ^ width) : number (word width n) = n := by
  induction width generalizing n with
  | zero =>
      have hzero : n = 0 := by simpa only [Nat.pow_zero, Nat.lt_one_iff] using h
      rw [hzero, word, number]
  | succ width ih =>
      have hrest : n / 256 < 256 ^ width := by
        rw [Nat.pow_succ] at h
        exact Nat.div_lt_of_lt_mul (by rwa [Nat.mul_comm])
      rw [word, number, ih hrest, UInt8.toNat_ofNat']
      omega

theorem word_number (bytes : List UInt8) : word bytes.length (number bytes) = bytes := by
  induction bytes with
  | nil => rfl
  | cons b bytes ih =>
      have hlt := b.toNat_lt
      have hlow : (b.toNat + 256 * number bytes) % 256 = b.toNat := by omega
      have hhigh : (b.toNat + 256 * number bytes) / 256 = number bytes := by omega
      rw [number, List.length_cons, word, hlow, hhigh, ih, UInt8.ofNat_toNat]

theorem split?_append (first rest : List UInt8) :
    split? first.length (first ++ rest) = some (first, rest) := by
  simp only [split?, List.take_left, List.drop_left, if_true]

theorem split?_eq_none (h : bytes.length < n) : split? n bytes = none := by
  have hshort : ¬ (bytes.take n).length = n := by
    rw [List.length_take]
    omega
  simp only [split?, if_neg hshort]

theorem split?_eq_some {first : List UInt8} (h : split? n bytes = some (first, rest)) :
    first.length = n ∧ first ++ rest = bytes := by
  simp only [split?] at h
  split at h
  · rename_i hlength
    cases h
    exact ⟨hlength, List.take_append_drop n bytes⟩
  · cases h

/-- Numbers of given widths, one behind the other. -/
def words (fields : List (Nat × Nat)) : List UInt8 := fields.flatMap fun f => word f.1 f.2

theorem words_cons (f : Nat × Nat) (fields : List (Nat × Nat)) :
    words (f :: fields) = word f.1 f.2 ++ words fields := List.flatMap_cons

theorem length_words (fields : List (Nat × Nat)) :
    (words fields).length = (fields.map Prod.fst).sum := by
  induction fields with
  | nil => rfl
  | cons f fields ih =>
      rw [words_cons, List.length_append, length_word, ih, List.map_cons, List.sum_cons]

/-- Whether each number has room in its width. -/
def FieldsFit (fields : List (Nat × Nat)) : Prop := ∀ f ∈ fields, f.2 < 256 ^ f.1

theorem readWords?_words (h : FieldsFit fields) (rest : List UInt8) :
    readWords? (fields.map Prod.fst) (words fields ++ rest) =
      some (fields.map Prod.snd, rest) := by
  induction fields with
  | nil => rfl
  | cons f fields ih =>
      obtain ⟨hf, hfields⟩ := List.forall_mem_cons.mp h
      have hsplit := split?_append (word f.1 f.2) (words fields ++ rest)
      rw [length_word] at hsplit
      rw [words_cons, List.append_assoc, List.map_cons, List.map_cons, readWords?, hsplit]
      simp only [bind, Option.bind, ih hfields, number_word hf, pure]

theorem readWords?_word (h : n < 256 ^ width) (rest : List UInt8) :
    readWords? [width] (word width n ++ rest) = some ([n], rest) := by
  have hfits : FieldsFit [(width, n)] := List.forall_mem_singleton.mpr h
  have hread := readWords?_words hfits rest
  rwa [words_cons, words, List.flatMap_nil, List.append_nil] at hread

/-- The first number that is read is that of the first bytes. -/
theorem readWords?_first {widths ns : List Nat}
    (h : readWords? (width :: widths) bytes = some (ns, rest)) :
    ∃ first more, ns = number first :: more ∧ first.length = width ∧ first <+: bytes := by
  rw [readWords?] at h
  simp only [bind, Option.bind_eq_some_iff] at h
  obtain ⟨⟨first, behind⟩, hsplit, ⟨more, _⟩, _, hread⟩ := h
  obtain ⟨hlength, hbytes⟩ := split?_eq_some hsplit
  cases hread
  exact ⟨first, more, rfl, hlength, behind, hbytes⟩

end Tabular.Archive
