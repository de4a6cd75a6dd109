/- What has been deflated is inflated to the same bytes. -/
import Tabular.Archive.Deflate
import Tabular.Archive.Inflate
import Mathlib.Algebra.GroupWithZero.Nat
import Mathlib.Data.List.Basic

namespace Tabular.Archive
variable {bits rest : List Bool} {bytes : List UInt8}

theorem bitNumber_lt (bits : List Bool) : bitNumber bits < 2 ^ bits.length := by
  induction bits with
  | nil => exact Nat.one_pos
  | cons bit bits ih =>
      have hbit := Bool.toNat_lt bit
      rw [bitNumber, List.length_cons, Nat.pow_succ]
      omega

theorem testBit_bitNumber (bits : List Bool) (i : Nat) :
    (bitNumber bits).testBit i = bits[i]?.getD false := by
  induction bits generalizing i with
  | nil => exact Nat.zero_testBit i
  | cons bit bits ih =>
      have hbit := Bool.toNat_lt bit
      cases i with
      | zero =>
          rw [bitNumber, Nat.testBit_zero]
          cases bit <;> simp [Nat.add_mod]
      | succ i =>
          have hhalf : bitNumber (bit :: bits) / 2 = bitNumber bits := by
            rw [bitNumber]
            omega
          rw [Nat.testBit_succ, hhalf, ih, List.getElem?_cons_succ]

/-- The bits of a byte that holds at most eight bits: those, and zeros. -/
theorem bitsOf_bitNumber (h : bits.length ≤ 8) : bitsOf (UInt8.ofNat (bitNumber bits)) =
    bits ++ List.replicate (8 - bits.length) false := by
  have hlt : bitNumber bits < 256 :=
    Nat.lt_of_lt_of_le (bitNumber_lt bits) (Nat.pow_le_pow_right (by decide) h : _ ≤ 2 ^ 8)
  have hbyte : (UInt8.ofNat (bitNumber bits)).toNat = bitNumber bits := by
    rw [UInt8.toNat_ofNat', Nat.mod_eq_of_lt hlt]
  rw [bitsOf, hbyte]
  apply List.ext_getElem
  · simp only [List.length_map, List.length_range, List.length_append, List.length_replicate]
    omega
  · intro i _ _
    rw [List.getElem_map, List.getElem_range, testBit_bitNumber, List.getElem_append]
    split
    · rename_i hi
      rw [List.getElem?_eq_getElem hi, Option.getD_some]
    · rename_i hi
      rw [List.getElem?_eq_none (Nat.le_of_not_lt hi), Option.getD_none, List.getElem_replicate]

theorem length_bitsOf (b : UInt8) : (bitsOf b).length = 8 := by
  rw [bitsOf, List.length_map, List.length_range]

/-- Bytes that bits are pushed to hold those bits behind what they held, with zeros at the end. -/
theorem bitsOf_pushBits (out : Array UInt8) (bits : List Bool) : ∃ zeros,
    (pushBits out bits).toList.flatMap bitsOf = out.toList.flatMap bitsOf ++ bits ++ zeros := by
  fun_induction pushBits out bits with
  | case1 out => exact ⟨[], by rw [List.append_nil, List.append_nil]⟩
  | case2 out a b c d e f g h bits ih =>
      obtain ⟨zeros, hzeros⟩ := ih
      have hbyte : bitsOf (UInt8.ofNat (bitNumber [a, b, c, d, e, f, g, h])) =
          [a, b, c, d, e, f, g, h] ++ [] := bitsOf_bitNumber (Nat.le_refl 8)
      refine ⟨zeros, ?_⟩
      rw [hzeros, Array.toList_push, List.flatMap_append, List.flatMap_singleton, hbyte]
      simp only [List.append_assoc, List.cons_append, List.nil_append]
  | case3 out bits hempty hmore =>
      have hle : bits.length ≤ 8 := by
        rcases bits with
          _ | ⟨a, _ | ⟨b, _ | ⟨c, _ | ⟨d, _ | ⟨e, _ | ⟨f, _ | ⟨g, _ | ⟨h, bits⟩⟩⟩⟩⟩⟩⟩⟩
        all_goals first
          | exact absurd rfl (hmore _ _ _ _ _ _ _ _ _)
          | simp only [List.length_cons, List.length_nil, Nat.reduceAdd, Nat.reduceLeDiff,
              Nat.zero_le]
      refine ⟨List.replicate (8 - bits.length) false, ?_⟩
      rw [Array.toList_push, List.flatMap_append, List.flatMap_singleton, bitsOf_bitNumber hle,
        List.append_assoc]

theorem bitsOf_bytesOf (bits : List Bool) :
    ∃ zeros, (bytesOf bits).flatMap bitsOf = bits ++ zeros := by
  obtain ⟨zeros, hzeros⟩ := bitsOf_pushBits #[] bits
  exact ⟨zeros, hzeros⟩

theorem length_flatMap_bitsOf (bytes : List UInt8) :
    (bytes.flatMap bitsOf).length = 8 * bytes.length := by
  induction bytes with
  | nil => rfl
  | cons b bytes ih =>
      rw [List.flatMap_cons, List.length_append, length_bitsOf, ih, List.length_cons]
      omega

theorem readSymbol_append {symbols : Array Nat} {word first index symbol : Nat}
    {counts : List Nat} {left : List Bool}
    (h : readSymbol symbols word first index counts bits = .ok (symbol, left)) :
    readSymbol symbols word first index counts (bits ++ rest) = .ok (symbol, left ++ rest) := by
  induction counts generalizing word first index bits with
  | nil => cases h
  | cons count counts ih =>
      cases bits with
      | nil => cases h
      | cons bit bits =>
          rw [readSymbol] at h
          rw [List.cons_append, readSymbol]
          by_cases hlt : 2 * word + bit.toNat < first + count
          · simp only [if_pos hlt] at h ⊢
            cases hsymbol : symbols[index + (2 * word + bit.toNat - first)]? with
            | none =>
                rw [hsymbol] at h
                cases h
            | some s =>
                rw [hsymbol] at h
                cases h
                rfl
          · simp only [if_neg hlt] at h ⊢
            exact ih h

theorem Code.read_append {c : Code} {symbol : Nat} {left : List Bool}
    (h : c.read bits = .ok (symbol, left)) : c.read (bits ++ rest) = .ok (symbol, left ++ rest) :=
  readSymbol_append h

theorem toOption_eq_some {ε α : Type} {x : Except ε α} {a : α} (h : x.toOption = some a) :
    x = .ok a := by
  cases x with
  | ok b => exact congrArg Except.ok (Option.some.inj h)
  | error e => cases h

/-- Each word of the code that a block need not bring is read as the byte it was written for. -/
theorem read_literalWord (b : UInt8) (rest : List Bool) :
    fixedLiterals.read (literalWord b ++ rest) = .ok (b.toNat, rest) := by
  have hwords : ∀ n < 256,
      (fixedLiterals.read (literalWord (UInt8.ofNat n))).toOption = some (n, []) := by
    decide +kernel
  have hword : fixedLiterals.read (literalWord b) = .ok (b.toNat, []) := by
    have hb := toOption_eq_some (hwords b.toNat b.toNat_lt)
    rwa [UInt8.ofNat_toNat] at hb
  rw [Code.read_append hword, List.nil_append]

theorem read_endWord (rest : List Bool) :
    fixedLiterals.read (endWord ++ rest) = .ok (256, rest) := by
  have hword : (fixedLiterals.read endWord).toOption = some (256, []) := by decide +kernel
  rw [Code.read_append (toOption_eq_some hword), List.nil_append]

theorem readPiece_literalWord (distances : Code) (b : UInt8) (rest : List Bool) :
    readPiece fixedLiterals distances (literalWord b ++ rest) = .ok (.byte b, rest) := by
  rw [readPiece, read_literalWord]
  simp only [b.toNat_lt, if_true, UInt8.ofNat_toNat]

theorem readPiece_endWord (distances : Code) (rest : List Bool) :
    readPiece fixedLiterals distances (endWord ++ rest) = .ok (.stop, rest) := by
  rw [readPiece, read_endWord]
  simp only [Nat.lt_irrefl, if_false, if_true]

theorem readBlock_literals (distances : Code) (bytes : List UInt8) (rest : List Bool) {fuel : Nat}
    (hfuel : bytes.length < fuel) (out : Array UInt8) :
    readBlock fixedLiterals distances fuel (bytes.flatMap literalWord ++ (endWord ++ rest)) out =
      .ok (out ++ bytes.toArray, rest) := by
  induction bytes generalizing fuel out with
  | nil =>
      obtain ⟨fuel, rfl⟩ := Nat.exists_eq_add_of_lt hfuel
      rw [List.flatMap_nil, List.nil_append, readBlock, readPiece_endWord]
      simp only [Array.append_empty]
  | cons b bytes ih =>
      obtain ⟨fuel, rfl⟩ := Nat.exists_eq_add_of_lt hfuel
      have hmore : bytes.length < bytes.length + 1 + fuel := by omega
      have hpush : out.push b ++ bytes.toArray = out ++ (b :: bytes).toArray := by
        apply Array.ext'
        simp only [Array.toList_append, Array.toList_push, List.append_assoc, List.cons_append,
          List.nil_append]
      rw [List.flatMap_cons, List.append_assoc, List.length_cons, readBlock, readPiece_literalWord]
      dsimp only
      rw [ih hmore, hpush]

theorem length_le_flatMap_literalWord (bytes : List UInt8) :
    8 * bytes.length ≤ (bytes.flatMap literalWord).length := by
  induction bytes with
  | nil => exact Nat.le_refl 0
  | cons b bytes ih =>
      have hword : 8 ≤ (literalWord b).length := by
        simp only [literalWord, wordBits]
        split <;> simp only [List.length_reverse, List.length_map, List.length_range,
          Nat.le_refl, Nat.reduceLeDiff]
      rw [List.flatMap_cons, List.length_append, List.length_cons]
      omega

/-- Deflating makes nothing shorter, since no byte has a word of less than eight bits. -/
theorem length_le_deflate (bytes : List UInt8) : bytes.length ≤ (deflate bytes).length := by
  obtain ⟨zeros, hzeros⟩ := bitsOf_bytesOf (blockStart ++ bytes.flatMap literalWord ++ endWord)
  have hbits := congrArg List.length hzeros
  have hwords := length_le_flatMap_literalWord bytes
  rw [length_flatMap_bitsOf] at hbits
  simp only [List.length_append] at hbits
  rw [deflate]
  omega

theorem inflate_deflate (bytes : List UInt8) : inflate (deflate bytes) = .ok bytes := by
  obtain ⟨zeros, hzeros⟩ := bitsOf_bytesOf (blockStart ++ bytes.flatMap literalWord ++ endWord)
  have hwords := length_le_flatMap_literalWord bytes
  have hblock : readKind 1 (bytes.flatMap literalWord ++ (endWord ++ zeros)) #[] =
      .ok (bytes.toArray, zeros) := by
    have hfuel : bytes.length < (bytes.flatMap literalWord ++ (endWord ++ zeros)).length + 1 := by
      rw [List.length_append]
      omega
    rw [readKind, readBlock_literals _ bytes zeros hfuel, Array.empty_append]
  rw [inflate, deflate, hzeros, blockStart]
  simp only [List.append_assoc, List.cons_append, List.nil_append, List.length_cons, readBlocks,
    readBits, Except.map, bind, Except.bind, Bool.toNat_true, Bool.toNat_false, Nat.mul_zero,
    Nat.add_zero, hblock, if_true]
  rfl

end Tabular.Archive
