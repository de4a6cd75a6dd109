/- An archive that has been written is opened, and holds what was written into it. -/
import Tabular.Proofs.Archive.Listing
import Mathlib.Data.List.Forall2

namespace Tabular.Archive
open Tabular.Text
variable {bytes front directory rest : List UInt8} {ks : List Kept} {parts : List Part}
  {count size offset place : Nat} {found : Option (Nat × List UInt8)}

def endFields (count size offset : Nat) : List (Nat × Nat) :=
  [(4, endMark), (2, 0), (2, 0), (2, min count 0xffff), (2, min count 0xffff), (4, size),
    (4, offset), (2, 0)]

theorem endRecord_eq (count size offset : Nat) :
    endRecord count size offset = words (endFields count size offset) := by
  simp only [endRecord, endFields, words, List.flatMap_cons, List.flatMap_nil, List.append_assoc,
    List.append_nil]

theorem length_endRecord (count size offset : Nat) : (endRecord count size offset).length = 22 := by
  rw [endRecord_eq, length_words]
  rfl

/-- What the record of the end says of a directory. -/
def writtenEnd (count size offset : Nat) : EndRecord :=
  ⟨0, 0, min count 0xffff, min count 0xffff, size, offset, 0⟩

theorem disk_writtenEnd (count size offset : Nat) : ((writtenEnd count size offset).disk !=
    (writtenEnd count size offset).directoryDisk) = false := rfl

theorem readEnd_endRecord (count : Nat) (hsize : size < 2 ^ 32) (hoffset : offset < 2 ^ 32) :
    readEnd (endRecord count size offset) = .ok (writtenEnd count size offset) := by
  have hcount : min count 0xffff < 256 ^ 2 := by omega
  have hfits : FieldsFit (endFields count size offset) := by
    intro f hf
    simp only [endFields, List.mem_cons, List.not_mem_nil, or_false] at hf
    rcases hf with rfl | rfl | rfl | rfl | rfl | rfl | rfl | rfl
    all_goals first
      | decide
      | assumption
  have hread : readWords? endWidths (endRecord count size offset ++ []) = some
      ([endMark, 0, 0, min count 0xffff, min count 0xffff, size, offset, 0], []) := by
    rw [endRecord_eq]
    exact readWords?_words hfits []
  rw [List.append_nil] at hread
  rw [readEnd, hread]
  rfl

theorem startsWithEnd_endRecord (count size offset : Nat) :
    startsWithEnd (endRecord count size offset) = true := by
  have hprefix : word 4 endMark <+: endRecord count size offset := by
    rw [endRecord_eq, endFields, words_cons]
    exact List.prefix_append _ _
  have hsplit := split?_append (endRecord count size offset) []
  rw [length_endRecord, List.append_nil] at hsplit
  rw [startsWithEnd, List.isPrefixOf_iff_prefix.mpr hprefix, hsplit]
  rfl

theorem lastEnd?_short (h : bytes.length < 22) : lastEnd? found place bytes = found := by
  induction bytes generalizing found place with
  | nil => rfl
  | cons b bytes ih =>
      have hnot : startsWithEnd (b :: bytes) = false := by
        rw [startsWithEnd, split?_eq_none h, Option.isSome_none, Bool.and_false]
      rw [List.length_cons] at h
      rw [lastEnd?, hnot, if_neg Bool.false_ne_true]
      exact ih (by omega)

theorem lastEnd?_append (found : Option (Nat × List UInt8)) (place : Nat)
    (front rest : List UInt8) : ∃ before, lastEnd? found place (front ++ rest) =
      lastEnd? before (place + front.length) rest := by
  induction front generalizing found place with
  | nil => exact ⟨found, rfl⟩
  | cons b front ih =>
      rw [List.cons_append, lastEnd?, List.length_cons, Nat.add_comm front.length, ← Nat.add_assoc]
      exact ih _ _

/-- The record that ends an archive is found, since none begins behind it. -/
theorem findEnd?_endRecord (front : List UInt8) (count size offset : Nat) :
    findEnd? (front ++ endRecord count size offset) =
      some (front.length, endRecord count size offset) := by
  have hlength := length_endRecord count size offset
  have hstarts := startsWithEnd_endRecord count size offset
  have hfirst : (front ++ endRecord count size offset).length - endReach ≤ front.length := by
    rw [List.length_append, hlength, endReach]
    omega
  obtain ⟨before, hbefore⟩ := lastEnd?_append none
    ((front ++ endRecord count size offset).length - endReach)
    (front.drop ((front ++ endRecord count size offset).length - endReach))
    (endRecord count size offset)
  rw [List.length_drop, Nat.add_sub_cancel' hfirst] at hbefore
  simp only [findEnd?, List.drop_append_of_le_length hfirst]
  rw [hbefore]
  cases hrecord : endRecord count size offset with
  | nil =>
      rw [hrecord] at hlength
      cases hlength
  | cons b bs =>
      rw [hrecord] at hlength hstarts
      rw [List.length_cons] at hlength
      rw [lastEnd?, if_pos hstarts]
      exact lastEnd?_short (by omega)

/-- Whether a directory ends in what a reader takes for the locator of a record with wide fields:
    a name may spell its mark. -/
def EndsInLocator (directory : List UInt8) : Prop :=
  word 4 locatorMark <+: directory.drop (directory.length - 20)

instance (directory : List UInt8) : Decidable (EndsInLocator directory) :=
  inferInstanceAs (Decidable (word 4 locatorMark <+: directory.drop (directory.length - 20)))

theorem locator?_eq_none (hlocator : ¬ EndsInLocator directory)
    (hlong : directory.length < 20 → front = []) :
    locator? (front ++ (directory ++ endRecord count size offset)) (writtenEnd count size offset) =
      none := by
  have hlength := length_endRecord count size offset
  simp only [locator?, writtenEnd, Nat.add_zero, List.length_append, hlength]
  split
  · rfl
  · rename_i hreach
    have hdirectory : 20 ≤ directory.length := by
      by_contra hshort
      have hfront := congrArg List.length (hlong (by omega))
      rw [List.length_nil] at hfront
      omega
    have hplace : front.length + (directory.length + 22) - 42 =
        front.length + (directory.length - 20) := by omega
    have hdrop : (front ++ (directory ++ endRecord count size offset)).drop
        (front.length + (directory.length + 22) - 42) =
          directory.drop (directory.length - 20) ++ endRecord count size offset := by
      rw [hplace, ← List.drop_drop, List.drop_left,
        List.drop_append_of_le_length (Nat.sub_le _ _)]
    rw [hdrop]
    split
    · rename_i mark disk place disks _ hread
      obtain ⟨first, more, hns, hfirst, hprefix⟩ := readWords?_first hread
      cases hns
      split
      · rename_i hmark
        exfalso
        apply hlocator
        have hword := word_number first
        rw [hfirst, hmark] at hword
        have hlong : first.length ≤ (directory.drop (directory.length - 20)).length := by
          rw [List.length_drop]
          omega
        rw [EndsInLocator, hword]
        exact List.prefix_of_prefix_length_le hprefix (List.prefix_append _ _) hlong
      · rfl
    · rfl

def wideFields (count size offset : Nat) : List (Nat × Nat) :=
  [(4, wideEndMark), (8, 44), (2, 45), (2, 45), (4, 0), (4, 0), (8, count), (8, count), (8, size),
    (8, offset)]

def locatorFields (place : Nat) : List (Nat × Nat) :=
  [(4, locatorMark), (4, 0), (8, place), (4, 1)]

theorem wideRecords_of_many (h : 0xffff < count) : wideRecords count size offset =
    words (wideFields count size offset) ++ words (locatorFields (offset + size)) := by
  simp only [wideRecords, if_neg (Nat.not_le_of_lt h), wideFields, locatorFields, words,
    List.flatMap_cons, List.flatMap_nil, List.append_assoc, List.append_nil]

theorem wideRecords_of_few (h : count ≤ 0xffff) : wideRecords count size offset = [] := by
  rw [wideRecords, if_pos h]

theorem length_wideFields (count size offset : Nat) :
    (words (wideFields count size offset)).length = 56 := length_words _

theorem length_locatorFields (place : Nat) : (words (locatorFields place)).length = 20 :=
  length_words _

theorem locator?_locatorFields (hplace : place < 2 ^ 64) : locator? (front ++
    (words (locatorFields place) ++ endRecord count size offset)) (writtenEnd count size offset) =
      some (0, place) := by
  have hfits : FieldsFit (locatorFields place) := by
    intro f hf
    simp only [locatorFields, List.mem_cons, List.not_mem_nil, or_false] at hf
    rcases hf with rfl | rfl | rfl | rfl
    all_goals first
      | decide
      | exact hplace
  have hread : readWords? [4, 4, 8, 4]
      (words (locatorFields place) ++ endRecord count size offset) =
        some ([locatorMark, 0, place, 1], endRecord count size offset) :=
    readWords?_words hfits _
  have hlength : (front ++ (words (locatorFields place) ++ endRecord count size offset)).length =
      front.length + 42 := by
    rw [List.length_append, List.length_append, length_locatorFields, length_endRecord]
  simp only [locator?, writtenEnd, Nat.add_zero, hlength]
  rw [if_neg (by omega), Nat.add_sub_cancel, List.drop_left, hread]
  exact if_pos rfl

theorem widePlace_wideFields {left : Nat} (hcount : count < 2 ^ 64) (hsize : size < 2 ^ 64)
    (hoffset : offset < 2 ^ 64) (rest : List UInt8) :
    widePlace 0 (left + 1) (words (wideFields count size offset) ++ rest) =
      .ok ⟨0, offset, count⟩ := by
  have hfits : FieldsFit (wideFields count size offset) := by
    intro f hf
    simp only [wideFields, List.mem_cons, List.not_mem_nil, or_false] at hf
    rcases hf with rfl | rfl | rfl | rfl | rfl | rfl | rfl | rfl | rfl | rfl
    all_goals first
      | decide
      | assumption
  have hread : readWords? [4, 8, 2, 2, 4, 4, 8, 8, 8, 8]
      (words (wideFields count size offset) ++ rest) =
        some ([wideEndMark, 44, 45, 45, 0, 0, count, count, size, offset], rest) :=
    readWords?_words hfits rest
  have hlow : ¬ 0x10000000000000000 ≤ offset := Nat.not_le_of_lt hoffset
  cases hbytes : words (wideFields count size offset) ++ rest with
  | nil =>
      have hlength := congrArg List.length hbytes
      rw [List.length_append, length_wideFields, List.length_nil] at hlength
      omega
  | cons b bs =>
      rw [hbytes] at hread
      rw [widePlace, hread]
      simp only [ne_eq, not_true_eq_false, decide_false, hlow, Bool.or_self, Bool.false_eq_true,
        if_false, if_true, Nat.add_zero]

/-- Either record of the end leads to the directory, behind the bytes of the parts. -/
theorem directoryPlace_written (hlow : front.length + directory.length < 2 ^ 32)
    (hcount : count < 2 ^ 64) (hlocator : count ≤ 0xffff → ¬ EndsInLocator directory)
    (hlong : directory.length < 20 → front = []) :
    directoryPlace (front ++ (directory ++ (wideRecords count directory.length front.length ++
        endRecord count directory.length front.length)))
      (front.length + directory.length + (wideRecords count directory.length front.length).length)
      (writtenEnd count directory.length front.length) = .ok ⟨0, front.length, count⟩ := by
  by_cases hfew : count ≤ 0xffff
  · rw [wideRecords_of_few hfew, List.nil_append, List.length_nil, Nat.add_zero, directoryPlace,
      locator?_eq_none (hlocator hfew) hlong]
    have hplace : ¬ front.length + directory.length < directory.length + front.length := by omega
    simp only [writtenEnd, hplace, if_false, Nat.add_sub_cancel, Nat.sub_self,
      Nat.min_eq_left hfew]
  · have hmany := Nat.lt_of_not_le hfew
    have hdrop : (front ++ (directory ++ (words (wideFields count directory.length front.length) ++
        (words (locatorFields (front.length + directory.length)) ++
          endRecord count directory.length front.length)))).drop
            (front.length + directory.length) =
        words (wideFields count directory.length front.length) ++
          (words (locatorFields (front.length + directory.length)) ++
            endRecord count directory.length front.length) := by
      rw [← List.drop_drop, List.drop_left, List.drop_left]
    have hlocator : locator? (front ++ (directory ++
        (words (wideFields count directory.length front.length) ++
          (words (locatorFields (front.length + directory.length)) ++
            endRecord count directory.length front.length))))
        (writtenEnd count directory.length front.length) =
          some (0, front.length + directory.length) := by
      rw [← List.append_assoc, ← List.append_assoc]
      exact locator?_locatorFields (by omega)
    have hleft : front.length + directory.length + (56 + 20) - 60 + 1 -
        (front.length + directory.length) = 16 + 1 := by omega
    have hfar : ¬ front.length + directory.length + (56 + 20) < 60 := by omega
    rw [wideRecords_of_many hmany, List.append_assoc, List.length_append, length_wideFields,
      length_locatorFields, directoryPlace, hlocator]
    simp only [hdrop, hleft, hfar]
    rw [widePlace_wideFields hcount (by omega) (by omega)]
    simp only [writtenEnd, bne_self_eq_false, Bool.and_false, decide_false, Bool.or_self,
      Bool.false_eq_true, if_false]

theorem length_directoryRecords_ge (offset : Nat) (ks : List Kept) :
    46 * ks.length ≤ (directoryRecords offset ks).length := by
  induction ks generalizing offset with
  | nil => exact Nat.zero_le _
  | cons k ks ih =>
      have hmore := ih (offset + (localHeader k).length + k.bytes.length)
      rw [directoryRecords, List.length_append, length_directoryRecord, List.length_cons]
      omega

/-- The bytes of parts, their directory, and the records of the end. -/
def laidOut (ks : List Kept) : List UInt8 :=
  bodies ks ++ (directoryRecords 0 ks ++
    (wideRecords ks.length (directoryRecords 0 ks).length (bodies ks).length ++
      endRecord ks.length (directoryRecords 0 ks).length (bodies ks).length))

theorem ofBytes_laidOut (hfits : ∀ k ∈ ks, k.Fits)
    (hlength : (bodies ks).length + (directoryRecords 0 ks).length < 2 ^ 32)
    (hplain : ks.length ≤ 0xffff → ¬ EndsInLocator (directoryRecords 0 ks)) (medium : Medium) :
    ∃ es, List.Forall₂ Entry.Lists es ks ∧ ofBytes medium (laidOut ks) = .ok ⟨es⟩ := by
  have hrecords := length_directoryRecords_ge 0 ks
  have hlong : (directoryRecords 0 ks).length < 20 → bodies ks = [] := by
    intro hshort
    have hnone : ks = [] := List.length_eq_zero_iff.mp (by omega)
    rw [hnone]
    rfl
  have hend := findEnd?_endRecord (bodies ks ++ (directoryRecords 0 ks ++
    wideRecords ks.length (directoryRecords 0 ks).length (bodies ks).length)) ks.length
      (directoryRecords 0 ks).length (bodies ks).length
  simp only [List.append_assoc, List.length_append] at hend
  rw [← Nat.add_assoc] at hend
  have hrecord := readEnd_endRecord ks.length
    (show (directoryRecords 0 ks).length < 2 ^ 32 by omega)
    (show (bodies ks).length < 2 ^ 32 by omega)
  have hplace := directoryPlace_written hlength (show ks.length < 2 ^ 64 by omega) hplain hlong
  have hreach : medium.reaches (bodies ks).length = true := by
    cases medium with
    | memory => rfl
    | file =>
        rw [Medium.reaches, decide_eq_true_eq, longestFile]
        omega
  have hat : (laidOut ks).drop 0 = bodies ks ++ (directoryRecords 0 ks ++
      (wideRecords ks.length (directoryRecords 0 ks).length (bodies ks).length ++
        endRecord ks.length (directoryRecords 0 ks).length (bodies ks).length)) := by
    rw [List.drop_zero, laidOut]
  obtain ⟨es, hes, hread⟩ := readEntries_directoryRecords hfits
    (show 0 + (bodies ks).length < 2 ^ 32 by omega) hat
    (wideRecords ks.length (directoryRecords 0 ks).length (bodies ks).length ++
      endRecord ks.length (directoryRecords 0 ks).length (bodies ks).length) []
  have hdirectory : (laidOut ks).drop (bodies ks).length = directoryRecords 0 ks ++
      (wideRecords ks.length (directoryRecords 0 ks).length (bodies ks).length ++
        endRecord ks.length (directoryRecords 0 ks).length (bodies ks).length) := by
    rw [laidOut, List.drop_left]
  rw [← laidOut] at hend hplace
  rw [List.reverse_nil, List.nil_append] at hread
  refine ⟨es, hes, ?_⟩
  rw [ofBytes, hend, Option.elim, openAt, hrecord]
  simp only [bind, Except.bind, disk_writtenEnd, Bool.and_false, hplace, hreach, hdirectory, hread,
    Bool.not_true, Bool.false_eq_true, if_false, pure, Except.pure]

/-- Whether parts have room in an archive: names and sizes fit their fields, and the directory is
    not mistaken for more than it is. -/
structure Fits (parts : List Part) : Prop where
  name_le : ∀ p ∈ parts, (Utf8.encode p.1).length ≤ 0xffff
  length_lt : (write parts).length < 2 ^ 32
  plain : parts.length ≤ 0xffff → ¬ EndsInLocator (directoryRecords 0 (parts.map Kept.ofPart))

instance (parts : List Part) : Decidable (Fits parts) :=
  decidable_of_iff ((∀ p ∈ parts, (Utf8.encode p.1).length ≤ 0xffff) ∧
    (write parts).length < 2 ^ 32 ∧ (parts.length ≤ 0xffff →
      ¬ EndsInLocator (directoryRecords 0 (parts.map Kept.ofPart))))
    ⟨fun h => ⟨h.1, h.2.1, h.2.2⟩, fun h => ⟨h.name_le, h.length_lt, h.plain⟩⟩

theorem write_eq (parts : List Part) : write parts = laidOut (parts.map Kept.ofPart) := by
  simp only [write, laidOut, bodies, List.append_assoc, List.length_map]

theorem length_bytes_le_bodies {k : Kept} (h : k ∈ ks) : k.bytes.length ≤ (bodies ks).length := by
  induction ks with
  | nil => cases h
  | cons k' ks ih =>
      rw [bodies_cons, List.length_append, List.length_append]
      rcases List.mem_cons.mp h with rfl | hmore
      · omega
      · have hle := ih hmore
        omega

theorem Fits.length_bodies_lt (h : Fits parts) : (bodies (parts.map Kept.ofPart)).length +
    (directoryRecords 0 (parts.map Kept.ofPart)).length < 2 ^ 32 := by
  have hlength := h.length_lt
  rw [write_eq, laidOut, List.length_append, List.length_append] at hlength
  omega

theorem Fits.kept (h : Fits parts) : ∀ k ∈ parts.map Kept.ofPart, k.Fits := by
  intro k hk
  have hbytes := length_bytes_le_bodies hk
  have hlength := h.length_bodies_lt
  obtain ⟨p, hp, rfl⟩ := List.mem_map.mp hk
  have hsize : p.2.length ≤ (Kept.ofPart p).bytes.length := length_le_deflate p.2
  exact ⟨h.name_le p hp, checksum_lt p.2, Nat.lt_of_le_of_lt hsize (by omega), by omega⟩

/-- An archive that has been written is opened, from memory and from a file, and has an entry for
    each part in order. -/
theorem Fits.stores (h : Fits parts) (medium : Medium) :
    Stores medium (write parts) parts := by
  have hplain := h.plain
  rw [← List.length_map Kept.ofPart] at hplain
  obtain ⟨es, hes, hopen⟩ := ofBytes_laidOut h.kept h.length_bodies_lt hplain medium
  rw [← write_eq] at hopen
  exact ⟨⟨es⟩, hopen, (List.forall₂_map_right_iff.mp hes).imp fun _ _ he => he.holds⟩

end Tabular.Archive
