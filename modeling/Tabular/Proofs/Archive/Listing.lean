/- What an archive lists of a part that has been written is what the part was. -/
import Tabular.Proofs.Archive.Entry
import Tabular.Proofs.Archive.Inflate
import Tabular.Proofs.Archive.Word
import Tabular.Proofs.Text.Utf8

namespace Tabular.Archive
open Tabular.Text
variable {bytes rest front : List UInt8} {k : Kept} {ks : List Kept} {offset : Nat}

theorem units_of_ascii {c : Char} (h : c.toNat < 0x80) : Utf8.units c = [UInt8.ofNat c.toNat] := by
  simp only [Utf8.units, if_pos h]

theorem codePageChar_of_ascii {c : Char} (h : c.toNat < 0x80) :
    codePageChar (UInt8.ofNat c.toNat) = c := by
  have hnat : (UInt8.ofNat c.toNat).toNat = c.toNat := Utf8.toNat_lead (by omega)
  have hlt : UInt8.ofNat c.toNat < 128 := by
    rw [UInt8.lt_iff_toNat_lt, hnat]
    exact h
  rw [codePageChar, if_pos hlt, hnat, Char.ofNat_toNat]

theorem decodeCodePage_encode {name : String} (h : ∀ c ∈ name.toList, c.toNat < 0x80) :
    decodeCodePage (Utf8.encode name) = name := by
  have hchars : ∀ cs : List Char, (∀ c ∈ cs, c.toNat < 0x80) →
      (cs.flatMap Utf8.units).map codePageChar = cs := by
    intro cs hcs
    induction cs with
    | nil => rfl
    | cons c cs ih =>
        obtain ⟨hc, hmore⟩ := List.forall_mem_cons.mp hcs
        rw [List.flatMap_cons, List.map_append, ih hmore, units_of_ascii hc, List.map_singleton,
          codePageChar_of_ascii hc, List.singleton_append]
  rw [decodeCodePage, Utf8.encode, hchars _ h, String.ofList_toList]

/-- A name is read in the alphabet that it was written in. -/
theorem decodeName_nameFlags (name : String) :
    decodeName (nameFlags name) (Utf8.encode name) = name := by
  rw [decodeName, nameFlags]
  split
  · rename_i hascii
    have hchars : ∀ c ∈ name.toList, c.toNat < 0x80 := by
      simpa only [List.all_eq_true, decide_eq_true_eq] using hascii
    rw [if_pos (Nat.zero_and _), decodeCodePage_encode hchars]
  · rw [if_neg (by decide), Utf8.decode_encode]

theorem nameFlags_cases (name : String) : nameFlags name = 0 ∨ nameFlags name = 0x800 := by
  rw [nameFlags]
  split
  · exact .inl rfl
  · exact .inr rfl

/-- Whether the fields of a part have room in its records. -/
structure Kept.Fits (k : Kept) : Prop where
  name_le : (Utf8.encode k.name).length ≤ 0xffff
  checksum_lt : k.checksum < 2 ^ 32
  size_lt : k.size < 2 ^ 32
  packed_lt : k.bytes.length < 2 ^ 32

/-- The fields that both records of a part share, but for the lengths of what follows them. -/
def Kept.fields (k : Kept) : List (Nat × Nat) :=
  [(2, 20), (2, nameFlags k.name), (2, 8), (2, 0), (2, 0x21), (4, k.checksum),
    (4, k.bytes.length), (4, k.size)]

/-- The lengths of the name and of the extra fields. -/
def Kept.lengths (k : Kept) : List (Nat × Nat) := [(2, (Utf8.encode k.name).length), (2, 0)]

theorem sharedFields_eq (k : Kept) : sharedFields k = words k.fields ++ words k.lengths := by
  simp only [sharedFields, Kept.fields, Kept.lengths, words, List.flatMap_cons, List.flatMap_nil,
    List.append_assoc, List.append_nil]

theorem Kept.Fits.fields_fit (h : k.Fits) : FieldsFit k.fields := by
  have hflags : nameFlags k.name < 256 ^ 2 := by
    rcases nameFlags_cases k.name with h | h <;> rw [h] <;> decide
  obtain ⟨_, hchecksum, hsize, hpacked⟩ := h
  intro f hf
  simp only [Kept.fields, List.mem_cons, List.not_mem_nil, or_false] at hf
  rcases hf with rfl | rfl | rfl | rfl | rfl | rfl | rfl | rfl
  all_goals first
    | decide
    | assumption

theorem Kept.Fits.lengths_fit (h : k.Fits) : FieldsFit k.lengths := by
  have hname := h.name_le
  intro f hf
  simp only [Kept.lengths, List.mem_cons, List.not_mem_nil, or_false] at hf
  rcases hf with rfl | rfl
  · dsimp only
    omega
  · decide

theorem localHeader_eq (k : Kept) : localHeader k =
    word 4 localMark ++ (words k.fields ++ (words k.lengths ++ Utf8.encode k.name)) := by
  rw [localHeader, sharedFields_eq]
  simp only [List.append_assoc]

/-- Behind the record of a part in front of its bytes are its bytes. -/
theorem locate_localHeader (h : k.Fits) (hat : bytes.drop offset = localHeader k ++ rest) :
    locate bytes offset = .ok rest := by
  have hmark := @readWords?_word 4 localMark (by decide)
  have hfields : (words k.fields).length = 22 := length_words k.fields
  have hlengths : readWords? [2, 2] (words k.lengths ++ (Utf8.encode k.name ++ rest)) =
      some ([(Utf8.encode k.name).length, 0], Utf8.encode k.name ++ rest) :=
    readWords?_words h.lengths_fit _
  rw [locate, hat, localHeader_eq]
  simp only [List.append_assoc, hmark, ne_eq, not_true_eq_false, if_false]
  rw [List.drop_left' hfields, hlengths]
  simp only [Nat.add_zero, List.drop_left]

/-- The fields of the record in the directory, but for those at its end. -/
def Kept.listingFields (k : Kept) (offset : Nat) : List (Nat × Nat) :=
  (2, 0x314) :: (k.fields ++ (k.lengths ++ [(2, 0), (2, 0), (2, 0), (4, 0x81a40000), (4, offset)]))

theorem words_listingFields (k : Kept) (offset : Nat) : words (k.listingFields offset) =
    word 2 0x314 ++ (words k.fields ++ (words k.lengths ++ (word 2 0 ++ (word 2 0 ++
      (word 2 0 ++ (word 4 0x81a40000 ++ word 4 offset)))))) := by
  simp only [Kept.listingFields, words, List.flatMap_cons, List.flatMap_nil, List.flatMap_append,
    List.append_nil]

theorem directoryRecord_eq (offset : Nat) (k : Kept) : directoryRecord offset k =
    word 4 directoryMark ++ (words (k.listingFields offset) ++ Utf8.encode k.name) := by
  rw [directoryRecord, sharedFields_eq, words_listingFields]
  simp only [List.append_assoc]

theorem length_directoryRecord (offset : Nat) (k : Kept) :
    (directoryRecord offset k).length = 46 + (Utf8.encode k.name).length := by
  rw [directoryRecord_eq]
  simp only [List.length_append, length_word, length_words, Kept.listingFields, Kept.fields,
    Kept.lengths, List.map_cons, List.map_nil, List.map_append, List.sum_cons, List.sum_nil,
    List.sum_append]
  omega

theorem Kept.Fits.listingFields_fit (h : k.Fits) (hoffset : offset < 2 ^ 32) :
    FieldsFit (k.listingFields offset) := by
  intro f hf
  simp only [Kept.listingFields, List.mem_cons, List.mem_append, List.not_mem_nil,
    or_false] at hf
  rcases hf with rfl | hf | hf | rfl | rfl | rfl | rfl | rfl
  · decide
  · exact h.fields_fit f hf
  · exact h.lengths_fit f hf
  all_goals first
    | decide
    | exact hoffset

/-- What the directory says of a part. -/
def Kept.listing (k : Kept) (offset : Nat) : Listing where
  flags := nameFlags k.name
  method := 8
  checksum := k.checksum
  packed := k.bytes.length
  size := k.size
  offset := offset
  sealed := false

theorem readListing?_record (h : k.Fits) (hoffset : offset < 2 ^ 32) (rest : List UInt8) :
    readListing? (words (k.listingFields offset) ++ (Utf8.encode k.name ++ rest)) =
      some (k.listing offset, Utf8.encode k.name, [], rest) := by
  have hread := readWords?_words (h.listingFields_fit hoffset) (Utf8.encode k.name ++ rest)
  have hname := split?_append (Utf8.encode k.name) rest
  have hempty := split?_append [] rest
  simp only [Kept.listingFields, Kept.fields, Kept.lengths, List.map_cons, List.map_nil,
    List.cons_append, List.nil_append] at hread
  rw [List.length_nil, List.nil_append] at hempty
  simp only [readListing?, Kept.listingFields, Kept.fields, Kept.lengths, List.cons_append,
    List.nil_append, hread, bind, Option.bind, hname, hempty, pure, Kept.listing]

/-- An entry that lists a part as it was written, its bytes in front of others. -/
structure Entry.Lists (e : Entry) (k : Kept) : Prop where
  name : e.name = k.name
  size : e.size = k.size
  packed : e.packed = k.bytes.length
  checksum : e.checksum = k.checksum
  method : e.method = .deflated
  encrypted : e.encrypted = false
  body : ∃ rest, e.body = .ok (k.bytes ++ rest)

theorem lists_entry_listing (h : k.Fits)
    (hat : bytes.drop offset = localHeader k ++ (k.bytes ++ rest)) :
    ((k.listing offset).entry bytes 0 (Utf8.encode k.name)).Lists k where
  name := decodeName_nameFlags k.name
  size := rfl
  packed := rfl
  checksum := rfl
  method := rfl
  encrypted := by
    rcases nameFlags_cases k.name with h | h <;>
      simp only [Listing.entry, Kept.listing, h] <;> rfl
  body := ⟨rest, locate_localHeader h hat⟩

theorem checksum_lt (bytes : List UInt8) : checksum bytes < 2 ^ 32 := UInt32.toNat_lt _

theorem Entry.Lists.holds {e : Entry} {p : Part} (h : e.Lists (Kept.ofPart p)) : e.Holds p := by
  obtain ⟨rest, hbody⟩ := h.body
  have hpacked : e.packed = (deflate p.2).length := h.packed
  have hchecksum : e.checksum = Archive.checksum p.2 := h.checksum
  have hopen : e.open = .ok (deflate p.2) := by
    rw [Entry.open, h.encrypted, hbody, h.method, hpacked]
    exact congrArg Except.ok List.take_left
  have hcontent : e.content (deflate p.2) = .ok p.2 := by
    rw [Entry.content, h.method, Method.unpack, inflate_deflate, hchecksum]
    simp only [Except.mapError, bind, Except.bind, if_true, pure, Except.pure]
  exact ⟨⟨h.name, _, hopen, hcontent⟩, h.size⟩

/-- The records of parts with their bytes, in front of the directory. -/
def bodies (ks : List Kept) : List UInt8 := ks.flatMap fun k => localHeader k ++ k.bytes

theorem bodies_cons (k : Kept) (ks : List Kept) :
    bodies (k :: ks) = localHeader k ++ (k.bytes ++ bodies ks) := by
  rw [bodies, List.flatMap_cons, List.append_assoc, bodies]

/-- The directory of parts lists each of them, wherever in the archive the first one begins. -/
theorem readEntries_directoryRecords (hfits : ∀ k ∈ ks, k.Fits)
    (hoffset : offset + (bodies ks).length < 2 ^ 32) (hat : bytes.drop offset = bodies ks ++ rest)
    (after : List UInt8) (before : List Entry) :
    ∃ es, List.Forall₂ Entry.Lists es ks ∧
      readEntries bytes 0 ks.length (directoryRecords offset ks ++ after) before =
        .ok (before.reverse ++ es) := by
  induction ks generalizing offset before with
  | nil => exact ⟨[], .nil, by rw [List.length_nil, readEntries, List.append_nil]⟩
  | cons k ks ih =>
      obtain ⟨hk, hks⟩ := List.forall_mem_cons.mp hfits
      rw [bodies_cons, List.append_assoc, List.append_assoc] at hat
      rw [bodies_cons, List.length_append, List.length_append] at hoffset
      have hnext : bytes.drop (offset + (localHeader k).length + k.bytes.length) =
          bodies ks ++ rest := by
        rw [Nat.add_assoc, ← List.drop_drop, hat, ← List.append_assoc]
        exact List.drop_left' List.length_append
      have hentry := lists_entry_listing hk hat
      obtain ⟨es, hes, hread⟩ := ih hks (by omega) hnext
        ((k.listing offset).entry bytes 0 (Utf8.encode k.name) :: before)
      have hmark := @readWords?_word 4 directoryMark (by decide)
      have hlisting := readListing?_record hk (show offset < 2 ^ 32 by omega)
        (directoryRecords (offset + (localHeader k).length + k.bytes.length) ks ++ after)
      have hmethod : ¬ (k.listing offset).method = cipherMethod := by
        dsimp only [Kept.listing, cipherMethod]
        decide
      have hlow : ¬ 0x10000000000000000 ≤ (k.listing offset).offset + 0 := by
        dsimp only [Kept.listing]
        omega
      refine ⟨_, hes.cons hentry, ?_⟩
      rw [directoryRecords, directoryRecord_eq, List.length_cons, readEntries]
      simp only [List.append_assoc, hmark, ne_eq, not_true_eq_false, if_false, hlisting,
        List.length_nil, Listing.extend, hmethod, decide_false, Bool.false_and, hlow, Bool.or_self,
        Bool.false_eq_true, hread, List.reverse_cons, List.cons_append, List.nil_append]

end Tabular.Archive
