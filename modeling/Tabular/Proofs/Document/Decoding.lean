/- Which bytes hold a text, and why others are refused. -/
import Tabular.Proofs.Codec

namespace Tabular.Document
open Tabular.Text
variable {bytes : List UInt8} {text : String}

/-- That bytes hold a text: they are its units behind a byte-order mark, or its units alone when
    the text does not begin with the character that the mark is. -/
inductive Encodes : List UInt8 → String → Prop where
  | marked (text : String) : Encodes (byteOrderMark ++ Utf16.encode text) text
  | plain {text : String} :
      text.toList.head? ≠ some '\ufeff' → Encodes (Utf16.encode text) text

theorem encodes_iff : Encodes bytes text ↔ Utf16.dropMark bytes = Utf16.encode text := by
  constructor
  · rintro (_ | hhead)
    · rfl
    · exact Utf16.dropMark_encode hhead
  · intro h
    rcases Utf16.dropMark_cases bytes with ⟨rest, rfl, hrest⟩ | ⟨hbytes, hwhole⟩
    · rw [hrest] at h
      exact h ▸ .marked text
    · rw [hwhole] at h
      refine h ▸ .plain fun hhead => ?_
      obtain ⟨rest, hrest⟩ := Utf16.encode_of_mark hhead
      exact hbytes rest (h.trans hrest)

/-- A mark takes up two bytes. -/
theorem length_dropMark_mod (bytes : List UInt8) :
    (Utf16.dropMark bytes).length % 2 = bytes.length % 2 := by
  rcases Utf16.dropMark_cases bytes with ⟨rest, rfl, hrest⟩ | ⟨_, hwhole⟩
  · rw [hrest, List.length_cons, List.length_cons]
    omega
  · rw [hwhole]

theorem decodeText_eq_ok : decodeText bytes = .ok text ↔ Encodes bytes text := by
  rw [encodes_iff, ← Utf16.decodeUnits?_eq_some, decodeText]
  constructor
  · intro h
    split at h
    · cases h
    · split at h
      · rename_i cs hcs
        cases h
        rw [hcs, String.toList_ofList]
      · cases h
  · intro h
    have heven := Utf16.even_length_encode text
    rw [← Utf16.decodeUnits?_eq_some.mp h] at heven
    simp only [heven, Nat.zero_ne_one, if_false, h, String.ofList_toList]

theorem decodeText_eq_error {fault : EncodingFault} (h : decodeText bytes = .error fault) :
    fault = if bytes.length % 2 = 1 then .oddLength bytes.length else .invalidText := by
  rw [decodeText, length_dropMark_mod] at h
  split at h
  · rename_i hodd
    cases h
    rw [if_pos hodd]
  · rename_i heven
    rw [if_neg heven]
    split at h
    · cases h
    · cases h
      rfl

/-- Just the encodings of a text are read, and as that text. All other bytes are refused: for their
    length, which the fault names in full, when it is odd, and for their units otherwise. -/
theorem decodeText_reads_encodings (bytes : List UInt8) :
    (∀ text, decodeText bytes = .ok text ↔ Encodes bytes text) ∧
      ∀ fault, decodeText bytes = .error fault ↔ (∀ text, ¬ Encodes bytes text) ∧
        fault = if bytes.length % 2 = 1 then .oddLength bytes.length else .invalidText := by
  refine ⟨fun _ => decodeText_eq_ok, fun fault => ⟨fun h => ⟨fun text htext => ?_, ?_⟩, ?_⟩⟩
  · exact nomatch h.symm.trans (decodeText_eq_ok.mpr htext)
  · exact decodeText_eq_error h
  · rintro ⟨hnone, rfl⟩
    cases hdecode : decodeText bytes with
    | ok text => exact absurd (decodeText_eq_ok.mp hdecode) (hnone text)
    | error fault => rw [decodeText_eq_error hdecode]

/-- A mark may stand for itself behind another; half of a pair stands for nothing. -/
example : decodeText [0xff, 0xfe, 0xff, 0xfe] = .ok "\ufeff" ∧
    decodeText [0x00, 0xdc, 0x00, 0xd8] = .error .invalidText := by decide

end Tabular.Document
