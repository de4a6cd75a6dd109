/- Documents that have been written as bytes are read back. -/
import Mathlib
import Tabular.Document.Encoding
import Tabular.Proofs.Json.Consumption
import Tabular.Proofs.Json.ReadBack
import Tabular.Proofs.Text.Utf16

namespace Tabular.Document
open Tabular.Json Tabular.Text
variable {v : Value}

/-- The bytes in front of a text that tell their order. -/
def byteOrderMark : List UInt8 := [0xff, 0xfe]

theorem decodeText_encode {text : String} (h : text.toList.head? ≠ some '\ufeff')
    {mark : List UInt8} (hmark : mark = [] ∨ mark = byteOrderMark) :
    decodeText (mark ++ Utf16.encode text) = .ok text := by
  have hbody : Utf16.dropMark (mark ++ Utf16.encode text) = Utf16.encode text := by
    rcases hmark with rfl | rfl
    · exact Utf16.dropMark_encode h
    · rfl
  have heven := Utf16.even_length_encode text
  rw [decodeText, hbody]
  simp only [heven, Nat.zero_ne_one, if_false, Utf16.decodeUnits?_encode, List.reverse_nil,
    List.nil_append, String.ofList_toList]

theorem dropMark_of_ne {cs : List Char} (h : cs.head? ≠ some '\ufeff') : dropMark cs = cs := by
  cases cs with
  | nil => rfl
  | cons c cs =>
      rw [dropMark]
      rintro _ heq
      cases heq
      exact h rfl

/-- The white space that a style writes. -/
def Style.spacing : Style → Spacing
  | .pretty => .lines
  | .compact => .none

theorem writeJson_eq (style : Style) (v : Value) :
    writeJson style v = Utf16.encode (String.ofList (v.spaced style.spacing 0)) := by
  cases style with
  | pretty => rw [writeJson, Value.prettyText, Value.pretty_eq, Style.spacing]
  | compact => rw [writeJson, Value.text, Value.compact_eq 0, Style.spacing]

theorem readJson_eq (v : Value) (style : Style) {mark : List UInt8}
    (hmark : mark = [] ∨ mark = byteOrderMark) : readJson (mark ++ writeJson style v) =
      (Value.ofChars (v.spaced style.spacing 0)).mapError .invalidJson := by
  have hhead : (v.spaced style.spacing 0).head? ≠ some '\ufeff' := by
    obtain ⟨c, cs, hcons, hc⟩ := v.spaced_eq_cons style.spacing 0
    rw [hcons, List.head?_cons]
    intro heq
    exact not_opensValue hc (by decide) (Option.some.inj heq)
  have hdecode : decodeText (mark ++ writeJson style v) =
      .ok (String.ofList (v.spaced style.spacing 0)) := by
    rw [writeJson_eq]
    apply decodeText_encode _ hmark
    rwa [String.toList_ofList]
  rw [readJson, hdecode]
  simp only [String.toList_ofList, dropMark_of_ne hhead]

theorem readJson_mark (v : Value) (style : Style) {mark : List UInt8}
    (hmark : mark = [] ∨ mark = byteOrderMark) :
    readJson (mark ++ writeJson style v) = readJson (writeJson style v) := by
  have hplain := readJson_eq v style (.inl rfl)
  rw [List.nil_append] at hplain
  rw [readJson_eq v style hmark, hplain]

theorem readJson_of_nesting_le (hkeyed : v.Keyed) (hv : v.Integral) (hle : v.nesting ≤ nestingLimit)
    (style : Style) : readJson (writeJson style v) = .ok v := by
  have hread := readJson_eq v style (.inl rfl)
  rwa [List.nil_append, (Value.ofChars_spaced hkeyed hv style.spacing 0).1 hle] at hread

theorem readJson_of_deep (hkeyed : v.Keyed) (hv : v.Integral) (hlt : nestingLimit < v.nesting)
    (style : Style) :
    ∃ fault, readJson (writeJson style v) = .error (.invalidJson fault) ∧
      fault.cause = .tooDeep := by
  obtain ⟨fault, hfault, hcause⟩ := (Value.ofChars_spaced hkeyed hv style.spacing 0).2 hlt
  have hread := readJson_eq v style (.inl rfl)
  rw [List.nil_append, hfault] at hread
  exact ⟨fault, hread, hcause⟩

theorem ofChars_of_readJson {bytes : List UInt8} (h : readJson bytes = .ok v) :
    ∃ cs, Value.ofChars cs = .ok v := by
  rw [readJson] at h
  split at h
  · cases h
  · rename_i text _
    cases hread : Value.ofChars (dropMark text.toList) with
    | error fault =>
        rw [hread] at h
        cases h
    | ok w =>
        rw [hread] at h
        cases h
        exact ⟨_, hread⟩

theorem keyed_of_readJson {bytes : List UInt8} (h : readJson bytes = .ok v) : v.Keyed := by
  obtain ⟨cs, hread⟩ := ofChars_of_readJson h
  exact Value.keyed_ofChars hread

theorem nesting_le_of_readJson {bytes : List UInt8} (h : readJson bytes = .ok v) :
    v.nesting ≤ nestingLimit := by
  obtain ⟨cs, hread⟩ := ofChars_of_readJson h
  exact nesting_le_of_ofChars hread

/-- A document that is written in either style, with a byte-order mark or without, is read as it
    was, with its keys in their order, exactly when it does not nest too deep; otherwise reading
    fails because it does. -/
theorem readJson_writeJson (d : Json.Document) (hd : d.value.Integral) (style : Style)
    {mark : List UInt8} (hmark : mark = [] ∨ mark = byteOrderMark) :
    (readJson (mark ++ writeJson style d.value) = .ok d.value ↔ d.value.nesting ≤ 127) ∧
      (¬ d.value.nesting ≤ 127 → ∃ fault,
        readJson (mark ++ writeJson style d.value) = .error (.invalidJson fault) ∧
          fault.cause = .tooDeep) := by
  have hdeep := fun hlt => readJson_of_deep d.keyed hd (Nat.lt_of_not_le hlt) style
  rw [readJson_mark d.value style hmark]
  refine ⟨⟨?_, fun hle => readJson_of_nesting_le d.keyed hd hle style⟩, hdeep⟩
  intro hread
  by_contra hlt
  obtain ⟨fault, hfault, _⟩ := hdeep hlt
  rw [hfault] at hread
  cases hread

/-- A document with escapes, a character outside the basic plane and the least integer. -/
def escapedDocument : Json.Document where
  value := .obj
    [("say \"hi\"\n", .arr [.ofInt (-2 ^ 63), .str "\x01\\😀", .bool true]),
      ("a", .obj [("b", .null), ("a", .arr [])])]
  keyed := by decide

/-- Lists inside one another. -/
def nestedLists : Nat → Value
  | 0 => .arr []
  | n + 1 => .arr [nestedLists n]

theorem nesting_nestedLists (n : Nat) : (nestedLists n).nesting = n + 1 := by
  induction n with
  | zero => rfl
  | succ n ih =>
    rw [nestedLists, Value.nesting, Value.nestingItems, ih, Value.nestingItems, Nat.max_zero]

theorem keyed_nestedLists (n : Nat) : (nestedLists n).Keyed := by
  induction n with
  | zero => trivial
  | succ n ih => exact ⟨ih, trivial⟩

theorem integral_nestedLists (n : Nat) : (nestedLists n).Integral := by
  induction n with
  | zero => trivial
  | succ n ih => exact ⟨ih, trivial⟩

theorem readJson_writeJson_escapedDocument :
    readJson (byteOrderMark ++ writeJson .pretty escapedDocument.value) =
        .ok escapedDocument.value ∧
      ∃ fault, readJson ([] ++ writeJson .compact (nestedLists 127)) =
        .error (.invalidJson fault) ∧ fault.cause = .tooDeep := by
  have hescaped : escapedDocument.value.Integral := by cbv
  have hdeep : ¬ (nestedLists 127).nesting ≤ 127 := by
    rw [nesting_nestedLists]
    decide
  exact ⟨(readJson_writeJson escapedDocument hescaped .pretty (.inr rfl)).1.mpr (by decide),
    (readJson_writeJson ⟨_, keyed_nestedLists 127⟩ (integral_nestedLists 127) .compact
      (.inl rfl)).2 hdeep⟩

end Tabular.Document
