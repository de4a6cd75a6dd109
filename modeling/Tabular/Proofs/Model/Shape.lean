/- Shapes of documents: which values fit one, and where and how others violate it. -/
import Tabular.Model.Field
import Tabular.Proofs.Json.Members

namespace Tabular.Model
open Tabular.Json

inductive Presence where
  | required
  | optional

/-- The shape of a value. Of an object, a shape says what some of its fields hold. -/
inductive Shape where
  | text
  | flag
  /-- A text, or a list of its lines. -/
  | formula
  | list (item : Shape)
  | record (fields : List (String × Presence × Shape))

mutual

/-- Whether a value has a shape. -/
def Shape.Fits : Shape → Value → Prop
  | .text, v => ∃ text, v = .str text
  | .flag, v => ∃ b, v = .bool b
  | .formula, v => (∃ text, v = .str text) ∨
      ∃ lines, v = .arr lines ∧ ∀ line ∈ lines, ∃ text, line = .str text
  | .list item, v => ∃ items, v = .arr items ∧ ∀ v ∈ items, item.Fits v
  | .record fields, v => ∃ ms, v = .obj ms ∧ Shape.FieldsFit fields ms

/-- Whether fields have their shapes; one that is optional may be missing or null. -/
def Shape.FieldsFit : List (String × Presence × Shape) → Members → Prop
  | [], _ => True
  | (key, .required, shape) :: fields, ms => shape.Fits (ms.read key) ∧ Shape.FieldsFit fields ms
  | (key, .optional, shape) :: fields, ms =>
    (ms.read key = .null ∨ shape.Fits (ms.read key)) ∧ Shape.FieldsFit fields ms

end

/-- A step from a value to one in it. -/
inductive PathStep where
  | key (name : String)
  | item (i : Nat)

abbrev Place := List PathStep

def missingReason : String := "required field is missing"

def kindReason (wanted : String) (v : Value) : String :=
  "expected " ++ wanted ++ ", found " ++ v.kind

/-- That at a place in a value a shape is violated, and in what way. A field is violated when it is
    required and missing or null, or when it is there and its value violates its shape. -/
inductive Shape.Violated : Shape → Value → Place → String → Prop where
  | text {v : Value} : (∀ text, v ≠ .str text) →
      Shape.Violated .text v [] (kindReason "a string" v)
  | flag {v : Value} : (∀ b, v ≠ .bool b) → Shape.Violated .flag v [] (kindReason "a boolean" v)
  | formula {v : Value} : (∀ text, v ≠ .str text) → (∀ lines, v ≠ .arr lines) →
      Shape.Violated .formula v [] (kindReason "a string or lines" v)
  | line {lines : List Value} {i : Nat} {line : Value} {place : Place} {reason : String} :
      lines[i]? = some line → Shape.Violated .text line place reason →
      Shape.Violated .formula (.arr lines) (.item i :: place) reason
  | list {item : Shape} {v : Value} : (∀ items, v ≠ .arr items) →
      Shape.Violated (.list item) v [] (kindReason "an array" v)
  | item {item : Shape} {items : List Value} {i : Nat} {v : Value} {place : Place}
      {reason : String} : items[i]? = some v → Shape.Violated item v place reason →
      Shape.Violated (.list item) (.arr items) (.item i :: place) reason
  | record {fields : List (String × Presence × Shape)} {v : Value} : (∀ ms, v ≠ .obj ms) →
      Shape.Violated (.record fields) v [] (kindReason "an object" v)
  | missing {fields : List (String × Presence × Shape)} {key : String} {shape : Shape}
      {ms : Members} : (key, .required, shape) ∈ fields → ms.read key = .null →
      Shape.Violated (.record fields) (.obj ms) [.key key] missingReason
  | field {fields : List (String × Presence × Shape)} {key : String} {presence : Presence}
      {shape : Shape} {ms : Members} {place : Place} {reason : String} :
      (key, presence, shape) ∈ fields → ms.read key ≠ .null →
      Shape.Violated shape (ms.read key) place reason →
      Shape.Violated (.record fields) (.obj ms) (.key key :: place) reason

structure Violation where
  place : Place
  reason : String

def Violation.under (step : PathStep) (violation : Violation) : Violation :=
  ⟨step :: violation.place, violation.reason⟩

/-- The violations in the elements of a list. -/
def inItems (check : Value → List Violation) (items : List Value) : List Violation :=
  (items.mapIdx fun i v => (check v).map (Violation.under (.item i))).flatten

/-- The violations in a field. -/
def inField (key : String) (presence : Presence) (check : Value → List Violation) (v : Value) :
    List Violation :=
  match v, presence with
  | .null, .required => [⟨[.key key], missingReason⟩]
  | .null, .optional => []
  | v, _ => (check v).map (Violation.under (.key key))

def textViolations : Value → List Violation
  | .str _ => []
  | v => [⟨[], kindReason "a string" v⟩]

mutual

/-- The violations of a shape in a value, in the order in which they are looked for. -/
def Shape.violations : Shape → Value → List Violation
  | .text, v => textViolations v
  | .flag, v =>
    match v with
    | .bool _ => []
    | v => [⟨[], kindReason "a boolean" v⟩]
  | .formula, v =>
    match v with
    | .str _ => []
    | .arr lines => inItems textViolations lines
    | v => [⟨[], kindReason "a string or lines" v⟩]
  | .list item, v =>
    match v with
    | .arr items => inItems (fun v => item.violations v) items
    | v => [⟨[], kindReason "an array" v⟩]
  | .record fields, v =>
    match v with
    | .obj ms => Shape.fieldViolations fields ms
    | v => [⟨[], kindReason "an object" v⟩]

def Shape.fieldViolations : List (String × Presence × Shape) → Members → List Violation
  | [], _ => []
  | (key, presence, shape) :: fields, ms =>
    inField key presence (fun v => shape.violations v) (ms.read key) ++
      Shape.fieldViolations fields ms

end

variable {check : Value → List Violation} {items : List Value} {key : String} {v : Value}
  {x : Violation}

theorem mem_inItems : x ∈ inItems check items ↔
    ∃ i w y, items[i]? = some w ∧ y ∈ check w ∧ x = y.under (.item i) := by
  simp only [inItems, List.mem_flatten, List.mem_mapIdx]
  constructor
  · rintro ⟨_, ⟨i, hi, rfl⟩, hx⟩
    obtain ⟨y, hy, rfl⟩ := List.mem_map.mp hx
    exact ⟨i, items[i], y, List.getElem?_eq_getElem hi, hy, rfl⟩
  · rintro ⟨i, w, y, hw, hy, rfl⟩
    obtain ⟨hi, rfl⟩ := List.getElem?_eq_some_iff.mp hw
    exact ⟨_, ⟨i, hi, rfl⟩, List.mem_map_of_mem hy⟩

theorem inItems_eq_nil : inItems check items = [] ↔ ∀ w ∈ items, check w = [] := by
  simp only [inItems, List.flatten_eq_nil_iff, List.mem_mapIdx, forall_exists_index]
  constructor
  · intro h w hw
    obtain ⟨i, hi, rfl⟩ := List.mem_iff_getElem.mp hw
    exact List.map_eq_nil_iff.mp (h _ i hi rfl)
  · rintro h _ i hi rfl
    rw [h _ (List.getElem_mem hi), List.map_nil]

theorem inField_of_ne_null (h : v ≠ .null) (presence : Presence) :
    inField key presence check v = (check v).map (Violation.under (.key key)) := by
  cases v with
  | null => exact absurd rfl h
  | _ => cases presence <;> rfl

theorem mem_inField {presence : Presence} : x ∈ inField key presence check v ↔
    (v = .null ∧ presence = .required ∧ x = ⟨[.key key], missingReason⟩) ∨
      v ≠ .null ∧ ∃ y ∈ check v, x = y.under (.key key) := by
  by_cases h : v = .null
  · subst h
    cases presence <;> simp [inField]
  · rw [inField_of_ne_null h, List.mem_map]
    simp [h, eq_comm]

theorem inField_required_eq_nil :
    inField key .required check v = [] ↔ v ≠ .null ∧ check v = [] := by
  by_cases h : v = .null
  · subst h
    simp [inField]
  · rw [inField_of_ne_null h, List.map_eq_nil_iff]
    simp [h]

theorem inField_optional_eq_nil :
    inField key .optional check v = [] ↔ v = .null ∨ check v = [] := by
  by_cases h : v = .null
  · subst h
    simp [inField]
  · rw [inField_of_ne_null h, List.map_eq_nil_iff]
    simp [h]

theorem textViolations_eq_nil : textViolations v = [] ↔ ∃ text, v = .str text := by
  cases v <;> simp [textViolations]

theorem mem_textViolations : x ∈ textViolations v ↔
    (∀ text, v ≠ .str text) ∧ x = ⟨[], kindReason "a string" v⟩ := by
  cases v <;> simp [textViolations]

theorem Shape.not_fits_null (shape : Shape) : ¬ shape.Fits .null := by
  cases shape <;> simp [Shape.Fits]

mutual

/-- A value has a shape when there is no violation in it. -/
theorem Shape.fits_iff : ∀ (shape : Shape) (v : Value), shape.Fits v ↔ shape.violations v = []
  | .text, v => by rw [Shape.Fits, Shape.violations, textViolations_eq_nil]
  | .flag, v => by cases v <;> simp [Shape.Fits, Shape.violations]
  | .formula, v => by
    cases v <;> simp [Shape.Fits, Shape.violations, inItems_eq_nil, textViolations_eq_nil]
  | .list item, v => by
    cases v <;> simp [Shape.Fits, Shape.violations, inItems_eq_nil, Shape.fits_iff item]
  | .record fields, v => by
    cases v <;> simp [Shape.Fits, Shape.violations, Shape.fieldsFit_iff fields]

theorem Shape.fieldsFit_iff : ∀ (fields : List (String × Presence × Shape)) (ms : Members),
    Shape.FieldsFit fields ms ↔ Shape.fieldViolations fields ms = []
  | [], ms => by simp [Shape.FieldsFit, Shape.fieldViolations]
  | (key, .required, shape) :: fields, ms => by
    have hfield : shape.Fits (ms.read key) ↔
        ms.read key ≠ .null ∧ shape.violations (ms.read key) = [] := by
      rw [← Shape.fits_iff shape]
      exact ⟨fun h => ⟨fun hnull => shape.not_fits_null (hnull ▸ h), h⟩, And.right⟩
    rw [Shape.FieldsFit, Shape.fieldViolations, List.append_eq_nil_iff, inField_required_eq_nil,
      hfield, Shape.fieldsFit_iff fields]
  | (key, .optional, shape) :: fields, ms => by
    rw [Shape.FieldsFit, Shape.fieldViolations, List.append_eq_nil_iff, inField_optional_eq_nil,
      Shape.fits_iff shape, Shape.fieldsFit_iff fields]

end

theorem Shape.mem_fieldViolations {fields : List (String × Presence × Shape)} {ms : Members} :
    x ∈ Shape.fieldViolations fields ms ↔ ∃ key presence shape, (key, presence, shape) ∈ fields ∧
      x ∈ inField key presence shape.violations (ms.read key) := by
  induction fields with
  | nil => simp [Shape.fieldViolations]
  | cons field fields ih =>
      obtain ⟨key, presence, shape⟩ := field
      rw [Shape.fieldViolations, List.mem_append, ih]
      constructor
      · rintro (h | ⟨key', presence', shape', hmem, h⟩)
        · exact ⟨key, presence, shape, List.mem_cons_self, h⟩
        · exact ⟨key', presence', shape', List.mem_cons_of_mem _ hmem, h⟩
      · rintro ⟨key', presence', shape', hmem, h⟩
        rcases List.mem_cons.mp hmem with heq | hmem
        · cases heq
          exact Or.inl h
        · exact Or.inr ⟨key', presence', shape', hmem, h⟩

/-- What is said to be violated is among the violations that are looked for. -/
theorem Shape.Violated.mem {shape : Shape} {place : Place} {reason : String}
    (h : shape.Violated v place reason) : ⟨place, reason⟩ ∈ shape.violations v := by
  induction h with
  | text hv => exact mem_textViolations.mpr ⟨hv, rfl⟩
  | @flag v hv => cases v <;> simp_all [Shape.violations]
  | @formula v htext hlines => cases v <;> simp_all [Shape.violations]
  | line hline _ ih =>
      simp only [Shape.violations] at ih ⊢
      exact mem_inItems.mpr ⟨_, _, _, hline, ih, rfl⟩
  | @list item v hv => cases v <;> simp_all [Shape.violations]
  | item hitem _ ih =>
      rw [Shape.violations]
      exact mem_inItems.mpr ⟨_, _, _, hitem, ih, rfl⟩
  | @record fields v hv => cases v <;> simp_all [Shape.violations]
  | missing hmem hnull =>
      rw [Shape.violations, Shape.mem_fieldViolations]
      exact ⟨_, _, _, hmem, mem_inField.mpr (Or.inl ⟨hnull, rfl, rfl⟩)⟩
  | field hmem hread _ ih =>
      rw [Shape.violations, Shape.mem_fieldViolations]
      exact ⟨_, _, _, hmem, mem_inField.mpr (Or.inr ⟨hread, _, ih, rfl⟩)⟩

/-- What violates a shape does not have it. -/
theorem Shape.Violated.not_fits {shape : Shape} {place : Place} {reason : String}
    (h : shape.Violated v place reason) : ¬ shape.Fits v := by
  rw [Shape.fits_iff]
  exact fun hnil => List.not_mem_nil (hnil ▸ h.mem)

mutual

/-- Each violation that is found is one. -/
theorem Shape.violated_of_mem : ∀ (shape : Shape) (v : Value), ∀ x ∈ shape.violations v,
    shape.Violated v x.place x.reason
  | .text, v, x, hx => by
    obtain ⟨hv, rfl⟩ := mem_textViolations.mp (by rwa [Shape.violations] at hx)
    exact .text hv
  | .flag, v, x, hx => by
    cases v with
    | bool b => exact absurd hx List.not_mem_nil
    | _ =>
        obtain rfl := List.mem_singleton.mp hx
        exact .flag fun _ h => nomatch h
  | .formula, v, x, hx => by
    cases v with
    | str text => exact absurd hx List.not_mem_nil
    | arr lines =>
        obtain ⟨i, line, y, hline, hy, rfl⟩ := mem_inItems.mp hx
        obtain ⟨htext, rfl⟩ := mem_textViolations.mp hy
        exact .line hline (.text htext)
    | _ =>
        obtain rfl := List.mem_singleton.mp hx
        exact .formula (fun _ h => nomatch h) fun _ h => nomatch h
  | .list item, v, x, hx => by
    cases v with
    | arr items =>
        obtain ⟨i, v, y, hv, hy, rfl⟩ := mem_inItems.mp hx
        exact .item hv (item.violated_of_mem v y hy)
    | _ =>
        obtain rfl := List.mem_singleton.mp hx
        exact .list fun _ h => nomatch h
  | .record fields, v, x, hx => by
    cases v with
    | obj ms =>
        obtain ⟨key, presence, shape, hmem, hx⟩ := Shape.violated_of_mem_fields fields ms x hx
        rcases hx with ⟨hnull, rfl, rfl⟩ | ⟨hread, y, hy, rfl⟩
        · exact .missing hmem hnull
        · exact .field hmem hread hy
    | _ =>
        obtain rfl := List.mem_singleton.mp hx
        exact .record fun _ h => nomatch h

theorem Shape.violated_of_mem_fields : ∀ (fields : List (String × Presence × Shape))
    (ms : Members), ∀ x ∈ Shape.fieldViolations fields ms,
      ∃ key presence shape, (key, presence, shape) ∈ fields ∧
        ((ms.read key = .null ∧ presence = .required ∧ x = ⟨[.key key], missingReason⟩) ∨
          ms.read key ≠ .null ∧ ∃ y : Violation,
            Shape.Violated shape (ms.read key) y.place y.reason ∧ x = y.under (.key key))
  | [], ms, x, hx => by
    rw [Shape.fieldViolations] at hx
    exact absurd hx List.not_mem_nil
  | (key, presence, shape) :: fields, ms, x, hx => by
    rw [Shape.fieldViolations, List.mem_append] at hx
    rcases hx with hx | hx
    · refine ⟨key, presence, shape, List.mem_cons_self, (mem_inField.mp hx).imp_right ?_⟩
      rintro ⟨hread, y, hy, rfl⟩
      exact ⟨hread, y, shape.violated_of_mem _ y hy, rfl⟩
    · obtain ⟨key', presence', shape', hmem, h⟩ :=
        Shape.violated_of_mem_fields fields ms x hx
      exact ⟨key', presence', shape', List.mem_cons_of_mem _ hmem, h⟩

end

end Tabular.Model
