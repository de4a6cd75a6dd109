/- Which documents load as a model, and where the others are found to be wrong. -/
import Tabular.Proofs.Model.Graph
import Tabular.Proofs.Model.Shape

namespace Tabular.Model
open Tabular.Json

/- The fields stand in the order in which the loaders look at them. -/

def relationshipShape : Shape := .record
  [("crossFilteringBehavior", .optional, .text),
    ("name", .required, .text),
    ("fromTable", .required, .text),
    ("fromColumn", .required, .text),
    ("toTable", .required, .text),
    ("toColumn", .required, .text)]

def columnShape : Shape := .record
  [("name", .required, .text),
    ("dataType", .required, .text),
    ("sourceColumn", .optional, .text),
    ("lineageTag", .optional, .text)]

def partitionShape : Shape := .record
  [("source", .required, .record [("type", .required, .text)]),
    ("name", .optional, .text),
    ("mode", .optional, .text),
    ("state", .optional, .text),
    ("queryGroup", .optional, .text)]

def measureShape : Shape := .record
  [("expression", .required, .formula),
    ("name", .required, .text),
    ("formatString", .optional, .text),
    ("dataType", .optional, .text),
    ("lineageTag", .optional, .text)]

def tableShape : Shape := .record
  [("name", .required, .text),
    ("columns", .optional, .list columnShape),
    ("partitions", .optional, .list partitionShape),
    ("measures", .optional, .list measureShape),
    ("lineageTag", .optional, .text),
    ("isHidden", .optional, .flag)]

def groupShape : Shape := .record [("folder", .required, .text)]

def modelShape : Shape := .record
  [("relationships", .optional, .list relationshipShape),
    ("tables", .optional, .list tableShape),
    ("queryGroups", .optional, .list groupShape)]

/-- The shape of the documents that load. -/
def documentShape : Shape := .record
  [("model", .required, modelShape),
    ("name", .optional, .text)]

/-- The path of a value that a step leads to. -/
def stepPath (path : String) : PathStep → String
  | .key name => fieldPath path name
  | .item i => itemPath path i

/-- The path of a place in a document. The root is `$`, but paths into the model start at it. -/
def documentPath : Place → String
  | .key "model" :: place => place.foldl stepPath "model"
  | place => place.foldl stepPath "$"

/-- What is said of violations in the value at a path. -/
def faultsAt (path : String) (violations : List Violation) : List Fault :=
  violations.map fun x => .malformed (x.place.foldl stepPath path) x.reason

def documentFaults (violations : List Violation) : List Fault :=
  violations.map fun x => .malformed (documentPath x.place) x.reason

variable {α β : Type} {path key : String} {ms : Members} {v : Value} {faults rest : List Fault}
  {fields : List (String × Presence × Shape)} {shape : Shape}

theorem faultsAt_append (path : String) (xs ys : List Violation) :
    faultsAt path (xs ++ ys) = faultsAt path xs ++ faultsAt path ys := List.map_append

theorem faultsAt_under (path : String) (step : PathStep) (xs : List Violation) :
    faultsAt path (xs.map (Violation.under step)) = faultsAt (stepPath path step) xs := by
  rw [faultsAt, List.map_map]
  rfl

theorem documentFaults_model (xs : List Violation) :
    documentFaults (xs.map (Violation.under (.key "model"))) = faultsAt "model" xs := by
  rw [documentFaults, List.map_map]
  rfl

theorem documentFaults_name (v : Value) :
    documentFaults (inField "name" .optional Shape.text.violations v) =
      faultsAt "$" (inField "name" .optional Shape.text.violations v) := by
  cases v <;> rfl

/-- A computation that passes when there are no faults, and else fails with the first of them. -/
def Checks (x : Except Fault α) (faults : List Fault) : Prop :=
  match x with
  | .ok _ => faults = []
  | .error fault => faults.head? = some fault

theorem Checks.ok_iff {x : Except Fault α} (h : Checks x faults) :
    (∃ a, x = .ok a) ↔ faults = [] := by
  cases x with
  | ok a => exact iff_of_true ⟨a, rfl⟩ h
  | error fault =>
      refine iff_of_false (fun ⟨_, heq⟩ => nomatch heq) fun hnil => ?_
      rw [hnil] at h
      cases h

theorem Checks.head_eq {x : Except Fault α} (h : Checks x faults) {fault : Fault}
    (heq : x = .error fault) : faults.head? = some fault := by
  rw [heq] at h
  exact h

theorem Checks.bind {x : Except Fault α} {f : α → Except Fault β} (hx : Checks x faults)
    (hf : ∀ a, Checks (f a) rest) : Checks (x >>= f) (faults ++ rest) := by
  cases x with
  | ok a =>
      have hnil : faults = [] := hx
      rw [hnil]
      exact hf a
  | error fault =>
      have hhead : faults.head? = some fault := hx
      change (faults ++ rest).head? = some fault
      rw [List.head?_append, hhead, Option.some_or]

theorem Checks.after {x : Except Fault α} (hx : Checks x faults) (f : α → β) :
    Checks (x >>= fun a => pure (f a)) faults := by
  rw [← List.append_nil faults]
  exact hx.bind fun _ => rfl

theorem Checks.pass {a : α} {f : α → Except Fault β} (h : Checks (f a) faults) :
    Checks (.ok a >>= f) faults := h

theorem faultsAt_inItems (path : String) (check : Value → List Violation) (vs : List Value) :
    faultsAt path (inItems check vs) =
      (vs.mapIdx fun i v => faultsAt (itemPath path i) (check v)).flatten := by
  have hmap : (vs.mapIdx fun i v => faultsAt (itemPath path i) (check v)) =
      (vs.mapIdx fun i v => (check v).map (Violation.under (.item i))).map (faultsAt path) := by
    rw [List.mapIdx_eq_iff]
    intro i
    rw [List.getElem?_map, List.getElem?_mapIdx, Option.map_map]
    congr 1
    funext v
    exact faultsAt_under path (.item i) (check v)
  rw [hmap]
  exact List.map_flatten

theorem result_traceItems (load : String → Value → Traced Fault α) (path : String) (i : Nat)
    (vs : List Value) : (traceItems load path i vs).result =
      loadItems (fun path v => (load path v).result) path i vs := by
  induction vs generalizing i with
  | nil => rfl
  | cons v vs ih =>
      simp only [traceItems, loadItems, Traced.result_bind, Traced.result_pure, ih]
      rfl

/-- Elements are checked one after the other, from an index on. -/
theorem Checks.itemsFrom {load : String → Value → Except Fault α} {check : Value → List Violation}
    (h : ∀ path v, Checks (load path v) (faultsAt path (check v))) (i : Nat) (vs : List Value) :
    Checks (loadItems load path i vs)
      (vs.mapIdx fun j v => faultsAt (itemPath path (i + j)) (check v)).flatten := by
  induction vs generalizing i with
  | nil => exact rfl
  | cons v vs ih =>
      have htail : Checks (loadItems load path (i + 1) vs)
          (vs.mapIdx fun j v => faultsAt (itemPath path (i + (j + 1))) (check v)).flatten := by
        simpa only [Nat.add_right_comm, Nat.add_assoc, Nat.add_comm 1] using ih (i + 1)
      rw [loadItems, List.mapIdx_cons, List.flatten_cons]
      exact (h _ v).bind fun a => htail.after (a :: ·)

theorem Checks.items {load : String → Value → Except Fault α} {check : Value → List Violation}
    (h : ∀ path v, Checks (load path v) (faultsAt path (check v))) (vs : List Value) :
    Checks (loadItems load path 0 vs) (faultsAt path (inItems check vs)) := by
  rw [faultsAt_inItems]
  simpa only [Nat.zero_add] using Checks.itemsFrom h 0 vs

theorem faultsAt_inField (h : v ≠ .null) (path key : String) (presence : Presence)
    (check : Value → List Violation) :
    faultsAt path (inField key presence check v) = faultsAt (fieldPath path key) (check v) := by
  rw [inField_of_ne_null h, faultsAt_under]
  rfl

theorem requiredText_checks : Checks (requiredText ms path key)
    (faultsAt path (inField key .required Shape.text.violations (ms.read key))) := by
  rw [requiredText, Members.read]
  cases ms.get? key with
  | none => rfl
  | some v => cases v <;> rfl

theorem optionalText_checks : Checks (optionalText ms path key)
    (faultsAt path (inField key .optional Shape.text.violations (ms.read key))) := by
  rw [optionalText, Members.read]
  cases ms.get? key with
  | none => rfl
  | some v => cases v <;> rfl

theorem optionalBool_checks : Checks (optionalBool ms path key)
    (faultsAt path (inField key .optional Shape.flag.violations (ms.read key))) := by
  rw [optionalBool, Members.read]
  cases ms.get? key with
  | none => rfl
  | some v => cases v <;> rfl

theorem loadLine_checks (path : String) (v : Value) :
    Checks (loadLine path v) (faultsAt path (textViolations v)) := by
  cases v <;> rfl

theorem loadFormula_checks : Checks (loadFormula ms path)
    (faultsAt path (inField "expression" .required Shape.formula.violations
      (ms.read "expression"))) := by
  rw [loadFormula, Members.read]
  cases ms.get? "expression" with
  | none => rfl
  | some v =>
      cases v with
      | arr lines =>
          rw [Option.getD_some, faultsAt_inField (v := .arr lines) fun h => by cases h]
          exact (Checks.items loadLine_checks lines).after "\n".intercalate
      | _ => exact rfl

/-- A field is checked, and then the fields after it. -/
theorem Checks.field {x : Except Fault α} {f : α → Except Fault β} {presence : Presence}
    (hx : Checks x (faultsAt path (inField key presence shape.violations (ms.read key))))
    (hf : ∀ a, Checks (f a) (faultsAt path (Shape.fieldViolations fields ms) ++ rest)) :
    Checks (x >>= f)
      (faultsAt path (Shape.fieldViolations ((key, presence, shape) :: fields) ms) ++ rest) := by
  rw [Shape.fieldViolations, faultsAt_append, List.append_assoc]
  exact hx.bind hf

theorem Checks.lastField {x : Except Fault α} {presence : Presence}
    (hx : Checks x (faultsAt path (inField key presence shape.violations (ms.read key)))) :
    Checks x (faultsAt path (Shape.fieldViolations [(key, presence, shape)] ms)) := by
  rw [Shape.fieldViolations, Shape.fieldViolations, List.append_nil]
  exact hx

/-- A list is read, and then each of its elements. -/
theorem Checks.listField {load : String → Value → Except Fault α} {item : Shape}
    (h : ∀ path v, Checks (load path v) (faultsAt path (item.violations v)))
    {f : List α → Except Fault β}
    (hf : ∀ as, Checks (f as) (faultsAt path (Shape.fieldViolations fields ms) ++ rest)) :
    Checks (optionalItems ms path key >>= fun vs =>
        loadItems load (fieldPath path key) 0 vs >>= f)
      (faultsAt path (Shape.fieldViolations ((key, .optional, .list item) :: fields) ms) ++
        rest) := by
  rw [Shape.fieldViolations, faultsAt_append, List.append_assoc, optionalItems, Members.read]
  cases ms.get? key with
  | none => exact (Checks.items h []).bind hf
  | some v =>
      cases v with
      | null => exact (Checks.items h []).bind hf
      | arr vs =>
          rw [Option.getD_some, faultsAt_inField (v := .arr vs) fun h => by cases h]
          exact (Checks.items h vs).bind hf
      | _ => exact rfl

theorem Checks.record {f : Members → Except Fault α}
    (hf : ∀ ms, Checks (f ms) (faultsAt path (Shape.fieldViolations fields ms) ++ [])) :
    Checks (membersOf path v >>= f) (faultsAt path ((Shape.record fields).violations v)) := by
  cases v with
  | obj ms =>
      rw [← List.append_nil (faultsAt _ _)]
      exact hf ms
  | _ => exact rfl

theorem loadSourceType_checks : Checks (loadSourceType ms path)
    (faultsAt path (inField "source" .required
      (Shape.record [("type", .required, .text)]).violations (ms.read "source"))) := by
  rw [loadSourceType, Members.read]
  cases ms.get? "source" with
  | none => rfl
  | some v =>
      cases v with
      | obj source =>
          rw [Option.getD_some, faultsAt_inField (v := .obj source) fun h => by cases h]
          exact requiredText_checks.lastField
      | _ => exact rfl

theorem Relationship.load_checks (path : String) (v : Value) :
    Checks (Relationship.load path v) (faultsAt path (relationshipShape.violations v)) := by
  refine .record fun stored => ?_
  refine .field optionalText_checks fun filtering => ?_
  refine .field requiredText_checks fun name => ?_
  refine .field requiredText_checks fun fromTable => ?_
  refine .field requiredText_checks fun fromColumn => ?_
  refine .field requiredText_checks fun toTable => ?_
  refine .field requiredText_checks fun toColumn => ?_
  exact rfl

theorem Column.load_checks (path : String) (v : Value) :
    Checks (Column.load path v) (faultsAt path (columnShape.violations v)) := by
  refine .record fun stored => ?_
  refine .field requiredText_checks fun name => ?_
  refine .field requiredText_checks fun type => ?_
  refine .field optionalText_checks fun source => ?_
  refine .field optionalText_checks fun tag => ?_
  exact rfl

theorem Partition.load_checks (path : String) (v : Value) :
    Checks (Partition.load path v) (faultsAt path (partitionShape.violations v)) := by
  refine .record fun stored => ?_
  refine .field loadSourceType_checks fun type => ?_
  refine .field optionalText_checks fun name => ?_
  refine .field optionalText_checks fun mode => ?_
  refine .field optionalText_checks fun state => ?_
  refine .field optionalText_checks fun group => ?_
  exact rfl

theorem Measure.load_checks (path : String) (v : Value) :
    Checks (Measure.load path v) (faultsAt path (measureShape.violations v)) := by
  refine .record fun stored => ?_
  refine .field loadFormula_checks fun expression => ?_
  refine .field requiredText_checks fun name => ?_
  refine .field optionalText_checks fun format => ?_
  refine .field optionalText_checks fun type => ?_
  refine .field optionalText_checks fun tag => ?_
  exact rfl

theorem loadGroup_checks (path : String) (v : Value) :
    Checks (loadGroup path v) (faultsAt path (groupShape.violations v)) := by
  refine .record fun ms => ?_
  rw [List.append_nil]
  exact requiredText_checks.lastField

theorem Table.load_checks (path : String) (v : Value) :
    Checks (Table.load path v).result (faultsAt path (tableShape.violations v)) := by
  simp only [Table.load, Traced.result_bind, Traced.result_lift, Traced.result_notes,
    Traced.result_note, Traced.result_pure]
  refine .record fun stored => ?_
  refine .field requiredText_checks fun name => ?_
  refine .listField Column.load_checks fun columns => ?_
  refine .listField Partition.load_checks fun partitions => ?_
  refine .listField Measure.load_checks fun measures => ?_
  -- The two notes that a table leaves cannot fail.
  refine .pass <| .pass ?_
  refine .field optionalText_checks fun tag => ?_
  refine .field optionalBool_checks fun hidden => ?_
  exact rfl

theorem Checks.model {f : Members → Except Fault α}
    (hf : ∀ model,
      Checks (f model) (faultsAt "model" (Shape.fieldViolations fields model) ++ rest)) :
    Checks (modelMembers ms >>= f)
      (documentFaults (inField "model" .required (Shape.record fields).violations
        (ms.read "model")) ++ rest) := by
  rw [modelMembers, Members.read]
  cases ms.get? "model" with
  | none => exact rfl
  | some v =>
      cases v with
      | obj model =>
          rw [Option.getD_some, inField_of_ne_null (v := .obj model) (fun h => by cases h),
            documentFaults_model]
          exact hf model
      | _ => exact rfl

theorem Checks.document {f : Members → Except Fault α}
    (hf : ∀ root, Checks (f root) (documentFaults (Shape.fieldViolations fields root))) :
    Checks (membersOf "$" v >>= f) (documentFaults ((Shape.record fields).violations v)) := by
  cases v with
  | obj root => exact hf root
  | _ => exact rfl

theorem Checks.done {x : Except Fault α} (hx : Checks x rest) :
    Checks x (faultsAt path (Shape.fieldViolations [] ms) ++ rest) := hx

/-- A document fails to load with the first of its violations. -/
theorem Graph.load_checks (fresh : String) (config : Config) (doc : Value) :
    Checks (Graph.load fresh config doc).result
      (documentFaults (documentShape.violations doc)) := by
  simp only [Graph.load, Traced.result_bind, Traced.result_lift, Traced.result_notes,
    Traced.result_note, Traced.result_pure, result_traceItems]
  refine .document fun root => ?_
  have hfaults : documentFaults (Shape.fieldViolations
        [("model", .required, modelShape), ("name", .optional, .text)] root) =
      documentFaults (inField "model" .required modelShape.violations (root.read "model")) ++
        faultsAt "$" (Shape.fieldViolations [("name", .optional, .text)] root) := by
    simp only [Shape.fieldViolations, List.append_nil, ← documentFaults_name,
      documentFaults, List.map_append]
  rw [hfaults]
  refine .model fun model => ?_
  refine .listField Relationship.load_checks fun relationships => ?_
  refine .listField Table.load_checks fun tables => ?_
  refine .listField loadGroup_checks fun groups => ?_
  refine .done <| .pass ?_
  rw [← List.append_nil (faultsAt _ _)]
  refine .field optionalText_checks fun name => ?_
  exact .pass rfl

/-- The documents that load are those of the shape. Any other is rejected with the path of a place
    where it violates the shape, and with what is wrong there. -/
theorem Graph.load_accepts_iff (fresh : String) (config : Config) (doc : Value) :
    ((∃ g, (Graph.load fresh config doc).result = .ok g) ↔ documentShape.Fits doc) ∧
      ∀ fault, (Graph.load fresh config doc).result = .error fault →
        ∃ place reason, fault = .malformed (documentPath place) reason ∧
          documentShape.Violated doc place reason := by
  have hchecks := Graph.load_checks fresh config doc
  constructor
  · rw [hchecks.ok_iff, Shape.fits_iff, documentFaults, List.map_eq_nil_iff]
  · intro fault hload
    have hhead := hchecks.head_eq hload
    rw [documentFaults, List.head?_map, Option.map_eq_some_iff] at hhead
    obtain ⟨x, hx, rfl⟩ := hhead
    exact ⟨x.place, x.reason, rfl,
      documentShape.violated_of_mem doc x (List.mem_of_head? hx)⟩

/-- A document with a type that is no text, in a column of its second table. -/
def crookedDocument : Value := .obj
  [("name", .str "m"),
    ("model", .obj [("tables", .arr
      [.obj [("name", .str "Sales")],
        .obj [("name", .str "Rates"), ("columns", .arr
          [.obj [("name", .str "Rate"), ("dataType", .bool true)]])]])])]

def crookedFault : Fault :=
  .malformed "model.tables[1].columns[0].dataType" "expected a string, found boolean"

theorem Graph.load_accepts_iff_crookedDocument :
    (Graph.load "g" Config.default crookedDocument).result = .error crookedFault ∧
      ¬ documentShape.Fits crookedDocument ∧
      ∃ place reason, crookedFault = .malformed (documentPath place) reason ∧
        documentShape.Violated crookedDocument place reason := by
  have hload : (Graph.load "g" Config.default crookedDocument).result = .error crookedFault := rfl
  obtain ⟨haccepts, hrejects⟩ := Graph.load_accepts_iff "g" Config.default crookedDocument
  refine ⟨hload, fun hfits => ?_, hrejects crookedFault hload⟩
  obtain ⟨g, hg⟩ := haccepts.mpr hfits
  rw [hload] at hg
  cases hg

end Tabular.Model
