/- Columns over their documents. -/
import Tabular.Model.DateTable
import Tabular.Proofs.Model.Field

namespace Tabular.Model
open Tabular.Json
variable {path name : String} {doc : Value} {t : DataType} {c : Column}

/-- A data type that its own name stands for. -/
def DataType.Parsed (t : DataType) : Prop := .ofName t.name = t

theorem DataType.name_ofName (name : String) : (DataType.ofName name).name = name := by
  unfold DataType.ofName
  repeat' split
  all_goals first
    | rfl
    | exact Eq.symm ‹_›

theorem DataType.parsed_ofName (name : String) : (DataType.ofName name).Parsed :=
  congrArg DataType.ofName (DataType.name_ofName name)

theorem DataType.columnName_of_ne_any (h : t ≠ .any) : t.columnName = t.name := by
  cases t with
  | any => exact absurd rfl h
  | _ => rfl

theorem DataType.Parsed.ofName_columnName (h : t.Parsed) :
    DataType.ofName t.columnName = if t = .any then .string else t := by
  by_cases hany : t = .any
  · subst hany
    rfl
  · rw [if_neg hany, DataType.columnName_of_ne_any hany]
    exact h

theorem DataType.columnName_ofName (name : String) :
    (DataType.ofName name).columnName = if name = "any" then "string" else name := by
  by_cases hname : name = "any"
  · subst hname
    rfl
  · have hany : DataType.ofName name ≠ .any := by
      intro heq
      apply hname
      rw [← DataType.name_ofName name, heq]
      rfl
    rw [if_neg hname, DataType.columnName_of_ne_any hany, DataType.name_ofName]

theorem DataType.Parsed.columnName_ne_any (h : t.Parsed) : t.columnName ≠ "any" := by
  rw [← h, DataType.columnName_ofName]
  split
  · decide
  · assumption

/-- What is written over the stored members. -/
def Column.fields (c : Column) : List (String × Value) :=
  [("name", .str c.name),
    ("dataType", .str c.dataType.columnName),
    ("sourceColumn", .ofText? c.sourceColumn),
    ("lineageTag", .ofText? c.lineageTag)]

theorem Column.dump_eq (c : Column) : c.dump = .obj (c.stored.putAll c.fields) := rfl

theorem Column.nodup_fields (c : Column) : (c.fields.map Prod.fst).Nodup := by
  change ["name", "dataType", "sourceColumn", "lineageTag"].Nodup
  decide

theorem Column.keyed_dump (h : (Value.obj c.stored).Keyed) : c.dump.Keyed := by
  rw [Column.dump_eq]
  apply Members.keyed_putAll h
  simp only [Column.fields, List.forall_mem_cons, List.not_mem_nil, Value.keyed_str,
    Value.keyed_ofText?, false_implies, implies_true, and_self]

/-- The column that a document holds. -/
structure Column.Loaded (doc : Value) (c : Column) : Prop where
  stored : doc = .obj c.stored
  name : c.stored.read "name" = .str c.name
  dataType : ∃ type, c.stored.read "dataType" = .str type ∧ c.dataType = .ofName type
  sourceColumn : c.stored.read "sourceColumn" = .ofText? c.sourceColumn
  lineageTag : c.stored.read "lineageTag" = .ofText? c.lineageTag

theorem Column.load_eq_ok : Column.load path doc = .ok c ↔ Column.Loaded doc c := by
  simp only [Column.load, bind_eq_ok, pure_eq_ok, membersOf_eq_ok, requiredText_eq_ok,
    optionalText_eq_ok]
  constructor
  · rintro ⟨ms, rfl, name, hname, type, htype, source, hsource, tag, htag, rfl⟩
    exact ⟨rfl, hname, ⟨type, htype, rfl⟩, hsource, htag⟩
  · obtain ⟨name, type, source, tag, ms⟩ := c
    rintro ⟨rfl, hname, ⟨type, htype, rfl⟩, hsource, htag⟩
    exact ⟨ms, rfl, name, hname, type, htype, source, hsource, tag, htag, rfl⟩

/-- The type `any` of a column is stored as `string`. -/
def concreteType : Value → Value
  | .str type => .str (if type = "any" then "string" else type)
  | v => v

/-- The document of a column as a dump has it. -/
def revisedColumn : Value → Value := Value.revise fun ms => ms.update "dataType" concreteType

/-- Of the document of a column, a dump changes the type. -/
theorem Column.Loaded.dump_prune (h : Column.Loaded doc c) :
    c.dump.prune = (revisedColumn doc).prune := by
  obtain ⟨type, htype, hc⟩ := h.dataType
  have hput : c.stored.put "dataType" (.str c.dataType.columnName) =
      c.stored.update "dataType" concreteType := by
    rw [← Members.put_eq_update (Members.get?_of_read htype rfl), hc, DataType.columnName_ofName]
    rfl
  have hsettled : Value.pruneMembers (c.stored.putAll c.fields) =
      Value.pruneMembers (c.stored.put "dataType" (.str c.dataType.columnName)) :=
    pruneMembers_putAll_single [("name", .str c.name)]
      [("sourceColumn", .ofText? c.sourceColumn), ("lineageTag", .ofText? c.lineageTag)]
      c.nodup_fields (by simpa using h.name) (by simpa using ⟨h.sourceColumn, h.lineageTag⟩)
  rw [h.stored, Column.dump_eq, Value.prune_obj, hsettled, hput]
  rfl

/-- What the invariant of a model says of a column. -/
structure Column.Sound (c : Column) : Prop where
  keyed : (Value.obj c.stored).Keyed
  parsed : c.dataType.Parsed

theorem Column.Loaded.sound (h : Column.Loaded doc c) (hd : doc.Keyed) : c.Sound := by
  obtain ⟨type, _, hc⟩ := h.dataType
  constructor
  · exact h.stored ▸ hd
  · rw [hc]
    exact DataType.parsed_ofName type

/-- What loading the document of a column gives. -/
def Column.reload (c : Column) : Column :=
  { c with
    dataType := .ofName c.dataType.columnName
    stored := c.dump.prune.members }

theorem Column.keyed_fields (h : (Value.obj c.stored).Keyed) :
    (Value.obj (c.stored.putAll c.fields)).Keyed :=
  Column.keyed_dump h

theorem Column.read_fields (h : (Value.obj c.stored).Keyed) :
    ∀ p ∈ c.fields, c.reload.stored.read p.1 = p.2.prune :=
  (Column.keyed_fields h).read_prune_putAll c.nodup_fields

theorem Column.loaded_reload (h : (Value.obj c.stored).Keyed) :
    Column.Loaded c.dump.prune c.reload := by
  have hread := Column.read_fields h
  simp only [Column.fields, List.forall_mem_cons, Value.prune_str, Value.prune_ofText?] at hread
  obtain ⟨hname, htype, hsource, htag, _⟩ := hread
  exact ⟨rfl, hname, ⟨_, htype, rfl⟩, hsource, htag⟩

theorem Column.Sound.revisedColumn_dump (h : c.Sound) :
    revisedColumn c.dump.prune = c.dump.prune := by
  have hread := Column.read_fields h.keyed
  simp only [Column.fields, List.forall_mem_cons, Value.prune_str] at hread
  change Value.obj (c.reload.stored.update "dataType" concreteType) = .obj c.reload.stored
  rw [Members.update_of_fixed]
  intro v hv
  rw [(Members.read_of_get? hv).symm.trans hread.2.1, concreteType,
    if_neg h.parsed.columnName_ne_any]

/-- Two columns that agree on what their tables and formulas say of them, where a type `any`
    reads back as `string`. -/
structure Column.ReadsBack (c c' : Column) : Prop where
  name : c'.name = c.name
  sourceColumn : c'.sourceColumn = c.sourceColumn
  lineageTag : c'.lineageTag = c.lineageTag
  kind : c'.kind = c.kind
  formula : c'.formula = c.formula
  dataType : c'.dataType = if c.dataType = .any then .string else c.dataType

theorem Column.kind_eq (c : Column) :
    c.kind = match c.stored.read "type" with
      | .str kind => some kind
      | _ => none := by
  rw [Column.kind, Members.read]
  cases c.stored.get? "type" with
  | none => rfl
  | some v => cases v <;> rfl

theorem Column.formula_eq (c : Column) : c.formula = storedText (c.stored.read "expression") := by
  rw [Column.formula, Members.read]
  cases c.stored.get? "expression" <;> rfl

theorem Column.Sound.read_reload (h : c.Sound) {key : String}
    (hk : key ∉ ["name", "dataType", "sourceColumn", "lineageTag"]) :
    c.reload.stored.read key = (c.stored.read key).prune :=
  (Column.keyed_fields h.keyed).read_prune_putAll_of_notMem hk

theorem Column.Sound.readsBack_reload (h : c.Sound) : Column.ReadsBack c c.reload where
  name := rfl
  sourceColumn := rfl
  lineageTag := rfl
  kind := by
    rw [Column.kind_eq, Column.kind_eq, h.read_reload (by decide)]
    cases c.stored.read "type" <;> rfl
  formula := by
    rw [Column.formula_eq, Column.formula_eq, h.read_reload (by decide), storedText_prune]
  dataType := h.parsed.ofName_columnName

theorem keyed_automaticSummary : automaticSummary.Keyed := by decide

theorem keyed_readyState : readyState.Keyed := by decide

theorem Column.keyed_rowNumber : (Value.obj Column.rowNumber.stored).Keyed := by decide

theorem Column.keyed_imported (tag name : String) (t : DataType) (source : Option String) :
    (Value.obj (Column.imported tag name t source).stored).Keyed := by
  simp [Column.imported, Value.keyed_obj, Value.keyed_arr, Members.keys, keyed_automaticSummary,
    keyed_readyState]

theorem Column.keyed_calculated (tag name : String) {formula : Value} (hformula : formula.Keyed)
    (t : DataType) (summarizeBy : SummarizeBy) :
    (Value.obj (Column.calculated tag name formula t summarizeBy).stored).Keyed := by
  simp [Column.calculated, Value.keyed_obj, Value.keyed_arr, Members.keys, keyed_automaticSummary,
    keyed_readyState, hformula]

theorem keyed_groupingMetadata (table column : String) (increment : Float) :
    (groupingMetadata table column increment).Keyed := by
  simp [groupingMetadata, groupedColumn, Value.keyed_obj, Value.keyed_arr, Members.keys]

theorem Column.keyed_bin (tag name table column : String) (increment : Float) (t : DataType) :
    (Value.obj (Column.bin tag name table column increment t).stored).Keyed := by
  have hlines := Value.keyed_strs (binLines table column increment)
  have hbase := Column.keyed_calculated tag name hlines t .none
  refine Members.keyed_put (Members.keyed_put hbase _ ?_) _ ?_
  · rw [Value.keyed_arr, List.forall_mem_singleton]
    exact keyed_groupingMetadata table column increment
  · simp [Value.keyed_obj, Value.keyed_arr, Members.keys, keyed_automaticSummary]

theorem Column.sound_rowNumber : Column.rowNumber.Sound := ⟨Column.keyed_rowNumber, rfl⟩

theorem Column.sound_imported (tag name : String) (ht : t.Parsed) (source : Option String) :
    (Column.imported tag name t source).Sound :=
  ⟨Column.keyed_imported tag name t source, ht⟩

theorem Column.sound_calculated (tag name : String) {formula : Value} (hformula : formula.Keyed)
    (ht : t.Parsed) (summarizeBy : SummarizeBy) :
    (Column.calculated tag name formula t summarizeBy).Sound :=
  ⟨Column.keyed_calculated tag name hformula t summarizeBy, ht⟩

theorem Column.sound_bin (tag name table column : String) (increment : Float) (ht : t.Parsed) :
    (Column.bin tag name table column increment t).Sound :=
  ⟨Column.keyed_bin tag name table column increment t, ht⟩

theorem Column.Sound.setDataType (h : c.Sound) (ht : t.Parsed) : (c.setDataType t).Sound :=
  ⟨h.keyed, ht⟩

theorem Column.Sound.setSourceColumn (h : c.Sound) (source : Option String) :
    (c.setSourceColumn source).Sound := ⟨h.keyed, h.parsed⟩

end Tabular.Model
