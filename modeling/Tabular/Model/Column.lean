/- Columns of a table. -/
import Tabular.Json.Printer
import Tabular.Model.DataType
import Tabular.Model.Dax
import Tabular.Model.Field

namespace Tabular.Model
open Tabular.Json

/-- The hidden column that numbers the rows of an imported table. -/
def rowNumberName : String := "RowNumber-2662979B-1795-4F74-8F37-6A1BA8059B61"

/-- A column, over the document that it was loaded from or made with. -/
structure Column where
  name : String
  dataType : DataType
  sourceColumn : Option String
  lineageTag : Option String
  stored : Members

/-- What a new column notes about its summarization. -/
def automaticSummary : Value :=
  .obj [("name", .str "SummarizationSetBy"), ("value", .str "Automatic")]

def readyState : Value := .obj [("state", .str "ready")]

def Column.imported (tag name : String) (type : DataType) (source : Option String) : Column where
  name := name
  dataType := type
  sourceColumn := source
  lineageTag := some tag
  stored :=
    [("name", .str name),
      ("dataType", .str type.columnName),
      ("sourceColumn", Value.ofText? source),
      ("lineageTag", .str tag),
      ("summarizeBy", .str SummarizeBy.none.name),
      ("attributeHierarchy", readyState),
      ("annotations", .arr [automaticSummary])]

def Column.rowNumber : Column where
  name := rowNumberName
  dataType := .int64
  sourceColumn := none
  lineageTag := none
  stored :=
    [("type", .str "rowNumber"),
      ("name", .str rowNumberName),
      ("dataType", .str "int64"),
      ("isHidden", .bool true),
      ("isUnique", .bool true),
      ("isKey", .bool true),
      ("isNullable", .bool false),
      ("attributeHierarchy", readyState)]

/-- A column that a formula computes row by row. -/
def Column.calculated (tag name : String) (formula : Value) (type : DataType)
    (summarizeBy : SummarizeBy) : Column where
  name := name
  dataType := type
  sourceColumn := none
  lineageTag := some tag
  stored :=
    [("type", .str "calculated"),
      ("name", .str name),
      ("dataType", .str type.columnName),
      ("isDataTypeInferred", .bool true),
      ("expression", formula),
      ("lineageTag", .str tag),
      ("summarizeBy", .str summarizeBy.name),
      ("attributeHierarchy", readyState),
      ("annotations", .arr [automaticSummary])]

/-- A column of the grouped source, as design tools refer to it. -/
def groupedColumn (source column : Value) : Value :=
  .obj [("Column", .obj
    [("Expression", .obj [("SourceRef", source)]), ("Property", column)])]

/-- The state of the grouping dialog for buckets of a column. -/
def groupingDesign (table column : String) (increment : Float) : Value :=
  let grouped := groupedColumn (.obj [("Source", .str "p")]) (.str column)
  .obj
    [("Version", Value.ofInt 0),
      ("Sources", .arr [.obj [("Name", .str "p"), ("Entity", .str table)]]),
      ("GroupedColumns", .arr [grouped]),
      ("BinItem", .obj [("Expression", .obj [("Floor", .obj
        [("Expression", grouped), ("Size", Value.ofFloat increment)])])])]

/-- What the model keeps about buckets of a column. -/
def groupingMetadata (table column : String) (increment : Float) : Value :=
  .obj
    [("type", .str "json"),
      ("name", .str "GroupingMetadata"),
      ("value", .obj
        [("version", Value.ofInt 0),
          ("groupedColumns", .arr
            [groupedColumn (.obj [("Entity", .str table)]) (.str column)]),
          ("binningMetadata", .obj [("binSize", .obj
            [("value", Value.ofFloat increment), ("unit", Value.ofInt 0)])])])]

/-- A column that puts the values of another into buckets. -/
def Column.bin (tag name table column : String) (increment : Float) (type : DataType) : Column :=
  let formula := .arr ((binLines table column increment).map Value.str)
  let base := Column.calculated tag name formula type .none
  { base with
    stored := (base.stored.put "extendedProperties"
      (.arr [groupingMetadata table column increment])).put "annotations" (.arr
        [.obj [("name", .str "GroupingDesignState"),
            ("value", .str (groupingDesign table column increment).text)],
          automaticSummary,
          .obj [("name", .str "PBI_FormatHint"),
            ("value", .str "\x7b\"isGeneralNumber\":true\x7d")]]) }

def Column.load (path : String) (doc : Value) : Except Fault Column := do
  let stored ← membersOf path doc
  let name ← requiredText stored path "name"
  let type ← requiredText stored path "dataType"
  let source ← optionalText stored path "sourceColumn"
  let tag ← optionalText stored path "lineageTag"
  pure ⟨name, .ofName type, source, tag, stored⟩

def Column.dump (c : Column) : Value :=
  .obj ((((c.stored.put "name" (.str c.name)).put "dataType" (.str c.dataType.columnName)).put
    "sourceColumn" (Value.ofText? c.sourceColumn)).put "lineageTag" (Value.ofText? c.lineageTag))

/-- `calculated`, `rowNumber` and the like; an imported column has no kind. -/
def Column.kind (c : Column) : Option String :=
  match c.stored.get? "type" with
  | some (.str kind) => some kind
  | _ => none

def Column.isCalculated (c : Column) : Bool := c.kind == some "calculated"

def Column.formula (c : Column) : Option String := (c.stored.get? "expression").bind storedText

def Column.summarizeBy (c : Column) : Option SummarizeBy :=
  (c.stored.get? "summarizeBy").bind SummarizeBy.ofValue?

def Column.setDataType (c : Column) (type : DataType) : Column := { c with dataType := type }

def Column.setSourceColumn (c : Column) (source : Option String) : Column :=
  { c with sourceColumn := source }

end Tabular.Model
