/- The steps that load a table. -/
import Tabular.Query.LoadType
import Tabular.Query.Step

namespace Tabular.Query

/-- Reads a file; its path is written with forward slashes. -/
def Step.fileContents (path : String) : Step where
  function := "File.Contents"
  arguments := [("path", some (textLiteral (Text.swap '\\' '/' path))), ("options", none)]
  name := none

def Step.parseJson (encoding : Option Nat) : Step where
  function := "Json.Document"
  arguments := [("source", some previousStep), ("encoding", encoding.map toString)]
  name := none

/-- Parses separated values; without column names there is no column list. -/
def Step.parseCsv (columns : List String) (delimiter : Option String) (encoding : Option Nat) :
    Step where
  function := "Csv.Document"
  arguments :=
    [("source", some previousStep),
      ("columns", if columns.isEmpty then none else some (listLiteral true columns)),
      ("delimiter", delimiter.map textLiteral),
      ("extra_values", some "ExtraValues.Error"),
      ("encoding", encoding.map toString)]
  name := none

/-- Makes one row of one column of each item of a list. -/
def Step.tableFromList : Step where
  function := "Table.FromList"
  arguments :=
    [("source", some previousStep),
      ("splitter", some "Splitter.SplitByNothing()"),
      ("columns", none),
      ("default", none),
      ("extra_values", some "ExtraValues.Error")]
  name := none

/-- Which fields of a record become columns: under their own names, or under new ones. -/
inductive RecordFields where
  | keep (names : List String)
  | rename (pairs : List (String × String))
  deriving DecidableEq, Repr

def RecordFields.fields : RecordFields → List String
  | .keep names => names
  | .rename pairs => pairs.map Prod.fst

def RecordFields.columns? : RecordFields → Option (List String)
  | .keep _ => none
  | .rename pairs => some (pairs.map Prod.snd)

/-- Expands a column of records. -/
def Step.expandRecord (column : String) (fields : RecordFields) : Step where
  function := "Table.ExpandRecordColumn"
  arguments :=
    [("source", some previousStep),
      ("column", some (textLiteral column)),
      ("field_names", some (listLiteral true fields.fields)),
      ("new_column_names", fields.columns?.map (listLiteral true))]
  name := none

def Step.transformTypes (types : List (String × LoadType)) (culture : Option String) : Step where
  function := "Table.TransformColumnTypes"
  arguments :=
    [("source", some previousStep),
      ("type_transformations",
        some (pairsLiteral true false (types.map fun type => (type.1, type.2.name)))),
      ("culture", culture.map textLiteral)]
  name := none

/-- The column that a list without field names becomes. -/
def listColumn : String := "Column1"

/-- Reads a file that holds a list of records, with a column for each of the given names. -/
def Chain.readJson (path : String) (columns : List (String × Model.DataType)) : Chain :=
  [.fileContents path, .parseJson none, .tableFromList,
    .expandRecord listColumn (.keep (columns.map Prod.fst)),
    .transformTypes (columns.map fun column => (column.1, .ofDataType column.2)) none]

end Tabular.Query
