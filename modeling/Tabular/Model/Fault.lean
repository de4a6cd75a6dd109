/- What can go wrong in a model. -/
namespace Tabular.Model

inductive EntityKind where
  | table
  | column
  | measure
  | partition
  | relationship
  deriving DecidableEq, Repr

def EntityKind.name : EntityKind → String
  | .table => "table"
  | .column => "column"
  | .measure => "measure"
  | .partition => "partition"
  | .relationship => "relationship"

inductive Fault where
  | duplicateRelationship (fromTable toTable : String)
  | duplicateColumn (table column : String)
  | duplicateTable (table : String)
  | duplicateMeasure (table measure : String)
  /-- An entity that is looked up and not there, with the table it was looked up in. -/
  | missing (kind : EntityKind) (name : String) (table : Option String)
  | malformed (path reason : String)
  | sourcePath (path reason : String)
  deriving DecidableEq, Repr

def Fault.code : Fault → String
  | .duplicateRelationship _ _ => "PBIT_SCHEMA_001"
  | .duplicateColumn _ _ => "PBIT_SCHEMA_002"
  | .duplicateTable _ => "PBIT_SCHEMA_003"
  | .duplicateMeasure _ _ => "PBIT_SCHEMA_004"
  | .missing _ _ _ => "PBIT_SCHEMA_005"
  | .malformed _ _ => "PBIT_SCHEMA_006"
  | .sourcePath _ _ => "PBIT_SCHEMA_007"

def named (name : String) : String := "'" ++ name ++ "'"

def Fault.text : Fault → String
  | .duplicateRelationship a b =>
    "a relationship between tables " ++ named a ++ " and " ++ named b ++ " already exists"
  | .duplicateColumn table column =>
    "column " ++ named column ++ " already exists in table " ++ named table
  | .duplicateTable table => "table " ++ named table ++ " already exists"
  | .duplicateMeasure table measure =>
    "measure " ++ named measure ++ " already exists in table " ++ named table
  | .missing kind name none => kind.name ++ " " ++ named name ++ " does not exist"
  | .missing kind name (some table) =>
    kind.name ++ " " ++ named name ++ " does not exist in table " ++ named table
  | .malformed path reason => "malformed document at " ++ named path ++ ": " ++ reason
  | .sourcePath path reason => "cannot resolve source path " ++ named path ++ ": " ++ reason

def Fault.message (f : Fault) : String := "[" ++ f.code ++ "] " ++ f.text

end Tabular.Model
