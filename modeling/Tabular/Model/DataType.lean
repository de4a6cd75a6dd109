/- Data types of the tabular model, and how its columns are summarized. -/
import Tabular.Json.Value

namespace Tabular.Model
open Tabular.Json

/-- A data type; a name that the model does not know is kept as it is. -/
inductive DataType where
  | int64
  | double
  | decimal
  | string
  | boolean
  | dateTime
  | binary
  | variant
  | unknown
  | any
  | other (name : String)
  deriving DecidableEq, Repr

def DataType.name : DataType → String
  | .int64 => "int64"
  | .double => "double"
  | .decimal => "decimal"
  | .string => "string"
  | .boolean => "boolean"
  | .dateTime => "dateTime"
  | .binary => "binary"
  | .variant => "variant"
  | .unknown => "unknown"
  | .any => "any"
  | .other name => name

def DataType.ofName (name : String) : DataType :=
  if name = "int64" then .int64
  else if name = "double" then .double
  else if name = "decimal" then .decimal
  else if name = "string" then .string
  else if name = "boolean" then .boolean
  else if name = "dateTime" then .dateTime
  else if name = "binary" then .binary
  else if name = "variant" then .variant
  else if name = "unknown" then .unknown
  else if name = "any" then .any
  else .other name

def DataType.known : DataType → Bool
  | .other _ => false
  | _ => true

/-- The name in a column's document, where `any` is stored as `string`. -/
def DataType.columnName : DataType → String
  | .any => "string"
  | type => type.name

/-- A data type in a document is a string. -/
def DataType.ofValue? : Value → Option DataType
  | .str name => some (.ofName name)
  | _ => none

inductive SummarizeBy where
  | none
  | sum
  | count
  | min
  | max
  | average
  | distinctCount
  deriving DecidableEq, Repr

def SummarizeBy.name : SummarizeBy → String
  | .none => "none"
  | .sum => "sum"
  | .count => "count"
  | .min => "min"
  | .max => "max"
  | .average => "average"
  | .distinctCount => "distinctCount"

def SummarizeBy.all : List SummarizeBy :=
  [.none, .sum, .count, .min, .max, .average, .distinctCount]

def SummarizeBy.ofName? (name : String) : Option SummarizeBy :=
  SummarizeBy.all.find? fun choice => choice.name == name

/-- The variant that a value names: as a string, or as the only key of an object that holds null. -/
def variantName? : Value → Option String
  | .str name => some name
  | .obj [(name, .null)] => some name
  | _ => Option.none

def SummarizeBy.ofValue? (v : Value) : Option SummarizeBy :=
  (variantName? v).bind SummarizeBy.ofName?

end Tabular.Model
