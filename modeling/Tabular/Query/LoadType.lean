/- The types of the query language, and their mapping to the types of the model. -/
import Tabular.Model.DataType

namespace Tabular.Query
open Tabular.Model (DataType)

/-- The type that a column is loaded with. -/
inductive LoadType where
  | int64
  | currency
  | percentage
  | dateTime
  | date
  | time
  | dateTimeZone
  | duration
  | logical
  | binary
  | number
  | any
  | text
  deriving DecidableEq, Repr

def LoadType.name : LoadType → String
  | .int64 => "Int64.Type"
  | .currency => "Currency.Type"
  | .percentage => "Percentage.Type"
  | .dateTime => "type datetime"
  | .date => "type date"
  | .time => "type time"
  | .dateTimeZone => "type datetimezone"
  | .duration => "type duration"
  | .logical => "type logical"
  | .binary => "type binary"
  | .number => "type number"
  | .any => "type any"
  | .text => "type text"

/-- The model type of a column loaded with this type, where there is one. -/
def LoadType.dataType? : LoadType → Option DataType
  | .text => some .string
  | .any => some .string
  | .logical => some .boolean
  | .dateTime => some .dateTime
  | .int64 => some .int64
  | .number => some .double
  | _ => none

/-- The type to load a column of a model type with. -/
def LoadType.ofDataType : DataType → LoadType
  | .string => .text
  | .boolean => .logical
  | .dateTime => .dateTime
  | .int64 => .int64
  | .double => .number
  | .decimal => .currency
  | .binary => .binary
  | .any => .any
  | .variant => .any
  | .unknown => .any
  | .other _ => .any

end Tabular.Query
