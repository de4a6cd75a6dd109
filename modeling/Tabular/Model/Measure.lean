/- Measures of a table. -/
import Tabular.Model.DataType
import Tabular.Model.Dax
import Tabular.Model.Field

namespace Tabular.Model
open Tabular.Json

/-- A measure, over the document that it was loaded from or made with. -/
structure Measure where
  name : String
  expression : String
  formatString : Option String
  dataType : Option DataType
  lineageTag : Option String
  stored : Members

def Measure.fresh (tag name : String) : Measure where
  name := name
  expression := ""
  formatString := none
  dataType := none
  lineageTag := some tag
  stored := [("name", .str name), ("expression", .str ""), ("lineageTag", .str tag)]

def loadLine (path : String) : Value → Except Fault String
  | .str line => .ok line
  | v => .error (wrongKind path "a string" v)

/-- A formula: a string, or a list of its lines. -/
def loadFormula (stored : Members) (path : String) : Except Fault String :=
  match stored.get? "expression" with
  | some (.str text) => .ok text
  | some (.arr lines) => do
    let lines ← loadItems loadLine (fieldPath path "expression") 0 lines
    pure ("\n".intercalate lines)
  | none => .error (fieldMissing (fieldPath path "expression"))
  | some .null => .error (fieldMissing (fieldPath path "expression"))
  | some v => .error (wrongKind (fieldPath path "expression") "a string or lines" v)

def Measure.load (path : String) (doc : Value) : Except Fault Measure := do
  let stored ← membersOf path doc
  let expression ← loadFormula stored path
  let name ← requiredText stored path "name"
  let format ← optionalText stored path "formatString"
  let type ← optionalText stored path "dataType"
  let tag ← optionalText stored path "lineageTag"
  pure ⟨name, expression, format, type.map DataType.ofName, tag, stored⟩

def Measure.dump (m : Measure) : Value :=
  .obj (((((m.stored.put "name" (.str m.name)).put "expression" (.str m.expression)).put
    "formatString" (Value.ofText? m.formatString)).put
    "lineageTag" (Value.ofText? m.lineageTag)).put
    "dataType" (Value.ofText? (m.dataType.map DataType.name)))

def Measure.setExpression (m : Measure) (expression : String) (type : DataType) : Measure :=
  { m with expression := expression, dataType := some type }

def Measure.setFormat (m : Measure) (format : String) : Measure :=
  { m with formatString := some format }

def percentFormat : String := "0.00%;-0.00%;0.00%"

/-- Makes a measure the share of rows that a column marks, as a percentage. -/
def Measure.setToRetentionRate (m : Measure) (table column : String) : Measure :=
  (m.setExpression (retentionRate table column) .double).setFormat percentFormat

end Tabular.Model
