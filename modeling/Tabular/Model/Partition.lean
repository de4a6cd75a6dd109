/- Partitions: where the rows of a table come from. -/
import Tabular.Model.Field
import Tabular.Model.Outcome
import Tabular.Model.SourcePath
import Tabular.Query.Source

namespace Tabular.Model
open Tabular.Json Tabular.Query

/-- A partition, over the document that it was loaded from or made with. When it has steps,
    they take the place of the stored expression. -/
structure Partition where
  name : Option String
  mode : Option String
  state : Option String
  queryGroup : Option String
  sourceType : String
  steps : Chain
  stored : Members

def Partition.fresh (name queryGroup : Option String) : Partition where
  name := name
  mode := some "import"
  state := some "ready"
  queryGroup := queryGroup
  sourceType := "m"
  steps := []
  stored :=
    [("name", Value.ofText? name),
      ("mode", .str "import"),
      ("state", .str "ready"),
      ("queryGroup", Value.ofText? queryGroup),
      ("source", .obj [("type", .str "m"), ("expression", .arr [])])]

def loadSourceType (stored : Members) (path : String) : Except Fault String :=
  match stored.get? "source" with
  | some (.obj source) => requiredText source (fieldPath path "source") "type"
  | none => .error (fieldMissing (fieldPath path "source"))
  | some .null => .error (fieldMissing (fieldPath path "source"))
  | some v => .error (wrongKind (fieldPath path "source") "an object" v)

def Partition.load (path : String) (doc : Value) : Except Fault Partition := do
  let stored ← membersOf path doc
  let type ← loadSourceType stored path
  let name ← optionalText stored path "name"
  let mode ← optionalText stored path "mode"
  let state ← optionalText stored path "state"
  let group ← optionalText stored path "queryGroup"
  pure ⟨name, mode, state, group, type, [], stored⟩

def Partition.dump (p : Partition) (numbering : Numbering) : Value :=
  let ms := ((((p.stored.put "name" (Value.ofText? p.name)).put
    "mode" (Value.ofText? p.mode)).put "state" (Value.ofText? p.state)).put
    "queryGroup" (Value.ofText? p.queryGroup)).putPath ["source", "type"] (.str p.sourceType)
  .obj (if p.steps.isEmpty then ms
    else ms.putPath ["source", "expression"] (.arr ((p.steps.lines numbering).map Value.str)))

def Partition.records (p : Partition) (numbering : Numbering) : List Record :=
  p.steps.records numbering

def storedExpression (stored : Members) : Option String :=
  match stored.get? "source" with
  | some (.obj source) => (Members.get? source "expression").bind storedText
  | _ => none

/-- The expression that a partition dumps. -/
def Partition.expression (p : Partition) (numbering : Numbering) : Option String :=
  if p.steps.isEmpty then storedExpression p.stored else some (p.steps.text numbering)

def Partition.setQueryGroup (p : Partition) (group : Option String) : Partition :=
  { p with queryGroup := group }

def Partition.push (p : Partition) (step : Step) : Partition :=
  { p with steps := p.steps ++ [step] }

/-- Replaces the steps by those that read a JSON file with the given columns. The path may be
    relative to the current folder. -/
def Partition.setToJsonReader (p : Partition) (path : String)
    (columns : List (String × DataType)) (current : String := "/") :
    Except (Failure Partition) Partition := do
  let absolute ← keeping p (resolveSource path current)
  pure { p with steps := Chain.readJson absolute columns, sourceType := "m" }

end Tabular.Model
