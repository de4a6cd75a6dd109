/- The edits of a model as data, and the models that they reach. -/
import Tabular.Model.Graph
import Tabular.Proofs.Model.Outcome

namespace Tabular.Model
open Tabular.Json Tabular.Query

/-- An edit of a column. Data types are given by their names, here and below. -/
inductive ColumnEdit where
  | dataType (name : String)
  | sourceColumn (source : Option String)

def ColumnEdit.apply : ColumnEdit → Column → Column
  | .dataType name, c => c.setDataType (.ofName name)
  | .sourceColumn source, c => c.setSourceColumn source

inductive MeasureEdit where
  | expression (text type : String)
  | format (pattern : String)
  | retentionRate (table column : String)

def MeasureEdit.apply : MeasureEdit → Measure → Measure
  | .expression text type, m => m.setExpression text (.ofName type)
  | .format pattern, m => m.setFormat pattern
  | .retentionRate table column, m => m.setToRetentionRate table column

/-- An edit of a chain of steps: a step is changed only while it is the last. -/
inductive ChainEdit where
  | push (step : Step)
  | argument (key : String) (text : Option String)
  | rename (name : Option String)
  | clear

def ChainEdit.apply : ChainEdit → Chain → Chain
  | .push step, chain => chain ++ [step]
  | .argument key text, chain =>
    chain.modify (chain.length - 1) fun step => step.setArgument key text
  | .rename name, chain => chain.modify (chain.length - 1) fun step => { step with name := name }
  | .clear, _ => []

inductive PartitionEdit where
  | queryGroup (group : Option String)
  | jsonReader (path : String) (columns : List (String × String)) (current : String)
  | steps (edit : ChainEdit)

/-- Columns with the types of the given names. -/
def typedColumns (columns : List (String × String)) : List (String × DataType) :=
  columns.map fun column => (column.1, .ofName column.2)

def PartitionEdit.apply : PartitionEdit → Partition → Outcome Partition
  | .queryGroup group, p => .ok (p.setQueryGroup group)
  | .jsonReader path columns current, p => p.setToJsonReader path (typedColumns columns) current
  | .steps edit, p => .ok { p with steps := edit.apply p.steps }

/-- An edit of a table. The tags of what is new are given. -/
inductive TableEdit where
  | hidden (flag : Bool)
  | newColumn (tag name type : String) (source : Option String)
  | newFormulaColumn (tag name formula type : String) (summarizeBy : SummarizeBy)
  | newBin (tag target : String) (increment : Float) (table name : Option String) (type : String)
  | newQuotient (tag numerator denominator : String) (table name : Option String) (type : String)
      (summarizeBy : SummarizeBy)
  | newMeasure (tag name : String)
  | newPartition (name group : Option String)
  | bindToJson (tag : Nat → String) (path : String) (columns : List (String × String))
      (group : Option String) (current : String)
  | column (name : String) (edit : ColumnEdit)
  /-- The column that was put in last, which may have no name. -/
  | lastColumn (edit : ColumnEdit)
  | measure (name : String) (edit : MeasureEdit)
  | partition (i : Nat) (edit : PartitionEdit)

/-- An operation on the partition at a place, if there is one. -/
def Table.changePartition (t : Table) (i : Nat) (op : Partition → Outcome Partition) :
    Outcome Table :=
  match t.partitions[i]? with
  | some p => inPart (fun p => t.editPartition i fun _ => p) (op p)
  | none => .ok t

def TableEdit.apply : TableEdit → Table → Outcome Table
  | .hidden flag, t => .ok (t.setHidden flag)
  | .newColumn tag name type source, t => t.newColumn tag name (.ofName type) source
  | .newFormulaColumn tag name formula type summarizeBy, t =>
    t.newFormulaColumn tag name formula (.ofName type) summarizeBy
  | .newBin tag target increment table name type, t =>
    t.newBin tag target increment ⟨table, name, .ofName type⟩
  | .newQuotient tag numerator denominator table name type summarizeBy, t =>
    t.newQuotient tag numerator denominator ⟨table, name, .ofName type, summarizeBy⟩
  | .newMeasure tag name, t => t.newMeasure tag name
  | .newPartition name group, t => .ok (t.newPartition name group)
  | .bindToJson tag path columns group current, t =>
    t.bindToJson tag path (typedColumns columns) group current
  | .column name edit, t => t.editColumn name edit.apply
  | .lastColumn edit, t =>
    .ok { t with columns := t.columns.modify (t.columns.length - 1) edit.apply }
  | .measure name edit, t => t.editMeasure name edit.apply
  | .partition i edit, t => t.changePartition i edit.apply

/-- An edit of a model; `id` is for a document without a name. -/
inductive GraphEdit where
  | load (id : String) (doc : Document)
  | newTable (tag name : String)
  | insertDateTable
  | insertQueryGroup (name : String)
  | newRelationship (name : String) (source : Endpoint) (target : String) (column : Option String)
  | clear
  | clearTables
  | clearRelationships
  | clearQueryGroups
  | table (name : String) (edit : TableEdit)
  | relationship (a b : String) (both : Bool)

def GraphEdit.apply : GraphEdit → Graph → Outcome Graph
  | .load id doc, g => keeping g (Graph.load id g.config doc.value).result
  | .newTable tag name, g => g.newTable tag name
  | .insertDateTable, g => g.insertDateTable.result
  | .insertQueryGroup name, g => .ok (g.insertQueryGroup name)
  | .newRelationship name source target column, g => g.newRelationship name source target column
  | .clear, g => .ok g.clear
  | .clearTables, g => .ok g.clearTables
  | .clearRelationships, g => .ok g.clearRelationships
  | .clearQueryGroups, g => .ok g.clearQueryGroups
  | .table name edit, g => g.editTable name edit.apply
  | .relationship a b both, g => g.editRelationship a b fun r => r.setBothDirections both

/-- The model after some edits, each of which may fail. -/
def Graph.after (g : Graph) (edits : List GraphEdit) : Graph := run g (edits.map GraphEdit.apply)

/-- The models that edits lead to, from an empty one or from a document. -/
inductive Graph.Reachable (config : Config) : Graph → Prop where
  | empty (id : String) (edits : List GraphEdit) :
      Graph.Reachable config ((Graph.empty id config).after edits)
  | document (id : String) (d : Document) (g : Graph) (edits : List GraphEdit) :
      (Graph.load id config d.value).result = .ok g → Graph.Reachable config (g.after edits)

end Tabular.Model
