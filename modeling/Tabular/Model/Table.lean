/- Tables, with their columns, partitions and measures. -/
import Tabular.Model.Column
import Tabular.Model.Measure
import Tabular.Model.Partition

namespace Tabular.Model
open Tabular.Json Tabular.Query

/-- A table, over the document that it was loaded from or made with; the lists of that document
    are kept apart. -/
structure Table where
  name : String
  lineageTag : Option String
  hidden : Option Bool
  columns : List Column
  partitions : List Partition
  measures : List Measure
  stored : Members

/-- An imported table with no more than the column that numbers its rows. -/
def Table.fresh (tag name : String) : Table where
  name := name
  lineageTag := some tag
  hidden := none
  columns := [Column.rowNumber]
  partitions := []
  measures := []
  stored :=
    [("name", .str name),
      ("lineageTag", .str tag),
      ("columns", .arr []),
      ("partitions", .arr []),
      ("annotations", .arr
        [.obj [("name", .str "PBI_ResultType"), ("value", .str "Table")]])]

/-- The names that have come before, once for each time that they come again. -/
def repeated (seen : List String) : List String → List String
  | [] => []
  | name :: names =>
    if seen.contains name then name :: repeated seen names else repeated (name :: seen) names

def columnWarnings (table : String) (columns : List Column) : List Record :=
  (repeated [] (columns.map Column.name)).map fun name =>
    ⟨.warn, "table " ++ named table ++ " repeats column " ++ named name⟩

/-- The stored document of a table, with its lists emptied. -/
def tableStored (ms : Members) : Members :=
  ((ms.replace "columns" (.arr [])).replace "partitions" (.arr [])).replace "measures" (.arr [])

def Table.load (path : String) (doc : Value) : Traced Fault Table := do
  let stored ← Traced.lift (membersOf path doc)
  let name ← Traced.lift (requiredText stored path "name")
  let items ← Traced.lift (optionalItems stored path "columns")
  let columns ← Traced.lift (loadItems Column.load (fieldPath path "columns") 0 items)
  let items ← Traced.lift (optionalItems stored path "partitions")
  let partitions ← Traced.lift (loadItems Partition.load (fieldPath path "partitions") 0 items)
  let items ← Traced.lift (optionalItems stored path "measures")
  let measures ← Traced.lift (loadItems Measure.load (fieldPath path "measures") 0 items)
  Traced.notes (columnWarnings name columns)
  Traced.note .debug ("loaded table " ++ named name ++ ": " ++ toString columns.length
    ++ " columns, " ++ toString partitions.length ++ " partitions, "
    ++ toString measures.length ++ " measures")
  let tag ← Traced.lift (optionalText stored path "lineageTag")
  let hidden ← Traced.lift (optionalBool stored path "isHidden")
  pure ⟨name, tag, hidden, columns, partitions, measures, tableStored stored⟩

/-- The measures of a table, if it has any or its document has a list of them. -/
def Table.putMeasures (t : Table) (ms : Members) : Members :=
  if !t.measures.isEmpty || ms.has "measures" then
    ms.put "measures" (.arr (t.measures.map Measure.dump))
  else ms

def Table.dump (t : Table) (numbering : Numbering) : Value :=
  .obj (t.putMeasures (((((t.stored.put "name" (.str t.name)).put
    "lineageTag" (Value.ofText? t.lineageTag)).put
    "isHidden" ((t.hidden.map Value.bool).getD .null)).put
    "columns" (.arr (t.columns.map Column.dump))).put
    "partitions" (.arr (t.partitions.map fun p => p.dump numbering))))

def Table.records (t : Table) (numbering : Numbering) : List Record :=
  t.partitions.flatMap fun p => p.records numbering

def Table.isHidden (t : Table) : Bool := t.hidden.getD false

def Table.setHidden (t : Table) (hidden : Bool) : Table := { t with hidden := some hidden }

def Table.hasColumn (t : Table) (name : String) : Bool := t.columns.any fun c => c.name == name

def Table.column (t : Table) (name : String) : Except Fault Column :=
  match t.columns.find? fun c => c.name == name with
  | some c => .ok c
  | none => .error (.missing .column name (some t.name))

def Table.measure (t : Table) (name : String) : Except Fault Measure :=
  match t.measures.find? fun m => m.name == name with
  | some m => .ok m
  | none => .error (.missing .measure name (some t.name))

/-- Changes the first element with a property, if there is one. When the change fails, what it
    leaves of the element is in the list. -/
def editFirst {α : Type} (p : α → Bool) (absent : Fault) (edit : α → Outcome α) :
    List α → Outcome (List α)
  | [] => .error ⟨absent, []⟩
  | a :: as =>
    if p a then inPart (· :: as) (edit a) else inPart (a :: ·) (editFirst p absent edit as)

def Table.editColumn (t : Table) (name : String) (edit : Column → Column) : Outcome Table :=
  inPart (fun columns => { t with columns := columns })
    (editFirst (fun c => c.name == name) (.missing .column name (some t.name))
      (fun c => .ok (edit c)) t.columns)

def Table.editMeasure (t : Table) (name : String) (edit : Measure → Measure) : Outcome Table :=
  inPart (fun measures => { t with measures := measures })
    (editFirst (fun m => m.name == name) (.missing .measure name (some t.name))
      (fun m => .ok (edit m)) t.measures)

def Table.editPartition (t : Table) (i : Nat) (edit : Partition → Partition) : Table :=
  { t with partitions := t.partitions.modify i edit }

/-- Puts a column at the end, unless its name is taken; any number of columns may have no name. -/
def Table.insertColumn (t : Table) (c : Column) : Outcome Table :=
  if c.name ≠ "" ∧ t.hasColumn c.name then .error ⟨.duplicateColumn t.name c.name, t⟩
  else .ok { t with columns := t.columns ++ [c] }

/-- Adds an imported column, which reads the source column of its own name unless told otherwise. -/
def Table.newColumn (t : Table) (tag name : String) (type : DataType) (source : Option String) :
    Outcome Table :=
  let byName := if name = "" then none else some name
  t.insertColumn (.imported tag name type (source.or byName))

/-- Adds a column that a formula computes row by row. -/
def Table.newFormulaColumn (t : Table) (tag name formula : String) (type : DataType)
    (summarizeBy : SummarizeBy) : Outcome Table :=
  t.insertColumn (.calculated tag name (.str formula) type summarizeBy)

/-- Where the buckets of a column go, and what they are called. -/
structure BinOptions where
  table : Option String
  name : Option String
  dataType : DataType
  deriving DecidableEq, Repr

/-- Adds a column that puts the values of another into buckets. -/
def Table.newBin (t : Table) (tag column : String) (increment : Float) (options : BinOptions) :
    Outcome Table :=
  t.insertColumn (.bin tag (options.name.getD (column ++ "_bin")) (options.table.getD t.name)
    column increment options.dataType)

/-- Where the denominator of a quotient is, and what the quotient is called. -/
structure QuotientOptions where
  table : Option String
  name : Option String
  dataType : DataType
  summarizeBy : SummarizeBy
  deriving DecidableEq, Repr

/-- Adds a column that divides a column of the table by another. -/
def Table.newQuotient (t : Table) (tag numerator denominator : String)
    (options : QuotientOptions) : Outcome Table :=
  t.insertColumn (.calculated tag (options.name.getD (numerator ++ "_per_" ++ denominator))
    (.str (quotient t.name numerator denominator options.table)) options.dataType
    options.summarizeBy)

def Table.newMeasure (t : Table) (tag name : String) : Outcome Table :=
  if t.measures.any fun m => m.name == name then .error ⟨.duplicateMeasure t.name name, t⟩
  else .ok { t with measures := t.measures ++ [.fresh tag name] }

/-- Adds a partition, which has the table's name unless told otherwise. -/
def Table.newPartition (t : Table) (name group : Option String) : Table :=
  { t with partitions := t.partitions ++ [.fresh (some (name.getD t.name)) group] }

/-- The first name that is taken, or that has come before. -/
def firstTaken (taken : List String) : List String → Option String
  | [] => none
  | name :: names =>
    if taken.contains name then some name else firstTaken (name :: taken) names

/-- Looks for a name that is the name of a column, or stands among the names before it. -/
def Table.checkNames (t : Table) (names : List String) : Outcome Table :=
  match firstTaken (t.columns.map Column.name) names with
  | some name => .error ⟨.duplicateColumn t.name name, t⟩
  | none => .ok t

/-- Loads a table from a JSON file: a partition that reads it, and a column for each name. The
    names and the path are looked at before anything is put in, and the partition is made apart
    from the table. -/
def Table.bindToJson (t : Table) (tag : Nat → String) (path : String)
    (columns : List (String × DataType)) (group : Option String) (current : String := "/") :
    Except (Failure Table) Table := do
  let t ← t.checkNames (columns.map Prod.fst)
  let reader := (Partition.fresh (some t.name) group).setToJsonReader path columns current
  let partition ← keeping t (told reader)
  let fresh := columns.mapIdx fun i column =>
    Column.imported (tag i) column.1 column.2 (some column.1)
  let t := { t with columns := t.columns ++ fresh }
  pure { t with partitions := t.partitions ++ [partition] }

end Tabular.Model
