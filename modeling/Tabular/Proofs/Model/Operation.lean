/- The operations on a model: what each of them makes of it, and that none changes it and fails. -/
import Tabular.Proofs.Model.Edit

namespace Tabular.Model
open Tabular.Json Tabular.Query
variable {g g' : Graph} {t t' : Table} {c : Column} {path current : String}
  {columns : List (String × DataType)} {group : Option String} {tag : Nat → String}

theorem Partition.setToJsonReader_eq_ok {p p' : Partition} :
    p.setToJsonReader path columns current = .ok p' ↔
      ∃ file, resolveSource path current = .ok file ∧
        p' = { p with steps := Chain.readJson file columns, sourceType := "m" } := by
  simp only [Partition.setToJsonReader, bind_eq_ok, pure_eq_ok, keeping_eq_ok]
  exact exists_congr fun file => and_congr_right fun _ => eq_comm

theorem Partition.setToJsonReader_eq_error {p : Partition} {failure : Failure Partition} :
    p.setToJsonReader path columns current = .error failure ↔
      resolveSource path current = .error failure.fault ∧ p = failure.left := by
  rw [Partition.setToJsonReader, bind_eq_error, keeping_eq_error]
  exact or_iff_left fun ⟨_, _, h⟩ => nomatch h

theorem Table.eq_of_insertColumn (heq : t.insertColumn c = .ok t') :
    t' = { t with columns := t.columns ++ [c] } := by
  rw [Table.insertColumn] at heq
  split at heq
  · cases heq
  · cases heq
    rfl

theorem Table.eq_of_newMeasure {tag name : String} (heq : t.newMeasure tag name = .ok t') :
    t' = { t with measures := t.measures ++ [.fresh tag name] } := by
  rw [Table.newMeasure] at heq
  split at heq
  · cases heq
  · cases heq
    rfl

theorem Graph.eq_of_insertTable (heq : g.insertTable t = .ok g') :
    g' = { g with tables := g.tables ++ [t] } := by
  rw [Graph.insertTable] at heq
  split at heq
  · cases heq
  · cases heq
    rfl

/-- The date table is put in once it has been read. -/
theorem Graph.insertDateTable_result (g : Graph) : g.insertDateTable.result =
    keeping g (Table.load dateTableName dateTable).result >>= fun t => g.insertTable t := by
  rw [Graph.insertDateTable, Traced.result_bind]
  rfl

theorem Graph.exists_of_insertDateTable (heq : g.insertDateTable.result = .ok g') :
    ∃ t, (Table.load dateTableName dateTable).result = .ok t ∧ g.insertTable t = .ok g' := by
  rw [Graph.insertDateTable_result, bind_eq_ok] at heq
  obtain ⟨t, ht, heq⟩ := heq
  exact ⟨t, keeping_eq_ok.mp ht, heq⟩

theorem Graph.eq_of_newRelationship {name table : String} {source : Endpoint}
    {column : Option String} (heq : g.newRelationship name source table column = .ok g') :
    g' = { g with relationships := g.relationships ++
      [.fresh name source ⟨table, column.getD source.column⟩] } := by
  rw [Graph.newRelationship] at heq
  split at heq
  · cases heq
  · cases heq
    rfl

theorem Table.changePartition_eq_ok {op : Partition → Outcome Partition} {i : Nat} :
    t.changePartition i op = .ok t' ↔
      (∃ p p', t.partitions[i]? = some p ∧ op p = .ok p' ∧ (t.editPartition i fun _ => p') = t') ∨
        t.partitions[i]? = none ∧ t = t' := by
  rw [Table.changePartition]
  cases t.partitions[i]? with
  | some p => simp only [inPart_eq_ok, Option.some.injEq, exists_eq_left', exists_and_left,
      reduceCtorEq, false_and, or_false]
  | none => simp only [Except.ok.injEq, reduceCtorEq, false_and, exists_false, true_and, false_or]

theorem Table.checkNames_eq_ok {names : List String} : t.checkNames names = .ok t' ↔
    firstTaken (t.columns.map Column.name) names = none ∧ t = t' := by
  rw [Table.checkNames]
  cases firstTaken (t.columns.map Column.name) names with
  | none => simp only [Except.ok.injEq, true_and]
  | some name => simp only [reduceCtorEq, false_and]

theorem Table.checkNames_eq_error {names : List String} {failure : Failure Table} :
    t.checkNames names = .error failure ↔
      ∃ name, firstTaken (t.columns.map Column.name) names = some name ∧
        ⟨.duplicateColumn t.name name, t⟩ = failure := by
  rw [Table.checkNames]
  cases firstTaken (t.columns.map Column.name) names with
  | none => simp only [reduceCtorEq, false_and, exists_false]
  | some name => simp only [Except.error.injEq, Option.some.injEq, exists_eq_left']

/-- A table with all that binding it to a JSON file puts in. -/
def Table.withReader (t : Table) (tag : Nat → String) (file : String)
    (columns : List (String × DataType)) (group : Option String) : Table :=
  { t with
    columns := t.columns ++ columns.mapIdx fun i column =>
      Column.imported (tag i) column.1 column.2 (some column.1)
    partitions := t.partitions ++
      [{ Partition.fresh (some t.name) group with
          steps := Chain.readJson file columns, sourceType := "m" }] }

theorem Table.bindToJson_eq_ok : t.bindToJson tag path columns group current = .ok t' ↔
    firstTaken (t.columns.map Column.name) (columns.map Prod.fst) = none ∧
      ∃ file, resolveSource path current = .ok file ∧
        t' = t.withReader tag file columns group := by
  simp only [Table.bindToJson, bind_eq_ok, Table.checkNames_eq_ok, keeping_eq_ok, told_eq_ok,
    Partition.setToJsonReader_eq_ok, pure_eq_ok]
  constructor
  · rintro ⟨_, ⟨hnone, rfl⟩, _, ⟨file, hfile, rfl⟩, rfl⟩
    exact ⟨hnone, file, hfile, rfl⟩
  · rintro ⟨hnone, file, hfile, rfl⟩
    exact ⟨t, ⟨hnone, rfl⟩, _, ⟨file, hfile, rfl⟩, rfl⟩

theorem Table.bindToJson_eq_error {failure : Failure Table} :
    t.bindToJson tag path columns group current = .error failure ↔ t = failure.left ∧
      ((∃ name, firstTaken (t.columns.map Column.name) (columns.map Prod.fst) = some name ∧
          .duplicateColumn t.name name = failure.fault) ∨
        firstTaken (t.columns.map Column.name) (columns.map Prod.fst) = none ∧
          resolveSource path current = .error failure.fault) := by
  simp only [Table.bindToJson, bind_eq_error, Table.checkNames_eq_ok, Table.checkNames_eq_error,
    keeping_eq_error, told_eq_error, Partition.setToJsonReader_eq_error]
  constructor
  · rintro (⟨name, hname, rfl⟩ | ⟨_, ⟨hnone, rfl⟩, ⟨⟨_, ⟨hfile, _⟩, hfault⟩, hleft⟩ | ⟨_, _, h⟩⟩)
    · exact ⟨rfl, .inl ⟨name, hname, rfl⟩⟩
    · exact ⟨hleft, .inr ⟨hnone, hfault ▸ hfile⟩⟩
    · cases h
  · rintro ⟨hleft, ⟨name, hname, hfault⟩ | ⟨hnone, hfile⟩⟩
    · refine .inl ⟨name, hname, ?_⟩
      rw [hfault, hleft]
    · exact .inr ⟨t, ⟨hnone, rfl⟩, .inl ⟨⟨⟨failure.fault, _⟩, ⟨hfile, rfl⟩, rfl⟩, hleft⟩⟩

inductive Column.Operation : (Column → Column) → Prop where
  | dataType (type : DataType) : Column.Operation fun c => c.setDataType type
  | sourceColumn (source : Option String) : Column.Operation fun c => c.setSourceColumn source

inductive Measure.Operation : (Measure → Measure) → Prop where
  | expression (text : String) (type : DataType) :
      Measure.Operation fun m => m.setExpression text type
  | format (pattern : String) : Measure.Operation fun m => m.setFormat pattern
  | retentionRate (table column : String) :
      Measure.Operation fun m => m.setToRetentionRate table column

/-- The operations on a partition, among them every change of its steps. -/
inductive Partition.Operation : (Partition → Outcome Partition) → Prop where
  | queryGroup (group : Option String) :
      Partition.Operation fun p => .ok (p.setQueryGroup group)
  | jsonReader (path : String) (columns : List (String × DataType)) (current : String) :
      Partition.Operation fun p => p.setToJsonReader path columns current
  | steps (edit : Chain → Chain) : Partition.Operation fun p => .ok { p with steps := edit p.steps }

/-- The operations on a table and its entities. A column is reached by its name, or by its place
    when it has just been put in. -/
inductive Table.Operation : (Table → Outcome Table) → Prop where
  | hidden (flag : Bool) : Table.Operation fun t => .ok (t.setHidden flag)
  | newColumn (tag name : String) (type : DataType) (source : Option String) :
      Table.Operation fun t => t.newColumn tag name type source
  | newFormulaColumn (tag name formula : String) (type : DataType) (summarizeBy : SummarizeBy) :
      Table.Operation fun t => t.newFormulaColumn tag name formula type summarizeBy
  | newBin (tag column : String) (increment : Float) (options : BinOptions) :
      Table.Operation fun t => t.newBin tag column increment options
  | newQuotient (tag numerator denominator : String) (options : QuotientOptions) :
      Table.Operation fun t => t.newQuotient tag numerator denominator options
  | newMeasure (tag name : String) : Table.Operation fun t => t.newMeasure tag name
  | newPartition (name group : Option String) :
      Table.Operation fun t => .ok (t.newPartition name group)
  | bindToJson (tag : Nat → String) (path : String) (columns : List (String × DataType))
      (group : Option String) (current : String) :
      Table.Operation fun t => t.bindToJson tag path columns group current
  | column (name : String) {edit : Column → Column} :
      Column.Operation edit → Table.Operation fun t => t.editColumn name edit
  | columnAt (place : Table → Nat) {edit : Column → Column} : Column.Operation edit →
      Table.Operation fun t => .ok { t with columns := t.columns.modify (place t) edit }
  | measure (name : String) {edit : Measure → Measure} :
      Measure.Operation edit → Table.Operation fun t => t.editMeasure name edit
  | partition (i : Nat) {op : Partition → Outcome Partition} : Partition.Operation op →
      Table.Operation fun t => t.changePartition i op

/-- The operations on a model, its tables and its relationships. -/
inductive Graph.Operation : (Graph → Outcome Graph) → Prop where
  | newTable (tag name : String) : Graph.Operation fun g => g.newTable tag name
  | insertDateTable : Graph.Operation fun g => g.insertDateTable.result
  | insertQueryGroup (name : String) : Graph.Operation fun g => .ok (g.insertQueryGroup name)
  | newRelationship (name : String) (source : Endpoint) (table : String) (column : Option String) :
      Graph.Operation fun g => g.newRelationship name source table column
  | clear : Graph.Operation fun g => .ok g.clear
  | clearTables : Graph.Operation fun g => .ok g.clearTables
  | clearRelationships : Graph.Operation fun g => .ok g.clearRelationships
  | clearQueryGroups : Graph.Operation fun g => .ok g.clearQueryGroups
  | table (name : String) {op : Table → Outcome Table} :
      Table.Operation op → Graph.Operation fun g => g.editTable name op
  | relationship (a b : String) (both : Bool) :
      Graph.Operation fun g => g.editRelationship a b fun r => r.setBothDirections both

theorem ColumnEdit.operation (edit : ColumnEdit) : Column.Operation edit.apply := by
  cases edit with
  | dataType name => exact .dataType (.ofName name)
  | sourceColumn source => exact .sourceColumn source

theorem MeasureEdit.operation (edit : MeasureEdit) : Measure.Operation edit.apply := by
  cases edit with
  | expression text type => exact .expression text (.ofName type)
  | format pattern => exact .format pattern
  | retentionRate table column => exact .retentionRate table column

theorem PartitionEdit.operation (edit : PartitionEdit) : Partition.Operation edit.apply := by
  cases edit with
  | queryGroup group => exact .queryGroup group
  | jsonReader path columns current => exact .jsonReader path (typedColumns columns) current
  | steps edit => exact .steps edit.apply

theorem TableEdit.operation (edit : TableEdit) : Table.Operation edit.apply := by
  cases edit with
  | hidden flag => exact .hidden flag
  | newColumn tag name type source => exact .newColumn tag name (.ofName type) source
  | newFormulaColumn tag name formula type summarizeBy =>
      exact .newFormulaColumn tag name formula (.ofName type) summarizeBy
  | newBin tag target increment table name type =>
      exact .newBin tag target increment ⟨table, name, .ofName type⟩
  | newQuotient tag numerator denominator table name type summarizeBy =>
      exact .newQuotient tag numerator denominator ⟨table, name, .ofName type, summarizeBy⟩
  | newMeasure tag name => exact .newMeasure tag name
  | newPartition name group => exact .newPartition name group
  | bindToJson tag path columns group current =>
      exact .bindToJson tag path (typedColumns columns) group current
  | column name edit => exact .column name edit.operation
  | lastColumn edit => exact .columnAt (fun t => t.columns.length - 1) edit.operation
  | measure name edit => exact .measure name edit.operation
  | partition i edit => exact .partition i edit.operation

/-- Every edit but loading a document is an operation. -/
theorem GraphEdit.operation (edit : GraphEdit) (h : ∀ id d, edit ≠ .load id d) :
    Graph.Operation edit.apply := by
  cases edit with
  | load id d => exact absurd rfl (h id d)
  | newTable tag name => exact .newTable tag name
  | insertDateTable => exact .insertDateTable
  | insertQueryGroup name => exact .insertQueryGroup name
  | newRelationship name source target column => exact .newRelationship name source target column
  | clear => exact .clear
  | clearTables => exact .clearTables
  | clearRelationships => exact .clearRelationships
  | clearQueryGroups => exact .clearQueryGroups
  | table name edit => exact .table name edit.operation
  | relationship a b both => exact .relationship a b both

theorem Table.leaves_insertColumn (t : Table) (c : Column) : Leaves (t.insertColumn c) t :=
  leaves_check _ t _

theorem Table.leaves_newMeasure (t : Table) (tag name : String) :
    Leaves (t.newMeasure tag name) t :=
  leaves_check _ t _

theorem Graph.leaves_insertTable (g : Graph) (t : Table) : Leaves (g.insertTable t) g :=
  leaves_check _ g _

theorem Partition.atomic_setToJsonReader (path : String) (columns : List (String × DataType))
    (current : String) : Atomic fun p : Partition => p.setToJsonReader path columns current :=
  fun _ _ h => (Partition.setToJsonReader_eq_error.mp h).2.symm

/-- Columns and partition are put in when nothing can fail any more. -/
theorem Table.atomic_bindToJson (tag : Nat → String) (path : String)
    (columns : List (String × DataType)) (group : Option String) (current : String) :
    Atomic fun t : Table => t.bindToJson tag path columns group current :=
  fun _ _ h => (Table.bindToJson_eq_error.mp h).1.symm

theorem Partition.Operation.atomic {op : Partition → Outcome Partition}
    (hop : Partition.Operation op) : Atomic op := by
  cases hop with
  | queryGroup group => exact fun _ => leaves_ok _
  | jsonReader path columns current => exact Partition.atomic_setToJsonReader path columns current
  | steps edit => exact fun _ => leaves_ok _

theorem modify_of_getElem? {α : Type} {as : List α} {i : Nat} {a : α} (h : as[i]? = some a)
    (f : α → α) : as.modify i f = as.set i (f a) := by
  rw [List.modify_eq_set_getElem?, h]
  rfl

theorem Table.leaves_changePartition {op : Partition → Outcome Partition} (hop : Atomic op)
    (t : Table) (i : Nat) : Leaves (t.changePartition i op) t := by
  rw [Table.changePartition]
  split
  · rename_i p hp
    obtain ⟨hi, hget⟩ := List.getElem?_eq_some_iff.mp hp
    refine (hop p).inPart ?_
    rw [Table.editPartition, modify_of_getElem? hp, ← hget, List.set_getElem_self]
  · exact leaves_ok t

theorem Table.Operation.atomic {op : Table → Outcome Table} (hop : Table.Operation op) :
    Atomic op := by
  intro t
  cases hop with
  | newColumn tag name type source => exact t.leaves_insertColumn _
  | newFormulaColumn tag name formula type summarizeBy => exact t.leaves_insertColumn _
  | newBin tag column increment options => exact t.leaves_insertColumn _
  | newQuotient tag numerator denominator options => exact t.leaves_insertColumn _
  | newMeasure tag name => exact t.leaves_newMeasure tag name
  | bindToJson tag path columns group current =>
      exact Table.atomic_bindToJson tag path columns group current t
  | column name hedit => exact ((Atomic.editFirst (fun _ => leaves_ok _) _ _) t.columns).inPart rfl
  | measure name hedit =>
      exact ((Atomic.editFirst (fun _ => leaves_ok _) _ _) t.measures).inPart rfl
  | partition i hop => exact t.leaves_changePartition hop.atomic i
  | _ => exact leaves_ok _

/-- An operation that fails leaves the model as it was, be it that it fails inside a table. -/
theorem Graph.Operation.atomic {op : Graph → Outcome Graph} (hop : Graph.Operation op) :
    Atomic op := by
  intro g
  cases hop with
  | newTable tag name => exact g.leaves_insertTable _
  | insertDateTable =>
      change Leaves g.insertDateTable.result g
      rw [Graph.insertDateTable_result]
      exact (leaves_keeping g _).bind fun t _ => g.leaves_insertTable t
  | newRelationship name source table column => exact leaves_check _ g _
  | table name hop => exact (hop.atomic.editFirst _ _ g.tables).inPart rfl
  | relationship a b both =>
      exact (Atomic.editFirst (fun _ => leaves_ok _) _ _ g.relationships).inPart rfl
  | _ => exact leaves_ok _

theorem GraphEdit.atomic (edit : GraphEdit) : Atomic edit.apply := by
  by_cases hload : ∃ id d, edit = .load id d
  · obtain ⟨id, d, rfl⟩ := hload
    exact fun g => leaves_keeping g _
  · exact (edit.operation fun id d h => hload ⟨id, d, h⟩).atomic

end Tabular.Model
