/- A model as a store of entities by keys: keys stay distinct, and insertions find what they add. -/
import Tabular.Proofs.Model.Distinct
import Tabular.Proofs.Model.Invariant

namespace Tabular.Model
open Tabular.Json Tabular.Query
variable {config : Config} {g g' : Graph} {t : Table} {doc : Value} {ms : Members} {key : String}

/-- The elements of a list of a document; null and a missing list have none. -/
def listOf (ms : Members) (key : String) : List Value := (listed? (ms.read key)).getD []

def textOf (key : String) (doc : Value) : String :=
  match doc.members.read key with
  | .str text => text
  | _ => ""

/-- Whether no two columns of the document of a table share a name that is not blank, and no two
    measures a name. -/
structure DistinctTable (doc : Value) : Prop where
  columns : (((listOf doc.members "columns").map (textOf "name")).filter (· ≠ "")).Nodup
  measures : ((listOf doc.members "measures").map (textOf "name")).Nodup

instance : Decidable (DistinctTable doc) :=
  decidable_of_iff
    ((((listOf doc.members "columns").map (textOf "name")).filter (· ≠ "")).Nodup ∧
      ((listOf doc.members "measures").map (textOf "name")).Nodup)
    ⟨fun ⟨columns, measures⟩ => ⟨columns, measures⟩, fun ⟨columns, measures⟩ => ⟨columns, measures⟩⟩

/-- Whether no two entities in a document have the same key. -/
structure DistinctDocument (doc : Value) : Prop where
  tables : ((listOf (modelOf doc) "tables").map (textOf "name")).Nodup
  inTables : ∀ table ∈ listOf (modelOf doc) "tables", DistinctTable table
  relationships : ((listOf (modelOf doc) "relationships").map fun r =>
    s(textOf "fromTable" r, textOf "toTable" r)).Nodup
  queryGroups : ((listOf (modelOf doc) "queryGroups").map (textOf "folder")).Nodup

theorem textOf_eq {text : String} (hdoc : doc = .obj ms) (h : ms.read key = .str text) :
    textOf key doc = text := by
  rw [textOf, hdoc, Value.members_obj, h]

theorem Listing.map_eq {α β : Type} {R : Value → α → Prop} {as : List α} {f : Value → β}
    {k : α → β} (h : Listing R (ms.read key) as) (hR : ∀ doc a, R doc a → f doc = k a) :
    (listOf ms key).map f = as.map k := by
  obtain ⟨docs, hdocs, hload⟩ := h
  rw [listOf, hdocs, Option.getD_some]
  clear hdocs
  induction hload with
  | nil => rfl
  | cons hdoc _ ih => rw [List.map_cons, List.map_cons, hR _ _ hdoc, ih]

theorem Listing.exists_of_mem {α : Type} {R : Value → α → Prop} {as : List α} {a : α}
    (h : Listing R (ms.read key) as) (ha : a ∈ as) : ∃ doc ∈ listOf ms key, R doc a := by
  obtain ⟨docs, hdocs, hload⟩ := h
  rw [listOf, hdocs, Option.getD_some]
  clear hdocs
  induction hload with
  | nil => cases ha
  | @cons doc b docs bs hdoc _ ih =>
      rcases List.mem_cons.mp ha with rfl | hmem
      · exact ⟨doc, List.mem_cons_self, hdoc⟩
      · obtain ⟨doc', hdoc', hR⟩ := ih hmem
        exact ⟨doc', List.mem_cons_of_mem _ hdoc', hR⟩

theorem Table.Loaded.distinct (h : Table.Loaded doc t) (hdoc : DistinctTable doc) :
    t.Distinct where
  columns := by
    rw [← h.columns.map_eq fun _ _ hc => textOf_eq hc.stored hc.name]
    exact hdoc.columns
  measures := by
    rw [← h.measures.map_eq fun _ _ hm => textOf_eq hm.stored hm.name]
    exact hdoc.measures

theorem Graph.Loaded.distinct {fresh : String} (h : Graph.Loaded fresh config doc g)
    (hdoc : DistinctDocument doc) : g.Distinct where
  tables := by
    rw [← h.tables.map_eq fun _ _ ht => textOf_eq ht.object ht.name]
    exact hdoc.tables
  inTables := by
    intro t ht
    obtain ⟨table, htable, hloaded⟩ := h.tables.exists_of_mem ht
    exact hloaded.distinct (hdoc.inTables table htable)
  relationships := by
    have hpair : ∀ doc r, Relationship.Loaded doc r →
        s(textOf "fromTable" doc, textOf "toTable" doc) = r.pair := by
      intro doc r hr
      rw [textOf_eq hr.stored hr.fromTable, textOf_eq hr.stored hr.toTable, Relationship.pair]
    rw [← h.relationships.map_eq hpair]
    exact hdoc.relationships
  queryGroups := by
    have hfolder : ∀ doc folder, Folder doc folder → textOf "folder" doc = (fun f => f) folder :=
      fun _ _ hg => textOf_eq hg.1 hg.2
    rw [← List.map_id' g.queryGroups, ← h.queryGroups.map_eq hfolder]
    exact hdoc.queryGroups

/-- The calendar always loads, so only its name can be in the way of its insertion. -/
theorem exists_load_dateTable : ∃ t, (Table.load dateTableName dateTable).result = .ok t ∧
    t.name = dateTableName := by
  have hload : ∃ t, (Table.load dateTableName dateTable).result = .ok t := ⟨_, rfl⟩
  obtain ⟨t, ht⟩ := hload
  have hname : dateTable.members.read "name" = .str dateTableName := rfl
  exact ⟨t, ht, Value.str.inj ((Table.load_eq_ok.mp ht).name.symm.trans hname)⟩

theorem distinct_dateTable : DistinctTable dateTable := by decide

theorem Graph.insertDateTable_eq (g : Graph)
    (h : (Table.load dateTableName dateTable).result = .ok t) :
    g.insertDateTable.result = g.insertTable t := by
  rw [Graph.insertDateTable_result, h]
  rfl

theorem Graph.Operation.distinct {op : Graph → Outcome Graph} (hop : Graph.Operation op)
    (h : g.Distinct) (heq : op g = .ok g') : g'.Distinct := by
  cases hop with
  | newTable tag name => exact h.insertTable (Table.distinct_fresh tag name) heq
  | insertDateTable =>
      obtain ⟨t, ht, heq⟩ := Graph.exists_of_insertDateTable heq
      exact h.insertTable ((Table.load_eq_ok.mp ht).distinct distinct_dateTable) heq
  | insertQueryGroup name =>
      cases heq
      exact h.insertQueryGroup name
  | newRelationship name source table column => exact h.newRelationship heq
  | clear =>
      cases heq
      exact h.clearTables.clearRelationships.clearQueryGroups
  | clearTables =>
      cases heq
      exact h.clearTables
  | clearRelationships =>
      cases heq
      exact h.clearRelationships
  | clearQueryGroups =>
      cases heq
      exact h.clearQueryGroups
  | table name hop => exact h.editTable hop heq
  | relationship a b both => exact h.editRelationship heq

theorem Graph.Distinct.run {ops : List (Graph → Outcome Graph)} (h : g.Distinct)
    (hops : ∀ op ∈ ops, Graph.Operation op) : (run g ops).Distinct :=
  run_keeps (fun op hop _ hg =>
    (hops op hop).atomic.attempt_keeps (fun _ heq => (hops op hop).distinct hg heq) hg) h

/-- The models that operations start from: empty ones, and those of documents whose keys are
    distinct. -/
inductive Graph.Start (config : Config) : Graph → Prop where
  | empty (id : String) : Graph.Start config (Graph.empty id config)
  | document (id : String) (doc : Value) (g : Graph) : DistinctDocument doc →
      (Graph.load id config doc).result = .ok g → Graph.Start config g

theorem Graph.Start.distinct (h : g.Start config) : g.Distinct := by
  cases h with
  | empty id => exact Graph.distinct_empty id config
  | document id doc g hdoc hload => exact (Graph.load_eq_ok.mp hload).distinct hdoc

/-- That each insertion of one entity fails just when its key is present, and is found by its key
    otherwise, while other keys find what they have found before. -/
structure Graph.InsertsByKey (g : Graph) : Prop where
  newTable : ∀ tag name, tableKind.Inserts g name (.fresh tag name) (g.newTable tag name)
  insertDateTable : ∃ t, (Table.load dateTableName dateTable).result = .ok t ∧
    tableKind.Inserts g dateTableName t g.insertDateTable.result
  newColumn : ∀ table t, g.table table = .ok t → ∀ tag name type source,
    columnKind.within.Inserts g (table, name)
      (.imported tag name type (source.or (if name = "" then none else some name)))
      (g.editTable table fun t => t.newColumn tag name type source)
  newFormulaColumn : ∀ table t, g.table table = .ok t → ∀ tag name formula type summarizeBy,
    columnKind.within.Inserts g (table, name)
      (.calculated tag name (.str formula) type summarizeBy)
      (g.editTable table fun t => t.newFormulaColumn tag name formula type summarizeBy)
  newBin : ∀ table t, g.table table = .ok t → ∀ tag column increment options,
    columnKind.within.Inserts g (table, options.name.getD (column ++ "_bin"))
      (.bin tag (options.name.getD (column ++ "_bin")) (options.table.getD table) column increment
        options.dataType)
      (g.editTable table fun t => t.newBin tag column increment options)
  newQuotient : ∀ table t, g.table table = .ok t → ∀ tag numerator denominator options,
    columnKind.within.Inserts g
      (table, options.name.getD (numerator ++ "_per_" ++ denominator))
      (.calculated tag (options.name.getD (numerator ++ "_per_" ++ denominator))
        (.str (quotient table numerator denominator options.table)) options.dataType
        options.summarizeBy)
      (g.editTable table fun t => t.newQuotient tag numerator denominator options)
  newMeasure : ∀ table t, g.table table = .ok t → ∀ tag name,
    measureKind.within.Inserts g (table, name) (.fresh tag name)
      (g.editTable table fun t => t.newMeasure tag name)
  newRelationship : ∀ name source table column,
    relationshipKind.Inserts g (source.table, table)
      (.fresh name source ⟨table, column.getD source.column⟩)
      (g.newRelationship name source table column)

theorem Graph.name_of_table {name : String} (h : g.table name = .ok t) : t.name = name := by
  rw [Graph.table_eq_found, found_eq_ok] at h
  obtain ⟨_, hfirst⟩ := h
  exact eq_of_beq hfirst.test

/-- An operation on a table that comes down to the insertion of a column. -/
theorem Graph.insertColumn_inserts {name : String} {op : Table → Outcome Table} {c : Column}
    (ht : g.table name = .ok t) (hop : op t = t.insertColumn c) (hkey : c.name = key) :
    columnKind.within.Inserts g (name, key) c (g.editTable name op) := by
  subst hkey
  have hinserts : columnKind.Inserts t c.name c (op t) := hop ▸ t.insertColumn_inserts c
  exact hinserts.within ht fun t' heq => (Table.insertColumn_keeps (hop ▸ heq)).1

theorem Graph.insertsByKey (g : Graph) : g.InsertsByKey where
  newTable tag name := g.insertTable_inserts (.fresh tag name)
  insertDateTable := by
    obtain ⟨t, ht, hname⟩ := exists_load_dateTable
    refine ⟨t, ht, ?_⟩
    rw [g.insertDateTable_eq ht, ← hname]
    exact g.insertTable_inserts t
  newColumn table t ht tag name type source := Graph.insertColumn_inserts ht rfl rfl
  newFormulaColumn table t ht tag name formula type summarizeBy :=
    Graph.insertColumn_inserts ht rfl rfl
  newBin table t ht tag column increment options := by
    cases Graph.name_of_table ht
    exact Graph.insertColumn_inserts ht rfl rfl
  newQuotient table t ht tag numerator denominator options := by
    cases Graph.name_of_table ht
    exact Graph.insertColumn_inserts ht rfl rfl
  newMeasure table t ht tag name :=
    (t.newMeasure_inserts tag name).within ht fun _ heq => (Table.newMeasure_keeps heq).1
  newRelationship := g.newRelationship_inserts

/-- Whatever operations follow on a model whose keys are distinct, those that fail among them, keys
    stay distinct. Each insertion of one entity fails just when its key is present, and is found by
    its key otherwise, while other keys find what they have found before. An operation that fails
    leaves the model as it is. -/
theorem Graph.Start.keyed_store (h : g.Start config) (ops : List (Graph → Outcome Graph))
    (hops : ∀ op ∈ ops, Graph.Operation op) :
    (run g ops).Distinct ∧ (run g ops).InsertsByKey ∧
      ∀ op failure, Graph.Operation op → op (run g ops) = .error failure →
        failure.left = run g ops ∧ run g (ops ++ [op]) = run g ops := by
  refine ⟨h.distinct.run hops, (run g ops).insertsByKey, fun op failure hop hfails => ?_⟩
  refine ⟨hop.atomic _ failure hfails, ?_⟩
  rw [run_append]
  exact hop.atomic.attempt_of_error hfails

/-- A document whose keys are distinct, with two columns that have no name. -/
def keyedDocument : Value :=
  .obj [("model", .obj
    [("tables", .arr
      [.obj
        [("name", .str "Sales"),
          ("columns", .arr
            [.obj [("name", .str "Region"), ("dataType", .str "string")],
              .obj [("name", .str ""), ("dataType", .str "int64")],
              .obj [("name", .str ""), ("dataType", .str "int64")]]),
          ("measures", .arr [.obj [("name", .str "Total"), ("expression", .str "1 + 2")]])]]),
      ("relationships", .arr
        [.obj
          [("name", .str "r"), ("fromTable", .str "Sales"), ("fromColumn", .str "Region"),
            ("toTable", .str "Stores"), ("toColumn", .str "Region")]]),
      ("queryGroups", .arr [.obj [("folder", .str "Staging")]])])]

/-- Some edits of this document, of which those fail that put in a key for the second time. -/
def keyedEdits : List GraphEdit :=
  [.newTable "t" "Stores",
    .newTable "t" "Sales",
    .table "Sales" (.newColumn "c" "" "any" none),
    .table "Sales" (.newColumn "c" "Region" "any" none),
    .newRelationship "r" ⟨"Stores", "Region"⟩ "Sales" none,
    .insertQueryGroup "Staging",
    .clearRelationships,
    .newRelationship "r" ⟨"Stores", "Region"⟩ "Sales" none]

theorem Graph.keyed_store_keyedDocument : ∃ g : Graph, g.Start Config.default ∧
    (g.after keyedEdits).Distinct ∧
      (g.after keyedEdits).InsertsByKey := by
  have hload : ∃ g, (Graph.load "g" Config.default keyedDocument).result = .ok g := ⟨_, rfl⟩
  obtain ⟨g, hg⟩ := hload
  have hstart : g.Start Config.default :=
    .document "g" keyedDocument g ⟨by decide, by decide, by decide, by decide⟩ hg
  have hops : ∀ op ∈ keyedEdits.map GraphEdit.apply, Graph.Operation op := by
    refine List.forall_mem_map.mpr fun edit hedit => edit.operation ?_
    rintro id d rfl
    simp [keyedEdits] at hedit
  obtain ⟨hdistinct, hinserts, _⟩ := Graph.Start.keyed_store hstart _ hops
  exact ⟨g, hstart, hdistinct, hinserts⟩

end Tabular.Model
