/- What every edit of a model preserves. -/
import Tabular.Proofs.Model.First
import Tabular.Proofs.Model.Graph
import Tabular.Proofs.Model.Operation

namespace Tabular.Model
open Tabular.Json Tabular.Query
variable {config : Config} {g g' : Graph} {t t' : Table} {p p' : Partition} {c : Column}
  {m : Measure} {α : Type} {as as' : List α}

theorem forall_mem_modify {P : α → Prop} {f : α → α} (hf : ∀ a, P a → P (f a))
    (h : ∀ a ∈ as, P a) (i : Nat) : ∀ a ∈ as.modify i f, P a := by
  induction as generalizing i with
  | nil =>
      rw [List.modify_nil]
      exact h
  | cons a as ih =>
      obtain ⟨ha, has⟩ := List.forall_mem_cons.mp h
      cases i with
      | zero => exact List.forall_mem_cons.mpr ⟨hf a ha, has⟩
      | succ i => exact List.forall_mem_cons.mpr ⟨ha, ih has i⟩

theorem forall_mem_concat {P : α → Prop} {a : α} (h : ∀ a ∈ as, P a) (ha : P a) :
    ∀ b ∈ as ++ [a], P b :=
  List.forall_mem_append.mpr ⟨h, List.forall_mem_singleton.mpr ha⟩

theorem Column.Sound.apply (h : c.Sound) (edit : ColumnEdit) : (edit.apply c).Sound := by
  cases edit with
  | dataType name => exact h.setDataType (DataType.parsed_ofName name)
  | sourceColumn source => exact h.setSourceColumn source

theorem Measure.Sound.apply (h : m.Sound) (edit : MeasureEdit) : (edit.apply m).Sound := by
  cases edit with
  | expression text type => exact h.setExpression text (DataType.parsed_ofName type)
  | format pattern => exact h.setFormat pattern
  | retentionRate table column => exact h.setToRetentionRate table column

theorem Partition.Sound.setToJsonReader (h : p.Sound) {file current : String}
    {columns : List (String × DataType)}
    (hp : p.setToJsonReader file columns current = .ok p') : p'.Sound := by
  obtain ⟨_, _, rfl⟩ := Partition.setToJsonReader_eq_ok.mp hp
  exact ⟨h.keyed⟩

theorem Partition.Sound.apply (h : p.Sound) (edit : PartitionEdit) (heq : edit.apply p = .ok p') :
    p'.Sound := by
  cases edit with
  | queryGroup group =>
      cases heq
      exact h.setQueryGroup group
  | jsonReader path columns current => exact h.setToJsonReader heq
  | steps edit =>
      cases heq
      exact ⟨h.keyed⟩

theorem Table.sound_fresh (tag name : String) : (Table.fresh tag name).Sound := by
  refine ⟨?_, ?_, ?_, ?_⟩
  · simp [Table.fresh, Value.keyed_obj, Value.keyed_arr, Members.keys]
  · exact List.forall_mem_singleton.mpr Column.sound_rowNumber
  · exact fun _ hmem => absurd hmem List.not_mem_nil
  · exact fun _ hmem => absurd hmem List.not_mem_nil

theorem Table.Sound.insertColumn (h : t.Sound) (hc : c.Sound) (heq : t.insertColumn c = .ok t') :
    t'.Sound := by
  cases Table.eq_of_insertColumn heq
  exact { h with columns := forall_mem_concat h.columns hc }

theorem Table.Sound.newMeasure (h : t.Sound) {tag name : String}
    (heq : t.newMeasure tag name = .ok t') : t'.Sound := by
  cases Table.eq_of_newMeasure heq
  exact { h with measures := forall_mem_concat h.measures (Measure.sound_fresh tag name) }

theorem Table.Sound.newPartition (h : t.Sound) (name group : Option String) :
    (t.newPartition name group).Sound :=
  { h with partitions := forall_mem_concat h.partitions (Partition.sound_fresh _ group) }

theorem Table.Sound.bindToJson (h : t.Sound) {tag : Nat → String} {path current : String}
    {columns : List (String × DataType)} {group : Option String}
    (hcolumns : ∀ column ∈ columns, column.2.Parsed)
    (heq : t.bindToJson tag path columns group current = .ok t') : t'.Sound := by
  obtain ⟨_, file, _, rfl⟩ := Table.bindToJson_eq_ok.mp heq
  refine ⟨h.keyed, ?_, ?_, h.measures⟩
  · apply List.forall_mem_append.mpr ⟨h.columns, ?_⟩
    intro c hc
    obtain ⟨i, hi, rfl⟩ := List.mem_mapIdx.mp hc
    exact Column.sound_imported _ _ (hcolumns _ (List.getElem_mem hi)) _
  · exact forall_mem_concat h.partitions ⟨(Partition.sound_fresh _ group).keyed⟩

theorem parsed_typedColumns (columns : List (String × String)) :
    ∀ column ∈ typedColumns columns, column.2.Parsed := by
  rw [typedColumns, List.forall_mem_map]
  exact fun column _ => DataType.parsed_ofName column.2

theorem Table.Sound.editPartition (h : t.Sound) (hp : p.Sound) (i : Nat) :
    (t.editPartition i fun _ => p).Sound :=
  { h with partitions := forall_mem_modify (fun _ _ => hp) h.partitions i }

theorem Table.Sound.apply (h : t.Sound) (edit : TableEdit) (heq : edit.apply t = .ok t') :
    t'.Sound := by
  cases edit with
  | hidden flag =>
      cases heq
      exact { h with }
  | newColumn tag name type source =>
      exact h.insertColumn (Column.sound_imported _ _ (DataType.parsed_ofName type) _) heq
  | newFormulaColumn tag name formula type summarizeBy =>
      exact h.insertColumn (Column.sound_calculated _ _ (Value.keyed_str formula)
        (DataType.parsed_ofName type) summarizeBy) heq
  | newBin tag target increment table name type =>
      exact h.insertColumn (Column.sound_bin _ _ _ _ increment (DataType.parsed_ofName type)) heq
  | newQuotient tag numerator denominator table name type summarizeBy =>
      exact h.insertColumn (Column.sound_calculated _ _ (Value.keyed_str _)
        (DataType.parsed_ofName type) summarizeBy) heq
  | newMeasure tag name => exact h.newMeasure heq
  | newPartition name group =>
      cases heq
      exact h.newPartition name group
  | bindToJson tag path columns group current => exact h.bindToJson (parsed_typedColumns columns) heq
  | column name edit =>
      obtain ⟨columns, hcolumns, rfl⟩ := inPart_eq_ok.mp heq
      refine { h with columns := editFirst_forall ?_ h.columns hcolumns }
      intro c c' hc hedit
      cases hedit
      exact hc.apply edit
  | lastColumn edit =>
      cases heq
      exact { h with columns := forall_mem_modify (fun _ hc => hc.apply edit) h.columns _ }
  | measure name edit =>
      obtain ⟨measures, hmeasures, rfl⟩ := inPart_eq_ok.mp heq
      refine { h with measures := editFirst_forall ?_ h.measures hmeasures }
      intro m m' hm hedit
      cases hedit
      exact hm.apply edit
  | partition i edit =>
      obtain ⟨p, p', hp, hp', rfl⟩ | ⟨_, rfl⟩ := Table.changePartition_eq_ok.mp heq
      · exact h.editPartition ((h.partitions p (List.mem_of_getElem? hp)).apply edit hp') i
      · exact h

theorem Graph.sound_empty (id : String) (config : Config) : (Graph.empty id config).Sound where
  root := by simp [Graph.empty, Value.keyed_obj, Members.keys]
  model := by
    simp [Graph.empty, defaultModel, remark, Value.keyed_obj, Value.keyed_arr, Members.keys]
  tables := fun _ hmem => absurd hmem List.not_mem_nil
  relationships := fun _ hmem => absurd hmem List.not_mem_nil
  queryGroups := rfl

theorem Graph.Sound.load (hd : Document) {fresh : String}
    (heq : (Graph.load fresh config hd.value).result = .ok g) : g.Sound :=
  (Graph.load_eq_ok.mp heq).sound hd.keyed

theorem Graph.Sound.insertTable (h : g.Sound) (ht : t.Sound) (heq : g.insertTable t = .ok g') :
    g'.Sound := by
  cases Graph.eq_of_insertTable heq
  exact { h with tables := forall_mem_concat h.tables ht }

theorem keyed_dateTable : dateTable.Keyed := by decide

theorem Graph.Sound.insertDateTable (h : g.Sound) (heq : g.insertDateTable.result = .ok g') :
    g'.Sound := by
  obtain ⟨t, ht, heq⟩ := Graph.exists_of_insertDateTable heq
  exact h.insertTable ((Table.load_eq_ok.mp ht).sound keyed_dateTable) heq

theorem Graph.Sound.insertQueryGroup (h : g.Sound) (name : String) :
    (g.insertQueryGroup name).Sound := by
  rw [Graph.insertQueryGroup]
  split
  · exact h
  · exact { h with }

theorem Graph.Sound.newRelationship (h : g.Sound) {name target : String} {source : Endpoint}
    {column : Option String} (heq : g.newRelationship name source target column = .ok g') :
    g'.Sound := by
  cases Graph.eq_of_newRelationship heq
  refine { h with relationships := ?_ }
  exact forall_mem_concat h.relationships (Relationship.sound_fresh name source _)

theorem Graph.Keyed.clearTables (h : g.Keyed) : g.clearTables.Keyed where
  root := h.root
  model := Members.keyed_replace h.model "tables" trivial
  tables := fun _ hmem => absurd hmem List.not_mem_nil
  relationships := h.relationships
  queryGroups := by
    rw [Graph.clearTables, Members.replace, Members.read_update_of_ne (by decide)]
    exact h.queryGroups

theorem Graph.Keyed.clearRelationships (h : g.Keyed) : g.clearRelationships.Keyed where
  root := h.root
  model := Members.keyed_replace h.model "relationships" trivial
  tables := h.tables
  relationships := fun _ hmem => absurd hmem List.not_mem_nil
  queryGroups := by
    rw [Graph.clearRelationships, Members.replace, Members.read_update_of_ne (by decide)]
    exact h.queryGroups

theorem Graph.Keyed.clearQueryGroups (h : g.Keyed) : g.clearQueryGroups.Keyed where
  root := h.root
  model := Members.keyed_replace h.model "queryGroups" trivial
  tables := h.tables
  relationships := h.relationships
  queryGroups := listed?_read_replace rfl g.model

theorem Graph.Sound.of_keyed (h : g.Keyed) (htables : ∀ t ∈ g.tables, t.Sound)
    (hrelationships : ∀ r ∈ g.relationships, r.Sound) : g.Sound :=
  ⟨h.root, h.model, htables, hrelationships, h.queryGroups⟩

theorem Graph.Sound.clearTables (h : g.Sound) : g.clearTables.Sound :=
  .of_keyed h.toKeyed.clearTables (fun _ hmem => absurd hmem List.not_mem_nil) h.relationships

theorem Graph.Sound.clearRelationships (h : g.Sound) : g.clearRelationships.Sound :=
  .of_keyed h.toKeyed.clearRelationships h.tables fun _ hmem => absurd hmem List.not_mem_nil

theorem Graph.Sound.clearQueryGroups (h : g.Sound) : g.clearQueryGroups.Sound :=
  .of_keyed h.toKeyed.clearQueryGroups h.tables h.relationships

/-- An edit of a model keeps it sound. -/
theorem Graph.Sound.apply (h : g.Sound) (edit : GraphEdit) (heq : edit.apply g = .ok g') :
    g'.Sound := by
  cases edit with
  -- Only this edit takes members from outside; the invariant comes from the document here.
  | load id doc => exact Graph.Sound.load doc (keeping_eq_ok.mp heq)
  | newTable tag name => exact h.insertTable (Table.sound_fresh tag name) heq
  | insertDateTable => exact h.insertDateTable heq
  | insertQueryGroup name =>
      cases heq
      exact h.insertQueryGroup name
  | newRelationship name source target column => exact h.newRelationship heq
  | clear =>
      cases heq
      exact h.clearTables.clearRelationships.clearQueryGroups
  | clearTables =>
      cases heq
      exact h.clearTables
  | clearRelationships =>
      cases heq
      exact h.clearRelationships
  | clearQueryGroups =>
      cases heq
      exact h.clearQueryGroups
  | table name edit =>
      obtain ⟨tables, htables, rfl⟩ := inPart_eq_ok.mp heq
      exact { h with
        tables := editFirst_forall (fun t t' ht hedit => ht.apply edit hedit) h.tables htables }
  | relationship a b both =>
      obtain ⟨relationships, hrelationships, rfl⟩ := inPart_eq_ok.mp heq
      refine { h with relationships := editFirst_forall ?_ h.relationships hrelationships }
      intro r r' hr hedit
      cases hedit
      exact hr.setBothDirections both

/-- What every edit that succeeds keeps, some edits keep of which any may fail. -/
theorem Graph.after_keeps {P : Graph → Prop}
    (hedit : ∀ edit : GraphEdit, ∀ g g', P g → edit.apply g = .ok g' → P g') (h : P g)
    (edits : List GraphEdit) : P (g.after edits) := by
  refine run_keeps (List.forall_mem_map.mpr fun edit _ g hg => ?_) h
  exact edit.atomic.attempt_keeps (fun g' heq => hedit edit g g' hg heq) hg

theorem Graph.Sound.after (h : g.Sound) (edits : List GraphEdit) : (g.after edits).Sound :=
  Graph.after_keeps (fun edit _ _ hg heq => hg.apply edit heq) h edits

theorem Graph.Reachable.sound (h : g.Reachable config) : g.Sound := by
  cases h with
  | empty id edits => exact (Graph.sound_empty id config).after edits
  | document id d g edits hload => exact (Graph.Sound.load d hload).after edits

theorem Graph.insertTable_config (heq : g.insertTable t = .ok g') : g'.config = g.config := by
  cases Graph.eq_of_insertTable heq
  rfl

theorem GraphEdit.apply_config {edit : GraphEdit} (heq : edit.apply g = .ok g') :
    g'.config = g.config := by
  cases edit with
  | load id doc => exact (Graph.load_eq_ok.mp (keeping_eq_ok.mp heq)).config
  | newTable tag name => exact Graph.insertTable_config heq
  | insertDateTable =>
      obtain ⟨t, _, heq⟩ := Graph.exists_of_insertDateTable heq
      exact Graph.insertTable_config heq
  | insertQueryGroup name =>
      cases heq
      rw [Graph.insertQueryGroup]
      split <;> rfl
  | newRelationship name source target column =>
      cases Graph.eq_of_newRelationship heq
      rfl
  | table name edit =>
      obtain ⟨tables, _, rfl⟩ := inPart_eq_ok.mp heq
      rfl
  | relationship a b both =>
      obtain ⟨relationships, _, rfl⟩ := inPart_eq_ok.mp heq
      rfl
  | _ =>
      cases heq
      rfl

theorem Graph.after_config (g : Graph) (edits : List GraphEdit) :
    (g.after edits).config = g.config :=
  Graph.after_keeps (P := fun g' => g'.config = g.config)
    (fun _ _ _ hconfig heq => (GraphEdit.apply_config heq).trans hconfig) rfl edits

theorem Graph.Reachable.config_eq (h : g.Reachable config) : g.config = config := by
  cases h with
  | empty id edits => exact Graph.after_config _ edits
  | document id d g edits hload =>
      rw [Graph.after_config, (Graph.load_eq_ok.mp hload).config]

end Tabular.Model
