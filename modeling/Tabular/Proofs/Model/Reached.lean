/- The models that operations lead to, with data types of any name, and what they store. -/
import Tabular.Proofs.KeyedStore

namespace Tabular.Model
open Tabular.Json Tabular.Query
variable {g g' : Graph} {t t' : Table} {c : Column}

/-- The models that operations lead to, from an empty one on; loading a document is one more. -/
inductive Graph.Reached : Graph → Prop where
  | empty (id : String) (config : Config) : Graph.Reached (Graph.empty id config)
  | load {g g' : Graph} (id : String) (d : Document) : Graph.Reached g →
      (Graph.load id g.config d.value).result = .ok g' → Graph.Reached g'
  | step {g g' : Graph} {op : Graph → Outcome Graph} : Graph.Reached g →
      Graph.Operation op → op g = .ok g' → Graph.Reached g'

theorem Column.Operation.stored_eq {edit : Column → Column} (h : Column.Operation edit)
    (c : Column) : (edit c).stored = c.stored := by
  cases h <;> rfl

theorem Measure.Operation.stored_eq {edit : Measure → Measure} (h : Measure.Operation edit)
    (m : Measure) : (edit m).stored = m.stored := by
  cases h <;> rfl

theorem Partition.Operation.stored_eq {edit : Partition → Outcome Partition}
    (h : Partition.Operation edit) {p p' : Partition} (heq : edit p = .ok p') :
    p'.stored = p.stored := by
  cases h with
  | queryGroup group =>
      cases heq
      rfl
  | jsonReader path columns current =>
      obtain ⟨_, _, rfl⟩ := Partition.setToJsonReader_eq_ok.mp heq
      rfl
  | steps edit =>
      cases heq
      rfl

theorem Table.keyed_fresh (tag name : String) : (Table.fresh tag name).Keyed :=
  (Table.sound_fresh tag name).toKeyed

theorem Partition.keyed_fresh (name group : Option String) :
    (Value.obj (Partition.fresh name group).stored).Keyed :=
  (Partition.sound_fresh name group).keyed

theorem Table.Keyed.insertColumn (h : t.Keyed) (hc : (Value.obj c.stored).Keyed)
    (heq : t.insertColumn c = .ok t') : t'.Keyed := by
  cases Table.eq_of_insertColumn heq
  exact { h with columns := forall_mem_concat h.columns hc }

theorem Table.Keyed.bindToJson (h : t.Keyed) {tag : Nat → String} {path current : String}
    {columns : List (String × DataType)} {group : Option String}
    (heq : t.bindToJson tag path columns group current = .ok t') : t'.Keyed := by
  obtain ⟨_, file, _, rfl⟩ := Table.bindToJson_eq_ok.mp heq
  refine ⟨h.stored, ?_, ?_, h.measures⟩
  · apply List.forall_mem_append.mpr ⟨h.columns, ?_⟩
    intro c hc
    obtain ⟨i, hi, rfl⟩ := List.mem_mapIdx.mp hc
    exact Column.keyed_imported _ _ _ _
  · exact forall_mem_concat h.partitions (Partition.keyed_fresh _ group)

theorem Table.Operation.keyed {op : Table → Outcome Table} (hop : Table.Operation op)
    (h : t.Keyed) (heq : op t = .ok t') : t'.Keyed := by
  cases hop with
  | hidden flag =>
      cases heq
      exact { h with }
  | newColumn tag name type source =>
      exact h.insertColumn (Column.keyed_imported tag name type _) heq
  | newFormulaColumn tag name formula type summarizeBy =>
      exact h.insertColumn (Column.keyed_calculated tag name (Value.keyed_str formula) _ _) heq
  | newBin tag column increment options =>
      exact h.insertColumn (Column.keyed_bin tag _ _ column increment _) heq
  | newQuotient tag numerator denominator options =>
      exact h.insertColumn (Column.keyed_calculated tag _ (Value.keyed_str _) _ _) heq
  | newMeasure tag name =>
      cases Table.eq_of_newMeasure heq
      have hm := (Measure.sound_fresh tag name).keyed
      exact { h with measures := forall_mem_concat h.measures hm }
  | newPartition name group =>
      cases heq
      exact { h with partitions := forall_mem_concat h.partitions (Partition.keyed_fresh _ group) }
  | bindToJson tag path columns group current => exact h.bindToJson heq
  | column name hedit =>
      obtain ⟨columns, hcolumns, rfl⟩ := inPart_eq_ok.mp heq
      refine { h with columns := editFirst_forall ?_ h.columns hcolumns }
      rintro c _ hc ⟨⟩
      rwa [hedit.stored_eq]
  | columnAt place hedit =>
      cases heq
      refine { h with columns := forall_mem_modify ?_ h.columns _ }
      intro c hc
      rwa [hedit.stored_eq]
  | measure name hedit =>
      obtain ⟨measures, hmeasures, rfl⟩ := inPart_eq_ok.mp heq
      refine { h with measures := editFirst_forall ?_ h.measures hmeasures }
      rintro m _ hm ⟨⟩
      rwa [hedit.stored_eq]
  | partition i hop =>
      obtain ⟨p, p', hp, hp', rfl⟩ | ⟨_, rfl⟩ := Table.changePartition_eq_ok.mp heq
      · have hkeyed : (Value.obj p'.stored).Keyed := by
          rw [hop.stored_eq hp']
          exact h.partitions p (List.mem_of_getElem? hp)
        refine { h with partitions := forall_mem_modify ?_ h.partitions i }
        exact fun _ _ => hkeyed
      · exact h

theorem Graph.Keyed.insertTable (h : g.Keyed) (ht : t.Keyed) (heq : g.insertTable t = .ok g') :
    g'.Keyed := by
  cases Graph.eq_of_insertTable heq
  exact { h with tables := forall_mem_concat h.tables ht }

theorem Graph.Keyed.insertQueryGroup (h : g.Keyed) (name : String) :
    (g.insertQueryGroup name).Keyed := by
  rw [Graph.insertQueryGroup]
  split
  · exact h
  · exact { h with }

theorem Graph.Operation.keyed {op : Graph → Outcome Graph} (hop : Graph.Operation op)
    (h : g.Keyed) (heq : op g = .ok g') : g'.Keyed := by
  cases hop with
  | newTable tag name => exact h.insertTable (Table.keyed_fresh tag name) heq
  | insertDateTable =>
      obtain ⟨t, ht, heq⟩ := Graph.exists_of_insertDateTable heq
      exact h.insertTable ((Table.load_eq_ok.mp ht).sound keyed_dateTable).toKeyed heq
  | insertQueryGroup name =>
      cases heq
      exact h.insertQueryGroup name
  | newRelationship name source table column =>
      cases Graph.eq_of_newRelationship heq
      have hr := (Relationship.sound_fresh name source ⟨table, column.getD source.column⟩).keyed
      exact { h with relationships := forall_mem_concat h.relationships hr }
  | clear =>
      cases heq
      exact h.clearTables.clearRelationships.clearQueryGroups
  | clearTables =>
      cases heq
      exact h.clearTables
  | clearRelationships =>
      cases heq
      exact h.clearRelationships
  | clearQueryGroups =>
      cases heq
      exact h.clearQueryGroups
  | table name hop =>
      obtain ⟨tables, htables, rfl⟩ := inPart_eq_ok.mp heq
      exact { h with
        tables := editFirst_forall (fun t t' ht heq => hop.keyed ht heq) h.tables htables }
  | relationship a b both =>
      obtain ⟨relationships, hrelationships, rfl⟩ := inPart_eq_ok.mp heq
      refine { h with relationships := editFirst_forall ?_ h.relationships hrelationships }
      rintro r _ hr ⟨⟩
      exact hr

theorem Graph.Reached.keyed (h : g.Reached) : g.Keyed := by
  induction h with
  | empty id config => exact (Graph.sound_empty id config).toKeyed
  | load id d _ heq _ => exact (Graph.Sound.load d heq).toKeyed
  | step _ hop heq ih => exact hop.keyed ih heq

theorem Graph.Reached.apply (h : g.Reached) {edit : GraphEdit} (heq : edit.apply g = .ok g') :
    g'.Reached := by
  by_cases hload : ∃ id d, edit = .load id d
  · obtain ⟨id, d, rfl⟩ := hload
    exact h.load id d (keeping_eq_ok.mp heq)
  · refine h.step (edit.operation fun id d hedit => ?_) heq
    exact hload ⟨id, d, hedit⟩

theorem Graph.Reached.after (h : g.Reached) (edits : List GraphEdit) : (g.after edits).Reached :=
  Graph.after_keeps (fun _ _ _ hg heq => hg.apply heq) h edits

/-- What edits lead to from an empty model or a document, operations lead to. -/
theorem Graph.Reachable.reached {config : Config} (h : g.Reachable config) : g.Reached := by
  cases h with
  | empty id edits => exact (Graph.Reached.empty id config).after edits
  | document id d g edits hload => exact ((Graph.Reached.empty id config).load id d hload).after edits

end Tabular.Model
