/- Distinct keys: what keeps the entities of a model apart. -/
import Mathlib.Data.List.Nodup
import Tabular.Proofs.Model.Lookup
import Tabular.Proofs.Model.Operation

namespace Tabular.Model
variable {α β : Type} {as : List α} {g g' : Graph} {t t' : Table}

/-- Whether no two columns of a table share a name that is not blank, and no two measures a name. -/
structure Table.Distinct (t : Table) : Prop where
  columns : ((t.columns.map Column.name).filter (· ≠ "")).Nodup
  measures : (t.measures.map Measure.name).Nodup

/-- The tables that a relationship joins, in no order. -/
def Relationship.pair (r : Relationship) : Sym2 String := s(r.source.table, r.target.table)

/-- Whether no two entities of a model have the same key. -/
structure Graph.Distinct (g : Graph) : Prop where
  tables : (g.tables.map Table.name).Nodup
  inTables : ∀ t ∈ g.tables, t.Distinct
  relationships : (g.relationships.map Relationship.pair).Nodup
  queryGroups : g.queryGroups.Nodup

theorem map_modify {edit : α → α} {f : α → β} (hedit : ∀ a, f (edit a) = f a) (as : List α)
    (i : Nat) : (as.modify i edit).map f = as.map f := by
  induction as generalizing i with
  | nil => rw [List.modify_nil]
  | cons a as ih =>
      cases i with
      | zero => rw [List.modify_zero_cons, List.map_cons, List.map_cons, hedit]
      | succ i => rw [List.modify_succ_cons, List.map_cons, List.map_cons, ih]

theorem firstTaken_eq_none {taken names : List String} :
    firstTaken taken names = none ↔ names.Nodup ∧ ∀ name ∈ names, name ∉ taken := by
  induction names generalizing taken with
  | nil => simp [firstTaken]
  | cons name names ih =>
      rw [firstTaken]
      split
      · rename_i h
        refine iff_of_false (fun heq => nomatch heq) fun hnames => ?_
        exact hnames.2 name List.mem_cons_self (List.contains_iff_mem.mp h)
      · rename_i h
        rw [List.contains_iff_mem] at h
        rw [ih, List.nodup_cons, List.forall_mem_cons]
        simp only [List.mem_cons, not_or]
        constructor
        · rintro ⟨hnodup, hfree⟩
          exact ⟨⟨fun hmem => (hfree name hmem).1 rfl, hnodup⟩, h, fun n hn => (hfree n hn).2⟩
        · rintro ⟨⟨hname, hnodup⟩, _, hfree⟩
          exact ⟨hnodup, fun n hn => ⟨fun heq => hname (heq ▸ hn), hfree n hn⟩⟩

theorem notMem_map_of_not_any {p : α → Bool} {f : α → β} {b : β} (hp : ∀ a, f a = b → p a = true)
    (h : ¬ as.any p = true) : b ∉ as.map f := by
  intro hmem
  obtain ⟨a, ha, heq⟩ := List.mem_map.mp hmem
  exact h (List.any_eq_true.mpr ⟨a, ha, hp a heq⟩)

/-- Keys stay distinct when an element is put at the end after a look for its key. -/
theorem nodup_map_append {p : α → Bool} {f : α → β} {a : α} (hp : ∀ b, f b = f a → p b = true)
    (hfree : ¬ as.any p = true) (h : (as.map f).Nodup) : ((as ++ [a]).map f).Nodup := by
  rw [List.map_append, List.map_singleton, ← List.concat_eq_append]
  exact h.concat (notMem_map_of_not_any hp hfree)

theorem Column.Operation.name_eq {edit : Column → Column} (h : Column.Operation edit)
    (c : Column) : (edit c).name = c.name := by
  cases h <;> rfl

theorem Measure.Operation.name_eq {edit : Measure → Measure} (h : Measure.Operation edit)
    (m : Measure) : (edit m).name = m.name := by
  cases h <;> rfl

theorem Table.Distinct.congr (h : t.Distinct)
    (hcolumns : t'.columns.map Column.name = t.columns.map Column.name)
    (hmeasures : t'.measures.map Measure.name = t.measures.map Measure.name) : t'.Distinct :=
  ⟨hcolumns ▸ h.columns, hmeasures ▸ h.measures⟩

theorem Table.distinct_fresh (tag name : String) : (Table.fresh tag name).Distinct :=
  ⟨(List.nodup_singleton _).filter _, List.nodup_nil⟩

theorem Table.insertColumn_keeps {c : Column} (heq : t.insertColumn c = .ok t') :
    t'.name = t.name ∧ (t.Distinct → t'.Distinct) := by
  rw [Table.insertColumn] at heq
  split at heq
  · cases heq
  · rename_i hfree
    cases heq
    refine ⟨rfl, fun h => ⟨?_, h.measures⟩⟩
    rw [List.map_append, List.map_singleton, List.filter_append]
    by_cases hblank : c.name = ""
    · rw [hblank]
      simpa using h.columns
    · have hnot : c.name ∉ t.columns.map Column.name :=
        notMem_map_of_not_any (fun _ => beq_iff_eq.mpr) fun hany => hfree ⟨hblank, hany⟩
      rw [List.filter_cons_of_pos (by simpa using hblank), List.filter_nil,
        ← List.concat_eq_append]
      exact h.columns.concat fun hmem => hnot (List.mem_of_mem_filter hmem)

theorem Table.newMeasure_keeps {tag name : String} (heq : t.newMeasure tag name = .ok t') :
    t'.name = t.name ∧ (t.Distinct → t'.Distinct) := by
  rw [Table.newMeasure] at heq
  split at heq
  · cases heq
  · rename_i hfree
    cases heq
    exact ⟨rfl, fun h => ⟨h.columns, nodup_map_append (fun _ => beq_iff_eq.mpr) hfree h.measures⟩⟩

theorem map_name_imported (tag : Nat → String) (columns : List (String × DataType)) :
    (columns.mapIdx fun i column =>
      Column.imported (tag i) column.1 column.2 (some column.1)).map Column.name =
        columns.map Prod.fst := by
  apply List.ext_getElem?
  intro i
  rw [List.getElem?_map, List.getElem?_mapIdx, List.getElem?_map, Option.map_map]
  rfl

/-- All names that are put in together are new, and differ from each other. -/
theorem Table.bindToJson_keeps {tag : Nat → String} {path current : String}
    {columns : List (String × DataType)} {group : Option String}
    (heq : t.bindToJson tag path columns group current = .ok t') :
    t'.name = t.name ∧ (t.Distinct → t'.Distinct) := by
  obtain ⟨hnone, file, _, rfl⟩ := Table.bindToJson_eq_ok.mp heq
  obtain ⟨hnodup, hfree⟩ := firstTaken_eq_none.mp hnone
  refine ⟨rfl, fun h => ⟨?_, h.measures⟩⟩
  rw [Table.withReader, List.map_append, map_name_imported, List.filter_append]
  refine h.columns.append (hnodup.filter _) ?_
  intro name hold hnew
  exact hfree name (List.mem_of_mem_filter hnew) (List.mem_of_mem_filter hold)

/-- An operation on a table keeps its name, and the names in it distinct. -/
theorem Table.Operation.keeps {op : Table → Outcome Table} (h : Table.Operation op)
    (heq : op t = .ok t') : t'.name = t.name ∧ (t.Distinct → t'.Distinct) := by
  cases h with
  | hidden flag =>
      cases heq
      exact ⟨rfl, fun h => h.congr rfl rfl⟩
  | newColumn tag name type source => exact Table.insertColumn_keeps heq
  | newFormulaColumn tag name formula type summarizeBy => exact Table.insertColumn_keeps heq
  | newBin tag column increment options => exact Table.insertColumn_keeps heq
  | newQuotient tag numerator denominator options => exact Table.insertColumn_keeps heq
  | newMeasure tag name => exact Table.newMeasure_keeps heq
  | newPartition name group =>
      cases heq
      exact ⟨rfl, fun h => h.congr rfl rfl⟩
  | bindToJson tag path columns group current => exact Table.bindToJson_keeps heq
  | column name hedit =>
      obtain ⟨columns, hcolumns, rfl⟩ := inPart_eq_ok.mp heq
      refine ⟨rfl, fun h => h.congr (map_editFirst ?_ hcolumns) rfl⟩
      intro c c' hc
      cases hc
      exact hedit.name_eq c
  | columnAt place hedit =>
      cases heq
      exact ⟨rfl, fun h => h.congr (map_modify hedit.name_eq _ (place t)) rfl⟩
  | measure name hedit =>
      obtain ⟨measures, hmeasures, rfl⟩ := inPart_eq_ok.mp heq
      refine ⟨rfl, fun h => h.congr rfl (map_editFirst ?_ hmeasures)⟩
      intro m m' hm
      cases hm
      exact hedit.name_eq m
  | partition i hop =>
      obtain ⟨p, p', _, _, rfl⟩ | ⟨_, rfl⟩ := Table.changePartition_eq_ok.mp heq
      · exact ⟨rfl, fun h => h.congr rfl rfl⟩
      · exact ⟨rfl, id⟩

theorem Graph.distinct_empty (id : String) (config : Config) : (Graph.empty id config).Distinct where
  tables := List.nodup_nil
  inTables := fun _ hmem => absurd hmem List.not_mem_nil
  relationships := List.nodup_nil
  queryGroups := List.nodup_nil

theorem Graph.Distinct.insertTable (h : g.Distinct) (ht : t.Distinct)
    (heq : g.insertTable t = .ok g') : g'.Distinct := by
  rw [Graph.insertTable] at heq
  split at heq
  · cases heq
  · rename_i hfree
    cases heq
    refine { h with tables := ?_, inTables := ?_ }
    · exact nodup_map_append (fun _ => beq_iff_eq.mpr) hfree h.tables
    · exact List.forall_mem_append.mpr ⟨h.inTables, List.forall_mem_singleton.mpr ht⟩

theorem Graph.Distinct.newRelationship (h : g.Distinct) {name table : String} {source : Endpoint}
    {column : Option String} (heq : g.newRelationship name source table column = .ok g') :
    g'.Distinct := by
  rw [Graph.newRelationship] at heq
  split at heq
  · cases heq
  · rename_i hfree
    cases heq
    refine { h with relationships := ?_ }
    exact nodup_map_append (fun r => (r.connects_iff _ _).mpr) hfree h.relationships

theorem Graph.Distinct.insertQueryGroup (h : g.Distinct) (name : String) :
    (g.insertQueryGroup name).Distinct := by
  rw [Graph.insertQueryGroup]
  split
  · exact h
  · rename_i hfree
    refine { h with queryGroups := ?_ }
    rw [← List.concat_eq_append]
    exact h.queryGroups.concat fun hmem => hfree (List.contains_iff_mem.mpr hmem)

theorem Graph.Distinct.clearTables (h : g.Distinct) : g.clearTables.Distinct :=
  { h with tables := List.nodup_nil, inTables := fun _ hmem => absurd hmem List.not_mem_nil }

theorem Graph.Distinct.clearRelationships (h : g.Distinct) : g.clearRelationships.Distinct :=
  { h with relationships := List.nodup_nil }

theorem Graph.Distinct.clearQueryGroups (h : g.Distinct) : g.clearQueryGroups.Distinct :=
  { h with queryGroups := List.nodup_nil }

theorem Graph.Distinct.editTable (h : g.Distinct) {name : String}
    {op : Table → Outcome Table} (hop : Table.Operation op)
    (heq : g.editTable name op = .ok g') : g'.Distinct := by
  obtain ⟨tables, htables, rfl⟩ := inPart_eq_ok.mp heq
  refine { h with tables := ?_, inTables := ?_ }
  · rw [map_editFirst (fun _ _ ht => (hop.keeps ht).1) htables]
    exact h.tables
  · exact editFirst_forall (fun _ _ ht heq => (hop.keeps heq).2 ht) h.inTables htables

theorem Graph.Distinct.editRelationship (h : g.Distinct) {a b : String} {both : Bool}
    (heq : (g.editRelationship a b fun r => r.setBothDirections both) = .ok g') :
    g'.Distinct := by
  obtain ⟨relationships, hrelationships, rfl⟩ := inPart_eq_ok.mp heq
  refine { h with relationships := ?_ }
  rw [map_editFirst ?_ hrelationships]
  · exact h.relationships
  · intro r r' hr
    cases hr
    rfl

end Tabular.Model
