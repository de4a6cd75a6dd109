/- Whether the ends of relationships name columns of tables, and what keeps them doing so. -/
import Tabular.Proofs.Model.Reached

namespace Tabular.Model
open Tabular.Json Tabular.Query
variable {g g' : Graph} {t t' : Table} {e : Endpoint} {name : String} {fault : Fault}
  {op : Graph → Outcome Graph}

/-- That a table is the first one of a name. -/
def FirstNamed (name : String) (tables : List Table) (t : Table) : Prop :=
  ∃ i, FirstAt (fun t => t.name == name) tables i t

/-- That an endpoint names a column of the first table of its name. -/
def Graph.Resolves (g : Graph) (e : Endpoint) : Prop :=
  ∃ t, FirstNamed e.table g.tables t ∧ e.column ∈ t.columns.map Column.name

/-- That an endpoint is broken, and what its fault is. -/
inductive Graph.Breaks (g : Graph) (e : Endpoint) : Fault → Prop where
  | table : e.table ∉ g.tables.map Table.name → Graph.Breaks g e (.missing .table e.table none)
  | column {t : Table} : FirstNamed e.table g.tables t → e.column ∉ t.columns.map Column.name →
      Graph.Breaks g e (.missing .column e.column (some e.table))

/-- Whether both ends of each relationship resolve. -/
def Graph.Linked (g : Graph) : Prop :=
  ∀ r ∈ g.relationships, g.Resolves r.source ∧ g.Resolves r.target

theorem Graph.table_eq_ok : g.table name = .ok t ↔ FirstNamed name g.tables t := by
  rw [Graph.table_eq_found, found_eq_ok, FirstNamed]

theorem Graph.table_eq_error : g.table name = .error fault ↔
    name ∉ g.tables.map Table.name ∧ Fault.missing .table name none = fault := by
  rw [Graph.table_eq_found, found_eq_error]
  simp only [beq_iff_eq, List.mem_map, not_exists, not_and]

theorem Table.exists_column : (∃ c, t.column name = .ok c) ↔ name ∈ t.columns.map Column.name := by
  rw [Table.column_eq_found, exists_found, List.any_eq_true]
  simp only [beq_iff_eq, List.mem_map]

theorem Table.column_eq_error : t.column name = .error fault ↔
    name ∉ t.columns.map Column.name ∧ Fault.missing .column name (some t.name) = fault := by
  rw [Table.column_eq_found, found_eq_error]
  simp only [beq_iff_eq, List.mem_map, not_exists, not_and]

theorem Graph.resolve_eq_ok : g.resolve e = .ok () ↔ g.Resolves e := by
  simp only [Graph.resolve, bind_eq_ok, pure_eq_ok, Graph.table_eq_ok, Graph.Resolves,
    ← Table.exists_column, and_true]

theorem FirstNamed.name_eq {tables : List Table} (h : FirstNamed name tables t) :
    t.name = name := by
  obtain ⟨_, hfirst⟩ := h
  exact eq_of_beq hfirst.test

theorem Graph.resolve_eq_error : g.resolve e = .error fault ↔ g.Breaks e fault := by
  simp only [Graph.resolve, bind_eq_error, Graph.table_eq_error, Graph.table_eq_ok,
    Table.column_eq_error]
  constructor
  · rintro (⟨htable, rfl⟩ | ⟨t, ht, ⟨hcolumn, rfl⟩ | ⟨c, _, hpure⟩⟩)
    · exact .table htable
    · rw [ht.name_eq]
      exact .column ht hcolumn
    · cases hpure
  · rintro (htable | ⟨ht, hcolumn⟩)
    · exact .inl ⟨htable, rfl⟩
    · exact .inr ⟨_, ht, .inl ⟨hcolumn, by rw [ht.name_eq]⟩⟩

theorem Graph.resolveAll_eq_ok {es : List Endpoint} :
    g.resolveAll es = .ok () ↔ ∀ e ∈ es, g.Resolves e := by
  induction es with
  | nil => exact iff_of_true rfl fun _ hmem => absurd hmem List.not_mem_nil
  | cons e es ih =>
      rw [Graph.resolveAll, bind_eq_ok, List.forall_mem_cons, ← ih, ← Graph.resolve_eq_ok]
      exact ⟨fun ⟨_, he, hes⟩ => ⟨he, hes⟩, fun ⟨he, hes⟩ => ⟨(), he, hes⟩⟩

/-- The first endpoint that is broken gives the fault. -/
theorem Graph.resolveAll_eq_error {es : List Endpoint} : g.resolveAll es = .error fault ↔
    ∃ before e after, es = before ++ e :: after ∧ (∀ b ∈ before, g.Resolves b) ∧
      g.Breaks e fault := by
  induction es with
  | nil => exact iff_of_false (fun h => nomatch h) fun ⟨before, e, after, h, _⟩ => by simp at h
  | cons e es ih =>
      rw [Graph.resolveAll, bind_eq_error, Graph.resolve_eq_error]
      constructor
      · rintro (hbreaks | ⟨_, he, hes⟩)
        · exact ⟨[], e, es, rfl, fun _ hmem => absurd hmem List.not_mem_nil, hbreaks⟩
        · obtain ⟨before, e', after, rfl, hbefore, hbreaks⟩ := ih.mp hes
          exact ⟨e :: before, e', after, rfl,
            List.forall_mem_cons.mpr ⟨Graph.resolve_eq_ok.mp he, hbefore⟩, hbreaks⟩
      · rintro ⟨before, e', after, hes, hbefore, hbreaks⟩
        cases before with
        | nil =>
            cases hes
            exact .inl hbreaks
        | cons b before =>
            cases hes
            obtain ⟨hb, hrest⟩ := List.forall_mem_cons.mp hbefore
            exact .inr ⟨(), Graph.resolve_eq_ok.mpr hb,
              ih.mpr ⟨before, e', after, rfl, hrest, hbreaks⟩⟩

theorem Graph.validateReferences_eq_ok : g.validateReferences = .ok () ↔ g.Linked := by
  rw [Graph.validateReferences, Graph.resolveAll_eq_ok, Graph.Linked]
  simp only [List.forall_mem_flatMap, Relationship.endpoints, List.forall_mem_cons,
    List.not_mem_nil, false_implies, implies_true, and_true]

/-- What references see of a table: its name and those of its columns. -/
def Table.outline (t : Table) : String × List String := (t.name, t.columns.map Column.name)

theorem Graph.resolve_eq (g : Graph) (e : Endpoint) : g.resolve e =
    match (g.tables.map Table.outline).find? fun outline => outline.1 == e.table with
    | some (table, columns) =>
      if e.column ∈ columns then .ok () else .error (.missing .column e.column (some table))
    | none => .error (.missing .table e.table none) := by
  have htest : (fun outline : String × List String => outline.1 == e.table) ∘ Table.outline =
      fun t => t.name == e.table := rfl
  rw [Graph.resolve, Graph.table_eq_found, found, List.find?_map, htest]
  cases g.tables.find? fun t => t.name == e.table with
  | none => rfl
  | some t =>
      change (t.column e.column >>= fun _ => pure ()) = if e.column ∈ t.outline.2 then _ else _
      split
      · rename_i hcolumn
        obtain ⟨c, hc⟩ := Table.exists_column.mpr hcolumn
        rw [hc]
        rfl
      · rename_i hcolumn
        rw [Table.column_eq_error.mpr ⟨hcolumn, rfl⟩]
        rfl

/-- Models whose tables look the same to references resolve them alike. -/
theorem Graph.resolve_congr (h : g'.tables.map Table.outline = g.tables.map Table.outline)
    (e : Endpoint) : g'.resolve e = g.resolve e := by
  rw [Graph.resolve_eq, Graph.resolve_eq, h]

theorem Graph.resolveAll_congr (h : g'.tables.map Table.outline = g.tables.map Table.outline)
    (es : List Endpoint) : g'.resolveAll es = g.resolveAll es := by
  induction es with
  | nil => rfl
  | cons e es ih => rw [Graph.resolveAll, Graph.resolveAll, Graph.resolve_congr h, ih]

theorem Table.outline_reread (t : Table) (numbering : Numbering) :
    (t.reread numbering).outline = t.outline := by
  have hcolumns : (t.columns.map Column.reload).map Column.name = t.columns.map Column.name := by
    rw [List.map_map]
    rfl
  exact Prod.ext rfl hcolumns

theorem Graph.validateReferences_reread (g : Graph) :
    g.reread.validateReferences = g.validateReferences := by
  have htables : g.reread.tables.map Table.outline = g.tables.map Table.outline := by
    change (g.tables.map fun t => t.reread g.config.numbering).map Table.outline = _
    rw [List.map_map]
    exact List.map_congr_left fun t _ => t.outline_reread g.config.numbering
  have hends : g.reread.relationships.flatMap Relationship.endpoints =
      g.relationships.flatMap Relationship.endpoints := by
    change (g.relationships.map Relationship.reload).flatMap Relationship.endpoints = _
    rw [List.flatMap_map]
    rfl
  rw [Graph.validateReferences, hends, Graph.resolveAll_congr htables, Graph.validateReferences]

/-- A table in which every endpoint of another of its name resolves. -/
def Table.Covers (t t' : Table) : Prop :=
  t'.name = t.name ∧ t.columns.map Column.name ⊆ t'.columns.map Column.name

theorem Table.covers_of_columns (hname : t'.name = t.name)
    (hcolumns : t'.columns.map Column.name = t.columns.map Column.name) : t.Covers t' :=
  ⟨hname, hcolumns ▸ List.Subset.refl _⟩

theorem Table.covers_append (columns : List Column) {partitions : List Partition} :
    t.Covers { t with columns := t.columns ++ columns, partitions := partitions } := by
  refine ⟨rfl, ?_⟩
  rw [List.map_append]
  exact List.subset_append_left _ _

/-- An operation on a table leaves its name and its columns there. -/
theorem Table.Operation.covers {op : Table → Outcome Table} (hop : Table.Operation op)
    (heq : op t = .ok t') : t.Covers t' := by
  cases hop with
  | hidden flag =>
      cases heq
      exact Table.covers_of_columns rfl rfl
  | newColumn tag name type source =>
      cases Table.eq_of_insertColumn heq
      exact Table.covers_append _
  | newFormulaColumn tag name formula type summarizeBy =>
      cases Table.eq_of_insertColumn heq
      exact Table.covers_append _
  | newBin tag column increment options =>
      cases Table.eq_of_insertColumn heq
      exact Table.covers_append _
  | newQuotient tag numerator denominator options =>
      cases Table.eq_of_insertColumn heq
      exact Table.covers_append _
  | newMeasure tag name =>
      cases Table.eq_of_newMeasure heq
      exact Table.covers_of_columns rfl rfl
  | newPartition name group =>
      cases heq
      exact Table.covers_of_columns rfl rfl
  | bindToJson tag path columns group current =>
      obtain ⟨_, file, _, rfl⟩ := Table.bindToJson_eq_ok.mp heq
      exact Table.covers_append _
  | column name hedit =>
      obtain ⟨columns, hcolumns, rfl⟩ := inPart_eq_ok.mp heq
      refine Table.covers_of_columns rfl (map_editFirst ?_ hcolumns)
      intro c c' hc
      cases hc
      exact hedit.name_eq c
  | columnAt place hedit =>
      cases heq
      exact Table.covers_of_columns rfl (map_modify hedit.name_eq _ (place t))
  | measure name hedit =>
      obtain ⟨measures, _, rfl⟩ := inPart_eq_ok.mp heq
      exact Table.covers_of_columns rfl rfl
  | partition i hop =>
      obtain ⟨p, p', _, _, rfl⟩ | ⟨_, rfl⟩ := Table.changePartition_eq_ok.mp heq
      · exact Table.covers_of_columns rfl rfl
      · exact Table.covers_of_columns rfl rfl

theorem Graph.Resolves.insertTable (h : g.Resolves e) (heq : g.insertTable t = .ok g') :
    g'.Resolves e := by
  cases Graph.eq_of_insertTable heq
  obtain ⟨first, ⟨i, hfirst⟩, hcolumn⟩ := h
  exact ⟨first, ⟨i, hfirst.append [t]⟩, hcolumn⟩

theorem Graph.Resolves.editTable {op : Table → Outcome Table} (h : g.Resolves e)
    (hop : Table.Operation op) (heq : g.editTable name op = .ok g') : g'.Resolves e := by
  obtain ⟨tables, htables, rfl⟩ := inPart_eq_ok.mp heq
  obtain ⟨j, u, u', hedited, hu', rfl⟩ := exists_firstAt_of_editFirst htables
  obtain ⟨t, ⟨i, ht⟩, hcolumn⟩ := h
  have hcovers := hop.covers hu'
  obtain ⟨t', ht', hcovered⟩ :=
    ht.exists_set hedited.2 (by rw [hcovers.1]) hcovers (Table.covers_of_columns rfl rfl)
  exact ⟨t', ⟨i, ht'⟩, hcovered.2 hcolumn⟩

/-- The operations that take tables away or relate tables. -/
def Graph.Unlinks (op : Graph → Outcome Graph) : Prop :=
  (op = fun g => .ok g.clearTables) ∨
    ∃ name source table column, op = fun g => g.newRelationship name source table column

theorem Graph.Linked.of_endpoints (h : g.Linked)
    (hends : g'.relationships.map Relationship.endpoints ⊆
      g.relationships.map Relationship.endpoints)
    (hresolves : ∀ e, g.Resolves e → g'.Resolves e) : g'.Linked := by
  intro r' hr'
  obtain ⟨r, hr, heq⟩ := List.mem_map.mp (hends (List.mem_map_of_mem hr'))
  rw [Relationship.endpoints, Relationship.endpoints, List.cons.injEq, List.cons.injEq] at heq
  obtain ⟨hsource, htarget, _⟩ := heq
  obtain ⟨hs, ht⟩ := h r hr
  exact ⟨hresolves _ (hsource ▸ hs), hresolves _ (htarget ▸ ht)⟩

theorem Graph.Linked.insertTable (h : g.Linked) (heq : g.insertTable t = .ok g') : g'.Linked := by
  refine h.of_endpoints ?_ fun e he => he.insertTable heq
  cases Graph.eq_of_insertTable heq
  exact List.Subset.refl _

theorem Graph.Linked.insertQueryGroup (h : g.Linked) (name : String) :
    (g.insertQueryGroup name).Linked := by
  rw [Graph.insertQueryGroup]
  split <;> exact h

/-- Any other operation keeps both ends of each relationship resolved. -/
theorem Graph.Operation.linked (hop : Graph.Operation op) (hkeeps : ¬ Graph.Unlinks op)
    (h : g.Linked) (heq : op g = .ok g') : g'.Linked := by
  cases hop with
  | newTable tag name => exact h.insertTable heq
  | insertDateTable =>
      obtain ⟨t, _, heq⟩ := Graph.exists_of_insertDateTable heq
      exact h.insertTable heq
  | insertQueryGroup name =>
      cases heq
      exact h.insertQueryGroup name
  | newRelationship name source table column =>
      exact absurd (.inr ⟨name, source, table, column, rfl⟩) hkeeps
  | clear =>
      cases heq
      exact fun _ hmem => absurd hmem List.not_mem_nil
  | clearTables => exact absurd (.inl rfl) hkeeps
  | clearRelationships =>
      cases heq
      exact fun _ hmem => absurd hmem List.not_mem_nil
  | clearQueryGroups =>
      cases heq
      exact h
  | table name hop =>
      refine h.of_endpoints ?_ fun e he => he.editTable hop heq
      obtain ⟨tables, _, rfl⟩ := inPart_eq_ok.mp heq
      exact List.Subset.refl _
  | relationship a b both =>
      obtain ⟨relationships, hrelationships, rfl⟩ := inPart_eq_ok.mp heq
      refine h.of_endpoints ?_ fun e he => he
      rw [map_editFirst ?_ hrelationships]
      · exact List.Subset.refl _
      · intro r r' hr
        cases hr
        rfl

theorem Graph.Linked.run {ops : List (Graph → Outcome Graph)} (h : g.Linked)
    (hops : ∀ op ∈ ops, Graph.Operation op ∧ ¬ Graph.Unlinks op) : (run g ops).Linked := by
  refine run_keeps (fun op hmem g' hlinked => ?_) h
  obtain ⟨hop, hkeeps⟩ := hops op hmem
  exact hop.atomic.attempt_keeps (fun _ heq => hop.linked hkeeps hlinked heq) hlinked

/-- A new relationship adds its two ends to those that have to resolve. -/
theorem Graph.linked_newRelationship_iff {source : Endpoint} {table : String}
    {column : Option String} (heq : g.newRelationship name source table column = .ok g') :
    g'.Linked ↔ g.Linked ∧ g.Resolves source ∧
      g.Resolves ⟨table, column.getD source.column⟩ := by
  cases Graph.eq_of_newRelationship heq
  exact List.forall_mem_append.trans (and_congr_right fun _ => List.forall_mem_singleton)

/-- The references of a model are valid exactly when both ends of each relationship name a column
    of the first table of their name; otherwise the fault is that of the first end that does not,
    taking the relationships in order and the source of each before its target. Once they are valid
    they stay so, whatever operations follow that neither take tables away nor relate tables. A new
    relationship keeps them valid exactly when its own ends resolve. A model that is reloaded from
    its dump has references as valid as before. -/
theorem Graph.Reached.references_valid (h : g.Reached) :
    (g.validateReferences = .ok () ↔ g.Linked) ∧
    (∀ fault, g.validateReferences = .error fault ↔ ∃ before e after,
      g.relationships.flatMap (fun r => [r.source, r.target]) = before ++ e :: after ∧
        (∀ b ∈ before, g.Resolves b) ∧ g.Breaks e fault) ∧
    (g.validateReferences = .ok () →
      (∀ ops : List (Graph → Outcome Graph),
        (∀ op ∈ ops, Graph.Operation op ∧ ¬ Graph.Unlinks op) →
          (run g ops).validateReferences = .ok ()) ∧
      ∀ name source table column g', g.newRelationship name source table column = .ok g' →
        (g'.validateReferences = .ok () ↔
          g'.Resolves source ∧ g'.Resolves ⟨table, column.getD source.column⟩)) ∧
    ∀ fresh, ∃ again, (Graph.load fresh g.config g.dump).result = .ok again ∧
      again.validateReferences = g.validateReferences := by
  refine ⟨Graph.validateReferences_eq_ok, fun _ => Graph.resolveAll_eq_error, ?_, ?_⟩
  · intro hvalid
    have hlinked := Graph.validateReferences_eq_ok.mp hvalid
    refine ⟨fun ops hops => Graph.validateReferences_eq_ok.mpr (hlinked.run hops), ?_⟩
    intro name source table column g' heq
    rw [Graph.validateReferences_eq_ok, Graph.linked_newRelationship_iff heq]
    cases Graph.eq_of_newRelationship heq
    exact and_iff_right hlinked
  · intro fresh
    exact ⟨g.reread, Graph.load_eq_ok.mpr (h.keyed.loaded_reread fresh),
      g.validateReferences_reread⟩

/-- Two tables that are related by a column that both have. -/
def linkedEdits : List GraphEdit :=
  [.newTable "t" "Sales",
    .table "Sales" (.newColumn "c" "Region" "string" none),
    .newTable "t" "Stores",
    .table "Stores" (.newColumn "c" "Region" "any" none),
    .newRelationship "r" ⟨"Sales", "Region"⟩ "Stores" none]

def linkedModel : Graph := (Graph.empty "g" Config.default).after linkedEdits

/-- Operations on this model, of which the first fails. -/
def laterOperations : List (Graph → Outcome Graph) :=
  [fun g => g.newTable "t" "Sales",
    fun g => g.editTable "Sales" fun t => t.newColumn "c" "Amount" (.other "money") none,
    fun g => g.insertDateTable.result]

/-- What makes tables of an empty model, or fails there, neither takes tables away nor relates
    them. -/
theorem Graph.not_unlinks (h : ∀ g', op (Graph.empty "g" Config.default) = .ok g' →
    g'.tables ≠ [] ∧ g'.relationships = []) : ¬ Graph.Unlinks op := by
  rintro (rfl | ⟨name, source, table, column, rfl⟩)
  · exact (h _ rfl).1 rfl
  · exact nomatch (h _ rfl).2

theorem operations_laterOperations :
    ∀ op ∈ laterOperations, Graph.Operation op ∧ ¬ Graph.Unlinks op := by
  simp only [laterOperations, List.forall_mem_cons, List.not_mem_nil, false_implies, implies_true,
    and_true]
  refine ⟨⟨.newTable "t" "Sales", Graph.not_unlinks ?_⟩,
    ⟨.table "Sales" (.newColumn "c" "Amount" (.other "money") none), Graph.not_unlinks ?_⟩,
    .insertDateTable, Graph.not_unlinks ?_⟩
  · rintro _ ⟨⟩
    exact ⟨List.cons_ne_nil _ _, rfl⟩
  · exact fun _ h => nomatch h
  · rintro _ ⟨⟩
    exact ⟨List.cons_ne_nil _ _, rfl⟩

theorem Graph.references_valid_linkedModel :
    linkedModel.Reached ∧ linkedModel.validateReferences = .ok () ∧
      (run linkedModel laterOperations).validateReferences = .ok () ∧
      (∃ g', linkedModel.newRelationship "s" ⟨"Sales", "Amount"⟩ "Dates" none = .ok g' ∧
        (g'.validateReferences = .ok () ↔
          g'.Resolves ⟨"Sales", "Amount"⟩ ∧ g'.Resolves ⟨"Dates", "Amount"⟩)) ∧
      ∃ again, (Graph.load "h" linkedModel.config linkedModel.dump).result = .ok again ∧
        again.validateReferences = linkedModel.validateReferences := by
  have hreached : linkedModel.Reached := (Graph.Reached.empty "g" Config.default).after linkedEdits
  have hvalid : linkedModel.validateReferences = .ok () := rfl
  have hnew : ∃ g', linkedModel.newRelationship "s" ⟨"Sales", "Amount"⟩ "Dates" none = .ok g' :=
    ⟨_, rfl⟩
  obtain ⟨g', hg'⟩ := hnew
  obtain ⟨_, _, hkept, hreload⟩ := Graph.Reached.references_valid hreached
  obtain ⟨hrun, hrelate⟩ := hkept hvalid
  exact ⟨hreached, hvalid, hrun laterOperations operations_laterOperations,
    ⟨g', hg', hrelate "s" ⟨"Sales", "Amount"⟩ "Dates" none g' hg'⟩, hreload "h"⟩

end Tabular.Model
