/- Warnings of a load: they tell of every key that repeats, but for the names of measures. -/
import Tabular.Proofs.Model.Distinct
import Tabular.Proofs.Model.Graph

namespace Tabular

namespace Traced
variable {ε α β : Type} {x : Traced ε α} {a : α}

/-- The warnings among the records. -/
def warnings (x : Traced ε α) : List Record := x.records.filter fun r => r.level = .warn

theorem warnings_pure : (pure a : Traced ε α).warnings = [] := rfl

theorem lift_ok : (lift (.ok a) : Traced ε α) = pure a := rfl

theorem warnings_note_debug (text : String) :
    (note .debug text : Traced ε Unit).warnings = [] := rfl

theorem warnings_notes {records : List Record} (h : ∀ r ∈ records, r.level = .warn) :
    (notes records : Traced ε Unit).warnings = records :=
  List.filter_eq_self.mpr fun r hr => decide_eq_true (h r hr)

theorem warnings_bind (h : x.result = .ok a) (f : α → Traced ε β) :
    (x >>= f).warnings = x.warnings ++ (f a).warnings := by
  have hrecords : (x >>= f).records = x.records ++ (f a).records := by
    simp only [Bind.bind, Traced.bind, h]
  rw [warnings, hrecords, List.filter_append, warnings, warnings]

theorem warnings_notes_bind {records : List Record} (h : ∀ r ∈ records, r.level = .warn)
    (f : Unit → Traced ε β) : (notes records >>= f).warnings = records ++ (f ()).warnings := by
  rw [warnings_bind (result_notes records), warnings_notes h]

theorem warnings_debug_bind (text : String) (f : Unit → Traced ε β) :
    (note .debug text >>= f).warnings = (f ()).warnings := by
  rw [warnings_bind (result_note .debug text), warnings_note_debug, List.nil_append]

end Traced

end Tabular

namespace Tabular.Model
open Tabular.Json
variable {α : Type} {path fresh : String} {config : Config} {doc : Value} {t : Table} {g : Graph}

theorem warnings_traceItems {load : String → Value → Traced Fault α} {warned : α → List Record}
    (h : ∀ path v a, (load path v).result = .ok a → (load path v).warnings = warned a) {i : Nat}
    {vs : List Value} {as : List α} (heq : (traceItems load path i vs).result = .ok as) :
    (traceItems load path i vs).warnings = as.flatMap warned := by
  induction vs generalizing i as with
  | nil =>
      cases heq
      rfl
  | cons v vs ih =>
      simp only [traceItems, Traced.result_bind, bind_eq_ok] at heq
      obtain ⟨a, ha, rest, hrest, hpure⟩ := heq
      cases hpure
      rw [traceItems, Traced.warnings_bind ha, Traced.warnings_bind hrest, h _ _ a ha, ih hrest,
        Traced.warnings_pure, List.append_nil, List.flatMap_cons]

theorem level_columnWarnings (table : String) (columns : List Column) :
    ∀ r ∈ columnWarnings table columns, r.level = .warn :=
  List.forall_mem_map.mpr fun _ _ => rfl

theorem level_tableWarnings (tables : List Table) :
    ∀ r ∈ tableWarnings tables, r.level = .warn :=
  List.forall_mem_map.mpr fun _ _ => rfl

theorem level_relationshipWarnings (earlier rs : List Relationship) :
    ∀ r ∈ relationshipWarnings earlier rs, r.level = .warn := by
  induction rs generalizing earlier with
  | nil => exact fun r hr => nomatch hr
  | cons first rs ih =>
      rw [relationshipWarnings]
      split
      · exact List.forall_mem_cons.mpr ⟨rfl, ih _⟩
      · exact ih _

/-- Loading a table warns of its columns and of nothing else. -/
theorem Table.warnings_load (h : (Table.load path doc).result = .ok t) :
    (Table.load path doc).warnings = columnWarnings t.name t.columns := by
  simp only [Table.load, Traced.result_bind, Traced.result_lift, Traced.result_notes,
    Traced.result_note, Traced.result_pure, bind_eq_ok, Except.ok.injEq] at h
  obtain ⟨stored, hstored, name, hname, _, hcolumnDocs, columns, hcolumns, _, hpartitionDocs,
    partitions, hpartitions, _, hmeasureDocs, measures, hmeasures, _, -, _, -, tag, htag, hidden,
    hhidden, rfl⟩ := h
  simp only [Table.load, hstored, hname, hcolumnDocs, hcolumns, hpartitionDocs, hpartitions,
    hmeasureDocs, hmeasures, htag, hhidden, Traced.lift_ok, pure_bind, Traced.warnings_debug_bind,
    Traced.warnings_notes_bind (level_columnWarnings name columns), Traced.warnings_pure,
    List.append_nil]

/-- The warnings of a load that succeeds can be read off the loaded model. -/
theorem Graph.warnings_load (h : (Graph.load fresh config doc).result = .ok g) :
    (Graph.load fresh config doc).warnings =
      g.tables.flatMap (fun t => columnWarnings t.name t.columns) ++
        (tableWarnings g.tables ++ relationshipWarnings [] g.relationships) := by
  simp only [Graph.load, Traced.result_bind, Traced.result_lift, Traced.result_notes,
    Traced.result_note, Traced.result_pure, bind_eq_ok, Except.ok.injEq] at h
  obtain ⟨root, hroot, model, hmodel, _, hrelationshipDocs, relationships, hrelationships, _,
    htableDocs, tables, htables, _, hgroupDocs, groups, hgroups, _, -, name, hname, _, -, rfl⟩ := h
  have hlevel : ∀ r ∈ tableWarnings tables ++ relationshipWarnings [] relationships,
      r.level = .warn :=
    List.forall_mem_append.mpr
      ⟨level_tableWarnings tables, level_relationshipWarnings [] relationships⟩
  simp only [Graph.load, hroot, hmodel, hrelationshipDocs, hrelationships, htableDocs, hgroupDocs,
    hgroups, hname, Traced.lift_ok, pure_bind, Traced.warnings_bind htables,
    Traced.warnings_debug_bind, Traced.warnings_notes_bind hlevel, Traced.warnings_pure,
    List.append_nil, warnings_traceItems (fun _ _ _ => Table.warnings_load) htables]

/-- The first name that is told of is the first that would be refused. -/
theorem head?_repeated (seen names : List String) :
    (repeated seen names).head? = firstTaken seen names := by
  induction names generalizing seen with
  | nil => rfl
  | cons name names ih =>
      rw [repeated, firstTaken]
      split
      · rfl
      · exact ih _

theorem repeated_eq_nil {names : List String} : repeated [] names = [] ↔ names.Nodup := by
  rw [← List.head?_eq_none_iff, head?_repeated, firstTaken_eq_none, and_iff_left_iff_imp]
  exact fun _ _ _ => List.not_mem_nil

theorem columnWarnings_eq_nil {table : String} {columns : List Column} :
    columnWarnings table columns = [] ↔ (columns.map Column.name).Nodup := by
  rw [columnWarnings, List.map_eq_nil_iff, repeated_eq_nil]

theorem tableWarnings_eq_nil {tables : List Table} :
    tableWarnings tables = [] ↔ (tables.map Table.name).Nodup := by
  rw [tableWarnings, List.map_eq_nil_iff, repeated_eq_nil]

theorem relationshipWarnings_eq_nil {earlier rs : List Relationship} :
    relationshipWarnings earlier rs = [] ↔
      (rs.map Relationship.pair).Nodup ∧ ∀ r ∈ rs, r.pair ∉ earlier.map Relationship.pair := by
  induction rs generalizing earlier with
  | nil => simp [relationshipWarnings]
  | cons r rs ih =>
      have hjoined : (earlier.any fun e => e.connects r.source.table r.target.table) = true ↔
          r.pair ∈ earlier.map Relationship.pair := by
        simp only [List.any_eq_true, Relationship.connects_iff, List.mem_map, Relationship.pair]
      rw [relationshipWarnings]
      split
      · rename_i h
        refine iff_of_false (List.cons_ne_nil _ _) fun hfree => ?_
        exact hfree.2 r List.mem_cons_self (hjoined.mp h)
      · rename_i h
        rw [hjoined] at h
        rw [ih, List.map_cons, List.nodup_cons, List.forall_mem_cons, List.map_append,
          List.map_singleton]
        simp only [List.mem_append, List.mem_singleton, not_or]
        constructor
        · rintro ⟨hnodup, hfree⟩
          refine ⟨⟨fun hmem => ?_, hnodup⟩, h, fun r' hr' => (hfree r' hr').1⟩
          obtain ⟨r', hr', heq⟩ := List.mem_map.mp hmem
          exact (hfree r' hr').2 heq
        · rintro ⟨⟨hfirst, hnodup⟩, -, hfree⟩
          exact ⟨hnodup, fun r' hr' =>
            ⟨hfree r' hr', fun heq => hfirst (heq ▸ List.mem_map_of_mem hr')⟩⟩

/-- Whether no key of a model repeats, where a load looks for keys that do. -/
structure Graph.Watched (g : Graph) : Prop where
  tables : (g.tables.map Table.name).Nodup
  columns : ∀ t ∈ g.tables, (t.columns.map Column.name).Nodup
  relationships : (g.relationships.map Relationship.pair).Nodup

/-- Whether tables have distinct names, the columns and the measures of each table have, and no
    two relationships join the same tables. -/
structure Graph.Unique (g : Graph) : Prop extends Graph.Watched g where
  measures : ∀ t ∈ g.tables, (t.measures.map Measure.name).Nodup

theorem Graph.warnings_eq_nil (h : (Graph.load fresh config doc).result = .ok g) :
    (Graph.load fresh config doc).warnings = [] ↔ g.Watched := by
  rw [Graph.warnings_load h, List.append_eq_nil_iff, List.append_eq_nil_iff,
    List.flatMap_eq_nil_iff, tableWarnings_eq_nil, relationshipWarnings_eq_nil]
  simp only [columnWarnings_eq_nil]
  constructor
  · rintro ⟨hcolumns, htables, hrelationships, -⟩
    exact ⟨htables, hcolumns, hrelationships⟩
  · rintro ⟨htables, hcolumns, hrelationships⟩
    exact ⟨hcolumns, htables, hrelationships, fun _ _ => List.not_mem_nil⟩

/-- A load is silent when the keys that it looks at are distinct. So silence tells whether the
    keys of the model are distinct, unless only names of measures repeat. -/
theorem Graph.load_silent_iff (h : (Graph.load fresh config doc).result = .ok g) :
    ((Graph.load fresh config doc).warnings = [] ↔ g.Watched) ∧
    (((Graph.load fresh config doc).warnings = [] ↔ g.Unique) ↔
      (g.Watched → ∀ t ∈ g.tables, (t.measures.map Measure.name).Nodup)) := by
  have hsilent := Graph.warnings_eq_nil h
  refine ⟨hsilent, ?_⟩
  rw [hsilent]
  constructor
  · exact fun hiff hwatched => (hiff.mp hwatched).measures
  · exact fun hmeasures => ⟨fun hwatched => ⟨hwatched, hmeasures hwatched⟩, fun h => h.toWatched⟩

/-- A document with one table, whose measures have these names. -/
def measuredDocument (names : List String) : Value :=
  .obj [("model", .obj [("tables", .arr [.obj
    [("name", .str "Sales"),
      ("measures", .arr (names.map fun name =>
        .obj [("name", .str name), ("expression", .str "1")]))]])])]

theorem Graph.load_silent_iff_twoMeasures :
    ∃ g, (Graph.load "g" Config.default (measuredDocument ["Total", "Margin"])).result = .ok g ∧
      g.Unique ∧
      ((Graph.load "g" Config.default (measuredDocument ["Total", "Margin"])).warnings = [] ↔
        g.Watched) ∧
      (((Graph.load "g" Config.default (measuredDocument ["Total", "Margin"])).warnings = [] ↔
          g.Unique) ↔
        (g.Watched → ∀ t ∈ g.tables, (t.measures.map Measure.name).Nodup)) := by
  refine ⟨_, rfl, ⟨⟨?_, ?_, List.nodup_nil⟩, ?_⟩, Graph.load_silent_iff rfl⟩
  · exact List.nodup_singleton _
  · exact List.forall_mem_singleton.mpr List.nodup_nil
  · refine List.forall_mem_singleton.mpr ?_
    change ["Total", "Margin"].Nodup
    decide

theorem Graph.load_silent_repeatedMeasure :
    (Graph.load "g" Config.default (measuredDocument ["Total", "Total"])).warnings = [] ∧
      ∃ g, (Graph.load "g" Config.default (measuredDocument ["Total", "Total"])).result = .ok g ∧
        ¬ g.Unique := by
  refine ⟨rfl, _, rfl, fun h => ?_⟩
  have hnames : ["Total", "Total"].Nodup := h.measures _ List.mem_cons_self
  exact absurd hnames (by decide)

end Tabular.Model
