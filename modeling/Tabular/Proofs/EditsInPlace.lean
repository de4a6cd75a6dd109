/- Edits of a model and insertions into it change its dump in their own place only. -/
import Tabular.Proofs.Model.Frame

namespace Tabular.Model
open Tabular.Json Tabular.Query
variable {R : Value → Value → Prop} {key : String} {path : List Branch} {x : Value}
  {settings : List (String × Value)} {g g' : Graph} {t t' : Table} {r r' : Relationship} {i : Nat}
  {op : Graph → Outcome Graph}

theorem Graph.lists_tables (g : Graph) : ∃ write, Members.Lists "tables" write ∧ ∀ tables,
    ({ g with tables := tables } : Graph).dumpModel =
      write (tables.map fun t => t.dump g.config.numbering) := by
  have hlist := lists_putItems (putGroups (configured g.config g.model) g.queryGroups) "tables"
  exact ⟨_, lists_putItems_beside hlist (show "tables" ≠ "relationships" by decide)
    (g.relationships.map Relationship.dump), fun _ => Graph.dumpModel_eq _⟩

theorem Graph.lists_relationships (g : Graph) : ∃ write,
    Members.Lists "relationships" write ∧ ∀ relationships,
      ({ g with relationships := relationships } : Graph).dumpModel =
        write (relationships.map Relationship.dump) :=
  ⟨_, lists_putItems (putItems (putGroups (configured g.config g.model) g.queryGroups) "tables"
    (g.tables.map fun t => t.dump g.config.numbering)) "relationships",
    fun _ => Graph.dumpModel_eq _⟩

theorem Graph.lists_queryGroups (h : g.Keyed) : ∃ write,
    Members.Lists "queryGroups" write ∧ ∀ groups,
      ({ g with queryGroups := groups } : Graph).dumpModel = write (groups.mapIdx dumpGroup) := by
  have hnone : listed? ((configured g.config g.model).read "queryGroups") = some [] := by
    rw [read_configured _ _ (by decide)]
    exact h.queryGroups
  have hlist := lists_putItems_beside (lists_putItems_beside (lists_putGroups hnone)
    (show "queryGroups" ≠ "tables" by decide) (g.tables.map fun t => t.dump g.config.numbering))
    (show "queryGroups" ≠ "relationships" by decide) (g.relationships.map Relationship.dump)
  refine ⟨_, hlist, fun groups => ?_⟩
  have hempty : (groups.mapIdx dumpGroup).isEmpty = groups.isEmpty := by
    cases groups <;> simp
  simp only [Graph.dumpModel_eq, putGroups, hempty]
  rfl

/-- Models that differ in the dumps of their inner objects differ there as these do. -/
theorem Graph.differsAt_model (hroot : g'.root = g.root) (hid : g'.id = g.id)
    (h : (Value.obj g.dumpModel).prune.DiffersAt R path (Value.obj g'.dumpModel).prune) :
    g.dump.DiffersAt R (.key "model" :: path) g'.dump := by
  obtain ⟨rest, _, hslot⟩ := Members.exists_slot_put (g.root.put "name" (.str g.id)) "model"
  rw [Graph.dump, Graph.dump, hroot, hid]
  exact hslot.differsAt rfl rfl h

theorem Graph.differsAt_table (hget : g.tables[i]? = some t)
    (h : (t.dump g.config.numbering).prune.DiffersAt R path (t'.dump g.config.numbering).prune) :
    g.dump.DiffersAt R (.key "model" :: .key "tables" :: .item i :: path)
      ({ g with tables := g.tables.set i t' } : Graph).dump := by
  obtain ⟨write, hlist, hwrite⟩ := g.lists_tables
  refine Graph.differsAt_model rfl rfl ?_
  rw [hwrite, hwrite]
  exact hlist.differsAt hget h

theorem Graph.differsAt_relationship (hget : g.relationships[i]? = some r)
    (h : r.dump.prune.DiffersAt R path r'.dump.prune) :
    g.dump.DiffersAt R (.key "model" :: .key "relationships" :: .item i :: path)
      ({ g with relationships := g.relationships.set i r' } : Graph).dump := by
  obtain ⟨write, hlist, hwrite⟩ := g.lists_relationships
  refine Graph.differsAt_model rfl rfl ?_
  rw [hwrite, hwrite]
  exact hlist.differsAt hget h

/-- The keys that an edit of one entity sets, and where in the dump they are. -/
inductive Graph.Sets (g : Graph) :
    (Graph → Outcome Graph) → List Branch → List (String × Value) → Prop where
  | table {name : String} {i : Nat} {t : Table} {op : Table → Outcome Table}
      {path : List Branch} {settings : List (String × Value)} :
      FirstAt (fun t => t.name == name) g.tables i t →
      Table.Sets g.config.numbering t op path settings →
      Graph.Sets g (fun g => g.editTable name op)
        (.key "model" :: .key "tables" :: .item i :: path) settings
  | relationship {a b : String} {i : Nat} {r : Relationship} (both : Bool) :
      FirstAt (fun r => r.connects a b) g.relationships i r →
      Graph.Sets g (fun g => g.editRelationship a b fun r => r.setBothDirections both)
        [.key "model", .key "relationships", .item i]
        [("crossFilteringBehavior", .str (if both then bothDirections else oneDirection))]

/-- What an insertion appends, to which list, and where in the dump the list is. -/
inductive Graph.Inserts (g : Graph) :
    (Graph → Outcome Graph) → List Branch → String → Value → Prop where
  | newTable (tag name : String) :
      Graph.Inserts g (fun g => g.newTable tag name) [.key "model"] "tables"
        ((Table.fresh tag name).dump g.config.numbering).prune
  | newRelationship (name : String) (source : Endpoint) (table : String) (column : Option String) :
      Graph.Inserts g (fun g => g.newRelationship name source table column) [.key "model"]
        "relationships"
        (Relationship.fresh name source ⟨table, column.getD source.column⟩).dump.prune
  | queryGroup {name : String} : name ∉ g.queryGroups →
      Graph.Inserts g (fun g => .ok (g.insertQueryGroup name)) [.key "model"] "queryGroups"
        (dumpGroup g.queryGroups.length name)
  | inTable {name : String} {i : Nat} {t : Table} {op : Table → Outcome Table}
      {key : String} {x : Value} : FirstAt (fun t => t.name == name) g.tables i t →
      Table.Inserts g.config.numbering t op key x →
      Graph.Inserts g (fun g => g.editTable name op) [.key "model", .key "tables", .item i] key x

theorem Graph.Sets.differsAt (h : g.Sets op path settings) (hg : g.Keyed) :
    ∃ g', op g = .ok g' ∧ g.dump.DiffersAt (Value.Rewrites settings) path g'.dump := by
  cases h with
  | @table name i t op path settings hfirst hsets =>
      obtain ⟨t', ht', hdiffers⟩ := hsets.differsAt (hg.tables t (List.mem_of_getElem? hfirst.2))
      have hedit : g.editTable name op = .ok { g with tables := g.tables.set i t' } := by
        rw [Graph.editTable, editFirst_of_firstAt hfirst, ht']
        rfl
      exact ⟨_, hedit, Graph.differsAt_table hfirst.2 hdiffers⟩
  | @relationship a b i r both hfirst =>
      have hr := hg.relationships r (List.mem_of_getElem? hfirst.2)
      have hedit : (g.editRelationship a b fun r => r.setBothDirections both) =
          .ok { g with relationships := g.relationships.set i (r.setBothDirections both) } := by
        rw [Graph.editRelationship, editFirst_of_firstAt hfirst]
        rfl
      exact ⟨_, hedit, Graph.differsAt_relationship hfirst.2
        (.here (Relationship.rewrites_setBothDirections hr both))⟩

theorem Graph.Inserts.operation (h : g.Inserts op path key x) : Graph.Operation op := by
  cases h with
  | newTable tag name => exact .newTable tag name
  | newRelationship name source table column => exact .newRelationship name source table column
  | @queryGroup name _ => exact .insertQueryGroup name
  | @inTable name _ _ _ _ _ _ hinserts => exact .table name hinserts.operation

theorem Graph.Inserts.differsAt (h : g.Inserts op path key x) (hg : g.Keyed)
    (heq : op g = .ok g') : g.dump.DiffersAt (Value.Appends key x) path g'.dump := by
  have hkeyed := (h.operation.keyed hg heq).keyed_dumpModel
  cases h with
  | newTable tag name =>
      cases Graph.eq_of_insertTable heq
      obtain ⟨write, hlist, hwrite⟩ := g.lists_tables
      refine Graph.differsAt_model rfl rfl (.here ?_)
      rw [hwrite] at hkeyed
      rw [hwrite, hwrite]
      exact hlist.appends_map hkeyed
  | newRelationship name source table column =>
      cases Graph.eq_of_newRelationship heq
      obtain ⟨write, hlist, hwrite⟩ := g.lists_relationships
      refine Graph.differsAt_model rfl rfl (.here ?_)
      rw [hwrite] at hkeyed
      rw [hwrite, hwrite]
      exact hlist.appends_map hkeyed
  | @queryGroup name hnew =>
      have hg' : g' = { g with queryGroups := g.queryGroups ++ [name] } := by
        cases heq
        rw [Graph.insertQueryGroup, if_neg (mt List.contains_iff_mem.mp hnew)]
      subst hg'
      obtain ⟨write, hlist, hwrite⟩ := Graph.lists_queryGroups hg
      refine Graph.differsAt_model rfl rfl (.here ?_)
      rw [hwrite, List.mapIdx_concat] at hkeyed
      rw [hwrite, hwrite, List.mapIdx_concat]
      exact hlist.appends _ (Value.keyed_obj.mp hkeyed).1
  | @inTable name i t op key x hfirst hinserts =>
      change g.editTable name op = .ok g' at heq
      rw [Graph.editTable, editFirst_of_firstAt hfirst, inPart_eq_ok] at heq
      obtain ⟨tables, htables, rfl⟩ := heq
      obtain ⟨t', ht', rfl⟩ := inPart_eq_ok.mp htables
      have ht := hg.tables t (List.mem_of_getElem? hfirst.2)
      exact Graph.differsAt_table hfirst.2 (.here (hinserts.appends ht ht'))

/-- In every model that operations lead to, an edit of one entity changes the dump in the keys of
    this entity that it sets, and an insertion appends one element to a list, or makes the list
    when there was none. All else in the dump is as it was. -/
theorem Graph.Reached.edits_in_place (h : g.Reached) :
    (∀ op path settings, g.Sets op path settings → ∃ g', op g = .ok g' ∧
      g.dump.DiffersAt (Value.Rewrites settings) path g'.dump) ∧
    ∀ op path key x g', g.Inserts op path key x → op g = .ok g' →
      g.dump.DiffersAt (Value.Appends key x) path g'.dump :=
  ⟨fun _ _ _ hsets => hsets.differsAt h.keyed,
    fun _ _ _ _ _ hinserts heq => hinserts.differsAt h.keyed heq⟩

/-- A model with one table, which has the column that numbers its rows. -/
def salesModel : Graph := { Graph.empty "g" Config.default with tables := [.fresh "t" "Sales"] }

theorem Graph.edits_in_place_salesModel : salesModel.Reached ∧
    (∃ g', (salesModel.editTable "Sales" fun t => t.editColumn rowNumberName fun c =>
        c.setSourceColumn (some "Row")) = .ok g' ∧ salesModel.dump ≠ g'.dump ∧
      salesModel.dump.DiffersAt (Value.Rewrites [("sourceColumn", .str "Row")])
        [.key "model", .key "tables", .item 0, .key "columns", .item 0] g'.dump) ∧
    ∃ g', salesModel.newTable "t" "Stores" = .ok g' ∧
      salesModel.dump.DiffersAt
        (Value.Appends "tables" ((Table.fresh "t" "Stores").dump .sequential).prune)
        [.key "model"] g'.dump := by
  have hreached : salesModel.Reached :=
    .step (.empty "g" Config.default) (.newTable "t" "Sales") rfl
  obtain ⟨hedits, hinserts⟩ := Graph.Reached.edits_in_place hreached
  have htable : FirstAt (fun t => t.name == "Sales") salesModel.tables 0 (.fresh "t" "Sales") :=
    ⟨by decide, rfl⟩
  have hcolumn : FirstAt (fun c => c.name == rowNumberName) (Table.fresh "t" "Sales").columns 0
      Column.rowNumber := ⟨by decide, rfl⟩
  obtain ⟨g', hg', hdiffers⟩ :=
    hedits _ _ _ (.table htable (.column hcolumn (.sourceColumn (some "Row"))))
  have hchanged : salesModel.dump ≠ g'.dump := by
    cases hg'
    exact fun h => absurd (congrArg Value.compact h) (by decide +kernel)
  exact ⟨hreached, ⟨g', hg', hchanged, hdiffers⟩, _, rfl,
    hinserts _ _ _ _ _ (.newTable "t" "Stores") rfl⟩

end Tabular.Model
