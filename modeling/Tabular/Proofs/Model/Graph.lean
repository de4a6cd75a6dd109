/- Models over their documents. -/
import Tabular.Proofs.Model.Relationship
import Tabular.Proofs.Model.Table

namespace Tabular.Model
open Tabular.Json Tabular.Query
variable {ms : Members} {path fresh : String} {config : Config} {doc : Value} {g : Graph}

/-- The folder that the document of a query group names. -/
def Folder (doc : Value) (folder : String) : Prop :=
  doc = .obj doc.members ∧ doc.members.read "folder" = .str folder

theorem loadGroup_eq_ok {folder : String} :
    loadGroup path doc = .ok folder ↔ Folder doc folder := by
  simp only [loadGroup, bind_eq_ok, membersOf_eq_ok, requiredText_eq_ok]
  constructor
  · rintro ⟨group, rfl, hfolder⟩
    exact ⟨rfl, hfolder⟩
  · exact fun h => ⟨doc.members, h⟩

theorem modelMembers_eq_ok {root model : Members} :
    modelMembers root = .ok model ↔ root.read "model" = .obj model := by
  rw [modelMembers, Members.read]
  cases root.get? "model" with
  | none => simp
  | some v => cases v <;> simp

/-- The object of the model in a document. -/
def modelOf (doc : Value) : Members := (doc.members.read "model").members

/-- The model that a document holds; `fresh` is the id of one without a name. -/
structure Graph.Loaded (fresh : String) (config : Config) (doc : Value) (g : Graph) : Prop where
  object : doc = .obj doc.members
  inner : doc.members.read "model" = .obj (modelOf doc)
  relationships : Listing Relationship.Loaded ((modelOf doc).read "relationships") g.relationships
  tables : Listing Table.Loaded ((modelOf doc).read "tables") g.tables
  queryGroups : Listing Folder ((modelOf doc).read "queryGroups") g.queryGroups
  id : ∃ name?, doc.members.read "name" = .ofText? name? ∧ g.id = name?.getD fresh
  config : g.config = config
  root : g.root = doc.members.replace "model" (.obj [])
  model : g.model = modelStored (modelOf doc)

theorem loadRelationships_eq_ok {i : Nat} {docs : List Value} {rs : List Relationship} :
    loadItems Relationship.load path i docs = .ok rs ↔ List.Forall₂ Relationship.Loaded docs rs :=
  loadItems_eq_ok @Relationship.load_eq_ok

theorem traceTables_eq_ok {i : Nat} {docs : List Value} {ts : List Table} :
    (traceItems Table.load path i docs).result = .ok ts ↔ List.Forall₂ Table.Loaded docs ts :=
  traceItems_eq_ok @Table.load_eq_ok

theorem loadGroups_eq_ok {i : Nat} {docs : List Value} {folders : List String} :
    loadItems loadGroup path i docs = .ok folders ↔ List.Forall₂ Folder docs folders :=
  loadItems_eq_ok @loadGroup_eq_ok

theorem Graph.load_eq_ok :
    (Graph.load fresh config doc).result = .ok g ↔ Graph.Loaded fresh config doc g := by
  simp only [Graph.load, Traced.result_bind, Traced.result_lift, Traced.result_notes,
    Traced.result_note, Traced.result_pure, bind_eq_ok, Except.ok.injEq, membersOf_eq_ok,
    modelMembers_eq_ok, optionalItems_eq_ok, optionalText_eq_ok, loadRelationships_eq_ok,
    traceTables_eq_ok, loadGroups_eq_ok]
  constructor
  · rintro ⟨root, rfl, model, hmodel, relationshipDocs, hrelationshipDocs, relationships,
      hrelationships, tableDocs, htableDocs, tables, htables, groupDocs, hgroupDocs, groups,
      hgroups, _, _, name, hname, _, _, rfl⟩
    have hinner : modelOf (.obj root) = model := by
      rw [modelOf, Value.members_obj, hmodel, Value.members_obj]
    refine ⟨rfl, ?_, ⟨relationshipDocs, ?_, hrelationships⟩, ⟨tableDocs, ?_, htables⟩,
      ⟨groupDocs, ?_, hgroups⟩, ⟨name, hname, rfl⟩, rfl, rfl, ?_⟩
    all_goals rw [hinner]
    all_goals assumption
  · obtain ⟨id, config', tables, relationships, groups, root, model⟩ := g
    rintro ⟨hdoc, hmodel, ⟨relationshipDocs, hrelationshipDocs, hrelationships⟩,
      ⟨tableDocs, htableDocs, htables⟩, ⟨groupDocs, hgroupDocs, hgroups⟩, ⟨name, hname, rfl⟩,
      rfl, rfl, rfl⟩
    exact ⟨doc.members, hdoc, modelOf doc, hmodel, relationshipDocs, hrelationshipDocs,
      relationships, hrelationships, tableDocs, htableDocs, tables, htables, groupDocs,
      hgroupDocs, groups, hgroups, (), trivial, name, hname, (), trivial, rfl⟩

/-- Options of data access as a dump has them: an object in which two of them are set. -/
def accessOptions (v : Value) : Value :=
  .obj ((v.members.put "legacyRedirects" (.bool true)).put "returnErrorValuesAsNull" (.bool true))

/-- What is written over the model in any case. -/
def modelFields (config : Config) (ms : Members) : List (String × Value) :=
  [("dataAccessOptions", accessOptions (ms.read "dataAccessOptions")),
    ("defaultPowerBIDataSourceVersion", .str config.dataSourceVersion),
    ("sourceQueryCulture", .str config.sourceQueryCulture)]

/-- Writes the query groups, if there are any. -/
def putGroups (ms : Members) (groups : List String) : Members :=
  if groups.isEmpty then ms else ms.put "queryGroups" (.arr (groups.mapIdx dumpGroup))

theorem Graph.dumpModel_eq (g : Graph) :
    g.dumpModel = putItems (putItems (putGroups (g.model.putAll (modelFields g.config g.model))
      g.queryGroups) "tables" (g.tables.map fun t => t.dump g.config.numbering))
      "relationships" (g.relationships.map Relationship.dump) := by
  have hoptions : (g.model.putPath ["dataAccessOptions", "legacyRedirects"] (.bool true)).putPath
      ["dataAccessOptions", "returnErrorValuesAsNull"] (.bool true) =
      g.model.put "dataAccessOptions" (accessOptions (g.model.read "dataAccessOptions")) := by
    rw [Members.putPath_pair, Members.putPath_pair, Members.read_put_self, Value.members_obj,
      Members.put_put]
    rfl
  rw [Graph.dumpModel, hoptions]
  rfl

theorem nodup_modelFields (config : Config) (ms : Members) :
    ((modelFields config ms).map Prod.fst).Nodup := by
  change ["dataAccessOptions", "defaultPowerBIDataSourceVersion", "sourceQueryCulture"].Nodup
  decide

theorem modelFields_modelStored (config : Config) (ms : Members) :
    modelFields config (modelStored ms) = modelFields config ms := by
  have hread : (modelStored ms).read "dataAccessOptions" = ms.read "dataAccessOptions" := by
    simp only [modelStored, Members.replace]
    rw [Members.read_update_of_ne (by decide), Members.read_update_of_ne (by decide),
      Members.read_update_of_ne (by decide)]
  rw [modelFields, hread, modelFields]

theorem putAll_modelStored (config : Config) (ms : Members) :
    (modelStored ms).putAll (modelFields config ms) =
      modelStored (ms.putAll (modelFields config ms)) := by
  simp only [modelStored, Members.replace]
  rw [Members.putAll_update_of_notMem (by simp [modelFields]),
    Members.putAll_update_of_notMem (by simp [modelFields]),
    Members.putAll_update_of_notMem (by simp [modelFields])]

theorem putGroups_update_of_ne {key : String} (h : key ≠ "queryGroups") (ms : Members)
    (f : Value → Value) (groups : List String) :
    putGroups (ms.update key f) groups = (putGroups ms groups).update key f := by
  rw [putGroups, putGroups]
  split
  · rfl
  · exact Members.put_update_of_ne h ms f _

/-- The members of the model with the fields of a configuration. -/
def configured (config : Config) (ms : Members) : Members := ms.putAll (modelFields config ms)

/-- Writes the three lists of a model. -/
def putLists (ms : Members) (groups : List String) (tables relationships : List Value) : Members :=
  putItems (putItems (putGroups ms groups) "tables" tables) "relationships" relationships

/-- The lists that were kept apart are written over the model as it was. -/
theorem putLists_modelStored (ms : Members) (groups : List String)
    (tables relationships : List Value) :
    putLists (modelStored ms) groups tables relationships =
      putLists (ms.replace "queryGroups" .null) groups tables relationships := by
  have hstored : modelStored ms = ((ms.replace "queryGroups" .null).replace
      "relationships" (.arr [])).replace "tables" (.arr []) := by
    simp only [modelStored, Members.replace]
    rw [Members.update_comm (show "tables" ≠ "queryGroups" by decide),
      Members.update_comm (show "relationships" ≠ "queryGroups" by decide)]
  rw [hstored, putLists, putLists, Members.replace, putGroups_update_of_ne (by decide),
    ← Members.replace, putItems_replace, Members.replace, putGroups_update_of_ne (by decide),
    putItems_update_of_ne (by decide), ← Members.replace, putItems_replace]

theorem Graph.Loaded.dumpModel_eq (h : Graph.Loaded fresh config doc g) :
    g.dumpModel = putLists ((configured config (modelOf doc)).replace "queryGroups" .null)
      g.queryGroups (g.tables.map fun t => t.dump g.config.numbering)
      (g.relationships.map Relationship.dump) := by
  rw [Graph.dumpModel_eq, h.model, h.config, modelFields_modelStored, putAll_modelStored,
    ← putLists, putLists_modelStored, configured]

/-- The document of a query group as a dump has it. -/
def revisedGroup (i : Nat) (doc : Value) : Value :=
  .obj [("folder", doc.members.read "folder"),
    ("annotations", .arr [remark "PBI_QueryGroupOrder" (toString i)])]

/-- The query groups as a dump has them: an empty list is left out. -/
def revisedGroups : Value → Value
  | .arr [] => .null
  | .arr docs => .arr (docs.mapIdx revisedGroup)
  | v => v

theorem mapIdx_revisedGroup {docs : List Value} {folders : List String}
    (h : List.Forall₂ Folder docs folders) :
    folders.mapIdx dumpGroup = docs.mapIdx revisedGroup := by
  rw [List.mapIdx_eq_zipIdx_map, List.mapIdx_eq_zipIdx_map]
  generalize 0 = n
  induction h generalizing n with
  | nil => rfl
  | @cons doc folder docs folders hdoc _ ih =>
      rw [List.zipIdx_cons, List.zipIdx_cons, List.map_cons, List.map_cons, ih]
      congr 1
      simp only [dumpGroup, revisedGroup, hdoc.2]

theorem putGroups_alike {groups : List String}
    (h : Listing Folder (ms.read "queryGroups") groups) :
    (putGroups (ms.replace "queryGroups" .null) groups).Alike
      (ms.update "queryGroups" revisedGroups) := by
  obtain ⟨docs, hdocs, hload⟩ := h
  cases hload with
  | nil =>
      -- Nothing is written; the list that was read, empty or null, has been replaced by null.
      apply Members.update_alike
      intro v hv
      rw [Members.read_of_get? hv] at hdocs
      rcases listed?_eq_some hdocs with rfl | ⟨rfl, _⟩
      · rfl
      · rfl
  | @cons doc folder docs folders hdoc hrest =>
      have hgroups := mapIdx_revisedGroup (.cons hdoc hrest)
      have hread : ms.read "queryGroups" = .arr (doc :: docs) := by
        rcases listed?_eq_some hdocs with heq | ⟨_, hnil⟩
        · exact heq
        · cases hnil
      have hput : putGroups (ms.replace "queryGroups" .null) (folder :: folders) =
          ms.put "queryGroups" (revisedGroups (.arr (doc :: docs))) := by
        rw [putGroups, List.isEmpty_cons, if_neg (by decide), hgroups]
        exact Members.put_update_self ms "queryGroups" _ _
      rw [hput, Members.put_eq_update (Members.get?_of_read hread rfl)]
      exact Members.Alike.refl _

/-- The object of the model as a dump has it. -/
def revisedModel (config : Config) (ms : Members) : Members :=
  (((configured config ms).update "queryGroups" revisedGroups).update
    "tables" (revisedItems revisedTable)).update "relationships" (revisedItems revisedRelationship)

theorem read_configured {key : String} (config : Config) (ms : Members)
    (h : key ∉ ["dataAccessOptions", "defaultPowerBIDataSourceVersion", "sourceQueryCulture"]) :
    (configured config ms).read key = ms.read key := Members.read_putAll_of_notMem h ms

/-- Of the model in a document, a dump changes the fields and lists that are typed. -/
theorem Graph.Loaded.prune_dumpModel (h : Graph.Loaded fresh config doc g) :
    Value.pruneMembers g.dumpModel = Value.pruneMembers (revisedModel config (modelOf doc)) := by
  have hgroups : Listing Folder ((configured config (modelOf doc)).read "queryGroups")
      g.queryGroups := by
    rw [read_configured _ _ (by decide)]
    exact h.queryGroups
  have htables : Listing Table.Loaded (((configured config (modelOf doc)).update
      "queryGroups" revisedGroups).read "tables") g.tables := by
    rw [Members.read_update_of_ne (by decide), read_configured _ _ (by decide)]
    exact h.tables
  have hrelationships : Listing Relationship.Loaded ((((configured config (modelOf doc)).update
      "queryGroups" revisedGroups).update "tables" (revisedItems revisedTable)).read
      "relationships") g.relationships := by
    rw [Members.read_update_of_ne (by decide), Members.read_update_of_ne (by decide),
      read_configured _ _ (by decide)]
    exact h.relationships
  have hdumps := putItems_alike htables
    fun ht => Table.Loaded.dump_prune ht g.config.numbering
  rw [h.dumpModel_eq, putLists,
    (putItems_congr (putItems_congr (putGroups_alike hgroups) "tables" _)
      "relationships" _).prune_eq,
    (putItems_congr hdumps "relationships" _).prune_eq,
    (putItems_alike hrelationships Relationship.Loaded.dump_prune).prune_eq, revisedModel]

/-- The name of a model, where a missing one is `fresh`. -/
def revisedName (fresh : String) (name : Value) : Value :=
  if name.isNull then .str fresh else name

/-- The document of a model as a dump has it, with its null members. -/
def revisedDocument (fresh : String) (config : Config) : Value → Value := Value.revise fun root =>
  (root.put "name" (revisedName fresh (root.read "name"))).put
    "model" (.obj (revisedModel config (root.read "model").members))

theorem Graph.Loaded.dump_eq (h : Graph.Loaded fresh config doc g) :
    g.dump = (revisedDocument fresh config doc).prune := by
  have hname : Value.str g.id = revisedName fresh (doc.members.read "name") := by
    obtain ⟨name, hread, hid⟩ := h.id
    rw [hread, hid]
    cases name <;> rfl
  have hmodel : (Value.obj g.dumpModel).prune =
      (Value.obj (revisedModel config (modelOf doc))).prune := by
    rw [Value.prune_obj, h.prune_dumpModel, Value.prune_obj]
  -- The empty object that stands for the model is written over.
  have hroot : (g.root.put "name" (.str g.id)).put "model" (.obj g.dumpModel) =
      (doc.members.put "name" (.str g.id)).put "model" (.obj g.dumpModel) := by
    rw [h.root, Members.replace, Members.put_update_of_ne (by decide), Members.put_update_self]
  have halike := (Members.Alike.refl (doc.members.put "name" (.str g.id))).put "model" hmodel
  rw [Graph.dump, hroot, Value.prune_obj, halike.prune_eq, hname, h.object]
  rfl

/-- No object that a model stores gives a key twice, and it stores no query groups. -/
structure Graph.Keyed (g : Graph) : Prop where
  root : (Value.obj g.root).Keyed
  model : (Value.obj g.model).Keyed
  tables : ∀ t ∈ g.tables, t.Keyed
  relationships : ∀ r ∈ g.relationships, (Value.obj r.stored).Keyed
  queryGroups : listed? (g.model.read "queryGroups") = some []

/-- What holds of every model that is loaded or edited. -/
structure Graph.Sound (g : Graph) : Prop where
  root : (Value.obj g.root).Keyed
  model : (Value.obj g.model).Keyed
  tables : ∀ t ∈ g.tables, t.Sound
  relationships : ∀ r ∈ g.relationships, r.Sound
  /-- The document keeps no query groups of its own. -/
  queryGroups : listed? (g.model.read "queryGroups") = some []

theorem listed?_read_replace {key : String} {v : Value} (h : listed? v = some [])
    (ms : Members) : listed? ((ms.replace key v).read key) = some [] := by
  rw [Members.read, Members.replace, Members.get?_update, if_pos rfl]
  cases ms.get? key with
  | none => rfl
  | some w => exact h

theorem keyed_modelStored (h : (Value.obj ms).Keyed) : (Value.obj (modelStored ms)).Keyed := by
  have hlist : (Value.arr []).Keyed := trivial
  exact Members.keyed_replace (Members.keyed_replace (Members.keyed_replace h _ hlist) _ hlist) _
    Value.keyed_null

theorem Graph.Loaded.sound (h : Graph.Loaded fresh config doc g) (hd : doc.Keyed) : g.Sound := by
  have hmodel : (Value.obj (modelOf doc)).Keyed := (Members.keyed_read hd.members "model").members
  refine ⟨?_, ?_, ?_, ?_, ?_⟩
  · rw [h.root]
    exact Members.keyed_replace hd.members "model" (by decide)
  · rw [h.model]
    exact keyed_modelStored hmodel
  · exact h.tables.keyed (Members.keyed_read hmodel _) Table.Loaded.sound
  · exact h.relationships.keyed (Members.keyed_read hmodel _) Relationship.Loaded.sound
  · rw [h.model]
    exact listed?_read_replace rfl _

theorem keyed_configured (config : Config) (h : (Value.obj ms).Keyed) :
    (Value.obj (configured config ms)).Keyed := by
  have hoptions : (accessOptions (ms.read "dataAccessOptions")).Keyed :=
    Members.keyed_put (Members.keyed_put (Members.keyed_read h _).members _ (Value.keyed_bool _)) _
      (Value.keyed_bool _)
  apply Members.keyed_putAll h
  simp only [modelFields, List.forall_mem_cons, List.not_mem_nil, hoptions, Value.keyed_str,
    false_implies, implies_true, and_self]

theorem keyed_putGroups (h : (Value.obj ms).Keyed) (groups : List String) :
    (Value.obj (putGroups ms groups)).Keyed := by
  rw [putGroups]
  split
  · exact h
  · apply Members.keyed_put h
    rw [Value.keyed_arr]
    intro v hv
    obtain ⟨i, _, rfl⟩ := List.mem_mapIdx.mp hv
    simp [dumpGroup, remark, Value.keyed_obj, Value.keyed_arr, Members.keys]

theorem Graph.Sound.toKeyed (h : g.Sound) : g.Keyed where
  root := h.root
  model := h.model
  tables t ht := (h.tables t ht).toKeyed
  relationships r hr := (h.relationships r hr).keyed
  queryGroups := h.queryGroups

theorem Graph.Keyed.keyed_dumpModel (h : g.Keyed) : (Value.obj g.dumpModel).Keyed := by
  have htables : ∀ v ∈ g.tables.map fun t => t.dump g.config.numbering, v.Keyed := by
    rw [List.forall_mem_map]
    intro t ht
    rw [Table.dump_eq]
    exact (h.tables t ht).keyed_written _
  have hrelationships : ∀ v ∈ g.relationships.map Relationship.dump, v.Keyed := by
    rw [List.forall_mem_map]
    exact fun r hr => Relationship.keyed_dump (h.relationships r hr)
  rw [Graph.dumpModel_eq]
  exact keyed_putItems (keyed_putItems (keyed_putGroups (keyed_configured _ h.model) _) _ htables)
    _ hrelationships

theorem Graph.Sound.keyed_dumpModel (h : g.Sound) : (Value.obj g.dumpModel).Keyed :=
  h.toKeyed.keyed_dumpModel

/-- The members of a dump that are kept. -/
def Graph.kept (g : Graph) : Members :=
  Value.pruneMembers ((g.root.put "name" (.str g.id)).put "model" (.obj g.dumpModel))

/-- The members of the model in a dump. -/
def Graph.keptModel (g : Graph) : Members := Value.pruneMembers g.dumpModel

theorem Graph.dump_eq_kept (g : Graph) : g.dump = .obj g.kept := rfl

theorem Graph.Sound.keyed_dump (h : g.Sound) : g.dump.Keyed :=
  (Members.keyed_put (Members.keyed_put h.root _ (Value.keyed_str _)) _ h.keyed_dumpModel).prune

theorem Graph.Keyed.read_kept (h : g.Keyed) (key : String) :
    g.kept.read key =
      (((g.root.put "name" (.str g.id)).put "model" (.obj g.dumpModel)).read key).prune :=
  (Members.keyed_put (Members.keyed_put h.root _ (Value.keyed_str _)) _
    h.keyed_dumpModel).read_prune key

theorem Graph.Keyed.read_name (h : g.Keyed) : g.kept.read "name" = .str g.id := by
  rw [h.read_kept, Members.read_put, if_neg (by decide), Members.read_put_self, Value.prune_str]

theorem Graph.Keyed.read_model (h : g.Keyed) : g.kept.read "model" = .obj g.keptModel := by
  rw [h.read_kept, Members.read_put_self, Value.prune_obj, Graph.keptModel]

theorem Graph.Keyed.modelOf_dump (h : g.Keyed) : modelOf g.dump = g.keptModel := by
  rw [modelOf, Graph.dump_eq_kept, Value.members_obj, h.read_model, Value.members_obj]

theorem Graph.Keyed.read_keptModel (h : g.Keyed) (key : String) :
    g.keptModel.read key = (Members.read g.dumpModel key).prune :=
  h.keyed_dumpModel.read_prune key

theorem accessOptions_prune {v : Value} (h : v.Keyed) :
    accessOptions (accessOptions v).prune = (accessOptions v).prune := by
  have hkeyed : (accessOptions v).Keyed :=
    Members.keyed_put (Members.keyed_put h.members _ (Value.keyed_bool _)) _ (Value.keyed_bool _)
  have hredirects := hkeyed.read_prune "legacyRedirects"
  have herrors := hkeyed.read_prune "returnErrorValuesAsNull"
  rw [Members.read_put, if_neg (by decide), Members.read_put_self, Value.prune_bool] at hredirects
  rw [Members.read_put_self, Value.prune_bool] at herrors
  rw [accessOptions, accessOptions, Value.prune_obj, Value.members_obj,
    Members.put_of_get? (Members.get?_of_read hredirects rfl),
    Members.put_of_get? (Members.get?_of_read herrors rfl)]

theorem read_dumpModel_of_notMem {key : String} (g : Graph)
    (h : key ∉ ["queryGroups", "tables", "relationships"]) :
    Members.read g.dumpModel key = (configured g.config g.model).read key := by
  simp only [List.mem_cons, List.not_mem_nil, or_false, not_or] at h
  rw [Graph.dumpModel_eq, read_putItems_of_ne (Ne.symm h.2.2), read_putItems_of_ne (Ne.symm h.2.1),
    putGroups]
  split
  · rfl
  · rw [Members.read_put, if_neg (Ne.symm h.1), configured]

theorem Graph.Keyed.modelFields_kept (h : g.Keyed) :
    modelFields g.config g.keptModel =
      (modelFields g.config g.model).map fun p => (p.1, p.2.prune) := by
  have hread : g.keptModel.read "dataAccessOptions" =
      (accessOptions (g.model.read "dataAccessOptions")).prune := by
    rw [h.read_keptModel, read_dumpModel_of_notMem g (by decide), configured,
      Members.read_putAll_of_mem (nodup_modelFields _ _) List.mem_cons_self]
  rw [modelFields, hread, accessOptions_prune (Members.keyed_read h.model _)]
  rfl

/-- A dump has the fields of the configuration already. -/
theorem Graph.Keyed.configured_kept (h : g.Keyed) :
    configured g.config g.keptModel = g.keptModel := by
  have hnull : ∀ p ∈ modelFields g.config g.model, p.2.isNull = false := by
    simp only [modelFields, accessOptions, Value.isNull, List.forall_mem_cons, List.not_mem_nil,
      false_implies, implies_true, and_self]
  have hlists : ∀ p ∈ modelFields g.config g.model,
      p.1 ∉ ["queryGroups", "tables", "relationships"] := by
    simp [modelFields]
  -- Each field has been written by the dump itself, and none of them is dropped as null.
  rw [configured, h.modelFields_kept]
  apply Members.putAll_of_get?
  rw [List.forall_mem_map]
  intro p hp
  apply Members.get?_of_read
  · rw [h.read_keptModel, read_dumpModel_of_notMem g (hlists p hp), configured,
      Members.read_putAll_of_mem (nodup_modelFields _ _) hp]
  · rw [Value.isNull_prune]
    exact hnull p hp

theorem Graph.read_relationships (g : Graph) : ∃ ms : Members,
    Members.read g.dumpModel "relationships" = (putItems ms "relationships"
      (g.relationships.map Relationship.dump)).read "relationships" := by
  rw [Graph.dumpModel_eq]
  exact ⟨_, rfl⟩

theorem Graph.read_tables (g : Graph) : ∃ ms : Members,
    Members.read g.dumpModel "tables" =
      (putItems ms "tables" (g.tables.map fun t => t.dump g.config.numbering)).read "tables" := by
  rw [Graph.dumpModel_eq, read_putItems_of_ne (by decide)]
  exact ⟨_, rfl⟩

theorem read_queryGroups (g : Graph) : Members.read g.dumpModel "queryGroups" =
    (putGroups (configured g.config g.model) g.queryGroups).read "queryGroups" := by
  rw [Graph.dumpModel_eq, read_putItems_of_ne (by decide), read_putItems_of_ne (by decide),
    configured]

theorem Graph.Sound.revisedTables_kept (h : g.Sound) :
    g.keptModel.update "tables" (revisedItems revisedTable) = g.keptModel := by
  have hread := h.toKeyed.read_keptModel "tables"
  obtain ⟨ms, htables⟩ := g.read_tables
  rw [htables, Graph.keptModel] at hread
  apply update_revisedItems fun t ht => (h.tables t ht).revisedTable_dump g.config.numbering
  rw [hread]
  exact prune_read_putItems ms _ _

theorem Graph.Sound.revisedRelationships_kept (h : g.Sound) :
    g.keptModel.update "relationships" (revisedItems revisedRelationship) = g.keptModel := by
  have hread := h.toKeyed.read_keptModel "relationships"
  obtain ⟨ms, hrelationships⟩ := g.read_relationships
  rw [hrelationships, Graph.keptModel] at hread
  apply update_revisedItems fun r hr => (h.relationships r hr).revisedRelationship_dump
  rw [hread]
  exact prune_read_putItems ms _ _

/-- Of the model in a dump, a second dump may change the query groups. -/
theorem Graph.Sound.revisedModel_kept (h : g.Sound) :
    revisedModel g.config g.keptModel = g.keptModel.update "queryGroups" revisedGroups := by
  rw [revisedModel, h.toKeyed.configured_kept,
    Members.update_comm (show "queryGroups" ≠ "tables" by decide), h.revisedTables_kept,
    Members.update_comm (show "queryGroups" ≠ "relationships" by decide),
    h.revisedRelationships_kept]

theorem prune_dumpGroups (groups : List String) :
    (Value.arr (groups.mapIdx dumpGroup)).prune = .arr (groups.mapIdx dumpGroup) := by
  have hgroup : ∀ v ∈ groups.mapIdx dumpGroup, v.prune = v := by
    intro v hv
    obtain ⟨i, _, rfl⟩ := List.mem_mapIdx.mp hv
    rfl
  rw [Value.prune_arr, List.map_congr_left hgroup, List.map_id']

theorem forall₂_folder_dumpGroups (groups : List String) :
    List.Forall₂ Folder (groups.mapIdx dumpGroup) groups := by
  rw [List.mapIdx_eq_zipIdx_map]
  generalize 0 = n
  induction groups generalizing n with
  | nil => exact .nil
  | cons folder groups ih =>
      rw [List.zipIdx_cons, List.map_cons]
      exact .cons ⟨rfl, rfl⟩ (ih (n + 1))

theorem Graph.Keyed.listing_queryGroups (h : g.Keyed) :
    Listing Folder (g.keptModel.read "queryGroups") g.queryGroups := by
  have hstored := h.queryGroups
  rw [h.read_keptModel, read_queryGroups, putGroups]
  split
  · rename_i hempty
    rw [List.isEmpty_iff.mp hempty, read_configured _ _ (by decide)]
    rcases listed?_eq_some hstored with heq | ⟨heq, _⟩
    · rw [heq]
      exact ⟨[], rfl, .nil⟩
    · rw [heq]
      exact ⟨[], rfl, .nil⟩
  · rw [Members.read_put_self, prune_dumpGroups]
    exact ⟨_, rfl, forall₂_folder_dumpGroups g.queryGroups⟩

def Graph.reload (g : Graph) : Graph where
  id := g.id
  config := g.config
  tables := g.tables.map fun t => t.reload g.config.numbering
  relationships := g.relationships.map Relationship.reload
  queryGroups := g.queryGroups
  root := g.kept.replace "model" (.obj [])
  model := modelStored g.keptModel

/-- What loading the dump of a model gives, whatever names its data types have. -/
def Graph.reread (g : Graph) : Graph :=
  { g.reload with tables := g.tables.map fun t => t.reread g.config.numbering }

/-- A dump loads, whatever the id of a model without a name is. -/
theorem Graph.Keyed.loaded_reread (h : g.Keyed) (fresh : String) :
    Graph.Loaded fresh g.config g.dump g.reread := by
  refine ⟨rfl, ?_, ?_, ?_, ?_, ⟨some g.id, h.read_name, rfl⟩, rfl, rfl, ?_⟩
  · rw [h.modelOf_dump]
    exact h.read_model
  · obtain ⟨ms, hrelationships⟩ := g.read_relationships
    rw [h.modelOf_dump, h.read_keptModel, hrelationships]
    exact Listing.of_putItems (fun r hr => Relationship.Sound.loaded_reload
      ⟨h.relationships r hr⟩) ms _
  · obtain ⟨ms, htables⟩ := g.read_tables
    rw [h.modelOf_dump, h.read_keptModel, htables]
    exact Listing.of_putItems (fun t ht => (h.tables t ht).loaded_reread g.config.numbering) ms _
  · rw [h.modelOf_dump]
    exact h.listing_queryGroups
  · rw [h.modelOf_dump]
    rfl

theorem Graph.Sound.reread_eq (h : g.Sound) : g.reread = g.reload := by
  have htables : (g.tables.map fun t => t.reread g.config.numbering) =
      g.tables.map fun t => t.reload g.config.numbering :=
    List.map_congr_left fun t ht => (h.tables t ht).reread_eq g.config.numbering
  rw [Graph.reread, htables]
  rfl

theorem Graph.Sound.loaded_reload (h : g.Sound) (fresh : String) :
    Graph.Loaded fresh g.config g.dump g.reload :=
  h.reread_eq ▸ h.toKeyed.loaded_reread fresh

theorem Graph.Sound.load_dump (h : g.Sound) (fresh : String) :
    (Graph.load fresh g.config g.dump).result = .ok g.reload :=
  Graph.load_eq_ok.mpr (h.loaded_reload fresh)

/-- The dump of a reloaded model has the query groups anew. -/
theorem Graph.Sound.dump_reload (h : g.Sound) :
    g.reload.dump = (Value.obj (g.kept.put "model"
      (.obj (g.keptModel.update "queryGroups" revisedGroups)))).prune := by
  rw [(h.loaded_reload g.id).dump_eq, Graph.dump_eq_kept, revisedDocument, Value.revise,
    h.toKeyed.read_name, h.toKeyed.read_model, Value.members_obj, h.revisedModel_kept]
  have hname : g.kept.put "name" (revisedName g.id (.str g.id)) = g.kept :=
    Members.put_of_get? (Members.get?_of_read h.toKeyed.read_name rfl)
  rw [hname]

end Tabular.Model
