/- The model of a template: tables, relationships between them, and groups of queries. -/
import Tabular.Document.Prune
import Tabular.Model.Config
import Tabular.Model.DateTable
import Tabular.Model.Relationship
import Tabular.Model.Table

namespace Tabular.Model
open Tabular.Json Tabular.Query

/-- A model over its stored document: `root` with an empty model in it, and `model` apart. -/
structure Graph where
  id : String
  config : Config
  tables : List Table
  relationships : List Relationship
  queryGroups : List String
  root : Members
  model : Members

def defaultModel (config : Config) : Members :=
  [("culture", .str config.culture),
    ("dataAccessOptions", .obj
      [("legacyRedirects", .bool true), ("returnErrorValuesAsNull", .bool true)]),
    ("defaultPowerBIDataSourceVersion", .str config.dataSourceVersion),
    ("sourceQueryCulture", .str config.sourceQueryCulture),
    ("tables", .arr []),
    ("relationships", .arr []),
    ("cultures", .arr [.obj
      [("name", .str config.culture),
        ("linguisticMetadata", .obj
          [("content", .obj
            [("Version", .str "1.0.0"),
              ("Language", .str config.culture),
              ("DynamicImprovement", .str "HighConfidence")]),
            ("contentType", .str "json")])]]),
    ("queryGroups", .null),
    ("annotations", .arr
      [remark "PBI_QueryOrder" "[]",
        remark "__PBI_TimeIntelligenceEnabled" "1",
        remark "PBIDesktopVersion" config.desktopVersion])]

def Graph.empty (id : String) (config : Config) : Graph where
  id := id
  config := config
  tables := []
  relationships := []
  queryGroups := []
  root :=
    [("name", .str id),
      ("compatibilityLevel", Value.ofInt config.compatibilityLevel.toNat),
      ("model", .obj [])]
  model := defaultModel config

def modelMembers (root : Members) : Except Fault Members :=
  match root.get? "model" with
  | some (.obj model) => .ok model
  | none => .error (fieldMissing "model")
  | some .null => .error (fieldMissing "model")
  | some v => .error (wrongKind "model" "an object" v)

def loadGroup (path : String) (doc : Value) : Except Fault String := do
  let group ← membersOf path doc
  requiredText group path "folder"

/-- Warns of each table whose name has come before. -/
def tableWarnings (tables : List Table) : List Record :=
  (repeated [] (tables.map Table.name)).map fun name =>
    ⟨.warn, "schema repeats table " ++ named name⟩

/-- Warns of each relationship between tables that an earlier one joins. -/
def relationshipWarnings (earlier : List Relationship) : List Relationship → List Record
  | [] => []
  | r :: rs =>
    let warnings := relationshipWarnings (earlier ++ [r]) rs
    if earlier.any fun e => e.connects r.source.table r.target.table then
      ⟨.warn, "schema holds more than one relationship between " ++ named r.source.table
        ++ " and " ++ named r.target.table⟩ :: warnings
    else warnings

/-- The stored object of a model, with its lists emptied. -/
def modelStored (ms : Members) : Members :=
  ((ms.replace "relationships" (.arr [])).replace "tables" (.arr [])).replace "queryGroups" .null

/-- Loads a model; `id` is for a document without a name. -/
def Graph.load (id : String) (config : Config) (doc : Value) : Traced Fault Graph := do
  let root ← Traced.lift (membersOf "$" doc)
  let model ← Traced.lift (modelMembers root)
  let items ← Traced.lift (optionalItems model "model" "relationships")
  let relationships ← Traced.lift (loadItems Relationship.load "model.relationships" 0 items)
  let items ← Traced.lift (optionalItems model "model" "tables")
  let tables ← traceItems Table.load "model.tables" 0 items
  let items ← Traced.lift (optionalItems model "model" "queryGroups")
  let groups ← Traced.lift (loadItems loadGroup "model.queryGroups" 0 items)
  Traced.notes (tableWarnings tables ++ relationshipWarnings [] relationships)
  let name ← Traced.lift (optionalText root "$" "name")
  let id := name.getD id
  Traced.note .debug ("loaded schema " ++ named id ++ ": " ++ toString tables.length
    ++ " tables, " ++ toString relationships.length ++ " relationships, "
    ++ toString groups.length ++ " query groups")
  pure ⟨id, config, tables, relationships, groups, root.replace "model" (.obj []),
    modelStored model⟩

/-- The document of a query group, which notes its place among them. -/
def dumpGroup (i : Nat) (folder : String) : Value :=
  .obj
    [("folder", .str folder),
      ("annotations", .arr [remark "PBI_QueryGroupOrder" (toString i)])]

/-- Writes a list, if it has elements or the document has the key. -/
def putItems (ms : Members) (key : String) (items : List Value) : Members :=
  if !items.isEmpty || ms.has key then ms.put key (.arr items) else ms

/-- The object of the model, not pruned. -/
def Graph.dumpModel (g : Graph) : Members :=
  let ms := (g.model.putPath ["dataAccessOptions", "legacyRedirects"] (.bool true)).putPath
    ["dataAccessOptions", "returnErrorValuesAsNull"] (.bool true)
  let ms := (ms.put "defaultPowerBIDataSourceVersion" (.str g.config.dataSourceVersion)).put
    "sourceQueryCulture" (.str g.config.sourceQueryCulture)
  let ms := if g.queryGroups.isEmpty then ms
    else ms.put "queryGroups" (.arr (g.queryGroups.mapIdx dumpGroup))
  putItems (putItems ms "tables" (g.tables.map fun t => t.dump g.config.numbering))
    "relationships" (g.relationships.map Relationship.dump)

/-- The document of a model: its fields over what is stored, without null members. -/
def Graph.dump (g : Graph) : Value :=
  (Value.obj ((g.root.put "name" (.str g.id)).put "model" (.obj g.dumpModel))).prune

def Graph.dumpRecords (g : Graph) : List Record :=
  g.tables.flatMap (fun t => t.records g.config.numbering) ++
    [⟨.debug, "dumped schema " ++ named g.id ++ ": " ++ toString g.tables.length ++ " tables, "
      ++ toString g.relationships.length ++ " relationships"⟩]

def Graph.clearTables (g : Graph) : Graph :=
  { g with tables := [], model := g.model.replace "tables" (.arr []) }

def Graph.clearRelationships (g : Graph) : Graph :=
  { g with relationships := [], model := g.model.replace "relationships" (.arr []) }

def Graph.clearQueryGroups (g : Graph) : Graph :=
  { g with queryGroups := [], model := g.model.replace "queryGroups" (.arr []) }

def Graph.clear (g : Graph) : Graph := g.clearTables.clearRelationships.clearQueryGroups

def Graph.hasTable (g : Graph) (name : String) : Bool := g.tables.any fun t => t.name == name

def Graph.table (g : Graph) (name : String) : Except Fault Table :=
  match g.tables.find? fun t => t.name == name with
  | some t => .ok t
  | none => .error (.missing .table name none)

/-- Changes the first table of a name. -/
def Graph.editTable (g : Graph) (name : String) (edit : Table → Outcome Table) : Outcome Graph :=
  inPart (fun tables => { g with tables := tables })
    (editFirst (fun t => t.name == name) (.missing .table name none) edit g.tables)

/-- Puts a table at the end, unless its name is taken. -/
def Graph.insertTable (g : Graph) (t : Table) : Outcome Graph :=
  if g.hasTable t.name then .error ⟨.duplicateTable t.name, g⟩
  else .ok { g with tables := g.tables ++ [t] }

def Graph.newTable (g : Graph) (tag name : String) : Outcome Graph :=
  g.insertTable (.fresh tag name)

def Graph.insertDateTable (g : Graph) : Traced (Failure Graph) Graph := do
  let t ← (Table.load dateTableName dateTable).mapError fun fault => ⟨fault, g⟩
  Traced.lift (g.insertTable t)

/-- Adds a query group, unless it is there. -/
def Graph.insertQueryGroup (g : Graph) (name : String) : Graph :=
  if g.queryGroups.contains name then g
  else { g with queryGroups := g.queryGroups ++ [name] }

/-- What a pair of tables is called when it is looked up. -/
def pairName (a b : String) : String := a ++ " <-> " ++ b

/-- Joins two tables that no relationship joins; `name` is the new one's. The target column has
    the name of the source's unless told otherwise. -/
def Graph.newRelationship (g : Graph) (name : String) (source : Endpoint) (table : String)
    (column : Option String) : Outcome Graph :=
  if g.relationships.any fun r => r.connects source.table table then
    .error ⟨.duplicateRelationship source.table table, g⟩
  else
    .ok { g with relationships := g.relationships ++
      [.fresh name source ⟨table, column.getD source.column⟩] }

/-- The first relationship that joins two tables, in either direction. -/
def Graph.relationship (g : Graph) (a b : String) : Except Fault Relationship :=
  match g.relationships.find? fun r => r.connects a b with
  | some r => .ok r
  | none => .error (.missing .relationship (pairName a b) none)

def Graph.editRelationship (g : Graph) (a b : String) (edit : Relationship → Relationship) :
    Outcome Graph :=
  inPart (fun relationships => { g with relationships := relationships })
    (editFirst (fun r => r.connects a b) (.missing .relationship (pairName a b) none)
      (fun r => .ok (edit r)) g.relationships)

/-- Whether an endpoint names a column of a table. -/
def Graph.resolve (g : Graph) (endpoint : Endpoint) : Except Fault Unit := do
  let t ← g.table endpoint.table
  let _ ← t.column endpoint.column
  pure ()

def Graph.resolveAll (g : Graph) : List Endpoint → Except Fault Unit
  | [] => .ok ()
  | endpoint :: rest => do
    g.resolve endpoint
    g.resolveAll rest

/-- Checks that each end of each relationship is a column of a table. -/
def Graph.validateReferences (g : Graph) : Except Fault Unit :=
  g.resolveAll (g.relationships.flatMap Relationship.endpoints)

end Tabular.Model
