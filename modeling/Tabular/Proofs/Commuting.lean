/- Operations on different tables or lists of a model can change places. -/
import Tabular.Proofs.Model.Distinct
import Tabular.Proofs.Model.Independent

namespace Tabular.Model
open Tabular.Json Tabular.Query

/-- The lists of a model that operations change. -/
inductive ModelList where
  | tables
  | relationships
  | queryGroups
  deriving DecidableEq

def ModelList.Entry : ModelList → Type
  | .tables => Table
  | .relationships => Relationship
  | .queryGroups => String

def ModelList.get : (p : ModelList) → Graph → List p.Entry
  | .tables => Graph.tables
  | .relationships => Graph.relationships
  | .queryGroups => Graph.queryGroups

def ModelList.set : (p : ModelList) → List p.Entry → Graph → Graph
  | .tables, entries, g => { g with tables := entries }
  | .relationships, entries, g => { g with relationships := entries }
  | .queryGroups, entries, g => { g with queryGroups := entries }

/-- A change of a list as an operation on the model. -/
def ModelList.lift (p : ModelList) (change : List p.Entry → Outcome (List p.Entry))
    (g : Graph) : Outcome Graph :=
  inPart (fun entries => p.set entries g) (change (p.get g))

variable {ρ ρ' : Type} {p q : ModelList} {g : Graph}
  {change : List p.Entry → Outcome (List p.Entry)}
  {change' : List q.Entry → Outcome (List q.Entry)} {view : List p.Entry → ρ}
  {view' : List q.Entry → ρ'}

theorem ModelList.get_set (p : ModelList) (entries : List p.Entry) (g : Graph) :
    p.get (p.set entries g) = entries := by
  cases p <;> rfl

theorem ModelList.set_set (p : ModelList) (entries entries' : List p.Entry) (g : Graph) :
    p.set entries' (p.set entries g) = p.set entries' g := by
  cases p <;> rfl

theorem ModelList.get_set_of_ne (h : p ≠ q) (entries : List q.Entry) (g : Graph) :
    p.get (q.set entries g) = p.get g := by
  cases p <;> cases q <;> first | rfl | exact absurd rfl h

theorem ModelList.set_comm (h : p ≠ q) (entries : List p.Entry) (entries' : List q.Entry)
    (g : Graph) : p.set entries (q.set entries' g) = q.set entries' (p.set entries g) := by
  cases p <;> cases q <;> first | rfl | exact absurd rfl h

theorem ModelList.map_lift (g : Graph) :
    (told (p.lift change g)).map (view ∘ p.get) = (told (change (p.get g))).map view := by
  rw [ModelList.lift]
  cases change (p.get g) with
  | error failure => rfl
  | ok entries => exact congrArg (fun entries => Except.ok (view entries)) (p.get_set entries g)

theorem ModelList.attempt_lift (g : Graph) :
    attempt g (p.lift change) = p.set (attempt (p.get g) change) g := by
  rw [attempt, attempt, ModelList.lift]
  cases change (p.get g) with
  | error failure => rfl
  | ok entries => rfl

/-- Changes of different lists can change places. -/
theorem ModelList.independent_of_ne (h : p ≠ q) (g : Graph) :
    Independent (p.lift change) (q.lift change') (view ∘ p.get) (view' ∘ q.get) g where
  first := by
    rw [ModelList.attempt_lift, ModelList.map_lift, ModelList.map_lift, ModelList.get_set_of_ne h]
  second := by
    rw [ModelList.attempt_lift, ModelList.map_lift, ModelList.map_lift,
      ModelList.get_set_of_ne h.symm]
  state := by
    simp only [ModelList.attempt_lift]
    rw [ModelList.get_set_of_ne h, ModelList.get_set_of_ne h.symm, ModelList.set_comm h]

/-- Changes of a list that can change places can do so as operations on the model. -/
theorem ModelList.independent {change' : List p.Entry → Outcome (List p.Entry)}
    {view' : List p.Entry → ρ'} (h : Independent change change' view view' (p.get g)) :
    Independent (p.lift change) (p.lift change') (view ∘ p.get) (view' ∘ p.get) g where
  first := by
    rw [ModelList.attempt_lift, ModelList.map_lift, ModelList.map_lift, ModelList.get_set]
    exact h.first
  second := by
    rw [ModelList.attempt_lift, ModelList.map_lift, ModelList.map_lift, ModelList.get_set]
    exact h.second
  state := by
    simp only [ModelList.attempt_lift, ModelList.get_set, ModelList.set_set]
    rw [h.state]

/-- What an operation on a model acts on: a table, the place at the end of the tables, or one of the
    other lists. -/
inductive Target where
  | table (name : String)
  | newTable (name : String)
  | relationships
  | queryGroups

def Target.list : Target → ModelList
  | .table _ => .tables
  | .newTable _ => .tables
  | .relationships => .relationships
  | .queryGroups => .queryGroups

/-- Whether two targets are different: tables of different names, or parts of different lists. -/
def Target.Apart : Target → Target → Prop
  | .table a, .table b => a ≠ b
  | .table a, .newTable b => a ≠ b
  | .newTable a, .table b => a ≠ b
  | target, target' => target.list ≠ target'.list

/-- What a model has as the target of an operation. -/
inductive Content where
  | table (found : Except Fault Table)
  | relationships (all : List Relationship)
  | queryGroups (all : List String)

def Target.content : Target → Graph → Content
  | .table name, g => .table (g.table name)
  | .newTable name, g => .table (g.table name)
  | .relationships, g => .relationships g.relationships
  | .queryGroups, g => .queryGroups g.queryGroups

/-- The operations on a table or its entities, and those that put in or change one entry of a list
    of the model. -/
inductive Graph.ActsOn : (Graph → Outcome Graph) → Target → Prop where
  | table (name : String) {op : Table → Outcome Table} : Table.Operation op →
      Graph.ActsOn (fun g => g.editTable name op) (.table name)
  | newTable (tag name : String) : Graph.ActsOn (fun g => g.newTable tag name) (.newTable name)
  | newRelationship (name : String) (source : Endpoint) (table : String) (column : Option String) :
      Graph.ActsOn (fun g => g.newRelationship name source table column) .relationships
  | setBothDirections (a b : String) (both : Bool) :
      Graph.ActsOn (fun g => g.editRelationship a b fun r => r.setBothDirections both)
        .relationships
  | insertQueryGroup (name : String) :
      Graph.ActsOn (fun g => .ok (g.insertQueryGroup name)) .queryGroups

/-- Joins two tables that no relationship of a list joins. -/
def joinIn (name : String) (source : Endpoint) (table : String) (column : Option String)
    (rs : List Relationship) : Outcome (List Relationship) :=
  if rs.any fun r => r.connects source.table table then
    .error ⟨.duplicateRelationship source.table table, rs⟩
  else .ok (rs ++ [.fresh name source ⟨table, column.getD source.column⟩])

def groupIn (name : String) (groups : List String) : List String :=
  if groups.contains name then groups else groups ++ [name]

theorem Graph.newTable_eq (g : Graph) (tag name : String) : g.newTable tag name =
    inPart (fun tables => { g with tables := tables }) (insertIn (.fresh tag name) g.tables) := by
  rw [Graph.newTable, Graph.insertTable, Graph.hasTable, insertIn]
  split <;> rfl

theorem Graph.newRelationship_eq (g : Graph) (name : String) (source : Endpoint) (table : String)
    (column : Option String) : g.newRelationship name source table column =
      inPart (fun relationships => { g with relationships := relationships })
        (joinIn name source table column g.relationships) := by
  rw [Graph.newRelationship, joinIn]
  split <;> rfl

theorem Graph.insertQueryGroup_eq (g : Graph) (name : String) :
    g.insertQueryGroup name = { g with queryGroups := groupIn name g.queryGroups } := by
  rw [Graph.insertQueryGroup, groupIn]
  split <;> rfl

theorem Graph.content_table (name : String) :
    (Target.table name).content = (Content.table ∘ tableIn name) ∘ ModelList.tables.get := by
  funext g
  exact congrArg Content.table (g.table_eq_found name)

theorem Graph.ActsOn.exists_lift {op : Graph → Outcome Graph} {target : Target}
    (h : Graph.ActsOn op target) : ∃ change, op = target.list.lift change := by
  cases h with
  | table name hop => exact ⟨editIn name _, rfl⟩
  | newTable tag name => exact ⟨_, funext fun g => g.newTable_eq tag name⟩
  | newRelationship name source table column =>
      exact ⟨_, funext fun g => g.newRelationship_eq name source table column⟩
  | setBothDirections a b both => exact ⟨_, rfl⟩
  | insertQueryGroup name =>
      exact ⟨fun groups => .ok (groupIn name groups),
        funext fun g => congrArg Except.ok (g.insertQueryGroup_eq name)⟩

theorem Target.exists_view (target : Target) :
    ∃ view, target.content = view ∘ target.list.get := by
  cases target with
  | table name => exact ⟨_, Graph.content_table name⟩
  | newTable name => exact ⟨_, Graph.content_table name⟩
  | relationships => exact ⟨Content.relationships, rfl⟩
  | queryGroups => exact ⟨Content.queryGroups, rfl⟩

theorem Table.Operation.keepsName {op : Table → Outcome Table} (h : Table.Operation op) :
    KeepsName op :=
  fun _ _ heq => (h.keeps heq).1

theorem Graph.independent_editTable {a b : String} {op op' : Table → Outcome Table}
    (hop : Table.Operation op) (hop' : Table.Operation op') (hab : a ≠ b) (g : Graph) :
    Independent (fun g => g.editTable a op) (fun g => g.editTable b op')
      (Target.table a).content (Target.table b).content g := by
  have htables :=
    independent_editIn hop.keepsName hop'.keepsName hop.atomic hop'.atomic hab g.tables
  rw [Graph.content_table, Graph.content_table]
  exact ModelList.independent (p := .tables) (htables.comp Content.table Content.table)

theorem Graph.independent_editTable_newTable {a b : String} {op : Table → Outcome Table}
    (hop : Table.Operation op) (tag : String) (hab : a ≠ b) (g : Graph) :
    Independent (fun g => g.editTable a op) (fun g => g.newTable tag b)
      (Target.table a).content (Target.newTable b).content g := by
  have htables :=
    independent_editIn_insertIn (t := .fresh tag b) hop.keepsName hop.atomic hab g.tables
  have hnew : (fun g : Graph => g.newTable tag b) =
      ModelList.tables.lift (insertIn (.fresh tag b)) := funext fun g => g.newTable_eq tag b
  rw [hnew, Graph.content_table, show (Target.newTable b).content = _ from Graph.content_table b]
  exact ModelList.independent (p := .tables) (htables.comp Content.table Content.table)

theorem Graph.ActsOn.independent {op op' : Graph → Outcome Graph} {target target' : Target}
    (h : Graph.ActsOn op target) (h' : Graph.ActsOn op' target') (hapart : target.Apart target')
    (g : Graph) : Independent op op' target.content target'.content g := by
  by_cases hlist : target.list = target'.list
  · -- In one list only two tables, one of them perhaps new, are targets that are apart.
    cases h with
    | table a hop => cases h' with
      | table b hop' => exact Graph.independent_editTable hop hop' hapart g
      | newTable tag b => exact Graph.independent_editTable_newTable hop tag hapart g
      | _ => exact absurd hlist hapart
    | newTable tag a => cases h' with
      | table b hop' =>
          exact (Graph.independent_editTable_newTable hop' tag (Ne.symm hapart) g).symm
      | _ => exact absurd hlist hapart
    | _ => cases h' <;> exact absurd hlist hapart
  · obtain ⟨change, rfl⟩ := h.exists_lift
    obtain ⟨change', rfl⟩ := h'.exists_lift
    obtain ⟨view, hview⟩ := target.exists_view
    obtain ⟨view', hview'⟩ := target'.exists_view
    rw [hview, hview']
    exact ModelList.independent_of_ne hlist g

/-- Two operations with different targets can change places in any model: each returns the same
    whether the other has been run or not, a fault included, and both orders lead to the same model
    with the same text. -/
theorem Graph.operations_commute {op op' : Graph → Outcome Graph} {target target' : Target}
    (h : Graph.ActsOn op target) (h' : Graph.ActsOn op' target') (hapart : target.Apart target')
    (g : Graph) :
    (told (op (attempt g op'))).map target.content = (told (op g)).map target.content ∧
      (told (op' (attempt g op))).map target'.content = (told (op' g)).map target'.content ∧
      attempt (attempt g op) op' = attempt (attempt g op') op ∧
      (attempt (attempt g op) op').dump.text = (attempt (attempt g op') op).dump.text := by
  obtain ⟨hfirst, hsecond, hstate⟩ := h.independent h' hapart g
  exact ⟨hfirst, hsecond, hstate, congrArg (fun g => g.dump.text) hstate⟩

/-- A column for one table and a table beside it, in a model with this one table. -/
theorem Graph.operations_commute_columnAndTable :
    let g := attempt (Graph.empty "g" Config.default) fun g => g.newTable "t" "Sales"
    let column := fun g : Graph =>
      g.editTable "Sales" fun t => t.newColumn "c" "Region" .string none
    let table := fun g : Graph => g.newTable "t" "Stores"
    (told (column (attempt g table))).map (Target.table "Sales").content =
        (told (column g)).map (Target.table "Sales").content ∧
      (told (table (attempt g column))).map (Target.newTable "Stores").content =
        (told (table g)).map (Target.newTable "Stores").content ∧
      attempt (attempt g column) table = attempt (attempt g table) column ∧
      (attempt (attempt g column) table).dump.text =
        (attempt (attempt g table) column).dump.text :=
  Graph.operations_commute (.table "Sales" (.newColumn "c" "Region" .string none))
    (.newTable "t" "Stores") (show "Sales" ≠ "Stores" by decide) _

end Tabular.Model
