/- Relationships between the columns of tables. -/
import Tabular.Model.Field

namespace Tabular.Model
open Tabular.Json

/-- A column of a table, by name. -/
structure Endpoint where
  table : String
  column : String
  deriving DecidableEq, Repr

/-- A relationship, over the document that it was loaded from or made with. -/
structure Relationship where
  name : String
  source : Endpoint
  target : Endpoint
  crossFiltering : String
  stored : Members

def bothDirections : String := "bothDirections"

def oneDirection : String := "oneDirection"

/-- A relationship that filters in both directions. -/
def Relationship.fresh (name : String) (source target : Endpoint) : Relationship where
  name := name
  source := source
  target := target
  crossFiltering := bothDirections
  stored :=
    [("name", .str name),
      ("fromTable", .str source.table),
      ("fromColumn", .str source.column),
      ("toTable", .str target.table),
      ("toColumn", .str target.column),
      ("crossFilteringBehavior", .str bothDirections),
      ("joinOnDateBehavior", .str "datePartOnly"),
      ("state", .str "ready")]

/-- Loads a relationship; one that does not say how it filters does so in both directions. -/
def Relationship.load (path : String) (doc : Value) : Except Fault Relationship := do
  let stored ← membersOf path doc
  let filtering ← optionalText stored path "crossFilteringBehavior"
  let name ← requiredText stored path "name"
  let fromTable ← requiredText stored path "fromTable"
  let fromColumn ← requiredText stored path "fromColumn"
  let toTable ← requiredText stored path "toTable"
  let toColumn ← requiredText stored path "toColumn"
  pure ⟨name, ⟨fromTable, fromColumn⟩, ⟨toTable, toColumn⟩, filtering.getD bothDirections, stored⟩

def Relationship.dump (r : Relationship) : Value :=
  .obj ((((((r.stored.put "name" (.str r.name)).put "fromTable" (.str r.source.table)).put
    "fromColumn" (.str r.source.column)).put "toTable" (.str r.target.table)).put
    "toColumn" (.str r.target.column)).put "crossFilteringBehavior" (.str r.crossFiltering))

def Relationship.isBothDirections (r : Relationship) : Bool := r.crossFiltering == bothDirections

def Relationship.setBothDirections (r : Relationship) (both : Bool) : Relationship :=
  { r with crossFiltering := if both then bothDirections else oneDirection }

/-- Whether a relationship joins two tables, in either direction. -/
def Relationship.connects (r : Relationship) (a b : String) : Bool :=
  (r.source.table == a && r.target.table == b) || (r.source.table == b && r.target.table == a)

def Relationship.endpoints (r : Relationship) : List Endpoint := [r.source, r.target]

end Tabular.Model
