/- Replacing the values at a place of a document by their JSON text. -/
import Tabular.Document.Prune
import Tabular.Json.Printer

namespace Tabular.Document
open Tabular.Json

/-- A step into a document: to the value of a key, or to each element of a list. -/
inductive Hop where
  | key (name : String)
  | each
  deriving DecidableEq

/-- Where values stand in a document. -/
abbrev Place := List Hop

/-- A value as text; null stays null and text stays as it is. -/
def encodeValue (prune : Bool) : Value → Value
  | .null => .null
  | .str text => .str text
  | v => .str (if prune then v.prune else v).text

/-- Encodes the values at a place; the rest of the document stays. -/
def collapse (prune : Bool) : Place → Value → Value
  | [], v => encodeValue prune v
  | .key name :: rest, .obj members => .obj (Members.update members name (collapse prune rest))
  | .each :: rest, .arr items => .arr (items.map (collapse prune rest))
  | _, v => v

/-- How many values at a place are neither null nor text. -/
def encodable : Place → Value → Nat
  | [], .null => 0
  | [], .str _ => 0
  | [], _ => 1
  | .key name :: rest, .obj members => ((Members.get? members name).map (encodable rest)).getD 0
  | .each :: rest, .arr items => (items.map (encodable rest)).sum
  | _, _ => 0

end Tabular.Document
