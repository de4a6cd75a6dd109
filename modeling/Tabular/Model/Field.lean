/- Reading the fields of a document, with the path of each in its faults. -/
import Tabular.Json.Value
import Tabular.Log
import Tabular.Model.Fault

namespace Tabular.Model
open Tabular.Json

def fieldMissing (path : String) : Fault := .malformed path "required field is missing"

/-- A value of another kind than the one expected. -/
def wrongKind (path wanted : String) (v : Value) : Fault :=
  .malformed path ("expected " ++ wanted ++ ", found " ++ v.kind)

def fieldPath (path key : String) : String := path ++ "." ++ key

def itemPath (path : String) (i : Nat) : String := path ++ "[" ++ toString i ++ "]"

/-- The members of a value, which has to be an object. -/
def membersOf (path : String) : Value → Except Fault Members
  | .obj members => .ok members
  | v => .error (wrongKind path "an object" v)

/-- A string that has to be there; null counts as missing. -/
def requiredText (ms : Members) (path key : String) : Except Fault String :=
  match ms.get? key with
  | some (.str text) => .ok text
  | none => .error (fieldMissing (fieldPath path key))
  | some .null => .error (fieldMissing (fieldPath path key))
  | some v => .error (wrongKind (fieldPath path key) "a string" v)

/-- A string that may be missing or null. -/
def optionalText (ms : Members) (path key : String) : Except Fault (Option String) :=
  match ms.get? key with
  | some (.str text) => .ok (some text)
  | none => .ok none
  | some .null => .ok none
  | some v => .error (wrongKind (fieldPath path key) "a string" v)

/-- A boolean that may be missing or null. -/
def optionalBool (ms : Members) (path key : String) : Except Fault (Option Bool) :=
  match ms.get? key with
  | some (.bool b) => .ok (some b)
  | none => .ok none
  | some .null => .ok none
  | some v => .error (wrongKind (fieldPath path key) "a boolean" v)

/-- A list that may be missing or null, and is then empty. -/
def optionalItems (ms : Members) (path key : String) : Except Fault (List Value) :=
  match ms.get? key with
  | some (.arr items) => .ok items
  | none => .ok []
  | some .null => .ok []
  | some v => .error (wrongKind (fieldPath path key) "an array" v)

/-- Loads the elements of a list at a path, from index `i` on. -/
def loadItems {α : Type} (load : String → Value → Except Fault α) (path : String) :
    Nat → List Value → Except Fault (List α)
  | _, [] => .ok []
  | i, v :: vs => do
    let a ← load (itemPath path i) v
    let rest ← loadItems load path (i + 1) vs
    pure (a :: rest)

/-- Loads the elements of a list at a path, from index `i` on, keeping records. -/
def traceItems {α : Type} (load : String → Value → Traced Fault α) (path : String) :
    Nat → List Value → Traced Fault (List α)
  | _, [] => pure []
  | i, v :: vs => do
    let a ← load (itemPath path i) v
    let rest ← traceItems load path (i + 1) vs
    pure (a :: rest)

/-- The strings of a list, one a line; other elements are passed over. -/
def textLines (items : List Value) : String :=
  "\n".intercalate (items.filterMap fun
    | .str text => some text
    | _ => none)

/-- A text that may be written as a list of lines. -/
def storedText : Value → Option String
  | .str text => some text
  | .arr items => some (textLines items)
  | _ => none

end Tabular.Model
