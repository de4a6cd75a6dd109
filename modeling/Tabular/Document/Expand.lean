/- Replacing texts that hold JSON by the documents they hold, through every layer. -/
import Tabular.Json.Reader

namespace Tabular.Json

mutual

/-- Replaces every text of a document, keys excepted. -/
def Value.mapText (f : String → Value) : Value → Value
  | .str text => f text
  | .arr items => .arr (Value.mapTextItems f items)
  | .obj members => .obj (Value.mapTextMembers f members)
  | v => v

def Value.mapTextItems (f : String → Value) : List Value → List Value
  | [] => []
  | v :: vs => v.mapText f :: Value.mapTextItems f vs

def Value.mapTextMembers (f : String → Value) :
    List (String × Value) → List (String × Value)
  | [] => []
  | (k, v) :: ms => (k, v.mapText f) :: Value.mapTextMembers f ms

end

mutual

/-- The length of the longest text of a document. -/
def Value.longestText : Value → Nat
  | .str text => text.length
  | .arr items => Value.longestTextItems items
  | .obj members => Value.longestTextMembers members
  | _ => 0

def Value.longestTextItems : List Value → Nat
  | [] => 0
  | v :: vs => max v.longestText (Value.longestTextItems vs)

def Value.longestTextMembers : List (String × Value) → Nat
  | [] => 0
  | (_, v) :: ms => max v.longestText (Value.longestTextMembers ms)

end

/-- Opens encoded texts, at most `layers` of them inside one another. -/
def Value.expandLayers : Nat → Value → Value
  | 0, v => v
  | layers + 1, v => v.mapText fun text =>
    match Value.ofText text with
    | .ok inner => Value.expandLayers layers inner
    | .error _ => .str text

/-- Opens every encoded text. A document inside a text has shorter texts than that one, so the
    longest text bounds the layers. -/
def Value.expand (v : Value) : Value := v.expandLayers (v.longestText + 1)

end Tabular.Json
