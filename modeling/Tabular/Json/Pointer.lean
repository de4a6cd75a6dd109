/- Pointers into a document: keys and indices, each behind a slash. -/
import Tabular.Json.Value
import Tabular.Text.Replace
import Tabular.Text.Split

namespace Tabular.Json

/-- The tokens of a pointer. A slash inside one is written `~1`, and a tilde `~0`. -/
def pointerTokens (pointer : String) : Option (List String) :=
  match Text.splitChars '/' pointer.toList with
  | [] :: tokens =>
    some (tokens.map fun token =>
      Text.replace "~0" "~" (Text.replace "~1" "/" (String.ofList token)))
  | _ => none

/-- An index: digits without a zero in front. -/
def indexOf? (token : String) : Option Nat :=
  match token.toList with
  | [] => none
  | ['0'] => some 0
  | '0' :: _ => none
  | cs =>
    if cs.all Char.isDigit then
      some (cs.foldl (fun n c => 10 * n + (c.toNat - '0'.toNat)) 0)
    else none

/-- Puts a value where tokens point, if they point at something. -/
def Value.setAt? (new : Value) : List String → Value → Option Value
  | [], _ => some new
  | token :: rest, .obj members => do
    let old ← Members.get? members token
    let v ← Value.setAt? new rest old
    pure (.obj (Members.replace members token v))
  | token :: rest, .arr items => do
    let i ← indexOf? token
    let old ← items[i]?
    let v ← Value.setAt? new rest old
    pure (.arr (items.set i v))
  | _ :: _, _ => none

/-- Puts a value where a pointer points, if it points at something. -/
def Value.setPointer? (v : Value) (pointer : String) (new : Value) : Option Value :=
  (pointerTokens pointer).bind fun tokens => Value.setAt? new tokens v

end Tabular.Json
