/- Dropping the members of objects that are null. -/
import Tabular.Json.Value

namespace Tabular.Json

mutual

/-- Drops null members at every depth; elements of lists stay. -/
def Value.prune : Value → Value
  | .arr items => .arr (Value.pruneItems items)
  | .obj members => .obj (Value.pruneMembers members)
  | v => v

def Value.pruneItems : List Value → List Value
  | [] => []
  | v :: vs => v.prune :: Value.pruneItems vs

def Value.pruneMembers : List (String × Value) → List (String × Value)
  | [] => []
  | (k, v) :: ms =>
    if v.isNull then Value.pruneMembers ms else (k, v.prune) :: Value.pruneMembers ms

end

end Tabular.Json
