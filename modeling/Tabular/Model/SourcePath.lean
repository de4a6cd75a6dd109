/- Where a source file is. -/
import Tabular.Disk.Path
import Tabular.Model.Fault
import Tabular.Text.Replace

namespace Tabular.Model

/-- The root that an absolute path has: exactly two slashes in front are a root of their own. -/
def pathRoot : List Char → List Char
  | '/' :: '/' :: '/' :: _ => ['/']
  | '/' :: '/' :: _ => ['/', '/']
  | _ => ['/']

/-- Adds a name behind a path, and a slash between them unless the path is empty or ends in one. -/
def pushName (path name : List Char) : List Char :=
  if path.getLast?.all (· == '/') then path ++ name else path ++ '/' :: name

/-- A path from the root on. One without a root is relative to the current folder; steps up stay,
    and so does a slash at the end. -/
def absoluteChars (current path : List Char) : List Char :=
  let start := if path.head? == some '/' then pathRoot path else current
  let full := (Disk.names path).foldl pushName start
  if path.getLast? == some '/' then pushName full [] else full

/-- The path of a source as a query writes it: absolute and with forward slashes. The current folder
    is the root unless it is given. -/
def resolveSource (path : String) (current : String := "/") : Except Fault String :=
  if path.isEmpty then .error (.sourcePath path "cannot make an empty path absolute")
  else .ok (Text.swap '\\' '/' (String.ofList (absoluteChars current.toList path.toList)))

end Tabular.Model
