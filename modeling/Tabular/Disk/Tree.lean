/- Files in folders. -/
import Tabular.Disk.Path

namespace Tabular.Disk

inductive Node where
  | file (bytes : List UInt8)
  | folder (children : List (String × Node))

/-- What a folder holds, by name. -/
abbrev Children := List (String × Node)

/-- Puts a node at a name, in place of the one that is there. -/
def Children.put (name : String) (node : Node) : Children → Children
  | [] => [(name, node)]
  | (n, old) :: rest =>
    if n = name then (n, node) :: rest else (n, old) :: Children.put name node rest

/-- What is at a path. -/
def Node.get? : Node → Path → Option Node
  | node, [] => some node
  | .file _, _ :: _ => none
  | .folder children, name :: path => (children.lookup name).bind fun node => node.get? path

/-- The bytes of a file. -/
def Node.read? (root : Node) (path : Path) : Option (List UInt8) :=
  match root.get? path with
  | some (.file bytes) => some bytes
  | _ => none

/-- Writes a file and the folders that lead to it; a file is in the way of a folder, and a folder
    in the way of a file. -/
def Node.write? (bytes : List UInt8) : Node → Path → Option Node
  | .file _, [] => some (.file bytes)
  | .folder _, [] => none
  | .file _, _ :: _ => none
  | .folder children, name :: path =>
    if !isAllowed name then none
    else
      let node := (children.lookup name).getD (if path.isEmpty then .file [] else .folder [])
      (node.write? bytes path).map fun node => .folder (Children.put name node children)

/-- Writes a file into a folder that has to be there. -/
def Node.create? (bytes : List UInt8) (root : Node) (path : Path) : Option Node :=
  match root.get? path.dropLast with
  | some (.folder _) => root.write? bytes path
  | _ => none

/-- A file by its path. -/
abbrev FileAt := Path × List UInt8

/-- A file in a folder of a name. -/
def FileAt.under (name : String) (f : FileAt) : FileAt := (name :: f.1, f.2)

/-- Whether a name comes before another or is the same, byte by byte. -/
def nameLe (a b : String) : Bool := Text.Utf8.encode a ≤ Text.Utf8.encode b

mutual

/-- Every file, in the order of the names on each level. -/
def Node.files : Node → List FileAt
  | .file bytes => [([], bytes)]
  | .folder children =>
    ((filesByName children).mergeSort fun a b => nameLe a.1 b.1).flatMap fun c =>
      c.2.map (FileAt.under c.1)

def filesByName : List (String × Node) → List (String × List FileAt)
  | [] => []
  | (name, node) :: rest => (name, node.files) :: filesByName rest

end

end Tabular.Disk
