/- Templates on a disk: unpacking one into a folder, and packing a folder. -/
import Tabular.Bundle
import Tabular.Disk.Tree

namespace Tabular.Disk
open Tabular.Archive (Part)

/-- A path as text. -/
def pathText (path : Path) : String := String.join (path.map ("/" ++ ·))

/-- The bytes of a file; that it cannot be read is a fault. -/
def load (root : Node) (path : Path) : Except ContainerFault (List UInt8) :=
  (root.read? path).elim (.error .file) .ok

/-- Where a part is unpacked to, below the folder for all of them. -/
def target (name : String) : Except ContainerFault Path :=
  if isInside name.toList then .ok ((names name.toList).map String.ofList)
  else .error (.escapes name)

/-- Unpacks a part: the disk afterwards, and the path of the part's file. The text that leads to
    it counts with the points and slashes in the name. Where the file cannot be written, folders on
    the way to it may have been made by then and stay. They are left out here: there is no file in
    them, and nothing is unpacked after a part that fails. -/
def unpackPart (out : Path) (root : Node) (p : Part) : Except ContainerFault (Node × Path) := do
  let path ← target p.1
  if endsInFolder p.1.toList || !isShort (pathText out ++ "/" ++ p.1) then throw .file
  let root ← (root.write? p.2 (out ++ path)).elim (.error .file) .ok
  pure (root, out ++ path)

/-- Unpacks parts in order, up to the first that fails; the files before it stay. -/
def unpackParts (out : Path) (root : Node) : List Part → Node × Except ContainerFault (List Path)
  | [] => (root, .ok [])
  | p :: ps =>
    match unpackPart out root p with
    | .error fault => (root, .error fault)
    | .ok (root, path) =>
      let (root, paths) := unpackParts out root ps
      (root, paths.map (path :: ·))

/-- Unpacks the template at a path: the disk afterwards, and the paths of the files written. -/
def unpack (root : Node) (source out : Path) : Node × Traced ContainerFault (List Path) :=
  let parts := Traced.lift (load root source) >>= Container.partsOf .file
  match parts.result with
  | .error fault => (root, ⟨parts.records, .error fault⟩)
  | .ok ps =>
    let (root, paths) := unpackParts out root ps
    (root, do
      Traced.notes parts.records
      let paths ← Traced.lift paths
      Traced.note .debug ("unpacked " ++ toString paths.length ++ " parts into " ++ pathText out)
      pure paths)

/-- The parts that the files below a folder become. -/
def partsOf (root : Node) (source : Path) : Except ContainerFault (List Part) :=
  match root.get? source with
  | none => .error .file
  | some node => .ok (node.files.map fun f => ("/".intercalate f.1, f.2))

/-- Packs a folder into an archive: the disk afterwards. -/
def pack (root : Node) (source archive : Path) : Traced ContainerFault Node := do
  let parts ← Traced.lift (partsOf root source)
  let root ← Traced.lift ((root.create? (Archive.write parts) archive).elim (.error .file) .ok)
  Traced.notes (Container.writeRecords parts)
  Traced.note .debug ("packed " ++ toString parts.length ++ " files from " ++ pathText source)
  pure root

/-- Opens the template at a path. -/
def openTemplate (root : Node) (id : String) (path : Path) : Traced BundleFault Bundle := do
  let bytes ← Traced.lift ((load root path).mapError .container)
  Bundle.ofBytes id .default .file bytes

/-- Saves a template at a path: the disk afterwards. -/
def saveTemplate (root : Node) (b : Bundle) (path : Path) : Traced ContainerFault Node := do
  let saved ← Traced.lift ((root.create? b.toBytes path).elim (.error .file) .ok)
  Traced.notes b.saveRecords
  pure saved

end Tabular.Disk
