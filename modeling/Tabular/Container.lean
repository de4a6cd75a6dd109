/- The container of a template: an archive whose parts are read within limits. -/
import Tabular.Archive.Writer
import Tabular.Log

namespace Tabular
open Tabular.Archive (Part Entry EntryFault OpenFault Medium)

def schemaPart : String := "DataModelSchema"

def layoutPart : String := "Report/Layout"

/-- What may be read: entries of an archive, folders included, bytes of a single part, and bytes
    of all parts together. -/
structure Limits where
  parts : Nat
  partBytes : Nat
  totalBytes : Nat
  deriving DecidableEq, Repr

def Limits.default : Limits := ⟨4096, 256 * 1024 * 1024, 1024 * 1024 * 1024⟩

inductive ContainerFault where
  /-- A file that cannot be read or written. -/
  | file
  | entry (reason : EntryFault)
  | notArchive
  | missingPart (name : String)
  | tooManyEntries (count limit : Nat)
  | partTooLarge (name : String) (size limit : Nat)
  | totalTooLarge (limit : Nat)
  | unreadable (name : String) (reason : EntryFault)
  | escapes (name : String)
  deriving DecidableEq, Repr

def ContainerFault.code : ContainerFault → String
  | .file => "PBIT_CONTAINER_001"
  | .entry _ => "PBIT_CONTAINER_002"
  | .notArchive => "PBIT_CONTAINER_003"
  | .missingPart _ => "PBIT_CONTAINER_004"
  | .tooManyEntries _ _ => "PBIT_CONTAINER_005"
  | .partTooLarge _ _ _ => "PBIT_CONTAINER_006"
  | .totalTooLarge _ => "PBIT_CONTAINER_007"
  | .unreadable _ _ => "PBIT_CONTAINER_002"
  | .escapes _ => "PBIT_CONTAINER_002"

/-- What a fault says; that of a file is for the system to say. -/
def ContainerFault.text? : ContainerFault → Option String
  | .file => none
  | .entry reason => some ("ZIP error: " ++ reason.text)
  | .notArchive => some "not a ZIP container"
  | .missingPart name => some ("required part '" ++ name ++ "' is missing")
  | .tooManyEntries count limit =>
    some ("bundle lists " ++ toString count ++ " entries, more than the " ++ toString limit
      ++ " allowed")
  | .partTooLarge name size limit =>
    some ("part '" ++ name ++ "' holds " ++ toString size ++ " bytes, more than the "
      ++ toString limit ++ " allowed")
  | .totalTooLarge limit =>
    some ("reading the bundle would exceed " ++ toString limit ++ " uncompressed bytes")
  | .unreadable name reason =>
    some ("failed to read ZIP entry '" ++ name ++ "': " ++ reason.text)
  | .escapes name =>
    some ("failed to read ZIP entry '" ++ name ++ "': entry escapes the output directory")

def ContainerFault.message? (f : ContainerFault) : Option String :=
  f.text?.map fun text => "[" ++ f.code ++ "] " ++ text

/-- The fault of bytes that are no archive, or end inside one. -/
def ContainerFault.ofOpen : OpenFault → ContainerFault
  | .notArchive => .notArchive
  | .endsEarly => .file

/-- The fault of an entry that has to be opened to be listed. -/
def ContainerFault.ofEntry : EntryFault → ContainerFault
  | .headerMissing => .file
  | reason => .entry reason

/-- An open container, with the bytes that reading has used up of its limit. -/
structure Container where
  archive : Archive
  limits : Limits
  bytesRead : Nat

namespace Container

def length (c : Container) : Nat := c.archive.entries.length

/-- Whether the model can be opened, though not that it can be read. -/
def hasSchema (a : Archive) : Bool :=
  match a.find? schemaPart with
  | some e => e.open.toOption.isSome
  | none => false

/-- Opens an archive that is within the limit on entries and has a model. -/
def ofArchive (limits : Limits) (a : Archive) : Except ContainerFault Container :=
  if limits.parts < a.entries.length then
    .error (.tooManyEntries a.entries.length limits.parts)
  else if hasSchema a then .ok ⟨a, limits, 0⟩
  else .error (.missingPart schemaPart)

/-- Opens the archive in the bytes that a medium holds. -/
def ofBytes (limits : Limits) (medium : Medium) (bytes : List UInt8) :
    Traced ContainerFault Container := do
  let a ← Traced.lift ((Archive.ofBytes medium bytes).mapError .ofOpen)
  let c ← Traced.lift (ofArchive limits a)
  Traced.note .debug ("opened bundle with " ++ toString c.length ++ " entries")
  pure c

/-- The greatest count of bytes, at which counting stops. -/
def byteCountMax : Nat := 0xffffffffffffffff

/-- The bytes used up when a part of a size is read. -/
def bytesAfter (c : Container) (size : Nat) : Nat := min (c.bytesRead + size) byteCountMax

/-- A part that the limits admit: its entry, and its bytes. They count as many as the entry
    declares. -/
def part (c : Container) (name : String) : Except ContainerFault (Entry × List UInt8) :=
  match c.archive.find? name with
  | none => .error (.missingPart name)
  | some e =>
    match e.open with
    | .error reason => .error (.unreadable name reason)
    | .ok kept =>
      if c.limits.partBytes < e.size then
        .error (.partTooLarge name e.size c.limits.partBytes)
      else if c.limits.totalBytes < c.bytesAfter e.size then
        .error (.totalTooLarge c.limits.totalBytes)
      else
        match e.content kept with
        | .error reason => .error (.unreadable name reason)
        | .ok bytes => .ok (e, bytes)

/-- Reads a part; a part that fails uses up nothing. -/
def read (c : Container) (name : String) : Container × Traced ContainerFault (List UInt8) :=
  match c.part name with
  | .error fault => (c, Traced.lift (.error fault))
  | .ok (e, bytes) =>
    ({ c with bytesRead := c.bytesAfter e.size },
      ⟨[⟨.trace, "read part '" ++ name ++ "' (" ++ toString e.size ++ " bytes)"⟩], .ok bytes⟩)

/-- The names of the entries, folders included, each once. -/
def entryNames (c : Container) : List String := (c.archive.entries.map Entry.name).eraseDups

/-- Turns the fault of a missing part into its absence. -/
def absent : Except ContainerFault (List UInt8) → Except ContainerFault (Option (List UInt8))
  | .ok bytes => .ok (some bytes)
  | .error (.missingPart _) => .ok none
  | .error fault => .error fault

def readOptional (c : Container) (name : String) :
    Container × Traced ContainerFault (Option (List UInt8)) :=
  let (c, bytes) := c.read name
  (c, ⟨bytes.records, absent bytes.result⟩)

/-- The names of files among entries; each entry has to open. -/
def namesOf : List Entry → Except ContainerFault (List String)
  | [] => .ok []
  | e :: es =>
    match e.open with
    | .error reason => .error (.ofEntry reason)
    | .ok _ => (namesOf es).map fun names =>
      if Archive.isFolderName e.name then names else e.name :: names

/-- The names of the files, in the order of the archive. -/
def names (c : Container) : Except ContainerFault (List String) := namesOf c.archive.entries

/-- Reads parts in order, up to the first that fails; what was read before it stays used up. -/
def readEach (c : Container) : List String → Container × Traced ContainerFault (List Part)
  | [] => (c, pure [])
  | name :: names =>
    let (c, bytes) := c.read name
    match bytes.result with
    | .error fault => (c, ⟨bytes.records, .error fault⟩)
    | .ok part =>
      let (c, parts) := c.readEach names
      (c, ⟨bytes.records ++ parts.records, parts.result.map fun ps => (name, part) :: ps⟩)

/-- Reads every file, in the order of the archive. -/
def readAll (c : Container) : Container × Traced ContainerFault (List Part) :=
  match c.names with
  | .error fault => (c, Traced.lift (.error fault))
  | .ok names => c.readEach names

/-- Every part of the archive in the bytes that a medium holds. -/
def partsOf (medium : Medium) (bytes : List UInt8) : Traced ContainerFault (List Part) := do
  let c ← ofBytes .default medium bytes
  c.readAll.2

/-- The records of writing an archive. -/
def writeRecords (parts : List Part) : List Record :=
  [⟨.debug, "wrote bundle with " ++ toString parts.length ++ " entries"⟩]

end Container

end Tabular
