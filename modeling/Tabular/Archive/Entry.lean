/- An entry of an archive, as the directory of the archive lists it. -/
import Tabular.Archive.Checksum
import Tabular.Archive.Inflate

namespace Tabular.Archive

inductive EntryFault where
  | encrypted
  | headerMissing
  | headerInvalid
  | methodUnknown
  | deflate (fault : DeflateFault)
  | checksumWrong
  deriving DecidableEq, Repr

def EntryFault.text : EntryFault → String
  | .encrypted => "unsupported Zip archive: Password required to decrypt file"
  | .headerMissing => "failed to fill whole buffer"
  | .headerInvalid => "invalid Zip archive: Invalid local file header"
  | .methodUnknown => "unsupported Zip archive: Compression method not supported"
  | .deflate fault => fault.text
  | .checksumWrong => "Invalid checksum"

/-- How the bytes of an entry are kept. -/
inductive Method where
  | stored
  | deflated
  | unknown
  deriving DecidableEq, Repr

/-- An entry. `size` and `packed` are the sizes that the directory declares, with and without
    compression; `body` are the bytes of the archive from those of the entry on. -/
structure Entry where
  name : String
  size : Nat
  packed : Nat
  checksum : Nat
  method : Method
  encrypted : Bool
  body : Except EntryFault (List UInt8)

/-- Whether a name is that of a folder. -/
def isFolderName (name : String) : Bool :=
  match name.toList.getLast? with
  | some c => c == '/' || c == '\\'
  | none => false

/-- The bytes as they are kept. -/
def Entry.open (e : Entry) : Except EntryFault (List UInt8) := do
  if e.encrypted then throw .encrypted
  let body ← e.body
  if e.method = .unknown then throw .methodUnknown
  pure (body.take e.packed)

def Method.unpack (m : Method) (bytes : List UInt8) : Except EntryFault (List UInt8) :=
  match m with
  | .stored => .ok bytes
  | .deflated => (inflate bytes).mapError .deflate
  | .unknown => .error .methodUnknown

/-- The bytes of an entry that is open, all of them, however many are declared. -/
def Entry.content (e : Entry) (kept : List UInt8) : Except EntryFault (List UInt8) := do
  let bytes ← e.method.unpack kept
  if Archive.checksum bytes = e.checksum then pure bytes else throw .checksumWrong

end Tabular.Archive
