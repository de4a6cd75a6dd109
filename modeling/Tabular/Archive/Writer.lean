/- Writing an archive: each part deflated, then the directory, then the record of the end. -/
import Tabular.Archive.Deflate
import Tabular.Archive.Directory

namespace Tabular.Archive

/-- A part of a bundle: its name and its bytes. -/
abbrev Part := String × List UInt8

/-- A part as an archive keeps it: `size` and `checksum` are those of the part, `bytes` the part
    deflated. -/
structure Kept where
  name : String
  size : Nat
  checksum : Nat
  bytes : List UInt8

def Kept.ofPart (p : Part) : Kept := ⟨p.1, p.2.length, Archive.checksum p.2, deflate p.2⟩

/-- What the directory of an archive lists of a part that is written. -/
def Kept.entry (k : Kept) : Entry where
  name := k.name
  size := k.size
  packed := k.bytes.length
  checksum := k.checksum
  method := .deflated
  encrypted := false
  body := .ok k.bytes

def ofParts (parts : List Part) : Archive := ⟨parts.map fun p => (Kept.ofPart p).entry⟩

/-- The flags of a part: a name beyond ASCII is in UTF-8. -/
def nameFlags (name : String) : Nat := if name.toList.all (·.toNat < 0x80) then 0 else utf8Flag

/-- The fields that both records of a part share, from the version that can read it on; the date
    is the earliest there is. -/
def sharedFields (k : Kept) : List UInt8 :=
  word 2 20 ++ word 2 (nameFlags k.name) ++ word 2 8 ++ word 2 0 ++ word 2 0x21 ++
    word 4 k.checksum ++ word 4 k.bytes.length ++ word 4 k.size ++
    word 2 (Text.Utf8.encode k.name).length ++ word 2 0

def localHeader (k : Kept) : List UInt8 :=
  word 4 localMark ++ sharedFields k ++ Text.Utf8.encode k.name

/-- The record of the directory for a part whose own record begins at `offset`; the part is an
    ordinary file that its owner may change. -/
def directoryRecord (offset : Nat) (k : Kept) : List UInt8 :=
  word 4 directoryMark ++ word 2 0x314 ++ sharedFields k ++ word 2 0 ++ word 2 0 ++ word 2 0 ++
    word 4 0x81a40000 ++ word 4 offset ++ Text.Utf8.encode k.name

/-- The directory of parts, the first of which begins at `offset`. -/
def directoryRecords (offset : Nat) : List Kept → List UInt8
  | [] => []
  | k :: ks =>
    directoryRecord offset k ++
      directoryRecords (offset + (localHeader k).length + k.bytes.length) ks

/-- The records with wide fields, which more parts need than a narrow field can count. -/
def wideRecords (count size offset : Nat) : List UInt8 :=
  if count ≤ 0xffff then []
  else
    word 4 wideEndMark ++ word 8 44 ++ word 2 45 ++ word 2 45 ++ word 4 0 ++ word 4 0 ++
      word 8 count ++ word 8 count ++ word 8 size ++ word 8 offset ++
      word 4 locatorMark ++ word 4 0 ++ word 8 (offset + size) ++ word 4 1

def endRecord (count size offset : Nat) : List UInt8 :=
  word 4 endMark ++ word 2 0 ++ word 2 0 ++ word 2 (min count 0xffff) ++
    word 2 (min count 0xffff) ++ word 4 size ++ word 4 offset ++ word 2 0

/-- The bytes of an archive that holds some parts. -/
def write (parts : List Part) : List UInt8 :=
  let kept := parts.map Kept.ofPart
  let bodies := kept.flatMap fun k => localHeader k ++ k.bytes
  let directory := directoryRecords 0 kept
  bodies ++ directory ++ wideRecords parts.length directory.length bodies.length ++
    endRecord parts.length directory.length bodies.length

end Tabular.Archive
