/- Archives: entries, the directory that lists them, and a record at the end that says where the
   directory is. -/
import Tabular.Archive.CodePage
import Tabular.Archive.Entry
import Tabular.Archive.Word
import Tabular.Text.Utf8

namespace Tabular

structure Archive where
  entries : List Archive.Entry

namespace Archive

/-- Why bytes cannot be opened as an archive. -/
inductive OpenFault where
  | notArchive
  | endsEarly
  deriving DecidableEq, Repr

/-- What holds an archive. -/
inductive Medium where
  | memory
  | file
  deriving DecidableEq, Repr

/-- The end of the longest file there can be, of 2 ^ 32 - 1 blocks. -/
def longestFile : Nat := 0xffffffff * 4096

/-- Whether reading can go to a place, though not that anything is there. -/
def Medium.reaches : Medium → Nat → Bool
  | .memory, _ => true
  | .file, place => place ≤ longestFile

/-- The number in front of each kind of record. -/
def localMark : Nat := 0x04034b50

def directoryMark : Nat := 0x02014b50

def endMark : Nat := 0x06054b50

def wideEndMark : Nat := 0x06064b50

def locatorMark : Nat := 0x07064b50

/-- The record at the end. -/
structure EndRecord where
  disk : Nat
  directoryDisk : Nat
  count : Nat
  total : Nat
  size : Nat
  offset : Nat
  commentLength : Nat

/-- Whether a field of the record is too narrow for its number. -/
def EndRecord.isNarrow (e : EndRecord) : Bool :=
  e.disk == 0xffff || e.directoryDisk == 0xffff || e.count == 0xffff || e.total == 0xffff ||
    e.size == 0xffffffff || e.offset == 0xffffffff

def endWidths : List Nat := [4, 2, 2, 2, 2, 4, 4, 2]

/-- Whether bytes begin with a record of the end, leaving the comment aside. -/
def startsWithEnd (bytes : List UInt8) : Bool :=
  (word 4 endMark).isPrefixOf bytes && (split? 22 bytes).isSome

/-- The last place from `place` on where a record of the end begins, with the bytes there. -/
def lastEnd? (found : Option (Nat × List UInt8)) (place : Nat) :
    List UInt8 → Option (Nat × List UInt8)
  | [] => found
  | b :: bs =>
    lastEnd? (if startsWithEnd (b :: bs) then some (place, b :: bs) else found) (place + 1) bs

/-- How far from the end of an archive its record can begin. -/
def endReach : Nat := 22 + 0xffff

/-- Where the record of the end begins, with the bytes there. -/
def findEnd? (bytes : List UInt8) : Option (Nat × List UInt8) :=
  let first := bytes.length - endReach
  lastEnd? none first (bytes.drop first)

def readEnd (bytes : List UInt8) : Except OpenFault EndRecord :=
  match readWords? endWidths bytes with
  | some ([_, disk, directoryDisk, count, total, size, offset, comment], rest) =>
    if (split? comment rest).isNone then .error .endsEarly
    else .ok ⟨disk, directoryDisk, count, total, size, offset, comment⟩
  | _ => .error .endsEarly

/-- Where a directory is: how far each offset is off, where its first record is, and how many
    records it has. -/
structure Place where
  shift : Nat
  start : Nat
  count : Nat

/-- The place that a record with wide fields gives. It begins `shift` behind where it is said to
    be, at one of so many places. -/
def widePlace (shift : Nat) : Nat → List UInt8 → Except OpenFault Place
  | 0, _ => .error .notArchive
  | _, [] => .error .notArchive
  | left + 1, b :: bs =>
    match readWords? [4, 8, 2, 2, 4, 4, 8, 8, 8, 8] (b :: bs) with
    | some ([mark, _, _, _, disk, directoryDisk, _, count, _, offset], _) =>
      if mark = wideEndMark then
        if disk ≠ directoryDisk || 0x10000000000000000 ≤ offset + shift then .error .notArchive
        else .ok ⟨shift, offset + shift, count⟩
      else widePlace (shift + 1) left bs
    | _ => .error .notArchive

/-- What the locator in front of the record of the end says: the disk of the record with wide
    fields, and its offset. -/
def locator? (bytes : List UInt8) (e : EndRecord) : Option (Nat × Nat) :=
  let reach := 42 + e.commentLength
  if bytes.length < reach then none
  else match readWords? [4, 4, 8, 4] (bytes.drop (bytes.length - reach)) with
    | some ([mark, disk, offset, _], _) => if mark = locatorMark then some (disk, offset) else none
    | _ => none

/-- The place of the directory, by the record of the end at `place`. Bytes in front of the archive
    shift each offset. -/
def directoryPlace (bytes : List UInt8) (place : Nat) (e : EndRecord) : Except OpenFault Place :=
  match locator? bytes e with
  | none =>
    if place < e.size + e.offset then .error .notArchive
    else .ok ⟨place - e.size - e.offset, place - e.size, e.count⟩
  | some (disk, offset) =>
    if (!e.isNarrow && e.disk != disk) || place < 60 then .error .notArchive
    else widePlace 0 (place - 60 + 1 - offset) (bytes.drop offset)

/-- What the directory says of an entry. -/
structure Listing where
  flags : Nat
  method : Nat
  checksum : Nat
  packed : Nat
  size : Nat
  offset : Nat
  /-- Whether the fields of a cipher give the method. -/
  sealed : Bool

/-- The number in a narrow field that stands for one in a wide field. -/
def wideElsewhere : Nat := 0xffffffff

/-- Reads a wide field for a narrow one that refers to it; none if it is cut. -/
def readWide? (n : Nat) (bytes : List UInt8) : Option (Nat × List UInt8) :=
  if n = wideElsewhere then (split? 8 bytes).map fun p => (number p.1, p.2) else some (n, bytes)

/-- Takes over wide fields, up to one that is cut, and gives the bytes behind them. -/
def Listing.widen (l : Listing) (bytes : List UInt8) : Listing × Option (List UInt8) :=
  match readWide? l.size bytes with
  | none => (l, none)
  | some (size, bytes) =>
    let l := { l with size := size }
    match readWide? l.packed bytes with
    | none => (l, none)
    | some (packed, bytes) =>
      let l := { l with packed := packed }
      match readWide? l.offset bytes with
      | none => (l, none)
      | some (offset, bytes) => ({ l with offset := offset }, some bytes)

/-- Takes over the fields of a cipher: version, vendor, strength and the method beneath. -/
def Listing.seal (l : Listing) (bytes : List UInt8) :
    Except OpenFault (Listing × Option (List UInt8)) :=
  match readWords? [2, 2, 1, 2] bytes with
  | some ([version, vendor, strength, method], bytes) =>
    if vendor ≠ 0x4541 || version < 1 || 2 < version || strength < 1 || 3 < strength then
      .error .notArchive
    else .ok ({ l with method := method, sealed := true }, some (bytes.drop 7))
  | _ => .ok (l, none)

/-- Takes over extra fields, up to one that is cut. -/
def Listing.extend (l : Listing) : Nat → List UInt8 → Except OpenFault Listing
  | 0, _ => .ok l
  | fuel + 1, bytes =>
    match readWords? [2, 2] bytes with
    | some ([kind, length], bytes) =>
      if kind = 0x0001 then
        match l.widen bytes with
        | (l, none) => .ok l
        | (l, some rest) =>
          l.extend fuel (rest.drop (length - (bytes.length - rest.length)))
      else if kind = 0x9901 then
        if length ≠ 7 then .error .notArchive
        else match l.seal bytes with
          | .error fault => .error fault
          | .ok (l, none) => .ok l
          | .ok (l, some rest) => l.extend fuel rest
      else l.extend fuel (bytes.drop length)
    | _ => .ok l

/-- The method of a cipher, which says elsewhere what is beneath. -/
def cipherMethod : Nat := 99

def methodOf (n : Nat) : Method :=
  if n = 0 then .stored else if n = 8 then .deflated else .unknown

/-- The bytes of an archive from those of an entry on, by the entry's own record, which begins
    at `start`. -/
def locate (bytes : List UInt8) (start : Nat) : Except EntryFault (List UInt8) :=
  match readWords? [4] (bytes.drop start) with
  | some ([mark], rest) =>
    if mark ≠ localMark then .error .headerInvalid
    else match readWords? [2, 2] (rest.drop 22) with
      | some ([nameLength, extraLength], rest) => .ok (rest.drop (nameLength + extraLength))
      | _ => .error .headerMissing
  | _ => .error .headerMissing

def utf8Flag : Nat := 0x800

def decodeName (flags : Nat) (bytes : List UInt8) : String :=
  if flags &&& utf8Flag = 0 then decodeCodePage bytes else Text.Utf8.decode bytes

/-- The entry of a listing in an archive whose offsets are off by `shift`. -/
def Listing.entry (l : Listing) (bytes : List UInt8) (shift : Nat) (name : List UInt8) : Entry where
  name := decodeName l.flags name
  size := l.size
  packed := l.packed
  checksum := l.checksum
  method := methodOf l.method
  encrypted := l.flags % 2 == 1
  body := locate bytes (l.offset + shift)

/-- Reads a record of the directory behind its mark: the listing, the name and the extra fields. -/
def readListing? (bytes : List UInt8) :
    Option (Listing × List UInt8 × List UInt8 × List UInt8) := do
  let (fields, bytes) ← readWords? [2, 2, 2, 2, 2, 2, 4, 4, 4, 2, 2, 2, 2, 2, 4, 4] bytes
  match fields with
  | [_, _, flags, method, _, _, checksum, packed, size, nameLength, extraLength, commentLength,
      _, _, _, offset] => do
    let (name, bytes) ← split? nameLength bytes
    let (extra, bytes) ← split? extraLength bytes
    let (_, bytes) ← split? commentLength bytes
    pure (⟨flags, method, checksum, packed, size, offset, false⟩, name, extra, bytes)
  | _ => none

def readEntries (bytes : List UInt8) (shift : Nat) :
    Nat → List UInt8 → List Entry → Except OpenFault (List Entry)
  | 0, _, entries => .ok entries.reverse
  | count + 1, rest, entries =>
    match readWords? [4] rest with
    | some ([mark], rest) =>
      if mark ≠ directoryMark then .error .notArchive
      else match readListing? rest with
        | none => .error .endsEarly
        | some (l, name, extra, rest) =>
          match l.extend extra.length extra with
          | .error fault => .error fault
          | .ok l =>
            if (l.method = cipherMethod && !l.sealed) || 0x10000000000000000 ≤ l.offset + shift then
              .error .notArchive
            else readEntries bytes shift count rest (l.entry bytes shift name :: entries)
    | _ => .error .endsEarly

/-- Opens the archive in the bytes that a medium holds, by the record of the end at `place`. -/
def openAt (medium : Medium) (bytes : List UInt8) (place : Nat) (record : List UInt8) :
    Except OpenFault Archive := do
  let e ← readEnd record
  if !e.isNarrow && e.disk != e.directoryDisk then throw .notArchive
  let directory ← directoryPlace bytes place e
  if !medium.reaches directory.start then throw .notArchive
  let entries ← readEntries bytes directory.shift directory.count (bytes.drop directory.start) []
  pure ⟨entries⟩

/-- Opens the archive in the bytes that a medium holds. -/
def ofBytes (medium : Medium) (bytes : List UInt8) : Except OpenFault Archive :=
  (findEnd? bytes).elim (.error .notArchive) fun found => openAt medium bytes found.1 found.2

def find? (a : Archive) (name : String) : Option Entry :=
  a.entries.reverse.find? fun e => e.name == name

end Archive

end Tabular
