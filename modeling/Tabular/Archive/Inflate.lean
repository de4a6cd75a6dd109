/- Deflated data: blocks of single bytes and of copies of what came before. -/
import Tabular.Archive.Bits
import Tabular.Archive.Huffman

namespace Tabular.Archive

def readBits : Nat → List Bool → Except DeflateFault (Nat × List Bool)
  | 0, bits => .ok (0, bits)
  | _ + 1, [] => .error .incomplete
  | n + 1, bit :: bits => (readBits n bits).map fun p => (bit.toNat + 2 * p.1, p.2)

/-- A base and how many bits are added to it. -/
abbrev Span := Nat × Nat

/-- The lengths of copies, by symbol from 257 on. -/
def lengthSpans : Array Span :=
  #[(3, 0), (4, 0), (5, 0), (6, 0), (7, 0), (8, 0), (9, 0), (10, 0), (11, 1), (13, 1), (15, 1),
    (17, 1), (19, 2), (23, 2), (27, 2), (31, 2), (35, 3), (43, 3), (51, 3), (59, 3), (67, 4),
    (83, 4), (99, 4), (115, 4), (131, 5), (163, 5), (195, 5), (227, 5), (258, 0)]

/-- How far back copies begin, by symbol. -/
def distanceSpans : Array Span :=
  #[(1, 0), (2, 0), (3, 0), (4, 0), (5, 1), (7, 1), (9, 2), (13, 2), (17, 3), (25, 3), (33, 4),
    (49, 4), (65, 5), (97, 5), (129, 6), (193, 6), (257, 7), (385, 7), (513, 8), (769, 8),
    (1025, 9), (1537, 9), (2049, 10), (3073, 10), (4097, 11), (6145, 11), (8193, 12), (12289, 12),
    (16385, 13), (24577, 13)]

/-- Reads a number in a span that a symbol selects. -/
def readSpan (spans : Array Span) (symbol : Nat) (bits : List Bool) :
    Except DeflateFault (Nat × List Bool) :=
  match spans[symbol]? with
  | none => .error .corrupt
  | some span => (readBits span.2 bits).map fun p => (span.1 + p.1, p.2)

/-- Copies bytes from `distance` back, one after the other, so that a copy may read what it wrote.
    Before the first byte there are zeros. -/
def copyBack (distance : Nat) : Nat → Array UInt8 → Array UInt8
  | 0, out => out
  | n + 1, out =>
    let b := if distance ≤ out.size then (out[out.size - distance]?).getD 0 else 0
    copyBack distance n (out.push b)

/-- What a block says next: a byte, that it ends, or a copy of what came before. -/
inductive Piece where
  | byte (b : UInt8)
  | stop
  | copy (length distance : Nat)

def readPiece (literals distances : Code) (bits : List Bool) :
    Except DeflateFault (Piece × List Bool) :=
  match literals.read bits with
  | .error fault => .error fault
  | .ok (symbol, bits) =>
    if symbol < 256 then .ok (.byte (UInt8.ofNat symbol), bits)
    else if symbol = 256 then .ok (.stop, bits)
    else
      match readSpan lengthSpans (symbol - 257) bits with
      | .error fault => .error fault
      | .ok (length, bits) =>
        match distances.read bits with
        | .error fault => .error fault
        | .ok (symbol, bits) =>
          (readSpan distanceSpans symbol bits).map fun p => (.copy length p.1, p.2)

def readBlock (literals distances : Code) :
    Nat → List Bool → Array UInt8 → Except DeflateFault (Array UInt8 × List Bool)
  | 0, _, _ => .error .incomplete
  | fuel + 1, bits, out =>
    match readPiece literals distances bits with
    | .error fault => .error fault
    | .ok (.byte b, bits) => readBlock literals distances fuel bits (out.push b)
    | .ok (.stop, bits) => .ok (out, bits)
    | .ok (.copy length distance, bits) =>
      readBlock literals distances fuel bits (copyBack distance length out)

/-- The order in which the lengths of the code for lengths are given. -/
def lengthOrder : List Nat :=
  [16, 17, 18, 0, 8, 7, 9, 6, 10, 5, 11, 4, 12, 3, 13, 2, 14, 1, 15]

def readTriples : Nat → List Bool → Except DeflateFault (List Nat × List Bool)
  | 0, bits => .ok ([], bits)
  | n + 1, bits => do
    let (x, bits) ← readBits 3 bits
    let (xs, bits) ← readTriples n bits
    pure (x :: xs, bits)

/-- What a symbol of the code for lengths repeats, behind lengths that are given last first:
    the length, and how often. -/
def readRepeat (given : List Nat) (symbol : Nat) (bits : List Bool) :
    Except DeflateFault (Nat × Nat × List Bool) :=
  if symbol < 16 then .ok (symbol, 1, bits)
  else if symbol = 16 then
    match given with
    | [] => .error .corrupt
    | last :: _ => (readBits 2 bits).map fun p => (last, 3 + p.1, p.2)
  else if symbol = 17 then (readBits 3 bits).map fun p => (0, 3 + p.1, p.2)
  else (readBits 7 bits).map fun p => (0, 11 + p.1, p.2)

/-- Reads `total` lengths behind those given, which are last first. -/
def readLengths (code : Code) (total : Nat) :
    Nat → List Nat → List Bool → Except DeflateFault (List Nat × List Bool)
  | 0, _, _ => .error .corrupt
  | fuel + 1, given, bits =>
    if given.length = total then .ok (given.reverse, bits)
    else if total < given.length then .error .corrupt
    else
      match code.read bits with
      | .error fault => .error fault
      | .ok (symbol, bits) =>
        match readRepeat given symbol bits with
        | .error fault => .error fault
        | .ok (length, times, bits) =>
          readLengths code total fuel (List.replicate times length ++ given) bits

/-- Reads the codes that a block brings. The code for lengths has to be full; the other two may
    also be bare. -/
def readCodes (bits : List Bool) : Except DeflateFault (Code × Code × List Bool) := do
  let (literalCount, bits) ← readBits 5 bits
  let (distanceCount, bits) ← readBits 5 bits
  let (lengthCount, bits) ← readBits 4 bits
  let literalCount := literalCount + 257
  let distanceCount := distanceCount + 1
  if 286 < literalCount || 30 < distanceCount then throw .corrupt
  let (triples, bits) ← readTriples (lengthCount + 4) bits
  let given := lengthOrder.zip triples
  let code := Code.ofLengths ((List.range 19).map fun s => (given.lookup s).getD 0)
  if !code.isFull then throw .corrupt
  let total := literalCount + distanceCount
  let (lengths, bits) ← readLengths code total (total + 1) [] bits
  let literals := Code.ofLengths (lengths.take literalCount)
  let distances := Code.ofLengths (lengths.drop literalCount)
  if (literals.isFull || literals.isBare) && (distances.isFull || distances.isBare) then
    pure (literals, distances, bits)
  else throw .corrupt

def readBytes : Nat → List Bool → Array UInt8 → Except DeflateFault (Array UInt8 × List Bool)
  | 0, bits, out => .ok (out, bits)
  | n + 1, bits, out =>
    match readBits 8 bits with
    | .error fault => .error fault
    | .ok (b, bits) => readBytes n bits (out.push (UInt8.ofNat b))

/-- Reads a block that is not compressed: from the next whole byte on, a length, the length
    again with each bit turned, and the bytes. -/
def readPlain (bits : List Bool) (out : Array UInt8) :
    Except DeflateFault (Array UInt8 × List Bool) := do
  let (length, bits) ← readBits 16 (bits.drop (bits.length % 8))
  let (turned, bits) ← readBits 16 bits
  if length + turned = 0xffff then readBytes length bits out else throw .corrupt

/-- Reads a block of a kind behind the bits that give it. -/
def readKind (kind : Nat) (bits : List Bool) (out : Array UInt8) :
    Except DeflateFault (Array UInt8 × List Bool) :=
  match kind with
  | 0 => readPlain bits out
  | 1 => readBlock fixedLiterals fixedDistances (bits.length + 1) bits out
  | 2 => do
    let (literals, distances, bits) ← readCodes bits
    readBlock literals distances (bits.length + 1) bits out
  | _ => .error .corrupt

/-- Reads blocks up to the last one; what follows it is not looked at. -/
def readBlocks : Nat → List Bool → Array UInt8 → Except DeflateFault (Array UInt8)
  | 0, _, _ => .error .incomplete
  | fuel + 1, bits, out => do
    let (last, bits) ← readBits 1 bits
    let (kind, bits) ← readBits 2 bits
    match readKind kind bits out with
    | .error fault => .error fault
    | .ok (out, bits) => if last = 1 then pure out else readBlocks fuel bits out

def inflate (bytes : List UInt8) : Except DeflateFault (List UInt8) :=
  let bits := bytes.flatMap bitsOf
  (readBlocks (bits.length + 1) bits #[]).map Array.toList

end Tabular.Archive
