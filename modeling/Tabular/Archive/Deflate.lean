/- Deflating: one block of single bytes, in the code of a block that brings none. -/
import Tabular.Archive.Bits

namespace Tabular.Archive

/-- The bits of a word of a code, high bit first. -/
def wordBits (width word : Nat) : List Bool := ((List.range width).map word.testBit).reverse

def literalWord (b : UInt8) : List Bool :=
  let n := b.toNat
  if n < 144 then wordBits 8 (0x30 + n) else wordBits 9 (0x190 + (n - 144))

/-- The word at the end of a block. -/
def endWord : List Bool := wordBits 7 0

/-- The bits in front of a last block that brings no code. -/
def blockStart : List Bool := [true, true, false]

def deflate (bytes : List UInt8) : List UInt8 :=
  bytesOf (blockStart ++ bytes.flatMap literalWord ++ endWord)

end Tabular.Archive
