/- The cyclic redundancy check of a part. -/
namespace Tabular.Archive

/-- Divides by the polynomial, one bit. -/
def checkBit (c : UInt32) : UInt32 :=
  if c &&& 1 = 1 then (c >>> 1) ^^^ 0xedb88320 else c >>> 1

def checkByte (c : UInt32) (b : UInt8) : UInt32 := Nat.repeat checkBit 8 (c ^^^ b.toUInt32)

def checksum (bytes : List UInt8) : Nat := (~~~ bytes.foldl checkByte 0xffffffff).toNat

end Tabular.Archive
