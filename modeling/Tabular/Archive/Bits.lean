/- Bytes as bits, the low bit of each byte first. -/
namespace Tabular.Archive

def bitsOf (b : UInt8) : List Bool := (List.range 8).map b.toNat.testBit

def bitNumber : List Bool → Nat
  | [] => 0
  | bit :: bits => bit.toNat + 2 * bitNumber bits

/-- Appends the bytes of some bits; zeros fill up the last byte. -/
def pushBits : Array UInt8 → List Bool → Array UInt8
  | out, [] => out
  | out, a :: b :: c :: d :: e :: f :: g :: h :: bits =>
    pushBits (out.push (UInt8.ofNat (bitNumber [a, b, c, d, e, f, g, h]))) bits
  | out, bits => out.push (UInt8.ofNat (bitNumber bits))

def bytesOf (bits : List Bool) : List UInt8 := (pushBits #[] bits).toList

end Tabular.Archive
