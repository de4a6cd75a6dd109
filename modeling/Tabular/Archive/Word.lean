/- Numbers of a fixed width, low byte first. -/
namespace Tabular.Archive

/-- A number in so many bytes; what does not fit is dropped. -/
def word : Nat → Nat → List UInt8
  | 0, _ => []
  | width + 1, n => UInt8.ofNat (n % 256) :: word width (n / 256)

def number : List UInt8 → Nat
  | [] => 0
  | b :: bs => b.toNat + 256 * number bs

/-- The first bytes and the rest, if there are so many. -/
def split? (n : Nat) (bytes : List UInt8) : Option (List UInt8 × List UInt8) :=
  let first := bytes.take n
  if first.length = n then some (first, bytes.drop n) else none

/-- Reads numbers of given widths. -/
def readWords? : List Nat → List UInt8 → Option (List Nat × List UInt8)
  | [], bytes => some ([], bytes)
  | width :: widths, bytes => do
    let (first, bytes) ← split? width bytes
    let (ns, bytes) ← readWords? widths bytes
    pure (number first :: ns, bytes)

end Tabular.Archive
