/- Text as UTF-16 code units, low byte first. -/
namespace Tabular.Text.Utf16

/-- The code units of a character: one, or a surrogate pair beyond the basic plane. -/
def units (c : Char) : List Nat :=
  if c.toNat < 0x10000 then [c.toNat]
  else [0xd800 + (c.toNat - 0x10000) / 0x400, 0xdc00 + (c.toNat - 0x10000) % 0x400]

def unitBytes (u : Nat) : List UInt8 := [UInt8.ofNat (u % 256), UInt8.ofNat (u / 256)]

def encode (text : String) : List UInt8 :=
  text.toList.flatMap fun c => (units c).flatMap unitBytes

def unitOfBytes (low high : UInt8) : Nat := low.toNat + 256 * high.toNat

/-- The characters of code units, behind those in `acc`; none for a surrogate without its partner. -/
def decodeUnits? (acc : List Char) : List UInt8 → Option (List Char)
  | [] => some acc.reverse
  | [_] => none
  | low :: high :: rest =>
    let u := unitOfBytes low high
    if u < 0xd800 || 0xdfff < u then decodeUnits? (Char.ofNat u :: acc) rest
    else if 0xdc00 ≤ u then none
    else
      match rest with
      | low :: high :: rest =>
        let v := unitOfBytes low high
        if 0xdc00 ≤ v && v ≤ 0xdfff then
          decodeUnits? (Char.ofNat (0x10000 + (u - 0xd800) * 0x400 + (v - 0xdc00)) :: acc) rest
        else none
      | _ => none

def dropMark : List UInt8 → List UInt8
  | 0xff :: 0xfe :: rest => rest
  | bytes => bytes

end Tabular.Text.Utf16
