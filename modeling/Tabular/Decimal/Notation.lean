/- How a 64-bit float is written in decimal. -/
import Tabular.Decimal.Shortest

namespace Tabular.Decimal

/-- The choices of a format: ties between shortest decimals, where the point may stand
    without an exponent, whether a whole number shows its fraction, and the words for
    values that are not numbers. -/
structure Notation where
  tie : Tie
  positional : Int → Bool
  fraction : Bool
  notANumber : String
  infinity : String

/-- A sign, when one is due, before the text of a magnitude. -/
def signed (negative : Bool) (text : List Char) : List Char :=
  if negative then '-' :: text else text

/-- Digits with a point after the first `point` of them, padded with zeros on either side. -/
def Notation.plain (format : Notation) (ds : List Char) (point : Int) : List Char :=
  if point ≤ 0 then '0' :: '.' :: (List.replicate (-point).toNat '0' ++ ds)
  else if ds.length ≤ point.toNat then
    ds ++ List.replicate (point.toNat - ds.length) '0' ++ (if format.fraction then ['.', '0'] else [])
  else ds.take point.toNat ++ '.' :: ds.drop point.toNat

/-- One digit before the point and a signed power of ten. -/
def scientific (ds : List Char) (point : Int) : List Char :=
  let power := point - 1
  let lead := match ds with
    | d :: e :: rest => d :: '.' :: e :: rest
    | short => short
  lead ++ 'e' :: (if power < 0 then '-' else '+') :: digits power.natAbs

/-- The text of a positive decimal. -/
def Notation.decimal (format : Notation) (s : Scientific) : List Char :=
  let ds := digits s.digits
  let point := ds.length + s.exponent
  if format.positional point then format.plain ds point else scientific ds point

/-- The text of a float. -/
def Notation.text (format : Notation) (x : Float) : String :=
  let bits := x.toBits.toNat
  let negative := 0x8000000000000000 ≤ bits
  if x.isNaN then format.notANumber
  else if x.isInf then String.ofList (signed negative format.infinity.toList)
  else
    let b := Binary.ofBits bits
    String.ofList <| signed negative <|
      if b.mantissa = 0 then format.plain ['0'] 1 else format.decimal (b.shortest format.tie)

end Tabular.Decimal
