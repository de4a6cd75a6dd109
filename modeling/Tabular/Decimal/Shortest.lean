/- The fewest decimal digits that read back as a given binary number, found in exact arithmetic. -/
namespace Tabular.Decimal

/-- The number `mantissa * 2 ^ exponent`. -/
structure Binary where
  mantissa : Nat
  exponent : Int
  deriving DecidableEq

/-- The number `digits * 10 ^ exponent`. -/
structure Scientific where
  digits : Nat
  exponent : Int
  deriving DecidableEq

/-- Which of two equally near decimals is taken. -/
inductive Tie where
  | toEven
  | upward
  deriving DecidableEq

/-- The magnitude that a finite 64-bit float stores; the lowest exponent is shared with zero. -/
def Binary.ofBits (bits : Nat) : Binary :=
  let fraction := bits % 0x10000000000000
  match bits / 0x10000000000000 % 0x800 with
  | 0 => ⟨fraction, -1074⟩
  | scale => ⟨0x10000000000000 + fraction, (scale : Int) - 1075⟩

/-- Half the gap to the float below, in quarters of a unit of the last place. -/
def Binary.below (b : Binary) : Nat :=
  if b.mantissa = 0x10000000000000 ∧ -1074 < b.exponent then 1 else 2

/-- Factors that put quarters of a unit of `b` and steps of `10 ^ place` on one scale. -/
def Binary.scales (b : Binary) (place : Int) : Nat × Nat :=
  let q := b.exponent - 2
  (Nat.pow 2 q.toNat * Nat.pow 10 (-place).toNat, Nat.pow 10 place.toNat * Nat.pow 2 (-q).toNat)

/-- Whether `n` steps of `10 ^ place` round to `b`; the ends of the interval do so for an even mantissa. -/
def Binary.holds (b : Binary) (place : Int) (n : Nat) : Bool :=
  let (unit, step) := b.scales place
  let low := (4 * b.mantissa - b.below) * unit
  let high := (4 * b.mantissa + 2) * unit
  if b.mantissa % 2 = 0 then low ≤ n * step && n * step ≤ high
  else low < n * step && n * step < high

/-- The nearer of the two neighbours of `b` on the grid of `10 ^ place`, of those that round to it. -/
def Binary.onGrid? (b : Binary) (tie : Tie) (place : Int) : Option Scientific :=
  let (unit, step) := b.scales place
  let value := 4 * b.mantissa * unit
  let n := value / step
  let down := value - n * step
  let up := step - down
  let lower : Bool := match tie with
    | .toEven => down < up || (down == up && n % 2 == 0)
    | .upward => down < up
  match b.holds place n && n != 0, b.holds place (n + 1) with
  | true, true => some ⟨if lower then n else n + 1, place⟩
  | true, false => some ⟨n, place⟩
  | false, true => some ⟨n + 1, place⟩
  | false, false => none

/-- Decimal digits of a number, most significant first. -/
def digits (n : Nat) : List Char := Nat.toDigits 10 n

/-- The exponent of the first decimal digit of a positive `b`. -/
def Binary.magnitude (b : Binary) : Int :=
  let (unit, step) := b.scales (-345)
  (digits (4 * b.mantissa * unit / step)).length - 346

/-- Drops the zeros at the end of the digits. -/
def Scientific.trim (s : Scientific) : Nat → Scientific
  | 0 => s
  | fuel + 1 =>
    if s.digits % 10 = 0 ∧ s.digits ≠ 0 then trim ⟨s.digits / 10, s.exponent + 1⟩ fuel else s

/-- The shortest decimal that reads back as a positive `b`; seventeen digits always suffice. -/
def Binary.shortest (b : Binary) (tie : Tie) : Scientific :=
  let top := b.magnitude
  let found := (List.range 17).findSome? fun k : Nat => b.onGrid? tie (top - k)
  (found.getD ⟨b.mantissa, b.exponent⟩).trim 20

end Tabular.Decimal
