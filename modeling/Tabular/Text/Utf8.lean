/- Text as UTF-8 bytes. -/
namespace Tabular.Text.Utf8

/-- A byte inside a character, with six bits of it. -/
def tail (n : Nat) : UInt8 := UInt8.ofNat (0x80 + n % 0x40)

def units (c : Char) : List UInt8 :=
  let n := c.toNat
  if n < 0x80 then [UInt8.ofNat n]
  else if n < 0x800 then [UInt8.ofNat (0xc0 + n / 0x40), tail n]
  else if n < 0x10000 then [UInt8.ofNat (0xe0 + n / 0x1000), tail (n / 0x40), tail n]
  else [UInt8.ofNat (0xf0 + n / 0x40000), tail (n / 0x1000), tail (n / 0x40), tail n]

def encode (text : String) : List UInt8 := text.toList.flatMap units

/-- A character that has begun: `left` bytes are to come, the next of them from `low` to `high`,
    and the bits so far spell `value`. -/
structure Partial where
  left : Nat
  value : Nat
  low : Nat
  high : Nat

/-- What the first of several bytes begins. The bounds keep out spellings that are too long,
    surrogates, and numbers beyond the last character. -/
def lead? (b : Nat) : Option Partial :=
  if b < 0xc2 then none
  else if b < 0xe0 then some ⟨1, b - 0xc0, 0x80, 0xbf⟩
  else if b = 0xe0 then some ⟨2, 0, 0xa0, 0xbf⟩
  else if b = 0xed then some ⟨2, 0xd, 0x80, 0x9f⟩
  else if b < 0xf0 then some ⟨2, b - 0xe0, 0x80, 0xbf⟩
  else if b = 0xf0 then some ⟨3, 0, 0x90, 0xbf⟩
  else if b < 0xf4 then some ⟨3, b - 0xf0, 0x80, 0xbf⟩
  else if b = 0xf4 then some ⟨3, 4, 0x80, 0x8f⟩
  else none

/-- What stands for bytes that spell no character. -/
def stray : Char := '\ufffd'

/-- Reads a byte between characters: what it begins, and the characters it completes. -/
def begin (b : Nat) : Option Partial × List Char :=
  if b < 0x80 then (none, [Char.ofNat b])
  else match lead? b with
    | some p => (some p, [])
    | none => (none, [stray])

/-- Reads a byte. A character that cannot go on with it is one stray. -/
def advance : Option Partial → Nat → Option Partial × List Char
  | none, b => begin b
  | some p, b =>
    if p.low ≤ b && b ≤ p.high then
      let value := p.value * 0x40 + b % 0x40
      if p.left = 1 then (none, [Char.ofNat value])
      else (some ⟨p.left - 1, value, 0x80, 0xbf⟩, [])
    else ((begin b).1, stray :: (begin b).2)

def decodeChars : Option Partial → List UInt8 → List Char
  | none, [] => []
  | some _, [] => [stray]
  | p, b :: bs => (advance p b.toNat).2 ++ decodeChars (advance p b.toNat).1 bs

/-- The text of bytes; each longest start of a character that does not go on is one stray. -/
def decode (bytes : List UInt8) : String := String.ofList (decodeChars none bytes)

end Tabular.Text.Utf8
