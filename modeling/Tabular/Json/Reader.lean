/- Reading JSON text. Each reader takes its part off the front of the text and returns the rest. -/
import Tabular.Json.Fault
import Tabular.Json.Value

namespace Tabular.Json

/-- What was read and the text behind it. -/
abbrev Reading (α : Type) := Except Stop (α × List Char)

/-- Goes on with the rest of the text, unless reading has stopped. -/
def Reading.andThen {α β : Type} (r : Reading α) (next : α → List Char → Reading β) : Reading β :=
  match r with
  | .ok (a, cs) => next a cs
  | .error stop => .error stop

def Reading.map {α β : Type} (f : α → β) (r : Reading α) : Reading β :=
  r.andThen fun a cs => .ok (f a, cs)

/-- Stops in front of `cs`. -/
def halt {α : Type} (cause : Cause) (cs : List Char) : Reading α :=
  .error ⟨cause, byteCount cs⟩

/-- Stops behind the first byte of `cs`, or at the end. -/
def haltInside {α : Type} (cause : Cause) (cs : List Char) : Reading α :=
  .error ⟨cause, byteCount cs - 1⟩

/-- White space is space, tab, line feed and carriage return. -/
def isBlank (c : Char) : Bool := c == ' ' || c == '\t' || c == '\n' || c == '\r'

def skipBlank (cs : List Char) : List Char := cs.dropWhile isBlank

/-- The letters of a word that are still due, and then its value. -/
def readWord (v : Value) : List Char → List Char → Reading Value
  | [], cs => .ok (v, cs)
  | _ :: _, [] => halt .valueEnds []
  | w :: ws, c :: cs => if c = w then readWord v ws cs else haltInside .noWord (c :: cs)

def digitValue (c : Char) : Nat := c.toNat - '0'.toNat

/-- Appends decimal digits to `n` as long as it stays within `limit`; also counts them. -/
def absorb (limit n taken : Nat) : List Char → Nat × Nat × List Char
  | [] => (n, taken, [])
  | c :: cs =>
    if c.isDigit && 10 * n + digitValue c ≤ limit then
      absorb limit (10 * n + digitValue c) (taken + 1) cs
    else (n, taken, c :: cs)

def startsWithDigit : List Char → Bool
  | [] => false
  | c :: _ => c.isDigit

/-- Divides by a power of ten, at most `1e308` at a time. -/
def scaleDown (x : Float) (power : Nat) : Float :=
  if power ≤ 308 || x == 0 then x / Float.ofScientific 1 false (min power 308)
  else scaleDown (x / 1e308) (power - 308)
  termination_by power
  decreasing_by simp_all; omega

/-- `significand * 10 ^ exponent` in floating point, scaled once; `none` when it is too large. -/
def scale? (significand : Nat) (exponent : Int) : Option Float :=
  let x := Float.ofNat significand
  if exponent < 0 then some (scaleDown x exponent.natAbs)
  else if x == 0 then some x
  else if 308 < exponent then none
  else
    let y := x * Float.ofScientific 1 false exponent.toNat
    if y.isFinite then some y else none

/-- The number with the given sign, or a stop at the end of its text. -/
def finishFloat (negative : Bool) (significand : Nat) (exponent : Int) (cs : List Char) :
    Reading Number :=
  match scale? significand exponent with
  | none => halt .numberOutOfRange cs
  | some x =>
    match Number.ofFloat? (if negative then -x else x) with
    | some n => .ok (n, cs)
    | none => halt .numberOutOfRange cs

/-- The largest exponent that is told apart. -/
def exponentLimit : Nat := 0x7fffffff

/-- An exponent, behind its letter. -/
def readExponent (negative : Bool) (significand : Nat) (base : Int) (cs : List Char) :
    Reading Number :=
  let (down, cs) := match cs with
    | '+' :: cs => (false, cs)
    | '-' :: cs => (true, cs)
    | cs => (false, cs)
  match cs with
  | [] => halt .valueEnds []
  | c :: rest =>
    if !c.isDigit then haltInside .badNumber (c :: rest)
    else
      let (power, _, rest) := absorb exponentLimit 0 0 (c :: rest)
      if startsWithDigit rest then
        if significand ≠ 0 && !down then haltInside .numberOutOfRange rest
        else finishFloat negative 0 0 (rest.dropWhile Char.isDigit)
      else finishFloat negative significand (if down then base - power else base + power) rest

/-- A fraction, behind its point. -/
def readFraction (negative : Bool) (significand : Nat) (base : Int) (cs : List Char) :
    Reading Number :=
  if cs.isEmpty then halt .valueEnds []
  else if !startsWithDigit cs then haltInside .badNumber cs
  else
    let (n, taken, rest) := absorb 0xffffffffffffffff significand 0 cs
    match rest.dropWhile Char.isDigit with
    | 'e' :: rest => readExponent negative n (base - taken) rest
    | 'E' :: rest => readExponent negative n (base - taken) rest
    | rest => finishFloat negative n (base - taken) rest

/-- An integer of the given sign; a negative one that fits no 64-bit word becomes a float. -/
def finishInteger (negative : Bool) (n : Nat) (cs : List Char) : Reading Number :=
  if negative && (n == 0 || 0x8000000000000000 < n) then finishFloat true n 0 cs
  else match Number.ofInt? (if negative then -(n : Int) else n) with
    | some i => .ok (i, cs)
    | none => finishFloat negative n 0 cs

/-- What follows the digits of an integer: a fraction, an exponent, or nothing. Digits that the
    significand could not take raise the exponent. -/
def readTail (negative : Bool) (n : Nat) (cs : List Char) : Reading Number :=
  let dropped := (cs.takeWhile Char.isDigit).length
  match cs.dropWhile Char.isDigit with
  | '.' :: rest => readFraction negative n dropped rest
  | 'e' :: rest => readExponent negative n dropped rest
  | 'E' :: rest => readExponent negative n dropped rest
  | rest => if dropped = 0 then finishInteger negative n rest else finishFloat negative n dropped rest

/-- A number, behind its sign. -/
def readNumber (negative : Bool) (cs : List Char) : Reading Number :=
  match cs with
  | [] => halt .valueEnds []
  | c :: rest =>
    if c = '0' then
      if startsWithDigit rest then haltInside .badNumber rest else readTail negative 0 rest
    else if c.isDigit then
      let (n, _, rest) := absorb 0xffffffffffffffff 0 0 (c :: rest)
      readTail negative n rest
    else haltInside .badNumber (c :: rest)

def hexValue? (c : Char) : Option Nat :=
  if '0' ≤ c && c ≤ '9' then some (c.toNat - '0'.toNat)
  else if 'a' ≤ c && c ≤ 'f' then some (c.toNat - 'a'.toNat + 10)
  else if 'A' ≤ c && c ≤ 'F' then some (c.toNat - 'A'.toNat + 10)
  else none

def hexWord? (a b c d : Char) : Option Nat := do
  let a ← hexValue? a
  let b ← hexValue? b
  let c ← hexValue? c
  let d ← hexValue? d
  pure (((a * 16 + b) * 16 + c) * 16 + d)

/-- Stops at a hexadecimal escape that has fewer than four digits in `cs`. -/
def haltHex {α : Type} (cs : List Char) : Reading α :=
  if byteCount cs < 4 then halt .stringEnds [] else .error ⟨.badEscape, byteCount cs - 4⟩

def unescaped? (c : Char) : Option Char :=
  if c = '"' then some '"'
  else if c = '\\' then some '\\'
  else if c = '/' then some '/'
  else if c = 'b' then some '\x08'
  else if c = 'f' then some '\x0c'
  else if c = 'n' then some '\n'
  else if c = 'r' then some '\r'
  else if c = 't' then some '\t'
  else none

/-- A string, behind its opening quote; `acc` holds the characters read so far, last first. -/
def readString (acc : List Char) : List Char → Reading (List Char)
  | [] => halt .stringEnds []
  | c :: cs =>
    if c = '"' then .ok (acc.reverse, cs)
    else if c = '\\' then
      match cs with
      | [] => halt .stringEnds []
      | 'u' :: w :: x :: y :: z :: rest =>
        match hexWord? w x y z with
        | none => haltHex (w :: x :: y :: z :: rest)
        | some n =>
          if n < 0xd800 || 0xdfff < n then readString (Char.ofNat n :: acc) rest
          else if 0xdc00 ≤ n then halt .loneSurrogate rest
          else
            match rest with
            | [] => halt .stringEnds []
            | ['\\'] => halt .stringEnds []
            | '\\' :: 'u' :: w :: x :: y :: z :: rest =>
              match hexWord? w x y z with
              | none => haltHex (w :: x :: y :: z :: rest)
              | some m =>
                if m < 0xdc00 || 0xdfff < m then halt .loneSurrogate rest
                else
                  let pair := (n - 0xd800) * 0x400 + (m - 0xdc00) + 0x10000
                  readString (Char.ofNat pair :: acc) rest
            | '\\' :: 'u' :: rest => haltHex rest
            | '\\' :: rest => haltInside .hexEscapeEnds rest
            | rest => haltInside .hexEscapeEnds rest
      | 'u' :: rest => haltHex rest
      | e :: rest =>
        match unescaped? e with
        | some c => readString (c :: acc) rest
        | none => haltInside .badEscape (e :: rest)
    else if c.toNat < 32 then haltInside .controlCharacter (c :: cs)
    else readString (c :: acc) cs

/-- At least one element and the end of the list, behind white space. -/
def readItems (read : List Char → Reading Value) : Nat → List Char → Reading (List Value)
  | 0, cs => halt .valueEnds cs
  | fuel + 1, cs => (read cs).andThen fun v cs =>
    match skipBlank cs with
    | [] => halt .listEnds []
    | c :: cs =>
      if c = ']' then .ok ([v], cs)
      else if c = ',' then
        match skipBlank cs with
        | [] => halt .valueEnds []
        | d :: cs =>
          if d = ']' then haltInside .trailingComma (d :: cs)
          else (readItems read fuel (d :: cs)).map (v :: ·)
      else haltInside .noListComma (c :: cs)

/-- A list, behind its bracket. -/
def readList (read : List Char → Reading Value) (fuel : Nat) (cs : List Char) :
    Reading (List Value) :=
  match skipBlank cs with
  | [] => halt .listEnds []
  | c :: cs => if c = ']' then .ok ([], cs) else readItems read fuel (c :: cs)

/-- A key with its colon, behind the opening quote. -/
def readKey (cs : List Char) : Reading String :=
  (readString [] cs).andThen fun key cs =>
  match skipBlank cs with
  | [] => halt .objectEnds []
  | c :: cs => if c = ':' then .ok (String.ofList key, cs) else haltInside .noColon (c :: cs)

/-- At least one member and the end of the object, behind white space. -/
def readMembers (read : List Char → Reading Value) :
    Nat → List Char → Reading (List (String × Value))
  | 0, cs => halt .valueEnds cs
  | fuel + 1, cs => (readKey cs).andThen fun key cs => (read cs).andThen fun v cs =>
    match skipBlank cs with
    | [] => halt .objectEnds []
    | c :: cs =>
      if c = '\x7d' then .ok ([(key, v)], cs)
      else if c = ',' then
        match skipBlank cs with
        | [] => halt .valueEnds []
        | d :: cs =>
          if d = '"' then (readMembers read fuel cs).map ((key, v) :: ·)
          else if d = '\x7d' then haltInside .trailingComma (d :: cs)
          else haltInside .keyNotString (d :: cs)
      else haltInside .noObjectComma (c :: cs)

/-- An object, behind its brace. -/
def readObject (read : List Char → Reading Value) (fuel : Nat) (cs : List Char) :
    Reading Members :=
  match skipBlank cs with
  | [] => halt .objectEnds []
  | c :: cs =>
    if c = '"' then (readMembers read fuel cs).map Members.ofPairs
    else if c = '\x7d' then .ok ([], cs)
    else haltInside .keyNotString (c :: cs)

/-- A value that nests at most `depth` lists and objects. -/
def readValue (fuel depth : Nat) (cs : List Char) : Reading Value :=
  match skipBlank cs with
  | [] => halt .valueEnds []
  | c :: cs =>
    if c = 'n' then readWord .null ['u', 'l', 'l'] cs
    else if c = 't' then readWord (.bool true) ['r', 'u', 'e'] cs
    else if c = 'f' then readWord (.bool false) ['a', 'l', 's', 'e'] cs
    else if c = '"' then (readString [] cs).map fun text => .str (String.ofList text)
    else if c = '[' then
      match depth with
      | 0 => haltInside .tooDeep (c :: cs)
      | depth + 1 => (readList (readValue fuel depth) fuel cs).map .arr
    else if c = '\x7b' then
      match depth with
      | 0 => haltInside .tooDeep (c :: cs)
      | depth + 1 => (readObject (readValue fuel depth) fuel cs).map .obj
    else if c = '-' then (readNumber true cs).map .num
    else if c.isDigit then (readNumber false (c :: cs)).map .num
    else haltInside .noValue (c :: cs)

/-- How many lists and objects may stand inside one another. -/
def nestingLimit : Nat := 127

/-- Reads a whole text as one value, with white space around it. -/
def Value.ofChars (cs : List Char) : Except Fault Value :=
  match readValue cs.length nestingLimit cs with
  | .error stop => .error (stop.locate cs)
  | .ok (v, rest) =>
    match skipBlank rest with
    | [] => .ok v
    | rest => .error (Stop.locate ⟨.trailingCharacters, byteCount rest - 1⟩ cs)

/-- Reads a whole text as one value, with white space around it. -/
def Value.ofText (text : String) : Except Fault Value := Value.ofChars text.toList

end Tabular.Json
