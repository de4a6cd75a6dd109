/- The written forms of a JSON value: compact, and indented by four spaces. -/
import Tabular.Json.Value

namespace Tabular.Json

def hexDigit (n : Nat) : Char :=
  if n < 10 then Char.ofNat ('0'.toNat + n) else Char.ofNat ('a'.toNat + (n - 10))

/-- A character inside a string: quotes, backslashes and control characters are escaped. -/
def escaped (c : Char) : List Char :=
  if c = '"' then ['\\', '"']
  else if c = '\\' then ['\\', '\\']
  else if c = '\x08' then ['\\', 'b']
  else if c = '\x0c' then ['\\', 'f']
  else if c = '\n' then ['\\', 'n']
  else if c = '\r' then ['\\', 'r']
  else if c = '\t' then ['\\', 't']
  else if c.toNat < 32 then ['\\', 'u', '0', '0', hexDigit (c.toNat / 16), hexDigit (c.toNat % 16)]
  else [c]

def quoted (text : String) : List Char :=
  '"' :: (text.toList.flatMap escaped ++ ['"'])

def Number.chars : Number → List Char
  | .int n _ => if n < 0 then '-' :: Decimal.digits n.natAbs else Decimal.digits n.natAbs
  | .float x _ => (Number.style.text x).toList

mutual

/-- A value without white space. -/
def Value.compact : Value → List Char
  | .null => ['n', 'u', 'l', 'l']
  | .bool true => ['t', 'r', 'u', 'e']
  | .bool false => ['f', 'a', 'l', 's', 'e']
  | .num n => n.chars
  | .str text => quoted text
  | .arr items => '[' :: (Value.compactItems items ++ [']'])
  | .obj members => '\x7b' :: (Value.compactMembers members ++ ['\x7d'])

def Value.compactItems : List Value → List Char
  | [] => []
  | [v] => v.compact
  | v :: w :: vs => v.compact ++ ',' :: Value.compactItems (w :: vs)

def Value.compactMembers : List (String × Value) → List Char
  | [] => []
  | [(k, v)] => quoted k ++ ':' :: v.compact
  | (k, v) :: m :: ms => quoted k ++ ':' :: (v.compact ++ ',' :: Value.compactMembers (m :: ms))

end

/-- A line break and the indentation of a level. -/
def lineBreak (level : Nat) : List Char := '\n' :: List.replicate (4 * level) ' '

mutual

/-- A value with one element or member a line; empty lists and objects stay closed. -/
def Value.pretty (level : Nat) : Value → List Char
  | .arr [] => ['[', ']']
  | .arr (v :: vs) =>
    '[' :: (lineBreak (level + 1) ++ (Value.prettyItems (level + 1) (v :: vs)
      ++ (lineBreak level ++ [']'])))
  | .obj [] => ['\x7b', '\x7d']
  | .obj (m :: ms) =>
    '\x7b' :: (lineBreak (level + 1) ++ (Value.prettyMembers (level + 1) (m :: ms)
      ++ (lineBreak level ++ ['\x7d'])))
  | v => v.compact

def Value.prettyItems (level : Nat) : List Value → List Char
  | [] => []
  | [v] => v.pretty level
  | v :: w :: vs =>
    v.pretty level ++ ',' :: (lineBreak level ++ Value.prettyItems level (w :: vs))

def Value.prettyMembers (level : Nat) : List (String × Value) → List Char
  | [] => []
  | [(k, v)] => quoted k ++ ':' :: ' ' :: v.pretty level
  | (k, v) :: m :: ms =>
    quoted k ++ ':' :: ' ' :: (v.pretty level
      ++ ',' :: (lineBreak level ++ Value.prettyMembers level (m :: ms)))

end

def Value.text (v : Value) : String := String.ofList v.compact

def Value.prettyText (v : Value) : String := String.ofList (v.pretty 0)

end Tabular.Json
