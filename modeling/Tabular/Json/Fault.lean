/- Why and where a text is not JSON. -/
namespace Tabular.Json

inductive Cause where
  | valueEnds
  | listEnds
  | objectEnds
  | stringEnds
  | noValue
  | noWord
  | noColon
  | noListComma
  | noObjectComma
  | keyNotString
  | trailingComma
  | trailingCharacters
  | badNumber
  | numberOutOfRange
  | badEscape
  | hexEscapeEnds
  | loneSurrogate
  | controlCharacter
  | tooDeep
  deriving DecidableEq, Repr

def Cause.message : Cause → String
  | .valueEnds => "EOF while parsing a value"
  | .listEnds => "EOF while parsing a list"
  | .objectEnds => "EOF while parsing an object"
  | .stringEnds => "EOF while parsing a string"
  | .noValue => "expected value"
  | .noWord => "expected ident"
  | .noColon => "expected `:`"
  | .noListComma => "expected `,` or `]`"
  | .noObjectComma => "expected `,` or `\x7d`"
  | .keyNotString => "key must be a string"
  | .trailingComma => "trailing comma"
  | .trailingCharacters => "trailing characters"
  | .badNumber => "invalid number"
  | .numberOutOfRange => "number out of range"
  | .badEscape => "invalid escape"
  | .hexEscapeEnds => "unexpected end of hex escape"
  | .loneSurrogate => "lone leading surrogate in hex escape"
  | .controlCharacter => "control character (\\u0000-\\u001F) found while parsing a string"
  | .tooDeep => "recursion limit exceeded"

/-- A cause and the number of bytes that had not been read when it was found. -/
structure Stop where
  cause : Cause
  left : Nat
  deriving DecidableEq, Repr

/-- A cause with its line, counted from one, and the bytes of that line read so far. -/
structure Fault where
  cause : Cause
  line : Nat
  column : Nat
  deriving DecidableEq, Repr

def Fault.message (f : Fault) : String :=
  f.cause.message ++ " at line " ++ toString f.line ++ " column " ++ toString f.column

/-- The size of a text in UTF-8. -/
def byteCount (cs : List Char) : Nat := cs.foldl (fun n c => n + c.utf8Size) 0

/-- The line and column reached after `n` bytes, from a line and column already reached. -/
def position (line column : Nat) : Nat → List Char → Nat × Nat
  | n, [] => (line, column + n)
  | 0, _ :: _ => (line, column)
  | n, c :: cs =>
    if n < c.utf8Size then (line, column + n)
    else if c = '\n' then position (line + 1) 0 (n - 1) cs
    else position line (column + c.utf8Size) (n - c.utf8Size) cs

/-- The fault that a stop is in the text it was found in. -/
def Stop.locate (s : Stop) (text : List Char) : Fault :=
  let (line, column) := position 1 0 (byteCount text - s.left) text
  ⟨s.cause, line, column⟩

end Tabular.Json
