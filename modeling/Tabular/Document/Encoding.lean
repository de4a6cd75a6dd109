/- JSON documents as bytes: UTF-16, low byte first. -/
import Tabular.Json.Printer
import Tabular.Json.Reader
import Tabular.Text.Utf16

namespace Tabular.Document
open Tabular.Json Tabular.Text

/-- Why bytes are not a document. -/
inductive EncodingFault where
  | oddLength (length : Nat)
  | invalidText
  | invalidJson (fault : Json.Fault)
  deriving DecidableEq, Repr

def EncodingFault.code : EncodingFault → String
  | .oddLength _ => "PBIT_ENCODING_001"
  | .invalidText => "PBIT_ENCODING_002"
  | .invalidJson _ => "PBIT_ENCODING_003"

def EncodingFault.message (f : EncodingFault) : String :=
  "[" ++ f.code ++ "] " ++ match f with
    | .oddLength length => "invalid UTF-16 byte length: " ++ toString length
    | .invalidText => "invalid UTF-16 text"
    | .invalidJson fault => "JSON parse error: " ++ fault.message

/-- The text of bytes, with or without a byte-order mark. -/
def decodeText (bytes : List UInt8) : Except EncodingFault String :=
  let body := Utf16.dropMark bytes
  if body.length % 2 = 1 then .error (.oddLength bytes.length)
  else match Utf16.decodeUnits? [] body with
    | some cs => .ok (String.ofList cs)
    | none => .error .invalidText

/-- Takes a byte-order mark off the front of a text. -/
def dropMark : List Char → List Char
  | '\ufeff' :: cs => cs
  | cs => cs

/-- Reads a document. -/
def readJson (bytes : List UInt8) : Except EncodingFault Value :=
  match decodeText bytes with
  | .error fault => .error fault
  | .ok text => (Value.ofChars (dropMark text.toList)).mapError .invalidJson

/-- How a document is laid out when written. -/
inductive Style where
  | pretty
  | compact
  deriving DecidableEq

/-- Writes a document. -/
def writeJson (style : Style) (v : Value) : List UInt8 :=
  Utf16.encode (match style with
    | .pretty => v.prettyText
    | .compact => v.text)

end Tabular.Document
