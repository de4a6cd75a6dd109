/- JSON values. An object is the list of its members in written order. -/
import Tabular.Decimal.Notation

namespace Tabular.Json
open Tabular.Decimal (Notation)

/-- An integer that fits 64 bits, signed or unsigned, or a finite float. -/
inductive Number where
  | int (n : Int) (inRange : -0x8000000000000000 ≤ n ∧ n < 0x10000000000000000)
  | float (x : Float) (finite : x.isFinite = true)
  deriving DecidableEq

inductive Value where
  | null
  | bool (b : Bool)
  | num (n : Number)
  | str (text : String)
  | arr (items : List Value)
  | obj (members : List (String × Value))
  deriving Inhabited

abbrev Members := List (String × Value)

def Number.ofInt? (n : Int) : Option Number :=
  if h : -0x8000000000000000 ≤ n ∧ n < 0x10000000000000000 then some (.int n h) else none

def Number.ofFloat? (x : Float) : Option Number :=
  if h : x.isFinite = true then some (.float x h) else none

/-- A float as a document holds it: null when it is not finite. -/
def Value.ofFloat (x : Float) : Value :=
  ((Number.ofFloat? x).map Value.num).getD .null

/-- An integer as a document holds it: null when it fits no 64-bit word. -/
def Value.ofInt (n : Int) : Value :=
  ((Number.ofInt? n).map Value.num).getD .null

def Value.ofText? (text : Option String) : Value :=
  (text.map Value.str).getD .null

/-- Floats keep a point or an exponent; the point stands alone from `1e-5` up to `1e16`. -/
def Number.style : Notation :=
  ⟨.toEven, fun point => -5 < point && point ≤ 16, true, "null", "null"⟩

/-- What a value is called in messages. -/
def Value.kind : Value → String
  | .null => "null"
  | .bool _ => "boolean"
  | .num _ => "number"
  | .str _ => "string"
  | .arr _ => "array"
  | .obj _ => "object"

def Value.isNull : Value → Bool
  | .null => true
  | _ => false

def Members.get? : Members → String → Option Value
  | [], _ => none
  | (k, v) :: ms, key => if k = key then some v else Members.get? ms key

def Members.has (ms : Members) (key : String) : Bool := (ms.get? key).isSome

/-- Gives a key its value: in place when the key is present, else at the end. -/
def Members.put : Members → String → Value → Members
  | [], key, v => [(key, v)]
  | (k, w) :: ms, key, v =>
    if k = key then (k, v) :: ms else (k, w) :: Members.put ms key v

/-- Changes the value of a key that is present. -/
def Members.update : Members → String → (Value → Value) → Members
  | [], _, _ => []
  | (k, v) :: ms, key, f =>
    if k = key then (k, f v) :: ms else (k, v) :: Members.update ms key f

/-- Gives a key a new value where it is present. -/
def Members.replace (ms : Members) (key : String) (v : Value) : Members :=
  ms.update key fun _ => v

/-- The members of a list of pairs: a repeated key keeps its first place and takes its last value. -/
def Members.ofPairs (pairs : List (String × Value)) : Members :=
  pairs.foldl (fun ms kv => ms.put kv.1 kv.2) []

/-- Writes a value under a path of keys, with an object for each key on the way that holds none. -/
def Members.putPath : Members → List String → Value → Members
  | ms, [], _ => ms
  | ms, [key], v => ms.put key v
  | ms, key :: rest, v =>
    match ms.get? key with
    | some (.obj inner) => ms.put key (.obj (Members.putPath inner rest v))
    | _ => ms.put key (.obj (Members.putPath [] rest v))

def Number.agrees : Number → Number → Bool
  | .int m _, .int n _ => m == n
  | .float x _, .float y _ => x == y
  | _, _ => false

mutual

/-- Equality of documents: the order of keys does not count. -/
def Value.agrees : Value → Value → Bool
  | .null, .null => true
  | .bool a, .bool b => a == b
  | .num a, .num b => a.agrees b
  | .str a, .str b => a == b
  | .arr as, .arr bs => Value.agreeItems as bs
  | .obj as, .obj bs => as.length == bs.length && Value.agreeMembers as bs
  | _, _ => false

def Value.agreeItems : List Value → List Value → Bool
  | [], [] => true
  | a :: as, b :: bs => a.agrees b && Value.agreeItems as bs
  | _, _ => false

/-- Whether each member has an agreeing one of its key on the right. -/
def Value.agreeMembers : List (String × Value) → Members → Bool
  | [], _ => true
  | (key, a) :: as, bs =>
    (match bs.get? key with
      | some b => a.agrees b
      | none => false) && Value.agreeMembers as bs

end

end Tabular.Json
