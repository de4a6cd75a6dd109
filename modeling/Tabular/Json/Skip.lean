/- Passing over a JSON value without reading it: numbers of any size, escapes that spell no
   character and any depth are passed over too. -/
import Tabular.Json.Reader

namespace Tabular.Json

def isHex (c : Char) : Bool := (hexValue? c).isSome

/-- Passes over a string, behind its opening quote. -/
def skipString : List Char → Option (List Char)
  | [] => none
  | c :: cs =>
    if c = '"' then some cs
    else if c = '\\' then
      match cs with
      | 'u' :: w :: x :: y :: z :: rest =>
        if isHex w && isHex x && isHex y && isHex z then skipString rest else none
      | e :: rest => if (unescaped? e).isSome then skipString rest else none
      | [] => none
    else if c.toNat < 32 then none
    else skipString cs

/-- Passes over one digit or more. -/
def skipDigits (cs : List Char) : Option (List Char) :=
  if startsWithDigit cs then some (cs.dropWhile Char.isDigit) else none

/-- Passes over an exponent, if there is one. -/
def skipExponent (cs : List Char) : Option (List Char) :=
  match cs with
  | c :: rest =>
    if c = 'e' || c = 'E' then
      match rest with
      | '+' :: rest => skipDigits rest
      | '-' :: rest => skipDigits rest
      | rest => skipDigits rest
    else some cs
  | [] => some []

/-- Passes over a number, behind its sign. -/
def skipNumber (cs : List Char) : Option (List Char) := do
  let rest ← match cs with
    | '0' :: rest => if startsWithDigit rest then none else some rest
    | cs => skipDigits cs
  match rest with
  | '.' :: rest => do
    let rest ← skipDigits rest
    skipExponent rest
  | rest => skipExponent rest

def skipWord : List Char → List Char → Option (List Char)
  | [], cs => some cs
  | _ :: _, [] => none
  | w :: ws, c :: cs => if c = w then skipWord ws cs else none

/-- Passes over a key with its colon. -/
def skipKey (cs : List Char) : Option (List Char) :=
  match skipBlank cs with
  | '"' :: cs =>
    match skipString cs with
    | none => none
    | some cs =>
      match skipBlank cs with
      | ':' :: cs => some cs
      | _ => none
  | _ => none

/-- Passes over a value that is no list and no object. -/
def skipScalar : List Char → Option (List Char)
  | 'n' :: cs => skipWord ['u', 'l', 'l'] cs
  | 't' :: cs => skipWord ['r', 'u', 'e'] cs
  | 'f' :: cs => skipWord ['a', 'l', 's', 'e'] cs
  | '"' :: cs => skipString cs
  | '-' :: cs => skipNumber cs
  | c :: cs => if c.isDigit then skipNumber (c :: cs) else none
  | [] => none

/-- Passes over the rest of nested lists and objects; `within` holds the brackets that are open,
    the innermost first, and `ended` says whether a value has just been passed over. -/
def skipNested : (fuel : Nat) → (within : List Char) → (ended : Bool) → List Char →
    Option (List Char)
  | 0, _, _, _ => none
  | _ + 1, [], true, cs => some cs
  | fuel + 1, bracket :: outer, true, cs =>
    match skipBlank cs with
    | ',' :: cs =>
      if bracket = '[' then skipNested fuel (bracket :: outer) false cs
      else (skipKey cs).bind (skipNested fuel (bracket :: outer) false)
    | ']' :: cs => if bracket = '[' then skipNested fuel outer true cs else none
    | '\x7d' :: cs => if bracket = '[' then none else skipNested fuel outer true cs
    | _ => none
  | fuel + 1, within, false, cs =>
    match skipBlank cs with
    | '[' :: cs =>
      match skipBlank cs with
      | ']' :: cs => skipNested fuel within true cs
      | cs => skipNested fuel ('[' :: within) false cs
    | '\x7b' :: cs =>
      match skipBlank cs with
      | '\x7d' :: cs => skipNested fuel within true cs
      | cs => (skipKey cs).bind (skipNested fuel ('\x7b' :: within) false)
    | cs => (skipScalar cs).bind (skipNested fuel within true)

/-- Passes over a value. Each step but the last takes a character. -/
def skipValue (cs : List Char) : Option (List Char) := skipNested (2 * cs.length + 2) [] false cs

end Tabular.Json
