/- Codes of variable length, each given by the lengths of its code words. -/
namespace Tabular.Archive

/-- What is wrong with deflated data: it ends before its last block does, or it breaks a rule. -/
inductive DeflateFault where
  | incomplete
  | corrupt
  deriving DecidableEq, Repr

def DeflateFault.text : DeflateFault → String
  | .incomplete => "incomplete deflate stream"
  | .corrupt => "corrupt deflate stream"

/-- A code: how many words there are of each length from one bit up to the longest, and the symbols
    in the order of their words, shorter ones first. -/
structure Code where
  counts : List Nat
  symbols : Array Nat

def countLength (lengths : List Nat) (n : Nat) : Nat := lengths.countP (· == n)

/-- The symbols whose words have a length, in rising order. -/
def symbolsOf (lengths : List Nat) (n : Nat) : List Nat :=
  (lengths.zipIdx.filter fun p => p.1 == n).map Prod.snd

/-- The code of some lengths, where 0 is a symbol without a word. -/
def Code.ofLengths (lengths : List Nat) : Code :=
  let widths := (List.range (lengths.foldl max 1)).map (· + 1)
  ⟨widths.map (countLength lengths), (widths.flatMap (symbolsOf lengths)).toArray⟩

/-- How many strings of bits are left that begin with no word, where `free` are left one bit
    before; none if there are more words than strings. -/
def room? : Nat → List Nat → Option Nat
  | free, [] => some free
  | free, count :: counts => if 2 * free < count then none else room? (2 * free - count) counts

/-- Whether each string of bits begins with exactly one word. -/
def Code.isFull (c : Code) : Bool := room? 1 c.counts == some 0

/-- Whether there is one word at most, and it is a single bit. -/
def Code.isBare (c : Code) : Bool := c.counts == [0] || c.counts == [1]

/-- Reads a word bit by bit: `word` are the bits so far, `first` is the least word of their length,
    and `index` the place of its symbol. -/
def readSymbol (symbols : Array Nat) (word first index : Nat) :
    List Nat → List Bool → Except DeflateFault (Nat × List Bool)
  | [], _ => .error .corrupt
  | _ :: _, [] => .error .incomplete
  | count :: counts, bit :: bits =>
    let word := 2 * word + bit.toNat
    if word < first + count then
      match symbols[index + (word - first)]? with
      | some s => .ok (s, bits)
      | none => .error .corrupt
    else readSymbol symbols word (2 * (first + count)) (index + count) counts bits

def Code.read (c : Code) (bits : List Bool) : Except DeflateFault (Nat × List Bool) :=
  readSymbol c.symbols 0 0 0 c.counts bits

/-- The codes of a block that brings none. -/
def fixedLiterals : Code :=
  Code.ofLengths (List.replicate 144 8 ++ List.replicate 112 9 ++ List.replicate 24 7 ++
    List.replicate 8 8)

def fixedDistances : Code := Code.ofLengths (List.replicate 32 5)

end Tabular.Archive
