/- Replacing and doubling inside a text. -/
namespace Tabular.Text

/-- Replaces each occurrence of a pattern, from left to right; `skip` characters of the last
    occurrence are still to be passed over. An empty pattern occurs nowhere. -/
def replaceChars (pattern replacement : List Char) : Nat → List Char → List Char
  | _, [] => []
  | skip + 1, _ :: cs => replaceChars pattern replacement skip cs
  | 0, c :: cs =>
    if pattern ≠ [] ∧ pattern.isPrefixOf (c :: cs) then
      replacement ++ replaceChars pattern replacement (pattern.length - 1) cs
    else c :: replaceChars pattern replacement 0 cs

def replace (pattern replacement text : String) : String :=
  String.ofList (replaceChars pattern.toList replacement.toList 0 text.toList)

/-- Replaces each character `a` by `b`. -/
def swap (a b : Char) (text : String) : String :=
  String.ofList (text.toList.map fun c => if c = a then b else c)

/-- Writes each `mark` twice. -/
def doubled (mark : Char) (cs : List Char) : List Char :=
  cs.flatMap fun c => if c = mark then [mark, mark] else [c]

end Tabular.Text
