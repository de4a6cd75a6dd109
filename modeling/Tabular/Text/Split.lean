/- Cutting a text at a mark. -/
namespace Tabular.Text

/-- The parts of a text between the marks in it; a text without one is a part. -/
def splitChars (mark : Char) : List Char → List (List Char)
  | [] => [[]]
  | c :: cs =>
    if c = mark then [] :: splitChars mark cs
    else match splitChars mark cs with
      | [] => [[c]]
      | part :: parts => (c :: part) :: parts

end Tabular.Text
