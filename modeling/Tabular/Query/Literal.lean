/- Literals of the query language. -/
import Tabular.Text.Replace

namespace Tabular.Query

/-- A text between quotes, with the quotes inside it doubled. -/
def textLiteral (text : String) : String :=
  String.ofList ('"' :: (Text.doubled '"' text.toList ++ ['"']))

/-- An item as it stands, or as a text literal. -/
def item (quote : Bool) (text : String) : String := if quote then textLiteral text else text

def listLiteral (quote : Bool) (items : List String) : String :=
  "\x7b" ++ ", ".intercalate (items.map (item quote)) ++ "\x7d"

/-- A list of lists of two items each. -/
def pairsLiteral (quoteKeys quoteValues : Bool) (pairs : List (String × String)) : String :=
  "\x7b" ++ ",".intercalate (pairs.map fun pair =>
    listLiteral false [item quoteKeys pair.1, item quoteValues pair.2]) ++ "\x7d"

end Tabular.Query
