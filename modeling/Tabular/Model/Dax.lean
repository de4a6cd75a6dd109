/- References and expressions of the model's formula language. -/
import Tabular.Decimal.Notation
import Tabular.Text.Replace

namespace Tabular.Model
open Tabular.Decimal (Notation)

/-- A table's name between single quotes, with those inside it doubled. -/
def tableReference (table : String) : String :=
  String.ofList ('\'' :: (Text.doubled '\'' table.toList ++ ['\'']))

/-- A column of a table; closing brackets in its name are doubled. -/
def columnReference (table column : String) : String :=
  tableReference table ++ String.ofList ('[' :: (Text.doubled ']' column.toList ++ [']']))

/-- Numbers in formulas have no exponent, and a whole one has no fraction. -/
def formulaNumber : Notation := ⟨.upward, fun _ => true, false, "NaN", "inf"⟩

/-- The lines of a formula that puts a column into buckets, rounding toward zero. -/
def binLines (table column : String) (increment : Float) : List String :=
  let target := columnReference table column
  let width := formulaNumber.text increment
  ["IF(",
    "\tISBLANK(" ++ target ++ "),",
    "\tBLANK(),",
    "\tIF(",
    "\t\t" ++ target ++ " >= 0,",
    "\t\tROUNDDOWN(" ++ target ++ " / " ++ width ++ ", 0) * " ++ width ++ ",",
    "\t\tROUNDUP(" ++ target ++ " / " ++ width ++ ", 0) * " ++ width,
    "\t)",
    ")"]

/-- The quotient of a column and another, which is looked up when it is in another table. -/
def quotient (table numerator denominator : String) (other : Option String) : String :=
  let lower := match other with
    | some t =>
      if t = table then columnReference table denominator
      else "RELATED(" ++ columnReference t denominator ++ ")"
    | none => columnReference table denominator
  "DIVIDE(" ++ columnReference table numerator ++ ", " ++ lower ++ ")"

/-- The share of a table's rows in which a column is true. -/
def retentionRate (table column : String) : String :=
  let rows := tableReference table
  "COUNTROWS(FILTER(" ++ rows ++ ", " ++ columnReference table column ++ "=TRUE()))/COUNTROWS("
    ++ rows ++ ")"

end Tabular.Model
