/- The hidden calendar table that designers add to a model. -/
import Tabular.Model.Column

namespace Tabular.Model
open Tabular.Json

def dateTableName : String := "DateTableTemplate_5975b0d6-7e08-4fc8-b30a-36e3eba94689"

/-- A note on a document. -/
def remark (name value : String) : Value :=
  .obj [("name", .str name), ("value", .str value)]

/-- A calculated column of the calendar, with one field of its own. -/
def calendarColumn (name type formula tag category template : String) (own : String × String) :
    Value :=
  .obj
    [("type", .str "calculated"),
      ("name", .str name),
      ("dataType", .str type),
      ("isDataTypeInferred", .bool true),
      ("isHidden", .bool true),
      ("expression", .str formula),
      ("lineageTag", .str tag),
      ("dataCategory", .str category),
      ("summarizeBy", .str "none"),
      ("attributeHierarchy", readyState),
      ("annotations", .arr
        [remark "SummarizationSetBy" "User", remark "TemplateId" template]),
      (own.1, .str own.2)]

/-- The dates that the other columns are computed from. -/
def dateColumn : Value :=
  .obj
    [("type", .str "calculatedTableColumn"),
      ("name", .str "Date"),
      ("dataType", .str "dateTime"),
      ("isNameInferred", .bool true),
      ("isDataTypeInferred", .bool true),
      ("isHidden", .bool true),
      ("sourceColumn", .str "[Date]"),
      ("formatString", .str "General Date"),
      ("lineageTag", .str "889a51f9-99f0-4aa3-9e63-278d77d00ee1"),
      ("dataCategory", .str "PaddedDateTableDates"),
      ("summarizeBy", .str "none"),
      ("attributeHierarchy", readyState),
      ("annotations", .arr [remark "SummarizationSetBy" "User"])]

/-- A column of digits. -/
def wholeNumber : String × String := ("formatString", "0")

def calendarColumns : List Value :=
  [.obj Column.rowNumber.stored,
    dateColumn,
    calendarColumn "Year" "int64" "YEAR([Date])" "94dfb75d-4ba9-4b90-b79f-ebfe9cff087b"
      "Years" "Year" wholeNumber,
    calendarColumn "MonthNo" "int64" "MONTH([Date])" "98761376-1dab-48da-b6ff-b5851336dc89"
      "MonthOfYear" "MonthNumber" wholeNumber,
    calendarColumn "Month" "string" "FORMAT([Date], \"MMMM\")"
      "5b5f8789-885b-493c-a768-416efed357a8" "Months" "Month" ("sortByColumn", "MonthNo"),
    calendarColumn "QuarterNo" "int64" "INT(([MonthNo] + 2) / 3)"
      "30244721-a2b3-4014-81b5-bf95d8f344da" "QuarterOfYear" "QuarterNumber" wholeNumber,
    calendarColumn "Quarter" "string" "\"Qtr \" & [QuarterNo]"
      "5de8ea71-ebc4-4fff-9b6d-3f3e00bf3d20" "Quarters" "Quarter" ("sortByColumn", "QuarterNo"),
    calendarColumn "Day" "int64" "DAY([Date])" "9070e261-708c-4cb3-96cd-826a7cda38e8"
      "DayOfMonth" "Day" wholeNumber]

/-- A level of the calendar's hierarchy. -/
def calendarLevel (name : String) (ordinal : Int) (tag : String) : Value :=
  .obj [("name", .str name), ("ordinal", Value.ofInt ordinal), ("column", .str name),
    ("lineageTag", .str tag)]

def dateTable : Value :=
  .obj
    [("name", .str dateTableName),
      ("isHidden", .bool true),
      ("isPrivate", .bool true),
      ("lineageTag", .str "e21631ac-035c-440b-85ef-3259718d8da4"),
      ("columns", .arr calendarColumns),
      ("partitions", .arr [.obj
        [("name", .str (dateTableName ++ "-1d04c13d-f7a1-4dae-aa9a-1a3a3400b609")),
          ("mode", .str "import"),
          ("state", .str "ready"),
          ("source", .obj
            [("type", .str "calculated"),
              ("expression", .str "Calendar(Date(2015,1,1), Date(2015,1,1))")])]]),
      ("hierarchies", .arr [.obj
        [("name", .str "Date Hierarchy"),
          ("lineageTag", .str "bbe0ed27-e8ef-4e76-8a14-85f0fcb1d594"),
          ("state", .str "ready"),
          ("levels", .arr
            [calendarLevel "Year" 0 "08329d53-fa1d-4986-8a37-f3873dee4e07",
              calendarLevel "Quarter" 1 "e5d11cdc-593c-43de-996b-b6040b2a678a",
              calendarLevel "Month" 2 "9e3fbfab-5920-462c-a4af-236b9952ac84",
              calendarLevel "Day" 3 "1b872e0f-440e-4e03-a2b4-4e87841b1489"]),
          ("annotations", .arr [remark "TemplateId" "DateHierarchy"])]]),
      ("annotations", .arr
        [remark "__PBI_TemplateDateTable" "True", remark "DefaultItem" "DateHierarchy"])]

end Tabular.Model
