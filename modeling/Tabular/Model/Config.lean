/- Settings that hold for a whole model. -/
import Tabular.Json.Reader
import Tabular.Json.Skip
import Tabular.Model.DataType
import Tabular.Query.Naming
import Tabular.Text.Blank

namespace Tabular.Model
open Tabular.Json Tabular.Query

structure Config where
  compatibilityLevel : UInt32
  culture : String
  sourceQueryCulture : String
  dataSourceVersion : String
  desktopVersion : String
  numbering : Numbering
  deriving DecidableEq, Repr

def Config.default : Config where
  compatibilityLevel := 1550
  culture := "en-US"
  sourceQueryCulture := "en-US"
  dataSourceVersion := "powerBI_V3"
  desktopVersion := "2.115.842.0"
  numbering := .sequential

def Config.legacy : Config := { Config.default with numbering := .legacy }

inductive ConfigFault where
  | zeroCompatibilityLevel
  | emptyField (name : String)
  deriving DecidableEq, Repr

def ConfigFault.code (_ : ConfigFault) : String := "PBIT_CONFIG_001"

def ConfigFault.message (f : ConfigFault) : String :=
  "[" ++ f.code ++ "] " ++ match f with
    | .zeroCompatibilityLevel => "compatibility_level must be greater than zero"
    | .emptyField name => name ++ " must not be empty"

/-- The first thing that makes a configuration invalid, if there is one. -/
def Config.fault? (c : Config) : Option ConfigFault :=
  if c.compatibilityLevel = 0 then some .zeroCompatibilityLevel
  else if Text.isBlank c.culture then some (.emptyField "culture")
  else if Text.isBlank c.sourceQueryCulture then some (.emptyField "source_query_culture")
  else if Text.isBlank c.dataSourceVersion then some (.emptyField "default_data_source_version")
  else none

def Config.toValue (c : Config) : Value :=
  .obj
    [("compatibility_level", Value.ofInt c.compatibilityLevel.toNat),
      ("culture", .str c.culture),
      ("source_query_culture", .str c.sourceQueryCulture),
      ("default_data_source_version", .str c.dataSourceVersion),
      ("desktop_version", .str c.desktopVersion),
      ("step_numbering", .str c.numbering.name)]

inductive Field where
  | compatibilityLevel
  | culture
  | sourceQueryCulture
  | dataSourceVersion
  | desktopVersion
  | stepNumbering
  deriving DecidableEq, Repr

def Field.all : List Field :=
  [.compatibilityLevel, .culture, .sourceQueryCulture, .dataSourceVersion, .desktopVersion,
    .stepNumbering]

/-- The field of a key; the version of the data source has a short name as well. -/
def Field.ofKey? (key : String) : Option Field :=
  if key = "compatibility_level" then some .compatibilityLevel
  else if key = "culture" then some .culture
  else if key = "source_query_culture" then some .sourceQueryCulture
  else if key = "default_data_source_version" then some .dataSourceVersion
  else if key = "data_source_version" then some .dataSourceVersion
  else if key = "desktop_version" then some .desktopVersion
  else if key = "step_numbering" then some .stepNumbering
  else none

inductive Setting where
  | compatibilityLevel (level : UInt32)
  | culture (text : String)
  | sourceQueryCulture (text : String)
  | dataSourceVersion (text : String)
  | desktopVersion (text : String)
  | stepNumbering (numbering : Numbering)
  deriving DecidableEq, Repr

def Setting.field : Setting → Field
  | .compatibilityLevel _ => .compatibilityLevel
  | .culture _ => .culture
  | .sourceQueryCulture _ => .sourceQueryCulture
  | .dataSourceVersion _ => .dataSourceVersion
  | .desktopVersion _ => .desktopVersion
  | .stepNumbering _ => .stepNumbering

def word? : Value → Option UInt32
  | .num (.int n _) => if 0 ≤ n ∧ n < 0x100000000 then some (UInt32.ofNat n.toNat) else none
  | _ => none

def text? : Value → Option String
  | .str text => some text
  | _ => none

def Setting.ofValue? (field : Field) (v : Value) : Option Setting :=
  match field with
  | .compatibilityLevel => (word? v).map .compatibilityLevel
  | .culture => (text? v).map .culture
  | .sourceQueryCulture => (text? v).map .sourceQueryCulture
  | .dataSourceVersion => (text? v).map .dataSourceVersion
  | .desktopVersion => (text? v).map .desktopVersion
  | .stepNumbering => ((variantName? v).bind Numbering.ofName?).map .stepNumbering

def Config.set (c : Config) : Setting → Config
  | .compatibilityLevel level => { c with compatibilityLevel := level }
  | .culture text => { c with culture := text }
  | .sourceQueryCulture text => { c with sourceQueryCulture := text }
  | .dataSourceVersion text => { c with dataSourceVersion := text }
  | .desktopVersion text => { c with desktopVersion := text }
  | .stepNumbering numbering => { c with numbering := numbering }

def Config.ofSettings (settings : List Setting) : Config :=
  settings.foldl Config.set Config.default

/-- The defaults under settings in order, if the result is valid. -/
def Config.build (settings : List Setting) : Except ConfigFault Config :=
  match (Config.ofSettings settings).fault? with
  | some fault => .error fault
  | none => .ok (Config.ofSettings settings)

/-- The configuration of settings that give no field twice. -/
def Config.ofSettings? (settings : List Setting) : Option Config :=
  if (settings.map Setting.field).Nodup then some (Config.ofSettings settings) else none

/-- The settings of an object's members; other keys than those of fields do not count. -/
def settingsOfMembers : List (String × Value) → Option (List Setting)
  | [] => some []
  | (key, v) :: ms =>
    match Field.ofKey? key with
    | none => settingsOfMembers ms
    | some field => do
      let setting ← Setting.ofValue? field v
      let rest ← settingsOfMembers ms
      pure (setting :: rest)

/-- The settings of values for fields in their order. -/
def settingsOfItems : List Field → List Value → Option (List Setting)
  | _, [] => some []
  | [], _ :: _ => none
  | field :: fields, v :: vs => do
    let setting ← Setting.ofValue? field v
    let rest ← settingsOfItems fields vs
    pure (setting :: rest)

/-- The configuration that a document holds: an object, or a list of values in field order. -/
def Config.ofValue? : Value → Option Config
  | .obj members => (settingsOfMembers members).bind Config.ofSettings?
  | .arr items => (settingsOfItems Field.all items).bind Config.ofSettings?
  | _ => none

/-- A value that may name a variant by an object with one key. -/
def readVariant (fuel : Nat) (cs : List Char) : Reading Value :=
  match skipBlank cs with
  | '\x7b' :: rest =>
    match skipBlank rest with
    | '"' :: rest =>
      (readMembers (readValue fuel nestingLimit) fuel rest).map .obj
    | rest => haltInside .keyNotString rest
  | rest => readValue fuel nestingLimit rest

/-- The setting that a text gives a field. -/
def readSetting (fuel : Nat) (field : Field) (cs : List Char) : Option (Setting × List Char) :=
  let value := match field with
    | .stepNumbering => readVariant fuel cs
    | _ => readValue fuel nestingLimit cs
  match value with
  | .ok (v, rest) => (Setting.ofValue? field v).map fun setting => (setting, rest)
  | .error _ => none

/-- The settings of an object, behind the opening quote of a key. -/
def readSettings (fuel : Nat) : Nat → List Char → Option (List Setting × List Char)
  | 0, _ => none
  | more + 1, cs =>
    match readKey cs with
    | .error _ => none
    | .ok (key, cs) => do
      let (setting, cs) ← match Field.ofKey? key with
        | some field => (readSetting fuel field cs).map fun read => ([read.1], read.2)
        | none => (skipValue cs).map fun rest => ([], rest)
      match skipBlank cs with
      | '\x7d' :: cs => pure (setting, cs)
      | ',' :: cs =>
        match skipBlank cs with
        | '"' :: cs => do
          let (rest, cs) ← readSettings fuel more cs
          pure (setting ++ rest, cs)
        | _ => none
      | _ => none

/-- The settings of a list, in front of its next element. -/
def readSettingItems (fuel : Nat) : List Field → List Char → Option (List Setting × List Char)
  | [], _ => none
  | field :: fields, cs => do
    let (setting, cs) ← readSetting fuel field cs
    match skipBlank cs with
    | ']' :: cs => pure ([setting], cs)
    | ',' :: cs => do
      let (rest, cs) ← readSettingItems fuel fields cs
      pure (setting :: rest, cs)
    | _ => none

/-- Reads a configuration from text. A field must not be given twice, and the values of keys
    that are no fields are passed over unread. -/
def Config.ofText? (text : String) : Option Config := do
  let cs := text.toList
  let (settings, rest) ← match skipBlank cs with
    | '\x7b' :: cs =>
      match skipBlank cs with
      | '\x7d' :: cs => some ([], cs)
      | '"' :: cs => readSettings text.length text.length cs
      | _ => none
    | '[' :: cs =>
      match skipBlank cs with
      | ']' :: cs => some ([], cs)
      | cs => readSettingItems text.length Field.all cs
    | _ => none
  if (skipBlank rest).isEmpty then Config.ofSettings? settings else none

end Tabular.Model
