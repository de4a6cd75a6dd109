/- The layout of a report: a document some of whose parts are stored as text. -/
import Tabular.Document.Collapse
import Tabular.Document.Encoding
import Tabular.Document.Expand
import Tabular.Log

namespace Tabular.Report
open Tabular.Json Tabular.Document

/-- The places whose values are stored as text. -/
def encodedPlaces : List Place :=
  [[.key "config"],
    [.key "filters"],
    [.key "sections", .each, .key "config"],
    [.key "sections", .each, .key "filters"],
    [.key "sections", .each, .key "visualContainers", .each, .key "config"],
    [.key "sections", .each, .key "visualContainers", .each, .key "filters"],
    [.key "sections", .each, .key "visualContainers", .each, .key "query"],
    [.key "sections", .each, .key "visualContainers", .each, .key "dataTransforms"]]

/-- A layout with every encoded part opened. -/
structure Layout where
  document : Value

def Layout.ofValue (v : Value) : Layout := ⟨v.expand⟩

/-- The value that is stored: the encoded places as text, without null members in them. -/
def Layout.stored (l : Layout) : Value :=
  encodedPlaces.foldl (fun v place => collapse true place v) l.document

/-- How many values storing turns into text. -/
def Layout.encodedCount (l : Layout) : Nat :=
  encodedPlaces.foldl (fun n place => n + encodable place l.document) 0

/-- The sections, which are the pages of the report. -/
def Layout.sections (l : Layout) : List Value :=
  match l.document with
  | .obj members =>
    match Members.get? members "sections" with
    | some (.arr items) => items
    | _ => []
  | _ => []

/-- The name that a section displays. -/
def displayName : Value → Option String
  | .obj members =>
    match Members.get? members "displayName" with
    | some (.str name) => some name
    | _ => none
  | _ => none

def Layout.sectionNames (l : Layout) : List String := l.sections.filterMap displayName

def Layout.ofBytes (bytes : List UInt8) : Except EncodingFault Layout :=
  (readJson bytes).map Layout.ofValue

def Layout.toBytes (l : Layout) : List UInt8 := writeJson .compact l.stored

def Layout.readRecords (l : Layout) : List Record :=
  [⟨.debug, "read report layout with " ++ toString l.sections.length ++ " sections"⟩]

def Layout.storeRecords (l : Layout) : List Record :=
  [⟨.trace, "collapsed " ++ toString l.encodedCount ++ " layout sub-documents"⟩]

end Tabular.Report
