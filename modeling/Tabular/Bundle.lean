/- A template that is open for editing: its model, its layout and its other parts. -/
import Tabular.Container
import Tabular.Model.Graph
import Tabular.Report.Layout

namespace Tabular
open Tabular.Archive (Part Medium)
open Tabular.Document (EncodingFault)

inductive BundleFault where
  | container (fault : ContainerFault)
  | encoding (fault : EncodingFault)
  | model (fault : Model.Fault)
  deriving DecidableEq, Repr

def BundleFault.code : BundleFault → String
  | .container fault => fault.code
  | .encoding fault => fault.code
  | .model fault => fault.code

def BundleFault.message? : BundleFault → Option String
  | .container fault => fault.message?
  | .encoding fault => some fault.message
  | .model fault => some fault.message

/-- A template; `parts` are as they were read, in the order of the archive. -/
structure Bundle where
  schema : Model.Graph
  layout : Option Report.Layout
  parts : List Part

/-- The bytes of the first part of a name. -/
def partBytes? (parts : List Part) (name : String) : Option (List UInt8) := parts.lookup name

namespace Bundle

/-- Reads the layout among parts, if there is one. -/
def layoutOf (parts : List Part) : Traced BundleFault (Option Report.Layout) :=
  match partBytes? parts layoutPart with
  | none => pure none
  | some bytes => do
    let layout ← Traced.lift ((Report.Layout.ofBytes bytes).mapError .encoding)
    Traced.notes layout.readRecords
    pure (some layout)

/-- The template that some parts make up; `id` is for a model without a name. -/
def ofParts (id : String) (config : Model.Config) (parts : List Part) :
    Traced BundleFault Bundle := do
  let bytes ← Traced.lift ((partBytes? parts schemaPart).elim
    (.error (.container (.missingPart schemaPart))) .ok)
  let document ← Traced.lift ((Document.readJson bytes).mapError .encoding)
  let schema ← (Model.Graph.load id config document).mapError .model
  let layout ← layoutOf parts
  Traced.note .debug ("opened bundle: " ++ toString parts.length ++ " parts, schema "
    ++ Model.named schema.id ++ ", layout " ++ if layout.isSome then "present" else "absent")
  pure ⟨schema, layout, parts⟩

/-- Opens the template in the bytes that a medium holds. -/
def ofBytes (id : String) (config : Model.Config) (medium : Medium) (bytes : List UInt8) :
    Traced BundleFault Bundle := do
  let parts ← (Container.partsOf medium bytes).mapError .container
  ofParts id config parts

def schemaBytes (b : Bundle) : List UInt8 := Document.writeJson .pretty b.schema.dump

def layoutBytes? (b : Bundle) : Option (List UInt8) := b.layout.map Report.Layout.toBytes

/-- A part with its bytes written anew, if it holds the model or the layout. -/
def renew (b : Bundle) (p : Part) : Part :=
  if p.1 = schemaPart then (p.1, b.schemaBytes)
  else if p.1 = layoutPart then (p.1, b.layoutBytes?.getD p.2)
  else p

/-- A part to add behind the others, unless they have it. -/
def added (parts : List Part) (name : String) (bytes : Option (List UInt8)) : List Part :=
  match partBytes? parts name, bytes with
  | none, some bytes => [(name, bytes)]
  | _, _ => []

/-- The parts to write: those that were read, with the model and the layout written anew. -/
def toParts (b : Bundle) : List Part :=
  b.parts.map b.renew ++ added b.parts schemaPart (some b.schemaBytes)
    ++ added b.parts layoutPart b.layoutBytes?

def partRecords (b : Bundle) : List Record :=
  b.schema.dumpRecords ++ (b.layout.map Report.Layout.storeRecords).getD []

def toBytes (b : Bundle) : List UInt8 := Archive.write b.toParts

def saveRecords (b : Bundle) : List Record := b.partRecords ++ Container.writeRecords b.toParts

end Bundle

end Tabular
