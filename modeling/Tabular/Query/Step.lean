/- The steps of a query, and their compilation to a `let` expression. -/
import Tabular.Log
import Tabular.Query.Literal
import Tabular.Query.Naming
import Tabular.Text.Replace

namespace Tabular.Query

/-- Stands for the name of the step before, in the arguments of a step. -/
def previousMark : String := "~!PRIOR_TABLE_KEY!~"

def quotedName (name : String) : String := "#\"" ++ name ++ "\""

def previousStep : String := quotedName previousMark

/-- A call of a function with its arguments in order; an argument without a text is null.
    The name, when there is one, replaces the function's in the name of the step. Arguments that
    the function does not have are kept beside, the latest first, and take no part in the call. -/
structure Step where
  function : String
  arguments : List (String × Option String)
  name : Option String
  others : List (String × Option String) := []
  deriving DecidableEq, Repr

def Step.argument? (step : Step) (key : String) : Option String :=
  ((step.arguments ++ step.others).lookup key).join

/-- Sets an argument, which is kept beside the others if the function does not have it. -/
def Step.setArgument (step : Step) (key : String) (text : Option String) : Step :=
  { step with
    arguments := step.arguments.map fun arg => if arg.1 = key then (key, text) else arg
    others := if step.arguments.any fun arg => arg.1 == key then step.others
      else (key, text) :: step.others }

/-- The name before numbering. -/
def Step.baseName (step : Step) : String := step.name.getD (Text.swap '.' ' ' step.function)

/-- An argument with the step before filled in. -/
def renderArgument (previous : String) : Option String → String
  | some text => " " ++ Text.replace previousMark previous text
  | none => " null"

/-- The call, with the step before filled in. -/
def Step.call (step : Step) (previous : String) : String :=
  step.function ++ "(" ++ ",".intercalate (step.arguments.map fun arg => renderArgument previous arg.2)
    ++ ")"

def Step.binding (step : Step) (name previous : String) : String :=
  quotedName name ++ " = " ++ step.call previous

/-- Steps in the order in which they are evaluated. -/
abbrev Chain := List Step

def Chain.names (chain : Chain) (numbering : Numbering) : List String :=
  numbering.names (chain.map Step.baseName)

/-- One line for each named step, with a comma after all but the last. -/
def bindingLines (previous : String) : List (Step × String) → List String
  | [] => []
  | [(step, name)] => ["\t" ++ step.binding name previous]
  | (step, name) :: next :: rest =>
    ("\t" ++ step.binding name previous ++ ",") :: bindingLines name (next :: rest)

/-- The line that names the result: the last step. -/
def resultLine (names : List String) : List String :=
  match names.getLast? with
  | some name => ["\t" ++ quotedName name]
  | none => []

def Chain.lines (chain : Chain) (numbering : Numbering) : List String :=
  let names := chain.names numbering
  "let" :: (bindingLines "" (chain.zip names) ++ "in" :: resultLine names)

def Chain.text (chain : Chain) (numbering : Numbering) : String :=
  "\n".intercalate (chain.lines numbering)

/-- The records of one rendering: which step got which name. -/
def Chain.records (chain : Chain) (numbering : Numbering) : List Record :=
  (chain.zip (chain.names numbering)).mapIdx fun i step =>
    ⟨.trace, "step " ++ toString i ++ ": " ++ step.1.function ++ " -> " ++ step.2⟩

end Tabular.Query
