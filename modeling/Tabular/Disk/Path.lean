/- Paths by their names. -/
import Tabular.Text.Split
import Tabular.Text.Utf8

namespace Tabular.Disk

/-- The names from a folder down to what is meant. -/
abbrev Path := List String

/-- Whether a part of a path is a name: empty parts and single points are not. -/
def isName (segment : List Char) : Bool := segment != [] && segment != ['.']

/-- The parts of a path between its slashes. -/
def segments (path : List Char) : List (List Char) := Text.splitChars '/' path

/-- The names in a path. -/
def names (path : List Char) : List (List Char) := (segments path).filter isName

/-- What a path goes through: the root, the folder it starts from, the folder above, or what has a
    name. -/
inductive Component where
  | root
  | here
  | above
  | name (segment : List Char)
  deriving DecidableEq, Repr

/-- The component that a part of a path is, if it is one. -/
def Component.ofSegment? (segment : List Char) : Option Component :=
  if segment = ['.', '.'] then some .above
  else if isName segment then some (.name segment)
  else none

/-- The component in front of all others: a slash is the root, and a point is kept only there. -/
def leading (path : List Char) : List Component :=
  if path.head? = some '/' then [.root]
  else if (segments path).head? = some ['.'] then [.here]
  else []

/-- The components of a path. -/
def components (path : List Char) : List Component :=
  leading path ++ (segments path).filterMap Component.ofSegment?

/-- Whether a component leads no higher than where it starts. -/
def Component.staysBelow : Component → Bool
  | .here => true
  | .name _ => true
  | .root => false
  | .above => false

/-- Whether a path stays below the folder it is relative to. -/
def isInside (path : List Char) : Bool := (components path).all Component.staysBelow

/-- Whether a path can only mean a folder, because it does not end in a name. -/
def endsInFolder (path : List Char) : Bool := !((segments path).getLast?.any isName)

/-- The longest name there can be, in bytes. -/
def longestName : Nat := 255

/-- Whether a file can have a name. -/
def isAllowed (name : String) : Bool :=
  !name.toList.contains '\x00' && (Text.Utf8.encode name).length ≤ longestName

/-- The longest text of a path there can be, in bytes. -/
def longestPath : Nat := 4095

/-- Whether the text of a path is short enough. -/
def isShort (text : String) : Bool := (Text.Utf8.encode text).length ≤ longestPath

end Tabular.Disk
