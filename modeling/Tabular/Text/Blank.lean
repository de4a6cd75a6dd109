/- White space as Unicode defines it. -/
namespace Tabular.Text

/-- The characters of the property White_Space, as ranges of code points. -/
def blankRanges : List (Nat × Nat) :=
  [(0x09, 0x0d), (0x20, 0x20), (0x85, 0x85), (0xa0, 0xa0), (0x1680, 0x1680), (0x2000, 0x200a),
    (0x2028, 0x2029), (0x202f, 0x202f), (0x205f, 0x205f), (0x3000, 0x3000)]

def isBlankChar (c : Char) : Bool :=
  blankRanges.any fun range => range.1 ≤ c.toNat && c.toNat ≤ range.2

def isBlank (text : String) : Bool := text.toList.all isBlankChar

example : (blankRanges.map fun range => range.2 + 1 - range.1).sum = 25 := by decide

end Tabular.Text
