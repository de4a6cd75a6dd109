/- Unique names for the steps of a query. -/
namespace Tabular.Query

inductive Numbering where
  | sequential
  | legacy
  deriving DecidableEq, Repr

def Numbering.name : Numbering → String
  | .sequential => "sequential"
  | .legacy => "legacy"

def Numbering.ofName? (name : String) : Option Numbering :=
  if name = "sequential" then some .sequential
  else if name = "legacy" then some .legacy
  else none

/-- The suffix of the `n`-th name of a base: legacy numbering leaves out 2. -/
def Numbering.suffix : Numbering → Nat → Nat
  | .sequential, n => n
  | .legacy, n => if n = 1 then 1 else n + 1

/-- The `n`-th name of a base. -/
def Numbering.label (numbering : Numbering) (base : String) (n : Nat) : String :=
  base ++ String.ofList (Nat.toDigits 10 (numbering.suffix n))

/-- The names given so far, and how far the counter of each base has come. -/
structure Namer where
  counts : List (String × Nat)
  taken : List String

def Namer.empty : Namer := ⟨[], []⟩

def Namer.count (namer : Namer) (base : String) : Nat := (namer.counts.lookup base).getD 0

/-- The first count from `n` on whose name is free, looking at `tries` of them. -/
def Numbering.firstFree (numbering : Numbering) (base : String) (taken : List String) :
    (tries n : Nat) → Nat
  | 0, n => n
  | tries + 1, n =>
    if taken.contains (numbering.label base n) then numbering.firstFree base taken tries (n + 1)
    else n

/-- Gives a base its next free name. Of one more name than are taken, one is free. -/
def Namer.assign (namer : Namer) (numbering : Numbering) (base : String) : String × Namer :=
  let n := numbering.firstFree base namer.taken namer.taken.length (namer.count base + 1)
  let name := numbering.label base n
  (name, ⟨(base, n) :: namer.counts, name :: namer.taken⟩)

def Namer.assignAll (namer : Namer) (numbering : Numbering) : List String → List String
  | [] => []
  | base :: bases =>
    let (name, namer) := namer.assign numbering base
    name :: namer.assignAll numbering bases

/-- Names for the steps of a query with the given base names. -/
def Numbering.names (numbering : Numbering) (bases : List String) : List String :=
  Namer.empty.assignAll numbering bases

end Tabular.Query
