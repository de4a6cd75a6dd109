/- What an operation makes of a state that it changes in place, also when it fails. -/
import Tabular.Model.Fault

namespace Tabular.Model
variable {σ τ α : Type}

/-- How an operation fails: its fault, and the state as it is by then. -/
structure Failure (σ : Type) where
  fault : Fault
  left : σ

/-- The state after an operation, or how the operation fails. One operation after another goes on
    with the state that the first gives. -/
abbrev Outcome (σ : Type) := Except (Failure σ) σ

/-- Something that may fail and does not touch a state, which a failure leaves as it is here. -/
def keeping (s : σ) (x : Except Fault α) : Except (Failure σ) α :=
  x.mapError fun fault => ⟨fault, s⟩

/-- What is told about an operation: of a failure, the fault. -/
def told (x : Except (Failure σ) α) : Except Fault α := x.mapError Failure.fault

/-- An operation on a part of a state as one on the whole, which has in it what is left of the
    part. -/
def inPart (whole : σ → τ) : Outcome σ → Outcome τ
  | .ok s => .ok (whole s)
  | .error failure => .error ⟨failure.fault, whole failure.left⟩

/- For callers only; no operation of the model is made with these. A caller that has no use for the
   state that a failure leaves is told the fault, and one whose operation gives no such state has
   not begun to change it. -/

instance : CoeOut (Failure σ) Fault := ⟨Failure.fault⟩

instance : CoeOut (Except (Failure σ) α) (Except Fault α) := ⟨told⟩

instance : MonadLiftT (Except (Failure σ)) (Except Fault) := ⟨told⟩

instance : Coe (σ → Except Fault σ) (σ → Outcome σ) := ⟨fun op s => keeping s (op s)⟩

end Tabular.Model
