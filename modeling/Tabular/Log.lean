/- What happens on the way, as records of rising detail. -/
namespace Tabular

inductive Level where
  | warn
  | debug
  | trace
  deriving DecidableEq, Repr

def Level.name : Level → String
  | .warn => "WARN"
  | .debug => "DEBUG"
  | .trace => "TRACE"

/-- How much detail a level asks for. -/
def Level.detail : Level → Nat
  | .warn => 0
  | .debug => 1
  | .trace => 2

structure Record where
  level : Level
  text : String
  deriving DecidableEq, Repr

/-- A computation that may fail and keeps records, also those written before it fails. -/
structure Traced (ε α : Type) where
  records : List Record
  result : Except ε α

namespace Traced
variable {ε α β : Type}

protected def pure (a : α) : Traced ε α := ⟨[], .ok a⟩

protected def bind (x : Traced ε α) (f : α → Traced ε β) : Traced ε β :=
  match x.result with
  | .ok a => ⟨x.records ++ (f a).records, (f a).result⟩
  | .error e => ⟨x.records, .error e⟩

instance : Monad (Traced ε) where
  pure := Traced.pure
  bind := Traced.bind

def lift (x : Except ε α) : Traced ε α := ⟨[], x⟩

def note (level : Level) (text : String) : Traced ε Unit := ⟨[⟨level, text⟩], .ok ()⟩

def notes (records : List Record) : Traced ε Unit := ⟨records, .ok ()⟩

/-- Names the cause of a failure anew. -/
def mapError {δ : Type} (f : ε → δ) (x : Traced ε α) : Traced δ α :=
  ⟨x.records, x.result.mapError f⟩

@[ext] theorem ext {x y : Traced ε α} (hr : x.records = y.records) (h : x.result = y.result) :
    x = y := by
  cases x
  cases y
  cases hr
  cases h
  rfl

instance : LawfulMonad (Traced ε) := LawfulMonad.mk' (Traced ε)
  (by
    intro α x
    cases h : x.result with
    | ok a =>
      ext1
      · simp only [Functor.map, Traced.bind, h, Function.comp, Traced.pure, List.append_nil, id_eq]
      · simp only [Functor.map, Traced.bind, h, Function.comp, Traced.pure, id_eq]
    | error e =>
      ext1
      · simp only [Functor.map, Traced.bind, h]
      · simp only [Functor.map, Traced.bind, h])
  (by
    intro α β a f
    rfl)
  (by
    intro α β γ x f g
    simp only [Bind.bind]
    cases h : x.result with
    | error e => simp only [Traced.bind, h]
    | ok a =>
      cases h' : (f a).result with
      | error e => simp only [Traced.bind, h, h']
      | ok b => simp only [Traced.bind, h, h', List.append_assoc])

@[simp] theorem result_pure (a : α) : (pure a : Traced ε α).result = .ok a := rfl

@[simp] theorem result_lift (x : Except ε α) : (lift x).result = x := rfl

@[simp] theorem result_note (level : Level) (text : String) :
    (note level text : Traced ε Unit).result = .ok () := rfl

@[simp] theorem result_notes (records : List Record) :
    (notes records : Traced ε Unit).result = .ok () := rfl

@[simp] theorem result_bind (x : Traced ε α) (f : α → Traced ε β) :
    (x >>= f).result = x.result >>= fun a => (f a).result := by
  cases h : x.result with
  | ok a => simp only [Bind.bind, Traced.bind, h, Except.bind]
  | error e => simp only [Bind.bind, Traced.bind, h, Except.bind]

end Traced

end Tabular
