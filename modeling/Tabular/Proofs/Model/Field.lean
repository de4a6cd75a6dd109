/- When the fields of a document are read, and as what. -/
import Tabular.Model.Field
import Tabular.Proofs.Json.Keyed

namespace Tabular.Model
open Tabular.Json
variable {ms : Members} {path key : String} {ε δ α β : Type}

theorem bind_eq_ok {x : Except ε α} {f : α → Except ε β} {b : β} :
    (x >>= f) = .ok b ↔ ∃ a, x = .ok a ∧ f a = .ok b := by
  cases x with
  | ok a =>
      constructor
      · exact fun h => ⟨a, rfl, h⟩
      · rintro ⟨a', h, hf⟩
        cases h
        exact hf
  | error e =>
      constructor
      · exact fun h => nomatch h
      · rintro ⟨a', h, _⟩
        cases h

theorem bind_eq_error {x : Except ε α} {f : α → Except ε β} {e : ε} :
    (x >>= f) = .error e ↔ x = .error e ∨ ∃ a, x = .ok a ∧ f a = .error e := by
  cases x with
  | error e => simp [bind, Except.bind]
  | ok a => simp [bind, Except.bind]

theorem pure_eq_ok {a b : α} : (pure a : Except ε α) = .ok b ↔ a = b :=
  Except.ok.injEq a b ▸ Iff.rfl

theorem mapError_eq_ok {x : Except ε α} {f : ε → δ} {a : α} :
    x.mapError f = .ok a ↔ x = .ok a := by
  cases x <;> simp only [Except.mapError, Except.ok.injEq, reduceCtorEq]

theorem map_eq_ok {x : Except ε α} {f : α → β} {b : β} :
    x.map f = .ok b ↔ ∃ a, x = .ok a ∧ f a = b := by
  cases x with
  | ok a =>
      constructor
      · intro h
        cases h
        exact ⟨a, rfl, rfl⟩
      · rintro ⟨a', h, rfl⟩
        cases h
        rfl
  | error e =>
      constructor
      · exact fun h => nomatch h
      · rintro ⟨a', h, _⟩
        cases h

theorem membersOf_eq_ok {v : Value} : membersOf path v = .ok ms ↔ v = .obj ms := by
  cases v <;> simp only [membersOf, Except.ok.injEq, Value.obj.injEq, reduceCtorEq]

theorem requiredText_eq_ok {text : String} :
    requiredText ms path key = .ok text ↔ ms.read key = .str text := by
  rw [requiredText, Members.read]
  cases ms.get? key with
  | none => simp only [Option.getD_none, reduceCtorEq]
  | some v =>
      cases v <;> simp only [Option.getD_some, Except.ok.injEq, Value.str.injEq, reduceCtorEq]

theorem str_eq_ofText? {text : String} {o : Option String} :
    Value.str text = Value.ofText? o ↔ o = some text := by
  cases o with
  | none => simp only [Value.ofText?, Option.map_none, Option.getD_none, reduceCtorEq]
  | some t =>
      simp only [Value.ofText?, Option.map_some, Option.getD_some, Value.str.injEq,
        Option.some.injEq, eq_comm]

theorem null_eq_ofText? {o : Option String} : Value.null = Value.ofText? o ↔ o = none := by
  cases o <;>
    simp only [Value.ofText?, Option.map_none, Option.map_some, Option.getD_none, Option.getD_some,
      reduceCtorEq]

theorem optionalText_eq_ok {o : Option String} :
    optionalText ms path key = .ok o ↔ ms.read key = Value.ofText? o := by
  rw [optionalText, Members.read]
  cases ms.get? key with
  | none =>
      simp only [Option.getD_none, null_eq_ofText?, Except.ok.injEq, eq_comm]
  | some v =>
      cases v with
      | str text =>
          simp only [Option.getD_some, str_eq_ofText?, Except.ok.injEq]
          exact eq_comm
      | null => simp only [Option.getD_some, null_eq_ofText?, Except.ok.injEq, eq_comm]
      | _ => cases o <;> simp [Value.ofText?]

theorem optionalBool_eq_ok {o : Option Bool} :
    optionalBool ms path key = .ok o ↔ ms.read key = (o.map Value.bool).getD .null := by
  rw [optionalBool, Members.read]
  cases ms.get? key with
  | none => cases o <;> simp
  | some v => cases v <;> cases o <;> simp [eq_comm]

/-- The elements of a list, where null counts as an empty one. -/
def listed? : Value → Option (List Value)
  | .arr items => some items
  | .null => some []
  | _ => none

theorem optionalItems_eq_ok {items : List Value} :
    optionalItems ms path key = .ok items ↔ listed? (ms.read key) = some items := by
  rw [optionalItems, Members.read]
  cases ms.get? key with
  | none => simp only [Option.getD_none, listed?, Except.ok.injEq, Option.some.injEq]
  | some v =>
      cases v <;>
        simp only [Option.getD_some, listed?, Except.ok.injEq, Option.some.injEq, reduceCtorEq]

/-- A list loads when its elements do, whatever their paths. -/
theorem loadItems_eq_ok {load : String → Value → Except Fault α} {R : Value → α → Prop}
    (h : ∀ path v a, load path v = .ok a ↔ R v a) {i : Nat} {vs : List Value} {as : List α} :
    loadItems load path i vs = .ok as ↔ List.Forall₂ R vs as := by
  induction vs generalizing i as with
  | nil => simp only [loadItems, Except.ok.injEq, List.forall₂_nil_left_iff, eq_comm]
  | cons v vs ih =>
      simp only [loadItems, bind_eq_ok, pure_eq_ok, h, ih, List.forall₂_cons_left_iff]
      constructor
      · rintro ⟨a, ha, rest, hrest, rfl⟩
        exact ⟨a, rest, ha, hrest, rfl⟩
      · rintro ⟨a, rest, ha, hrest, rfl⟩
        exact ⟨a, ha, rest, hrest, rfl⟩

theorem traceItems_eq_ok {load : String → Value → Traced Fault α} {R : Value → α → Prop}
    (h : ∀ path v a, (load path v).result = .ok a ↔ R v a) {i : Nat} {vs : List Value}
    {as : List α} : (traceItems load path i vs).result = .ok as ↔ List.Forall₂ R vs as := by
  induction vs generalizing i as with
  | nil =>
      simp only [traceItems, Traced.result_pure, Except.ok.injEq, List.forall₂_nil_left_iff,
        eq_comm]
  | cons v vs ih =>
      simp only [traceItems, Traced.result_bind, Traced.result_pure, bind_eq_ok, Except.ok.injEq,
        h, ih, List.forall₂_cons_left_iff]
      constructor
      · rintro ⟨a, ha, rest, hrest, rfl⟩
        exact ⟨a, rest, ha, hrest, rfl⟩
      · rintro ⟨a, rest, ha, hrest, rfl⟩
        exact ⟨a, ha, rest, hrest, rfl⟩

/-- The lines of a text are the same without null members. -/
theorem textLines_prune (items : List Value) :
    textLines (items.map Value.prune) = textLines items := by
  rw [textLines, List.filterMap_map]
  congr 1
  apply List.filterMap_congr
  intro v _
  cases v <;> rfl

theorem storedText_prune (v : Value) : storedText v.prune = storedText v := by
  cases v with
  | arr items => rw [Value.prune_arr, storedText, textLines_prune]; rfl
  | _ => rfl

theorem textLines_strs (texts : List String) :
    textLines (texts.map Value.str) = "\n".intercalate texts := by
  rw [textLines, List.filterMap_map]
  congr 1
  exact List.filterMap_some

end Tabular.Model
