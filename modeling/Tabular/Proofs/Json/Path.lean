/- Paths into a value, through the keys of objects and the indices of lists. -/
import Tabular.Proofs.Json.Nesting

namespace Tabular.Json
variable {P : Value → Prop} {ms : Members} {items : List Value} {name : String} {i : Nat}
  {path rest : List Branch} {v w : Value}

/-- A step from an object or a list to a value that it holds. -/
inductive Branch where
  | key (name : String)
  | item (i : Nat)

/-- The value at a path, if there is one. -/
def Value.at? : Value → List Branch → Option Value
  | v, [] => some v
  | .obj ms, .key name :: rest => (Members.get? ms name).bind fun w => w.at? rest
  | .arr items, .item i :: rest => items[i]?.bind fun w => w.at? rest
  | _, _ :: _ => none

/-- What a value shows before one looks into it: a leaf as it is, of an object the keys, and of a
list the length. -/
def Value.outline : Value → Value
  | .obj ms => .obj ((Members.keys ms).map fun key => (key, .null))
  | .arr items => .arr (List.replicate items.length .null)
  | v => v

@[simp] theorem Value.at?_nil (v : Value) : v.at? [] = some v := by
  rw [Value.at?.eq_def]

theorem Value.at?_key (ms : Members) (name : String) (rest : List Branch) :
    (Value.obj ms).at? (.key name :: rest) = (Members.get? ms name).bind fun w => w.at? rest := rfl

theorem Value.at?_item (items : List Value) (i : Nat) (rest : List Branch) :
    (Value.arr items).at? (.item i :: rest) = items[i]?.bind fun w => w.at? rest := rfl

/-- Nothing stands below null. -/
theorem Value.at?_null_cons (branch : Branch) (rest : List Branch) :
    Value.null.at? (branch :: rest) = none := by
  cases branch <;> rfl

theorem Value.at?_append (path rest : List Branch) (v : Value) :
    v.at? (path ++ rest) = (v.at? path).bind fun w => w.at? rest := by
  induction path generalizing v with
  | nil => rw [List.nil_append, Value.at?_nil, Option.bind_some]
  | cons branch path ih => cases branch with
    | key name => cases v with
      | obj ms =>
          rw [List.cons_append, Value.at?_key, Value.at?_key, Option.bind_assoc]
          congr 1
          exact funext ih
      | _ => rfl
    | item i => cases v with
      | arr items =>
          rw [List.cons_append, Value.at?_item, Value.at?_item, Option.bind_assoc]
          congr 1
          exact funext ih
      | _ => rfl

theorem Value.at?_cons (branch : Branch) (rest : List Branch) (v : Value) :
    v.at? (branch :: rest) = (v.at? [branch]).bind fun w => w.at? rest :=
  Value.at?_append [branch] rest v

theorem Value.at?_cons_eq_some {branch : Branch} : v.at? (branch :: rest) = some w ↔
    ∃ u, v.at? [branch] = some u ∧ u.at? rest = some w := by
  rw [Value.at?_cons, Option.bind_eq_some_iff]

theorem Value.at?_key_eq_some : (Value.obj ms).at? (.key name :: rest) = some w ↔
    ∃ v, Members.get? ms name = some v ∧ v.at? rest = some w := by
  rw [Value.at?_key, Option.bind_eq_some_iff]

theorem Value.at?_item_eq_some : (Value.arr items).at? (.item i :: rest) = some w ↔
    ∃ v, items[i]? = some v ∧ v.at? rest = some w := by
  rw [Value.at?_item, Option.bind_eq_some_iff]

theorem Value.ne_null_of_at? (h : v.at? path = some w) (hw : w ≠ .null) : v ≠ .null := by
  rintro rfl
  cases path with
  | nil =>
      rw [Value.at?_nil, Option.some.injEq] at h
      exact hw h.symm
  | cons branch rest =>
      rw [Value.at?_null_cons] at h
      cases h

/-- Induction along a path that leads to a value. -/
theorem Value.at?_ind {motive : (v : Value) → (path : List Branch) → v.at? path = some w → Prop}
    (here : motive w [] w.at?_nil)
    (key : ∀ (ms : Members) (name : String) (rest : List Branch) (u : Value)
      (hget : Members.get? ms name = some u) (hu : u.at? rest = some w), motive u rest hu →
      motive (.obj ms) (.key name :: rest) (Value.at?_key_eq_some.mpr ⟨u, hget, hu⟩))
    (item : ∀ (items : List Value) (i : Nat) (rest : List Branch) (u : Value)
      (hget : items[i]? = some u) (hu : u.at? rest = some w), motive u rest hu →
      motive (.arr items) (.item i :: rest) (Value.at?_item_eq_some.mpr ⟨u, hget, hu⟩))
    (v : Value) (path : List Branch) (h : v.at? path = some w) : motive v path h := by
  induction path generalizing v with
  | nil =>
      cases h
      exact here
  | cons branch rest ih => cases branch with
    | key name => cases v with
      | obj ms =>
          obtain ⟨u, hget, hu⟩ := Value.at?_key_eq_some.mp h
          exact key ms name rest u hget hu (ih u hu)
      | _ => cases h
    | item i => cases v with
      | arr items =>
          obtain ⟨u, hget, hu⟩ := Value.at?_item_eq_some.mp h
          exact item items i rest u hget hu (ih u hu)
      | _ => cases h

theorem Value.Leaves.at? (hv : v.Leaves P) (h : v.at? path = some w) : w.Leaves P := by
  induction v, path, h using Value.at?_ind with
  | here => exact hv
  | key ms name rest u hget _ ih =>
      exact ih (Value.leaves_obj.mp hv _ (Members.mem_of_get? hget))
  | item items i rest u hget _ ih =>
      exact ih (Value.leaves_arr.mp hv _ (List.mem_of_getElem? hget))

/-- What holds of the texts at all paths of a document holds of all its texts. -/
theorem Value.Keyed.leaves_of_at? (hv : v.Keyed) (hnull : P .null) (hbool : ∀ b, P (.bool b))
    (hnum : ∀ n, P (.num n)) (h : ∀ path text, v.at? path = some (.str text) → P (.str text)) :
    v.Leaves P := by
  induction v with
  | null => exact hnull
  | bool b => exact hbool b
  | num n => exact hnum n
  | str text => exact h [] text rfl
  | arr items ih =>
      rw [Value.leaves_arr]
      intro w hw
      refine ih w hw (Value.keyed_arr.mp hv w hw) fun path text hat => ?_
      obtain ⟨i, hi⟩ := List.getElem?_of_mem hw
      exact h (.item i :: path) text (Value.at?_item_eq_some.mpr ⟨w, hi, hat⟩)
  | obj ms ih =>
      obtain ⟨hkeys, hms⟩ := Value.keyed_obj.mp hv
      rw [Value.leaves_obj]
      intro m hm
      refine ih m hm (hms m hm) fun path text hat => ?_
      exact h (.key m.1 :: path) text
        (Value.at?_key_eq_some.mpr ⟨m.2, Members.get?_of_mem hkeys hm, hat⟩)

end Tabular.Json
