/- Opening encoded texts ends, and what stands at the paths of a document that has been opened. -/
import Tabular.Proofs.Json.Expand
import Tabular.Proofs.Json.Path

namespace Tabular.Json
variable {ms : Members} {items : List Value} {path : List Branch} {v w : Value}

mutual

/-- What opening a value comes to, step by step: a text that holds a document is left for the
    document, and that is opened in turn. -/
inductive Value.Opens : Value → Value → Prop where
  | null : Value.Opens .null .null
  | bool (b : Bool) : Value.Opens (.bool b) (.bool b)
  | num (n : Number) : Value.Opens (.num n) (.num n)
  | plain {text : String} {fault : Fault} : Value.ofText text = .error fault →
      Value.Opens (.str text) (.str text)
  | layer {text : String} {inner v : Value} : Value.ofText text = .ok inner →
      Value.Opens inner v → Value.Opens (.str text) v
  | arr {items opened : List Value} : Value.OpensItems items opened →
      Value.Opens (.arr items) (.arr opened)
  | obj {ms opened : List (String × Value)} : Value.OpensMembers ms opened →
      Value.Opens (.obj ms) (.obj opened)

inductive Value.OpensItems : List Value → List Value → Prop where
  | nil : Value.OpensItems [] []
  | cons {v w : Value} {vs ws : List Value} : Value.Opens v w → Value.OpensItems vs ws →
      Value.OpensItems (v :: vs) (w :: ws)

inductive Value.OpensMembers : List (String × Value) → List (String × Value) → Prop where
  | nil : Value.OpensMembers [] []
  | cons {key : String} {v w : Value} {ms ns : List (String × Value)} : Value.Opens v w →
      Value.OpensMembers ms ns → Value.OpensMembers ((key, v) :: ms) ((key, w) :: ns)

end

theorem Value.opensItems_expand (h : ∀ v ∈ items, v.Opens v.expand) :
    Value.OpensItems items (items.map Value.expand) := by
  induction items with
  | nil => exact .nil
  | cons v vs ih =>
      obtain ⟨hv, hvs⟩ := List.forall_mem_cons.mp h
      exact .cons hv (ih hvs)

theorem Value.opensMembers_expand (h : ∀ m ∈ ms, m.2.Opens m.2.expand) :
    Value.OpensMembers ms (ms.mapValues fun _ v => v.expand) := by
  induction ms with
  | nil => exact .nil
  | cons m ms ih =>
      obtain ⟨key, v⟩ := m
      obtain ⟨hv, hms⟩ := List.forall_mem_cons.mp h
      exact .cons hv (ih hms)

/-- Opening ends on every value: a text comes after the shorter ones in the document it holds. -/
theorem Value.opens_expand (v : Value) : v.Opens v.expand := by
  induction v using Value.expand_ind with
  | null => exact .null
  | bool b => exact .bool b
  | num n => exact .num n
  | plain text fault h =>
      rw [Value.expand_str_of_error h]
      exact .plain h
  | encoded text v h ih =>
      rw [Value.expand_str_of_ok h]
      exact .layer h ih
  | arr items ih =>
      rw [Value.expand_arr]
      exact .arr (Value.opensItems_expand ih)
  | obj ms ih =>
      rw [Value.expand_obj]
      exact .obj (Value.opensMembers_expand ih)

mutual

theorem Value.Opens.eq_expand : ∀ {v w : Value}, v.Opens w → w = v.expand
  | _, _, .null => rfl
  | _, _, .bool _ => rfl
  | _, _, .num _ => rfl
  | _, _, .plain h => (Value.expand_str_of_error h).symm
  | _, _, .layer h hv => by rw [Value.expand_str_of_ok h, hv.eq_expand]
  | _, _, .arr h => by rw [Value.expand_arr, h.eq_map]
  | _, _, .obj h => by rw [Value.expand_obj, h.eq_mapValues]

theorem Value.OpensItems.eq_map : ∀ {items opened : List Value},
    Value.OpensItems items opened → opened = items.map Value.expand
  | _, _, .nil => rfl
  | _, _, .cons hv hvs => by rw [List.map_cons, hv.eq_expand, hvs.eq_map]

theorem Value.OpensMembers.eq_mapValues : ∀ {ms opened : Members},
    Value.OpensMembers ms opened → opened = ms.mapValues fun _ v => v.expand
  | _, _, .nil => rfl
  | _, _, .cons hv hms => by rw [Members.mapValues_cons, hv.eq_expand, hms.eq_mapValues]

end

/-- A path leads on to where it led, since it goes through no text. -/
theorem Value.at?_expand (h : v.at? path = some w) : v.expand.at? path = some w.expand := by
  induction v, path, h using Value.at?_ind with
  | here => rfl
  | key ms name rest u hget _ ih =>
      rw [Value.expand_obj, Value.at?_key_eq_some]
      refine ⟨u.expand, ?_, ih⟩
      rw [Members.get?_mapValues, hget, Option.map_some]
  | item items i rest u hget _ ih =>
      rw [Value.expand_arr, Value.at?_item_eq_some]
      refine ⟨u.expand, ?_, ih⟩
      rw [List.getElem?_map, hget, Option.map_some]

theorem Value.Plain.ofText_at? {text : String} (hv : v.Plain)
    (h : v.at? path = some (.str text)) : ∃ fault, Value.ofText text = .error fault :=
  Value.plain_str_iff.mp (Value.Leaves.at? hv h)

theorem Value.Keyed.plain_of_at? (hv : v.Keyed) (h : ∀ path text,
    v.at? path = some (.str text) → ∃ fault, Value.ofText text = .error fault) : v.Plain := by
  apply hv.leaves_of_at? trivial (fun _ => trivial) (fun _ => trivial)
  intro path text hat
  exact Value.plain_str_iff.mpr (h path text hat)

/-- Opening a document ends, with one outcome, in which no text at any path holds a document; so
    opening it again changes nothing. Its objects have the keys they had, in their order, and its
    lists the length; and a document in which no text holds another one is opened already. -/
theorem Value.expand_opens_every_layer (d : Document) :
    (∀ w, d.value.Opens w ↔ w = d.value.expand) ∧
      (∀ path text, d.value.expand.at? path = some (.str text) →
        ∃ fault, Value.ofText text = .error fault) ∧
      d.value.expand.expand = d.value.expand ∧
      (∀ path ms, d.value.at? path = some (.obj ms) →
        ∃ opened, d.value.expand.at? path = some (.obj opened) ∧
          Members.keys opened = Members.keys ms) ∧
      (∀ path items, d.value.at? path = some (.arr items) →
        ∃ opened, d.value.expand.at? path = some (.arr opened) ∧ opened.length = items.length) ∧
      ((∀ path text, d.value.at? path = some (.str text) →
        ∃ fault, Value.ofText text = .error fault) → d.value.expand = d.value) := by
  refine ⟨?_, ?_, Value.Plain.expand_eq d.value.plain_expand, ?_, ?_, ?_⟩
  · intro w
    constructor
    · intro h
      exact h.eq_expand
    · rintro rfl
      exact d.value.opens_expand
  · intro path text h
    exact Value.Plain.ofText_at? d.value.plain_expand h
  · intro path ms h
    have hat := Value.at?_expand h
    rw [Value.expand_obj] at hat
    exact ⟨_, hat, Members.keys_mapValues _ ms⟩
  · intro path items h
    have hat := Value.at?_expand h
    rw [Value.expand_arr] at hat
    exact ⟨_, hat, List.length_map _⟩
  · intro h
    exact Value.Plain.expand_eq (d.keyed.plain_of_at? h)

end Tabular.Json
