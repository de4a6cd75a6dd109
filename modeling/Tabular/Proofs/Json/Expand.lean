/- Opening encoded texts goes down to the last layer. -/
import Tabular.Document.Expand
import Tabular.Proofs.Json.Consumption
import Tabular.Proofs.Json.Nesting

namespace Tabular.Json
variable {f g : String → Value} {text : String} {v w : Value} {items : List Value} {ms : Members}
  {n : Nat}

theorem Value.mapText_arr (f : String → Value) (items : List Value) :
    (Value.arr items).mapText f = .arr (items.map (Value.mapText f)) := by
  rw [Value.mapText]
  congr 1
  induction items with
  | nil => rfl
  | cons v vs ih => rw [Value.mapTextItems, ih, List.map_cons]

theorem Value.mapText_obj (f : String → Value) (ms : Members) :
    (Value.obj ms).mapText f = .obj (ms.mapValues fun _ v => v.mapText f) := by
  rw [Value.mapText]
  congr 1
  induction ms with
  | nil => rfl
  | cons m ms ih => rw [Value.mapTextMembers, ih, Members.mapValues_cons]

theorem Value.longestText_arr :
    (Value.arr items).longestText ≤ n ↔ ∀ v ∈ items, v.longestText ≤ n :=
  Value.longestTextItems_le items

theorem Value.longestText_obj : (Value.obj ms).longestText ≤ n ↔ ∀ m ∈ ms, m.2.longestText ≤ n :=
  Value.longestTextMembers_le ms

theorem Value.mapText_congr (hv : v.longestText ≤ n)
    (hfg : ∀ text : String, text.length ≤ n → f text = g text) : v.mapText f = v.mapText g := by
  induction v with
  | null => rfl
  | bool b => rfl
  | num n => rfl
  | str text => exact hfg text hv
  | arr items ih =>
      rw [Value.mapText_arr, Value.mapText_arr]
      congr 1
      apply List.map_congr_left
      exact fun v hmem => ih v hmem (Value.longestText_arr.mp hv v hmem)
  | obj ms ih =>
      rw [Value.mapText_obj, Value.mapText_obj]
      congr 1
      rw [Members.mapValues_inj_left]
      exact fun m hmem => ih m hmem (Value.longestText_obj.mp hv m hmem)

/-- The longest text bounds the layers that there are. -/
theorem Value.expandLayers_succ (h : v.longestText < n) :
    v.expandLayers (n + 1) = v.expandLayers n := by
  induction n generalizing v with
  | zero => exact absurd h (Nat.not_lt_zero _)
  | succ n ih =>
      refine Value.mapText_congr (Nat.le_of_lt_succ h) fun text htext => ?_
      split
      · rename_i inner hread
        exact ih (Nat.lt_of_lt_of_le (longestText_of_ofText hread) htext)
      · rfl

theorem Value.expandLayers_eq (h : v.longestText < n) : v.expandLayers n = v.expand := by
  induction n with
  | zero => exact absurd h (Nat.not_lt_zero _)
  | succ n ih =>
      rcases Nat.eq_or_lt_of_le (Nat.le_of_lt_succ h) with heq | hlt
      · rw [Value.expand, heq]
      · rw [Value.expandLayers_succ hlt, ih hlt]

theorem Value.expand_str_of_ok (h : Value.ofText text = .ok v) :
    (Value.str text).expand = v.expand := by
  have hlayer : (Value.str text).expand = v.expandLayers text.length := by
    rw [Value.expand, Value.expandLayers, Value.mapText, h]
    rfl
  rw [hlayer, Value.expandLayers_eq (longestText_of_ofText h)]

theorem Value.expand_str_of_error {fault : Fault} (h : Value.ofText text = .error fault) :
    (Value.str text).expand = .str text := by
  rw [Value.expand, Value.expandLayers, Value.mapText, h]

@[simp] theorem Value.expand_arr (items : List Value) :
    (Value.arr items).expand = .arr (items.map Value.expand) := by
  rw [Value.expand, Value.expandLayers, Value.mapText_arr]
  congr 1
  apply List.map_congr_left
  intro v hv
  exact Value.expandLayers_eq (Nat.lt_succ_of_le (Value.longestText_arr.mp (Nat.le_refl _) v hv))

@[simp] theorem Value.expand_obj (ms : Members) :
    (Value.obj ms).expand = .obj (ms.mapValues fun _ v => v.expand) := by
  rw [Value.expand, Value.expandLayers, Value.mapText_obj]
  congr 1
  rw [Members.mapValues_inj_left]
  intro m hm
  exact Value.expandLayers_eq (Nat.lt_succ_of_le (Value.longestText_obj.mp (Nat.le_refl _) m hm))

/-- Induction along the layers: a text that holds a document comes after that document. -/
theorem Value.expand_ind {motive : Value → Prop} (null : motive .null)
    (bool : ∀ b, motive (.bool b)) (num : ∀ n, motive (.num n))
    (plain : ∀ text fault, Value.ofText text = .error fault → motive (.str text))
    (encoded : ∀ text v, Value.ofText text = .ok v → motive v → motive (.str text))
    (arr : ∀ items, (∀ v ∈ items, motive v) → motive (.arr items))
    (obj : ∀ ms : Members, (∀ m ∈ ms, motive m.2) → motive (.obj ms)) (v : Value) : motive v := by
  suffices h : ∀ n, ∀ v : Value, v.longestText ≤ n → motive v from h _ v (Nat.le_refl _)
  intro n
  induction n using Nat.strongRecOn with
  | _ n ihn =>
      intro v hv
      induction v with
      | null => exact null
      | bool b => exact bool b
      | num i => exact num i
      | str text =>
          cases hread : Value.ofText text with
          | error fault => exact plain text fault hread
          | ok w =>
              have hlt := Nat.lt_of_lt_of_le (longestText_of_ofText hread) hv
              exact encoded text w hread (ihn _ hlt w (Nat.le_refl _))
      | arr items ih => exact arr items fun v hmem => ih v hmem (Value.longestText_arr.mp hv v hmem)
      | obj ms ih => exact obj ms fun m hmem => ih m hmem (Value.longestText_obj.mp hv m hmem)

/-- A leaf that is not the text of a document. -/
def Value.NotEncoded : Value → Prop
  | .str text => ∀ v, Value.ofText text ≠ .ok v
  | _ => True

/-- No text of the value holds a document. -/
abbrev Value.Plain (v : Value) : Prop := v.Leaves Value.NotEncoded

theorem Value.plain_str_iff :
    (Value.str text).Plain ↔ ∃ fault, Value.ofText text = .error fault := by
  change (∀ v, Value.ofText text ≠ .ok v) ↔ _
  cases h : Value.ofText text with
  | ok v => simp
  | error fault => simp

/-- No text of a document that has been opened holds another one. -/
theorem Value.plain_expand (v : Value) : v.expand.Plain := by
  induction v using Value.expand_ind with
  | null => trivial
  | bool b => trivial
  | num n => trivial
  | plain text fault h =>
      rw [Value.expand_str_of_error h]
      exact Value.plain_str_iff.mpr ⟨fault, h⟩
  | encoded text v h ih =>
      rw [Value.expand_str_of_ok h]
      exact ih
  | arr items ih =>
      rw [Value.expand_arr, Value.Plain, Value.leaves_arr, List.forall_mem_map]
      exact ih
  | obj ms ih =>
      rw [Value.expand_obj, Value.Plain, Value.leaves_obj, Members.forall_mem_mapValues]
      exact ih

theorem Value.Plain.expand_eq (h : v.Plain) : v.expand = v := by
  induction v with
  | null => rfl
  | bool b => rfl
  | num n => rfl
  | str text =>
      obtain ⟨fault, hfault⟩ := Value.plain_str_iff.mp h
      exact Value.expand_str_of_error hfault
  | arr items ih =>
      rw [Value.expand_arr, map_eq_self_iff.mpr]
      exact fun v hv => ih v hv (Value.leaves_arr.mp h v hv)
  | obj ms ih =>
      rw [Value.expand_obj, Members.mapValues_eq_self_iff.mpr]
      exact fun m hm => ih m hm (Value.leaves_obj.mp h m hm)

theorem Value.Keyed.expand (h : v.Keyed) : v.expand.Keyed := by
  induction v using Value.expand_ind with
  | null => trivial
  | bool b => trivial
  | num n => trivial
  | plain text fault hread =>
      rw [Value.expand_str_of_error hread]
      trivial
  | encoded text v hread ih =>
      rw [Value.expand_str_of_ok hread]
      exact ih (Value.keyed_ofChars hread)
  | arr items ih =>
      rw [Value.expand_arr, Value.keyed_arr, List.forall_mem_map]
      exact fun v hv => ih v hv (Value.keyed_arr.mp h v hv)
  | obj ms ih =>
      obtain ⟨hkeys, hms⟩ := Value.keyed_obj.mp h
      rw [Value.expand_obj, Value.keyed_obj, Members.keys_mapValues, Members.forall_mem_mapValues]
      exact ⟨hkeys, fun m hm => ih m hm (hms m hm)⟩

/-- Opening a value makes no text longer. -/
theorem Value.longestText_expand_le (v : Value) : v.expand.longestText ≤ v.longestText := by
  induction v using Value.expand_ind with
  | null => exact Nat.le_refl _
  | bool b => exact Nat.le_refl _
  | num n => exact Nat.le_refl _
  | plain text fault h =>
      exact Nat.le_of_eq (congrArg Value.longestText (Value.expand_str_of_error h))
  | encoded text v h ih =>
      rw [Value.expand_str_of_ok h]
      exact Nat.le_trans ih (Nat.le_of_lt (longestText_of_ofText h))
  | arr items ih =>
      rw [Value.expand_arr, Value.longestText_arr, List.forall_mem_map]
      exact fun v hv => Nat.le_trans (ih v hv) (Value.longestText_arr.mp (Nat.le_refl _) v hv)
  | obj ms ih =>
      rw [Value.expand_obj, Value.longestText_obj, Members.forall_mem_mapValues]
      exact fun m hm => Nat.le_trans (ih m hm) (Value.longestText_obj.mp (Nat.le_refl _) m hm)

/-- The text of a document is not what it opens to. -/
theorem Value.expand_str_ne (h : Value.ofText text = .ok v) (w : String)
    (hw : text.length ≤ w.length) : (Value.str text).expand ≠ .str w := by
  intro heq
  have hle := Value.longestText_expand_le v
  have hlt := longestText_of_ofText h
  rw [← Value.expand_str_of_ok h, heq, Value.longestText] at hle
  omega

end Tabular.Json
