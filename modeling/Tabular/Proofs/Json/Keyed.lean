/- Values in which no object gives a key twice. -/
import Mathlib.Data.List.Nodup
import Tabular.Proofs.Json.Prune

namespace Tabular.Json
variable {ms : Members} {key k : String} {v w : Value}

mutual

/-- No object in the value gives a key twice. -/
def Value.Keyed : Value → Prop
  | .arr items => Value.KeyedItems items
  | .obj ms => (ms.map Prod.fst).Nodup ∧ Value.KeyedMembers ms
  | .null => True
  | .bool _ => True
  | .num _ => True
  | .str _ => True

def Value.KeyedItems : List Value → Prop
  | [] => True
  | v :: vs => v.Keyed ∧ Value.KeyedItems vs

def Value.KeyedMembers : List (String × Value) → Prop
  | [] => True
  | (_, v) :: ms => v.Keyed ∧ Value.KeyedMembers ms

end

mutual

def Value.decideKeyed : (v : Value) → Decidable v.Keyed
  | .arr items => Value.decideKeyedItems items
  | .obj ms => @instDecidableAnd _ _ inferInstance (Value.decideKeyedMembers ms)
  | .null => .isTrue trivial
  | .bool _ => .isTrue trivial
  | .num _ => .isTrue trivial
  | .str _ => .isTrue trivial

def Value.decideKeyedItems : (items : List Value) → Decidable (Value.KeyedItems items)
  | [] => .isTrue trivial
  | v :: vs => @instDecidableAnd _ _ (Value.decideKeyed v) (Value.decideKeyedItems vs)

def Value.decideKeyedMembers : (ms : List (String × Value)) → Decidable (Value.KeyedMembers ms)
  | [] => .isTrue trivial
  | (_, v) :: ms => @instDecidableAnd _ _ (Value.decideKeyed v) (Value.decideKeyedMembers ms)

end

instance (v : Value) : Decidable v.Keyed := v.decideKeyed

/-- A document: the value of a file that has been read. -/
structure Document where
  value : Value
  keyed : value.Keyed

theorem Value.keyedItems_iff (items : List Value) :
    Value.KeyedItems items ↔ ∀ v ∈ items, v.Keyed := by
  induction items with
  | nil => simp only [Value.KeyedItems, List.not_mem_nil, false_implies, implies_true]
  | cons v vs ih => simp only [Value.KeyedItems, ih, List.forall_mem_cons]

theorem Value.keyedMembers_iff (ms : List (String × Value)) :
    Value.KeyedMembers ms ↔ ∀ m ∈ ms, m.2.Keyed := by
  induction ms with
  | nil => simp only [Value.KeyedMembers, List.not_mem_nil, false_implies, implies_true]
  | cons m ms ih => simp only [Value.KeyedMembers, ih, List.forall_mem_cons]

theorem Value.keyed_arr {items : List Value} :
    (Value.arr items).Keyed ↔ ∀ v ∈ items, v.Keyed := Value.keyedItems_iff items

theorem Value.keyed_obj : (Value.obj ms).Keyed ↔ ms.keys.Nodup ∧ ∀ m ∈ ms, m.2.Keyed := by
  rw [Value.Keyed, Value.keyedMembers_iff]
  rfl

@[simp] theorem Value.keyed_null : Value.null.Keyed := trivial

@[simp] theorem Value.keyed_bool (b : Bool) : (Value.bool b).Keyed := trivial

@[simp] theorem Value.keyed_str (text : String) : (Value.str text).Keyed := trivial

@[simp] theorem Value.keyed_num (n : Number) : (Value.num n).Keyed := trivial

@[simp] theorem Value.keyed_ofText? (text : Option String) : (Value.ofText? text).Keyed := by
  cases text <;> trivial

@[simp] theorem Value.keyed_ofInt (n : Int) : (Value.ofInt n).Keyed := by
  rw [Value.ofInt]
  cases Number.ofInt? n <;> trivial

@[simp] theorem Value.keyed_ofFloat (x : Float) : (Value.ofFloat x).Keyed := by
  rw [Value.ofFloat]
  cases Number.ofFloat? x <;> trivial

theorem Value.keyed_strs (texts : List String) : (Value.arr (texts.map Value.str)).Keyed := by
  rw [Value.keyed_arr]
  intro v hv
  obtain ⟨text, _, rfl⟩ := List.mem_map.mp hv
  trivial

theorem Value.Keyed.members (h : v.Keyed) : (Value.obj v.members).Keyed := by
  cases v with
  | obj ms => exact h
  | _ => exact ⟨List.nodup_nil, trivial⟩

namespace Members

theorem mem_of_get? (h : ms.get? key = some v) : (key, v) ∈ ms := by
  induction ms with
  | nil => cases h
  | cons m ms ih =>
      obtain ⟨k, w⟩ := m
      rw [get?_cons] at h
      by_cases hk : k = key
      · rw [if_pos hk] at h
        cases h
        rw [hk]
        exact List.mem_cons_self
      · rw [if_neg hk] at h
        exact List.mem_cons_of_mem _ (ih h)

theorem keyed_of_get? (hms : (Value.obj ms).Keyed) (h : ms.get? key = some v) : v.Keyed :=
  (Value.keyed_obj.mp hms).2 _ (mem_of_get? h)

theorem keyed_read (hms : (Value.obj ms).Keyed) (key : String) : (ms.read key).Keyed := by
  rw [Members.read]
  cases h : ms.get? key with
  | none => trivial
  | some v => exact keyed_of_get? hms h

theorem mem_keys_put (h : k ∈ (ms.put key v).keys) : k = key ∨ k ∈ ms.keys := by
  rw [keys_put] at h
  rcases List.mem_append.mp h with h | h
  · exact Or.inr h
  · split at h
    · exact absurd h List.not_mem_nil
    · exact Or.inl (List.mem_singleton.mp h)

theorem keyed_put (hms : (Value.obj ms).Keyed) (key : String) (hv : v.Keyed) :
    (Value.obj (ms.put key v)).Keyed := by
  induction ms with
  | nil => exact ⟨List.nodup_singleton key, hv, trivial⟩
  | cons m ms ih =>
      obtain ⟨k, w⟩ := m
      obtain ⟨hkeys, hw, hrest⟩ := hms
      obtain ⟨hk, hkeys⟩ := List.nodup_cons.mp hkeys
      rw [Members.put]
      by_cases hkey : k = key
      · rw [if_pos hkey]
        exact ⟨List.nodup_cons.mpr ⟨hk, hkeys⟩, hv, hrest⟩
      · rw [if_neg hkey]
        obtain ⟨ihkeys, ihrest⟩ := ih ⟨hkeys, hrest⟩
        refine ⟨List.nodup_cons.mpr ⟨?_, ihkeys⟩, hw, ihrest⟩
        intro hmem
        exact (mem_keys_put hmem).elim hkey hk

theorem keyed_putAll {pairs : List (String × Value)} (hms : (Value.obj ms).Keyed)
    (h : ∀ p ∈ pairs, p.2.Keyed) : (Value.obj (ms.putAll pairs)).Keyed := by
  induction pairs generalizing ms with
  | nil => exact hms
  | cons p pairs ih =>
      obtain ⟨hp, hpairs⟩ := List.forall_mem_cons.mp h
      exact ih (keyed_put hms p.1 hp) hpairs

theorem keyed_replace (hms : (Value.obj ms).Keyed) (key : String) (hv : v.Keyed) :
    (Value.obj (ms.replace key v)).Keyed := by
  cases h : ms.get? key with
  | none => rwa [Members.replace, update_of_missing h]
  | some w =>
      rw [Members.replace, ← put_eq_update h]
      exact keyed_put hms key hv

end Members

theorem nodup_keys_pruneMembers (h : ms.keys.Nodup) :
    (Members.keys (Value.pruneMembers ms)).Nodup := by
  induction ms with
  | nil => exact h
  | cons m ms ih =>
      obtain ⟨k, v⟩ := m
      obtain ⟨hk, hms⟩ := List.nodup_cons.mp h
      rw [pruneMembers_cons]
      split
      · exact ih hms
      · exact List.nodup_cons.mpr ⟨mt mem_keys_of_mem_pruneMembers hk, ih hms⟩

mutual

theorem Value.Keyed.prune : ∀ {v : Value}, v.Keyed → v.prune.Keyed
  | .null, _ => trivial
  | .bool _, _ => trivial
  | .num _, _ => trivial
  | .str _, _ => trivial
  | .arr _, h => Value.KeyedItems.prune h
  | .obj _, h => ⟨nodup_keys_pruneMembers h.1, Value.KeyedMembers.prune h.2⟩

theorem Value.KeyedItems.prune : ∀ {items : List Value},
    Value.KeyedItems items → Value.KeyedItems (Value.pruneItems items)
  | [], _ => trivial
  | _ :: _, h => ⟨Value.Keyed.prune h.1, Value.KeyedItems.prune h.2⟩

theorem Value.KeyedMembers.prune : ∀ {ms : List (String × Value)},
    Value.KeyedMembers ms → Value.KeyedMembers (Value.pruneMembers ms)
  | [], _ => trivial
  | (key, v) :: ms, h => by
      rw [pruneMembers_cons]
      split
      · exact Value.KeyedMembers.prune h.2
      · exact ⟨Value.Keyed.prune h.1, Value.KeyedMembers.prune h.2⟩

end

theorem Value.Keyed.read_prune (h : (Value.obj ms).Keyed) (key : String) :
    Members.read (Value.pruneMembers ms) key = (ms.read key).prune :=
  read_pruneMembers h.1 key

theorem Value.Keyed.read_prune_putAll {pairs : List (String × Value)}
    (h : (Value.obj (ms.putAll pairs)).Keyed) (hk : (pairs.map Prod.fst).Nodup) :
    ∀ p ∈ pairs, Members.read (Value.pruneMembers (ms.putAll pairs)) p.1 = p.2.prune := by
  intro p hp
  rw [h.read_prune, Members.read_putAll_of_mem hk hp]

theorem Value.Keyed.read_prune_putAll_of_notMem {pairs : List (String × Value)}
    (h : (Value.obj (ms.putAll pairs)).Keyed) (hk : key ∉ pairs.map Prod.fst) :
    Members.read (Value.pruneMembers (ms.putAll pairs)) key = (ms.read key).prune := by
  rw [h.read_prune, Members.read_putAll_of_notMem hk]

end Tabular.Json
