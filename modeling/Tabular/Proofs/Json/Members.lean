/- Reading and writing the members of an object, one key at a time. -/
import Mathlib.Data.List.Forall2
import Tabular.Json.Value

namespace Tabular.Json

/-- The members of an object; another value has none. -/
def Value.members : Value → Members
  | .obj ms => ms
  | _ => []

/-- The value of a key, where a missing key counts as null. -/
def Members.read (ms : Members) (key : String) : Value := (ms.get? key).getD .null

/-- Gives keys their values, one after the other. -/
def Members.putAll (ms : Members) (pairs : List (String × Value)) : Members :=
  pairs.foldl (fun ms kv => ms.put kv.1 kv.2) ms

/-- Changes the members of an object; another value stays as it is. -/
def Value.revise (f : Members → Members) : Value → Value
  | .obj ms => .obj (f ms)
  | v => v

def Members.keys (ms : Members) : List String := ms.map Prod.fst

@[simp] theorem Value.members_obj (ms : Members) : (Value.obj ms).members = ms := rfl

theorem map_eq_self_iff {f : Value → Value} {items : List Value} :
    items.map f = items ↔ ∀ v ∈ items, f v = v := by
  have hinj := List.map_inj_left (f := f) (g := id) (l := items)
  rwa [List.map_id] at hinj

namespace Members
variable {ms : Members} {key k : String} {v w : Value} {f g : Value → Value}

theorem get?_cons (k : String) (v : Value) (ms : Members) (key : String) :
    Members.get? ((k, v) :: ms) key = if k = key then some v else ms.get? key := rfl

theorem get?_put (ms : Members) (key k : String) (v : Value) :
    (ms.put key v).get? k = if key = k then some v else ms.get? k := by
  induction ms with
  | nil => rfl
  | cons m ms ih =>
      obtain ⟨k', w⟩ := m
      by_cases hk : k' = key
      · subst hk
        simp only [Members.put, if_true, get?_cons]
        split <;> rfl
      · simp only [Members.put, hk, if_false, get?_cons, ih]
        by_cases hk' : k' = k
        · subst hk'
          simp only [if_true, if_neg (Ne.symm hk)]
        · simp only [hk', if_false]

theorem get?_update (ms : Members) (key k : String) (f : Value → Value) :
    (ms.update key f).get? k = if key = k then (ms.get? k).map f else ms.get? k := by
  induction ms with
  | nil => simp only [Members.update, Members.get?, Option.map_none, ite_self]
  | cons m ms ih =>
      obtain ⟨k', w⟩ := m
      by_cases hk : k' = key
      · subst hk
        simp only [Members.update, if_true, get?_cons]
        split <;> rfl
      · simp only [Members.update, hk, if_false, get?_cons, ih]
        by_cases hk' : k' = k
        · subst hk'
          simp only [if_true, if_neg (Ne.symm hk)]
        · simp only [hk', if_false]

@[simp] theorem read_put (ms : Members) (key k : String) (v : Value) :
    (ms.put key v).read k = if key = k then v else ms.read k := by
  simp only [Members.read, get?_put]
  split <;> rfl

@[simp] theorem read_put_self (ms : Members) (key : String) (v : Value) :
    (ms.put key v).read key = v := by
  simp only [read_put, if_true]

theorem read_update_of_ne (h : key ≠ k) : (ms.update key f).read k = ms.read k := by
  simp only [Members.read, get?_update, h, if_false]

theorem read_of_get? (h : ms.get? key = some v) : ms.read key = v := by
  simp only [Members.read, h, Option.getD_some]

theorem get?_of_read (h : ms.read key = v) (hv : v.isNull = false) : ms.get? key = some v := by
  cases hk : ms.get? key with
  | some w =>
      simp only [Members.read, hk, Option.getD_some] at h
      rw [h]
  | none =>
      simp only [Members.read, hk, Option.getD_none] at h
      subst h
      cases hv

theorem has_eq_false_iff : ms.has key = false ↔ ms.get? key = none := by
  simp only [Members.has, Option.isSome_eq_false_iff, Option.isNone_iff_eq_none]

theorem has_update (ms : Members) (key k : String) (f : Value → Value) :
    (ms.update key f).has k = ms.has k := by
  simp only [Members.has, get?_update]
  split
  · rw [Option.isSome_map]
  · rfl

theorem put_of_missing (h : ms.get? key = none) (v : Value) : ms.put key v = ms ++ [(key, v)] := by
  induction ms with
  | nil => rfl
  | cons m ms ih =>
      obtain ⟨k, w⟩ := m
      rw [get?_cons] at h
      by_cases hk : k = key
      · rw [if_pos hk] at h
        cases h
      · rw [if_neg hk] at h
        simp only [Members.put, hk, if_false, ih h, List.cons_append]

theorem put_put (ms : Members) (key : String) (v w : Value) :
    (ms.put key v).put key w = ms.put key w := by
  induction ms with
  | nil => simp only [Members.put, if_true]
  | cons m ms ih =>
      obtain ⟨k, u⟩ := m
      by_cases hk : k = key
      · simp only [Members.put, hk, if_true]
      · simp only [Members.put, hk, if_false, ih]

theorem update_of_fixed (h : ∀ v, ms.get? key = some v → f v = v) : ms.update key f = ms := by
  induction ms with
  | nil => rfl
  | cons m ms ih =>
      obtain ⟨k, w⟩ := m
      by_cases hk : k = key
      · have hw : f w = w := h w (by rw [get?_cons, if_pos hk])
        simp only [Members.update, hk, if_true, hw]
      · have hms := ih fun v hv => h v (by rw [get?_cons, if_neg hk, hv])
        simp only [Members.update, hk, if_false, hms]

theorem update_of_missing (h : ms.get? key = none) (f : Value → Value) : ms.update key f = ms := by
  apply update_of_fixed
  intro v hv
  rw [h] at hv
  cases hv

/-- A key that is present is changed by giving it the changed value. -/
theorem put_eq_update (h : ms.get? key = some v) (f : Value → Value) :
    ms.put key (f v) = ms.update key f := by
  induction ms with
  | nil => cases h
  | cons m ms ih =>
      obtain ⟨k, w⟩ := m
      rw [get?_cons] at h
      by_cases hk : k = key
      · rw [if_pos hk] at h
        cases h
        simp only [Members.put, Members.update, hk, if_true]
      · rw [if_neg hk] at h
        simp only [Members.put, Members.update, hk, if_false, ih h]

/-- Giving a key the value that it has changes nothing. -/
theorem put_of_get? (h : ms.get? key = some v) : ms.put key v = ms := by
  rw [put_eq_update h fun _ => v]
  apply update_of_fixed
  intro w hw
  exact Option.some.inj (h.symm.trans hw)

theorem put_update_self (ms : Members) (key : String) (f : Value → Value) (v : Value) :
    (ms.update key f).put key v = ms.put key v := by
  induction ms with
  | nil => rfl
  | cons m ms ih =>
      obtain ⟨k, w⟩ := m
      by_cases hk : k = key
      · simp only [Members.put, Members.update, hk, if_true]
      · simp only [Members.put, Members.update, hk, if_false, ih]

theorem put_update_of_ne (h : key ≠ k) (ms : Members) (f : Value → Value) (v : Value) :
    (ms.update key f).put k v = (ms.put k v).update key f := by
  induction ms with
  | nil => simp only [Members.put, Members.update, Ne.symm h, if_false]
  | cons m ms ih =>
      obtain ⟨k', w⟩ := m
      by_cases hk : k' = key
      · subst hk
        simp only [Members.put, Members.update, h, if_true, if_false]
      · by_cases hk' : k' = k
        · subst hk'
          simp only [Members.put, Members.update, hk, if_true, if_false]
        · simp only [Members.put, Members.update, hk, hk', if_false, ih]

/-- Of two keys the one that is written first stands first, if neither was there. -/
theorem put_put_perm (h : key ≠ k) (ms : Members) (v w : Value) :
    ((ms.put key v).put k w).Perm ((ms.put k w).put key v) := by
  cases hkey : ms.get? key with
  | some u =>
      have hget : (ms.put k w).get? key = some u := by rw [get?_put, if_neg h.symm, hkey]
      rw [put_eq_update hkey fun _ => v, put_eq_update hget fun _ => v, put_update_of_ne h]
  | none => cases hk : ms.get? k with
    | some u =>
        have hget : (ms.put key v).get? k = some u := by rw [get?_put, if_neg h, hk]
        rw [put_eq_update hk fun _ => w, put_eq_update hget fun _ => w, put_update_of_ne h.symm]
    | none =>
        have hget : (ms.put key v).get? k = none := by rw [get?_put, if_neg h, hk]
        have hget' : (ms.put k w).get? key = none := by rw [get?_put, if_neg h.symm, hkey]
        rw [put_of_missing hget, put_of_missing hget', put_of_missing hkey, put_of_missing hk,
          List.append_assoc, List.append_assoc]
        exact (List.Perm.swap _ _ []).append_left ms

theorem update_comm (h : key ≠ k) (ms : Members) (f g : Value → Value) :
    (ms.update key f).update k g = (ms.update k g).update key f := by
  induction ms with
  | nil => rfl
  | cons m ms ih =>
      obtain ⟨k', w⟩ := m
      by_cases hk : k' = key
      · subst hk
        simp only [Members.update, h, if_true, if_false]
      · by_cases hk' : k' = k
        · subst hk'
          simp only [Members.update, hk, if_true, if_false]
        · simp only [Members.update, hk, hk', if_false, ih]

theorem update_update (ms : Members) (key : String) (f g : Value → Value) :
    (ms.update key g).update key f = ms.update key (f ∘ g) := by
  induction ms with
  | nil => rfl
  | cons m ms ih =>
      obtain ⟨k, w⟩ := m
      by_cases hk : k = key
      · simp only [Members.update, hk, if_true, Function.comp_apply]
      · simp only [Members.update, hk, if_false, ih]

theorem putAll_of_get? {pairs : List (String × Value)}
    (h : ∀ p ∈ pairs, ms.get? p.1 = some p.2) : ms.putAll pairs = ms := by
  induction pairs with
  | nil => rfl
  | cons p pairs ih =>
      obtain ⟨hp, hpairs⟩ := List.forall_mem_cons.mp h
      change (ms.put p.1 p.2).putAll pairs = ms
      rw [put_of_get? hp]
      exact ih hpairs

theorem putAll_cons (ms : Members) (key : String) (v : Value) (pairs : List (String × Value)) :
    ms.putAll ((key, v) :: pairs) = (ms.put key v).putAll pairs := rfl

theorem mem_put {m : String × Value}
    (h : m ∈ ms.put key v) : m = (key, v) ∨ m ∈ ms := by
  induction ms with
  | nil => exact Or.inl (List.mem_singleton.mp h)
  | cons m' ms ih =>
      obtain ⟨k, w⟩ := m'
      rw [Members.put] at h
      split at h
      · rename_i hk
        rw [hk] at h
        exact (List.mem_cons.mp h).imp id (List.mem_cons_of_mem _)
      · rcases List.mem_cons.mp h with rfl | h
        · exact Or.inr List.mem_cons_self
        · exact (ih h).imp id (List.mem_cons_of_mem _)

theorem mem_putAll {pairs : Members} {m : String × Value}
    (h : m ∈ ms.putAll pairs) : m ∈ pairs ∨ m ∈ ms := by
  induction pairs generalizing ms with
  | nil => exact Or.inr h
  | cons p pairs ih =>
      obtain ⟨key, v⟩ := p
      rw [putAll_cons] at h
      rcases ih h with hp | hm
      · exact Or.inl (List.mem_cons_of_mem _ hp)
      · rcases mem_put hm with rfl | hm
        · exact Or.inl List.mem_cons_self
        · exact Or.inr hm

theorem keys_put (ms : Members) (key : String) (v : Value) :
    (ms.put key v).keys = ms.keys ++ if key ∈ ms.keys then [] else [key] := by
  induction ms with
  | nil => rfl
  | cons m ms ih =>
      obtain ⟨k, u⟩ := m
      rw [Members.put]
      by_cases hk : k = key
      · simp [hk, Members.keys]
      · simp only [if_neg hk, Members.keys, List.map_cons, List.mem_cons, Ne.symm hk, false_or]
        exact congrArg (List.cons k) ih

theorem keys_update (ms : Members) (key : String) (f : Value → Value) :
    (ms.update key f).keys = ms.keys := by
  induction ms with
  | nil => rfl
  | cons m ms ih =>
      obtain ⟨k, w⟩ := m
      rw [Members.update]
      split
      · rfl
      · exact congrArg (List.cons k) ih

theorem forall_mem_update {P : Value → Prop} (hf : ∀ v, P v → P (f v)) (h : ∀ m ∈ ms, P m.2)
    (key : String) : ∀ m ∈ ms.update key f, P m.2 := by
  induction ms with
  | nil => exact h
  | cons m ms ih =>
      obtain ⟨k, w⟩ := m
      obtain ⟨hw, hms⟩ := List.forall_mem_cons.mp h
      rw [Members.update]
      split
      · exact List.forall_mem_cons.mpr ⟨hf w hw, hms⟩
      · exact List.forall_mem_cons.mpr ⟨hw, ih hms⟩

theorem putAll_update_of_notMem {pairs : List (String × Value)} (h : key ∉ pairs.map Prod.fst)
    (ms : Members) (f : Value → Value) :
    (ms.update key f).putAll pairs = (ms.putAll pairs).update key f := by
  induction pairs generalizing ms with
  | nil => rfl
  | cons p pairs ih =>
      obtain ⟨k, v⟩ := p
      rw [List.map_cons, List.mem_cons, not_or] at h
      rw [putAll_cons, putAll_cons, put_update_of_ne h.1, ih h.2]

/-- A change of a key leaves no trace when the key is written afterwards. -/
theorem putAll_update_of_mem {pairs : List (String × Value)} (h : key ∈ pairs.map Prod.fst)
    (ms : Members) (f : Value → Value) : (ms.update key f).putAll pairs = ms.putAll pairs := by
  induction pairs generalizing ms with
  | nil => exact absurd h List.not_mem_nil
  | cons p pairs ih =>
      obtain ⟨k, v⟩ := p
      rw [putAll_cons, putAll_cons]
      by_cases hk : key = k
      · rw [hk, put_update_self]
      · rw [put_update_of_ne hk]
        exact ih ((List.mem_cons.mp h).resolve_left hk) (ms.put k v)

theorem get?_putAll_of_notMem {pairs : List (String × Value)} (h : key ∉ pairs.map Prod.fst)
    (ms : Members) : (ms.putAll pairs).get? key = ms.get? key := by
  induction pairs generalizing ms with
  | nil => rfl
  | cons p pairs ih =>
      obtain ⟨k, v⟩ := p
      rw [List.map_cons, List.mem_cons, not_or] at h
      rw [putAll_cons, ih h.2, get?_put, if_neg (Ne.symm h.1)]

theorem read_putAll_of_notMem {pairs : List (String × Value)} (h : key ∉ pairs.map Prod.fst)
    (ms : Members) : (ms.putAll pairs).read key = ms.read key := by
  rw [Members.read, get?_putAll_of_notMem h, Members.read]

theorem read_putAll_of_mem {pairs : List (String × Value)} (hk : (pairs.map Prod.fst).Nodup)
    (h : (key, v) ∈ pairs) (ms : Members) : (ms.putAll pairs).read key = v := by
  induction pairs generalizing ms with
  | nil => exact absurd h List.not_mem_nil
  | cons p pairs ih =>
      obtain ⟨k, w⟩ := p
      obtain ⟨hhead, hrest⟩ := List.nodup_cons.mp hk
      rw [putAll_cons]
      rcases List.mem_cons.mp h with heq | hmem
      · cases heq
        rw [read_putAll_of_notMem hhead, read_put_self]
      · exact ih hrest hmem (ms.put k w)

/-- A path of two keys is written through the object of the first. -/
theorem putPath_pair (ms : Members) (key k : String) (v : Value) :
    ms.putPath [key, k] v = ms.put key (.obj ((ms.read key).members.put k v)) := by
  simp only [Members.putPath, Members.read]
  cases ms.get? key with
  | none => rfl
  | some w => cases w <;> rfl

/-- Changes the value of each member. -/
def mapValues (f : String → Value → Value) (ms : Members) : Members :=
  ms.map fun m => (m.1, f m.1 m.2)

variable {f g : String → Value → Value}

theorem mapValues_cons (f : String → Value → Value) (key : String) (v : Value) (ms : Members) :
    mapValues f ((key, v) :: ms) = (key, f key v) :: ms.mapValues f := rfl

theorem keys_mapValues (f : String → Value → Value) (ms : Members) :
    (ms.mapValues f).keys = ms.keys := by
  rw [keys, mapValues, List.map_map]
  rfl

theorem mapValues_mapValues (f g : String → Value → Value) (ms : Members) :
    (ms.mapValues g).mapValues f = ms.mapValues fun key v => f key (g key v) := by
  rw [mapValues, mapValues, List.map_map]
  rfl

theorem forall_mem_mapValues {P : String × Value → Prop} :
    (∀ m ∈ ms.mapValues f, P m) ↔ ∀ m ∈ ms, P (m.1, f m.1 m.2) := List.forall_mem_map

theorem get?_of_mem (hms : ms.keys.Nodup) (h : (key, v) ∈ ms) : ms.get? key = some v := by
  induction ms with
  | nil => exact absurd h List.not_mem_nil
  | cons m ms ih =>
      obtain ⟨k, w⟩ := m
      obtain ⟨hk, hrest⟩ := List.nodup_cons.mp hms
      rw [get?_cons]
      rcases List.mem_cons.mp h with heq | hmem
      · cases heq
        rw [if_pos rfl]
      · have hne : k ≠ key := fun hkey => hk (List.mem_map.mpr ⟨(key, v), hmem, hkey.symm⟩)
        rw [if_neg hne, ih hrest hmem]

theorem get?_mapValues (f : String → Value → Value) (ms : Members) (key : String) :
    (ms.mapValues f).get? key = (ms.get? key).map (f key) := by
  induction ms with
  | nil => rfl
  | cons m ms ih =>
      obtain ⟨k, v⟩ := m
      rw [mapValues_cons, get?_cons, get?_cons]
      split
      · rename_i hk
        rw [hk, Option.map_some]
      · exact ih

theorem mapValues_inj_left :
    ms.mapValues f = ms.mapValues g ↔ ∀ m ∈ ms, f m.1 m.2 = g m.1 m.2 := by
  simp only [mapValues, List.map_inj_left, Prod.mk.injEq, true_and]

theorem mapValues_eq_self_iff : ms.mapValues f = ms ↔ ∀ m ∈ ms, f m.1 m.2 = m.2 := by
  have hsame : (ms.mapValues fun _ v => v) = ms := List.map_id ms
  rw [← mapValues_inj_left (g := fun _ v => v), hsame]

theorem update_eq_mapValues (hkeys : ms.keys.Nodup) (name : String) (f : Value → Value) :
    ms.update name f = ms.mapValues fun key v => if key = name then f v else v := by
  induction ms with
  | nil => rfl
  | cons m ms ih =>
      obtain ⟨key, v⟩ := m
      obtain ⟨hkey, hkeys⟩ := List.nodup_cons.mp hkeys
      rw [Members.update, mapValues_cons]
      split
      · rename_i hname
        -- The key stands nowhere else.
        have hrest : (mapValues (fun k w => if k = name then f w else w) ms) = ms := by
          rw [mapValues_eq_self_iff]
          intro m hm
          have hne : m.1 ≠ name := by
            intro heq
            exact hkey (List.mem_map.mpr ⟨m, hm, heq.trans hname.symm⟩)
          exact if_neg hne
        rw [hrest]
      · rw [ih hkeys]

end Members

end Tabular.Json
