/- What dropping null members keeps of an object, and when a write leaves no trace behind it. -/
import Tabular.Document.Prune
import Tabular.Proofs.Json.Members

namespace Tabular.Json
variable {ms : Members} {key k : String} {v w : Value}

theorem Value.pruneItems_eq_map (items : List Value) :
    Value.pruneItems items = items.map Value.prune := by
  induction items with
  | nil => rfl
  | cons v vs ih => simp only [Value.pruneItems, List.map_cons, ih]

@[simp] theorem Value.prune_null : Value.null.prune = .null := rfl

@[simp] theorem Value.prune_str (text : String) : (Value.str text).prune = .str text := rfl

@[simp] theorem Value.prune_bool (b : Bool) : (Value.bool b).prune = .bool b := rfl

@[simp] theorem Value.prune_obj (ms : Members) :
    (Value.obj ms).prune = .obj (Value.pruneMembers ms) := rfl

@[simp] theorem Value.prune_arr (items : List Value) :
    (Value.arr items).prune = .arr (items.map Value.prune) := by
  rw [Value.prune, Value.pruneItems_eq_map]

@[simp] theorem Value.prune_ofText? (text : Option String) :
    (Value.ofText? text).prune = .ofText? text := by
  cases text <;> rfl

@[simp] theorem Value.isNull_prune (v : Value) : v.prune.isNull = v.isNull := by
  cases v <;> rfl

theorem Value.eq_null_of_isNull (h : v.isNull = true) : v = .null := by
  cases v <;> first | rfl | cases h

theorem pruneMembers_cons (key : String) (v : Value) (ms : Members) :
    Value.pruneMembers ((key, v) :: ms) =
      if v.isNull then Value.pruneMembers ms else (key, v.prune) :: Value.pruneMembers ms := rfl

/-- Null members are dropped, whether or not the values are pruned before. -/
theorem pruneMembers_eq_filter (ms : Members) : Value.pruneMembers ms =
    Members.mapValues (fun _ v => v.prune) (ms.filter fun m => !m.2.isNull) := by
  induction ms with
  | nil => rfl
  | cons m ms ih =>
      obtain ⟨key, v⟩ := m
      rw [pruneMembers_cons, List.filter_cons, ih]
      cases v.isNull <;> rfl

theorem pruneMembers_append (ms ns : Members) :
    Value.pruneMembers (ms ++ ns) = Value.pruneMembers ms ++ Value.pruneMembers ns := by
  induction ms with
  | nil => rfl
  | cons m ms ih =>
      obtain ⟨k, v⟩ := m
      rw [List.cons_append, pruneMembers_cons, pruneMembers_cons, ih]
      split <;> rfl

theorem mem_keys_of_mem_pruneMembers (h : key ∈ Members.keys (Value.pruneMembers ms)) :
    key ∈ ms.keys := by
  induction ms with
  | nil => exact h
  | cons m ms ih =>
      obtain ⟨k, v⟩ := m
      rw [pruneMembers_cons] at h
      simp only [Members.keys, List.map_cons, List.mem_cons]
      split at h
      · exact Or.inr (ih h)
      · simp only [Members.keys, List.map_cons, List.mem_cons] at h
        exact h.imp id ih

theorem get?_eq_none_of_notMem (h : key ∉ ms.keys) : ms.get? key = none := by
  induction ms with
  | nil => rfl
  | cons m ms ih =>
      obtain ⟨k, v⟩ := m
      simp only [Members.keys, List.map_cons, List.mem_cons, not_or] at h
      rw [Members.get?_cons, if_neg (Ne.symm h.1), ih h.2]

theorem mem_pruneMembers {m : String × Value} (h : m ∈ Value.pruneMembers ms) :
    ∃ n ∈ ms, m = (n.1, n.2.prune) := by
  induction ms with
  | nil => exact absurd h List.not_mem_nil
  | cons n ms ih =>
      rw [pruneMembers_cons] at h
      have htail : m ∈ Value.pruneMembers ms → ∃ n' ∈ n :: ms, m = (n'.1, n'.2.prune) := by
        intro hmem
        obtain ⟨n', hn', heq⟩ := ih hmem
        exact ⟨n', List.mem_cons_of_mem n hn', heq⟩
      split at h
      · exact htail h
      · rcases List.mem_cons.mp h with rfl | hmem
        · exact ⟨n, List.mem_cons_self, rfl⟩
        · exact htail hmem

theorem length_pruneMembers_le (ms : Members) : (Value.pruneMembers ms).length ≤ ms.length := by
  induction ms with
  | nil => exact Nat.le_refl 0
  | cons m ms ih =>
      rw [pruneMembers_cons]
      split
      · exact Nat.le_succ_of_le ih
      · exact Nat.succ_le_succ ih

/-- An object that is left as long as it was had no null member to drop. -/
theorem pruneMembers_eq_mapValues (h : ms.length ≤ (Value.pruneMembers ms).length) :
    Value.pruneMembers ms = ms.mapValues fun _ v => v.prune := by
  induction ms with
  | nil => rfl
  | cons m ms ih =>
      obtain ⟨key, v⟩ := m
      rw [pruneMembers_cons] at h ⊢
      split at h
      · have hle := length_pruneMembers_le ms
        rw [List.length_cons] at h
        omega
      · rename_i hv
        rw [if_neg hv, ih (Nat.le_of_succ_le_succ h), Members.mapValues_cons]

theorem prune_eq_of_mem (h : Value.pruneMembers ms = ms) {m : String × Value} (hm : m ∈ ms) :
    m.2.prune = m.2 := by
  have hmap := pruneMembers_eq_mapValues (Nat.le_of_eq (congrArg List.length h).symm)
  exact Members.mapValues_eq_self_iff.mp (hmap.symm.trans h) m hm

theorem Value.eq_str_of_prune {text : String} (h : v.prune = .str text) : v = .str text := by
  cases v with
  | str text => exact h
  | _ => cases h

mutual

theorem Value.prune_prune : ∀ v : Value, v.prune.prune = v.prune
  | .null => rfl
  | .bool _ => rfl
  | .num _ => rfl
  | .str _ => rfl
  | .arr items => by rw [Value.prune, Value.prune, Value.pruneItems_pruneItems items]
  | .obj ms => by rw [Value.prune_obj, Value.prune_obj, Value.pruneMembers_pruneMembers ms]

theorem Value.pruneItems_pruneItems : ∀ items : List Value,
    Value.pruneItems (Value.pruneItems items) = Value.pruneItems items
  | [] => rfl
  | v :: vs => by
      simp only [Value.pruneItems]
      rw [Value.prune_prune v, Value.pruneItems_pruneItems vs]

theorem Value.pruneMembers_pruneMembers : ∀ ms : List (String × Value),
    Value.pruneMembers (Value.pruneMembers ms) = Value.pruneMembers ms
  | [] => rfl
  | (key, v) :: ms => by
      rw [pruneMembers_cons]
      split
      · exact Value.pruneMembers_pruneMembers ms
      · rename_i hv
        rw [pruneMembers_cons, Value.isNull_prune, if_neg hv, Value.prune_prune v,
          Value.pruneMembers_pruneMembers ms]

end

theorem read_pruneMembers (h : ms.keys.Nodup) (key : String) :
    Members.read (Value.pruneMembers ms) key = (ms.read key).prune := by
  induction ms with
  | nil => rfl
  | cons m ms ih =>
      obtain ⟨k, v⟩ := m
      obtain ⟨hk, hms⟩ := List.nodup_cons.mp h
      by_cases hkey : k = key
      · subst hkey
        -- A null member hides none after it: its key stands nowhere else.
        have hrest := get?_eq_none_of_notMem (mt mem_keys_of_mem_pruneMembers hk)
        simp only [pruneMembers_cons, Members.read, Members.get?_cons, if_true, Option.getD_some]
        split
        · rename_i hv
          rw [hrest, Value.eq_null_of_isNull hv]
          rfl
        · rw [Members.get?_cons, if_pos rfl]
          rfl
      · have ih := ih hms
        simp only [Members.read] at ih
        simp only [pruneMembers_cons, Members.read, Members.get?_cons, hkey, if_false]
        split
        · exact ih
        · rw [Members.get?_cons, if_neg hkey]
          exact ih

theorem get?_pruneMembers_of_null (h : Members.read (Value.pruneMembers ms) key = .null) :
    Members.get? (Value.pruneMembers ms) key = none := by
  induction ms with
  | nil => rfl
  | cons m ms ih =>
      obtain ⟨k, v⟩ := m
      rw [pruneMembers_cons] at h ⊢
      by_cases hv : v.isNull = true
      · rw [if_pos hv] at h ⊢
        exact ih h
      · rw [if_neg hv] at h ⊢
        simp only [Members.read, Members.get?_cons] at h
        rw [Members.get?_cons]
        by_cases hk : k = key
        · rw [if_pos hk, Option.getD_some] at h
          rw [← Value.isNull_prune, h] at hv
          exact absurd rfl hv
        · rw [if_neg hk] at h ⊢
          exact ih h

namespace Members

/-- The same keys in the same order, with values that are the same without their null members. -/
def Alike (ms ns : Members) : Prop :=
  List.Forall₂ (fun m n => m.1 = n.1 ∧ m.2.prune = n.2.prune) ms ns

theorem Alike.refl (ms : Members) : ms.Alike ms :=
  List.forall₂_same.mpr fun _ _ => ⟨rfl, rfl⟩

theorem Alike.prune_eq {ms ns : Members} (h : ms.Alike ns) :
    Value.pruneMembers ms = Value.pruneMembers ns := by
  induction h with
  | nil => rfl
  | @cons m n ms ns hmn _ ih =>
      obtain ⟨k, v⟩ := m
      obtain ⟨k', w⟩ := n
      obtain ⟨rfl, hvw⟩ := hmn
      simp only at hvw
      rw [pruneMembers_cons, pruneMembers_cons, ← Value.isNull_prune v, ← Value.isNull_prune w, hvw,
        ih]

theorem Alike.put {ms ns : Members} (h : ms.Alike ns) (key : String) (hvw : v.prune = w.prune) :
    (ms.put key v).Alike (ns.put key w) := by
  induction h with
  | nil => exact .cons ⟨rfl, hvw⟩ .nil
  | @cons m n ms ns hmn hms ih =>
      obtain ⟨k, x⟩ := m
      obtain ⟨k', y⟩ := n
      obtain ⟨rfl, hxy⟩ := hmn
      simp only [Members.put]
      split
      · exact .cons ⟨rfl, hvw⟩ hms
      · exact .cons ⟨rfl, hxy⟩ ih

theorem Alike.has_eq {ms ns : Members} (h : ms.Alike ns) (key : String) :
    ms.has key = ns.has key := by
  induction h with
  | nil => rfl
  | @cons m n ms ns hmn _ ih =>
      obtain ⟨k, v⟩ := m
      obtain ⟨k', w⟩ := n
      obtain ⟨rfl, _⟩ := hmn
      simp only [Members.has, get?_cons] at ih ⊢
      split
      · rfl
      · exact ih

theorem update_alike {f g : Value → Value} (ms : Members) (key : String)
    (h : ∀ v, ms.get? key = some v → (f v).prune = (g v).prune) :
    (ms.update key f).Alike (ms.update key g) := by
  induction ms with
  | nil => exact .nil
  | cons m ms ih =>
      obtain ⟨k, v⟩ := m
      simp only [Members.update]
      split
      · rename_i hk
        exact .cons ⟨rfl, h v (by rw [get?_cons, if_pos hk])⟩ (Alike.refl ms)
      · rename_i hk
        exact .cons ⟨rfl, rfl⟩ (ih fun w hw => h w (by rw [get?_cons, if_neg hk, hw]))

theorem Alike.update {ms ns : Members} {f : Value → Value} (h : ms.Alike ns) (key : String)
    (hf : ∀ v w, v.prune = w.prune → (f v).prune = (f w).prune) :
    (ms.update key f).Alike (ns.update key f) := by
  induction h with
  | nil => exact .nil
  | @cons m n ms ns hmn hms ih =>
      obtain ⟨k, x⟩ := m
      obtain ⟨k', y⟩ := n
      obtain ⟨rfl, hxy⟩ := hmn
      simp only [Members.update]
      split
      · exact .cons ⟨rfl, hf x y hxy⟩ hms
      · exact .cons ⟨rfl, hxy⟩ ih

end Members

/-- Beside a member of another key, a write lands in front of it or behind it, whatever its value. -/
theorem put_beside (h : key ≠ k) (ms ns : Members) (v : Value) :
    ∃ ms' ns' : Members, (key ∉ ms.keys → key ∉ ms'.keys) ∧
      (∀ w, Members.put (ms ++ (key, w) :: ns) k v = ms' ++ (key, w) :: ns') ∧
        Members.put (ms ++ ns) k v = ms' ++ ns' := by
  induction ms with
  | nil =>
      refine ⟨[], ns.put k v, id, fun w => ?_, rfl⟩
      simp only [List.nil_append, Members.put, h, if_false]
  | cons m ms ih =>
      obtain ⟨k', u⟩ := m
      by_cases hk : k' = k
      · refine ⟨(k', v) :: ms, ns, id, fun w => ?_, ?_⟩
        · simp only [List.cons_append, Members.put, hk, if_true]
        · simp only [List.cons_append, Members.put, hk, if_true]
      · obtain ⟨ms', ns', hkeys, hwith, hwithout⟩ := ih
        refine ⟨(k', u) :: ms', ns', ?_, fun w => ?_, ?_⟩
        · simp only [Members.keys, List.map_cons, List.mem_cons, not_or] at hkeys ⊢
          exact fun hmem => ⟨hmem.1, hkeys hmem.2⟩
        · simp only [List.cons_append, Members.put, hk, if_false, hwith]
        · simp only [List.cons_append, Members.put, hk, if_false, hwithout]

/-- A null member is dropped whether the other keys are written before or after. -/
theorem pruneMembers_putAll_null {pairs : List (String × Value)} (h : key ∉ pairs.map Prod.fst)
    (ms ns : Members) :
    Value.pruneMembers (Members.putAll (ms ++ (key, .null) :: ns) pairs) =
      Value.pruneMembers (Members.putAll (ms ++ ns) pairs) := by
  -- The null member may stand anywhere, since a write can land on either side of it.
  induction pairs generalizing ms ns with
  | nil =>
      change Value.pruneMembers (ms ++ (key, .null) :: ns) = Value.pruneMembers (ms ++ ns)
      rw [pruneMembers_append, pruneMembers_append]
      rfl
  | cons p pairs ih =>
      obtain ⟨k, v⟩ := p
      rw [List.map_cons, List.mem_cons, not_or] at h
      obtain ⟨ms', ns', _, hwith, hwithout⟩ := put_beside h.1 ms ns v
      rw [Members.putAll_cons, Members.putAll_cons, hwith, hwithout]
      exact ih h.2 ms' ns'

/-- A key that is given the value it reads as leaves no trace once null members are dropped. -/
theorem pruneMembers_putAll_of_read {pairs : List (String × Value)}
    (hk : key ∉ pairs.map Prod.fst) (h : ms.read key = v) :
    Value.pruneMembers ((ms.put key v).putAll pairs) = Value.pruneMembers (ms.putAll pairs) := by
  cases hget : ms.get? key with
  | some w =>
      have hw : v = w := h.symm.trans (Members.read_of_get? hget)
      rw [Members.put_of_get? (hw ▸ hget)]
  | none =>
      have hv : v = .null := by rw [← h, Members.read, hget, Option.getD_none]
      rw [Members.put_of_missing hget, hv]
      simpa only [List.append_nil] using pruneMembers_putAll_null hk ms []

/-- Keys that are given the values they read as leave no trace once null members are dropped. -/
theorem pruneMembers_putAll_settled (settled rest : List (String × Value))
    (hk : ((settled ++ rest).map Prod.fst).Nodup) (h : ∀ p ∈ settled, ms.read p.1 = p.2) :
    Value.pruneMembers (ms.putAll (settled ++ rest)) = Value.pruneMembers (ms.putAll rest) := by
  induction settled with
  | nil => rfl
  | cons p settled ih =>
      obtain ⟨k, v⟩ := p
      obtain ⟨hp, hps⟩ := List.forall_mem_cons.mp h
      rw [List.cons_append, List.map_cons, List.nodup_cons] at hk
      rw [List.cons_append, Members.putAll_cons, pruneMembers_putAll_of_read hk.1 hp]
      exact ih hk.2 hps

theorem pruneMembers_putAll_of_settled {pairs : List (String × Value)}
    (hk : (pairs.map Prod.fst).Nodup) (h : ∀ p ∈ pairs, ms.read p.1 = p.2) :
    Value.pruneMembers (ms.putAll pairs) = Value.pruneMembers ms := by
  have hk' : ((pairs ++ []).map Prod.fst).Nodup := by rwa [List.append_nil]
  have hsettled := pruneMembers_putAll_settled pairs [] hk' h
  rwa [List.append_nil] at hsettled

/-- Of several keys that are written, only one gets another value than it reads as. -/
theorem pruneMembers_putAll_single (before after : List (String × Value))
    (hk : ((before ++ (key, v) :: after).map Prod.fst).Nodup)
    (hbefore : ∀ p ∈ before, ms.read p.1 = p.2) (hafter : ∀ p ∈ after, ms.read p.1 = p.2) :
    Value.pruneMembers (ms.putAll (before ++ (key, v) :: after)) =
      Value.pruneMembers (ms.put key v) := by
  rw [pruneMembers_putAll_settled before _ hk hbefore, Members.putAll_cons]
  rw [List.map_append, List.nodup_append] at hk
  obtain ⟨hkey, hrest⟩ := List.nodup_cons.mp hk.2.1
  apply pruneMembers_putAll_of_settled hrest
  intro p hp
  have hne : key ≠ p.1 := by
    rintro rfl
    exact hkey (List.mem_map.mpr ⟨p, hp, rfl⟩)
  rw [Members.read_put, if_neg hne, hafter p hp]

end Tabular.Json
