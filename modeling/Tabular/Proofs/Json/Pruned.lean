/- What stands at the paths of a document whose null members have been dropped. -/
import Tabular.Proofs.Json.Path

namespace Tabular.Json
variable {ms : Members} {items : List Value} {key : String} {path : List Branch} {v w : Value}

theorem Value.isNull_eq_false_iff : v.isNull = false ↔ v ≠ .null := by
  cases v <;> simp [Value.isNull]

theorem ne_null_of_mem_pruneMembers {m : String × Value} (h : m ∈ Value.pruneMembers ms) :
    m.2 ≠ .null := by
  rw [pruneMembers_eq_filter, Members.mapValues, List.mem_map] at h
  obtain ⟨n, hn, rfl⟩ := h
  rw [← Value.isNull_eq_false_iff, Value.isNull_prune]
  simpa using (List.mem_filter.mp hn).2

theorem get?_pruneMembers_of_ne_null (hkeys : ms.keys.Nodup) (h : ms.get? key = some v)
    (hv : v ≠ .null) : Members.get? (Value.pruneMembers ms) key = some v.prune := by
  have hread := read_pruneMembers hkeys key
  rw [Members.read_of_get? h] at hread
  apply Members.get?_of_read hread
  rwa [Value.isNull_prune, Value.isNull_eq_false_iff]

theorem exists_get?_of_pruneMembers (hkeys : ms.keys.Nodup)
    (h : Members.get? (Value.pruneMembers ms) key = some w) :
    ∃ v, ms.get? key = some v ∧ w = v.prune := by
  have hread := read_pruneMembers hkeys key
  rw [Members.read_of_get? h] at hread
  refine ⟨ms.read key, Members.get?_of_read rfl ?_, hread⟩
  have hw : w ≠ .null := ne_null_of_mem_pruneMembers (Members.mem_of_get? h)
  rwa [← Value.isNull_prune, ← hread, Value.isNull_eq_false_iff]

/-- A path leads to what it led to before, unless that was null. -/
theorem Value.Keyed.at?_prune (hv : v.Keyed) (h : v.at? path = some w) (hw : w ≠ .null) :
    v.prune.at? path = some w.prune := by
  induction v, path, h using Value.at?_ind with
  | here => rfl
  | key ms name rest u hget hu ih =>
      rw [Value.prune_obj, Value.at?_key_eq_some]
      exact ⟨u.prune, get?_pruneMembers_of_ne_null (Value.keyed_obj.mp hv).1 hget
        (Value.ne_null_of_at? hu hw), ih (Members.keyed_of_get? hv hget)⟩
  | item items i rest u hget _ ih =>
      rw [Value.prune_arr, Value.at?_item_eq_some]
      refine ⟨u.prune, ?_, ih (Value.keyed_arr.mp hv u (List.mem_of_getElem? hget))⟩
      rw [List.getElem?_map, hget, Option.map_some]

/-- A path that is still there led to the same value before. -/
theorem Value.Keyed.exists_at?_of_prune (hv : v.Keyed) (h : v.prune.at? path = some w) :
    ∃ u, v.at? path = some u ∧ w = u.prune := by
  induction path generalizing v with
  | nil =>
      cases h
      exact ⟨v, rfl, rfl⟩
  | cons branch rest ih => cases branch with
    | key name => cases v with
      | obj ms =>
          obtain ⟨x, hget, hx⟩ := Value.at?_key_eq_some.mp h
          obtain ⟨y, hy, rfl⟩ := exists_get?_of_pruneMembers (Value.keyed_obj.mp hv).1 hget
          obtain ⟨u, hu, rfl⟩ := ih (Members.keyed_of_get? hv hy) hx
          exact ⟨u, Value.at?_key_eq_some.mpr ⟨y, hy, hu⟩, rfl⟩
      | _ => cases h
    | item i => cases v with
      | arr items =>
          rw [Value.prune_arr] at h
          obtain ⟨x, hget, hx⟩ := Value.at?_item_eq_some.mp h
          rw [List.getElem?_map, Option.map_eq_some_iff] at hget
          obtain ⟨y, hy, rfl⟩ := hget
          obtain ⟨u, hu, rfl⟩ := ih (Value.keyed_arr.mp hv y (List.mem_of_getElem? hy)) hx
          exact ⟨u, Value.at?_item_eq_some.mpr ⟨y, hy, hu⟩, rfl⟩
      | _ => cases h

theorem Value.Keyed.ne_null_of_at?_prune (hv : v.Keyed)
    (h : v.prune.at? path = some (.obj ms)) : ∀ m ∈ ms, m.2 ≠ .null := by
  obtain ⟨u, _, hu⟩ := hv.exists_at?_of_prune h
  cases u with
  | obj ns =>
      cases hu
      exact fun m hm => ne_null_of_mem_pruneMembers hm
  | _ => cases hu

theorem getElem?_map_prune_eq_null (items : List Value) (i : Nat) :
    (items.map Value.prune)[i]? = some .null ↔ items[i]? = some .null := by
  rw [List.getElem?_map, Option.map_eq_some_iff]
  constructor
  · rintro ⟨v, hv, hnull⟩
    cases v <;> first | exact hv | cases hnull
  · intro h
    exact ⟨.null, h, rfl⟩

theorem keys_pruneMembers (ms : Members) : Members.keys (Value.pruneMembers ms) =
    Members.keys (ms.filter fun m => !m.2.isNull) := by
  rw [pruneMembers_eq_filter, Members.keys_mapValues]

/-- In a document whose null members have been dropped no object has one. Its lists are as long as
    before and have null where they had it, and its objects have their other keys in the order they
    were in. What stands at a path stood there before, with its null members; and nothing is left
    to drop. -/
theorem Value.prune_drops_null_members (d : Document) :
    (∀ path ms, d.value.prune.at? path = some (.obj ms) → ∀ m ∈ ms, m.2 ≠ .null) ∧
      (∀ path items, d.value.at? path = some (.arr items) →
        ∃ pruned, d.value.prune.at? path = some (.arr pruned) ∧ pruned.length = items.length ∧
          ∀ i : Nat, pruned[i]? = some .null ↔ items[i]? = some .null) ∧
      (∀ path ms, d.value.at? path = some (.obj ms) →
        ∃ pruned, d.value.prune.at? path = some (.obj pruned) ∧
          Members.keys pruned = Members.keys (ms.filter fun m => !m.2.isNull)) ∧
      (∀ path w, d.value.prune.at? path = some w →
        ∃ v, d.value.at? path = some v ∧ w = v.prune) ∧
      d.value.prune.prune = d.value.prune := by
  refine ⟨?_, ?_, ?_, ?_, Value.prune_prune d.value⟩
  · intro path ms h
    exact d.keyed.ne_null_of_at?_prune h
  · intro path items h
    refine ⟨items.map Value.prune, ?_, List.length_map _, getElem?_map_prune_eq_null items⟩
    rw [d.keyed.at?_prune h (by nofun), Value.prune_arr]
  · intro path ms h
    refine ⟨Value.pruneMembers ms, ?_, keys_pruneMembers ms⟩
    rw [d.keyed.at?_prune h (by nofun), Value.prune_obj]
  · intro path w h
    exact d.keyed.exists_at?_of_prune h

/-- An object that loses its last member stays, and so does a null element. -/
example : (Value.obj [("a", .null), ("b", .arr [.null, .obj [("c", .null)]])]).prune =
    .obj [("b", .arr [.null, .obj []])] := rfl

end Tabular.Json
