/- Lists of a document, as they are loaded and written. -/
import Tabular.Model.Graph
import Tabular.Proofs.Model.Field

namespace Tabular.Model
open Tabular.Json
variable {ms : Members} {key k : String} {v : Value} {α : Type} {R : Value → α → Prop} {as : List α}

/-- A value lists documents that hold the elements, where null lists none. -/
def Listing (R : Value → α → Prop) (v : Value) (as : List α) : Prop :=
  ∃ docs, listed? v = some docs ∧ List.Forall₂ R docs as

/-- A list as a dump has it: null is an empty one. -/
def revisedItems (f : Value → Value) : Value → Value
  | .null => .arr []
  | .arr items => .arr (items.map f)
  | v => v

theorem listed?_eq_some {docs : List Value} (h : listed? v = some docs) :
    v = .arr docs ∨ v = .null ∧ docs = [] := by
  cases v with
  | arr items =>
      cases h
      exact Or.inl rfl
  | null =>
      cases h
      exact Or.inr ⟨rfl, rfl⟩
  | _ => cases h

theorem revisedItems_eq {docs : List Value} (h : listed? v = some docs) (f : Value → Value) :
    revisedItems f v = .arr (docs.map f) := by
  rcases listed?_eq_some h with rfl | ⟨rfl, rfl⟩
  · rfl
  · rfl

theorem Listing.prune_dumps (h : Listing R v as) {dump : α → Value} {f : Value → Value}
    (hR : ∀ {doc a}, R doc a → (dump a).prune = (f doc).prune) :
    (Value.arr (as.map dump)).prune = (revisedItems f v).prune := by
  obtain ⟨docs, hdocs, hload⟩ := h
  rw [revisedItems_eq hdocs, Value.prune_arr, Value.prune_arr, List.map_map, List.map_map]
  congr 1
  clear hdocs
  induction hload with
  | nil => rfl
  | @cons doc a docs as hdoc _ ih =>
      rw [List.map_cons, List.map_cons, ih]
      congr 1
      exact hR hdoc

theorem Listing.keyed (h : Listing R v as) (hv : v.Keyed) {P : α → Prop}
    (hR : ∀ {doc a}, R doc a → doc.Keyed → P a) : ∀ a ∈ as, P a := by
  obtain ⟨docs, hdocs, hload⟩ := h
  have hkeyed : ∀ doc ∈ docs, doc.Keyed := by
    rcases listed?_eq_some hdocs with rfl | ⟨rfl, rfl⟩
    · exact Value.keyed_arr.mp hv
    · exact fun _ hmem => absurd hmem List.not_mem_nil
  clear hdocs
  induction hload with
  | nil => exact fun _ hmem => absurd hmem List.not_mem_nil
  | @cons doc a docs as hdoc _ ih =>
      obtain ⟨hhead, htail⟩ := List.forall_mem_cons.mp hkeyed
      exact List.forall_mem_cons.mpr ⟨hR hdoc hhead, ih htail⟩

theorem Listing.of_dumps {β : Type} {S : Value → β → Prop} {dump : α → Value} {reload : α → β}
    (h : ∀ a ∈ as, S (dump a).prune (reload a)) :
    Listing S (Value.arr (as.map dump)).prune (as.map reload) := by
  refine ⟨(as.map dump).map Value.prune, by rw [Value.prune_arr]; rfl, ?_⟩
  rw [List.map_map, List.forall₂_map_left_iff, List.forall₂_map_right_iff, List.forall₂_same]
  exact h

theorem revisedItems_dumps {dump : α → Value} {f : Value → Value}
    (h : ∀ a ∈ as, f (dump a).prune = (dump a).prune) :
    revisedItems f (Value.arr (as.map dump)).prune = (Value.arr (as.map dump)).prune := by
  simp only [Value.prune_arr, revisedItems, List.map_map]
  congr 1
  exact List.map_congr_left h

/-- A list is written where its key is present; elsewhere there are no elements. -/
theorem putItems_cases (ms : Members) (key : String) (items : List Value) :
    putItems ms key items = ms.put key (.arr items) ∨
      putItems ms key items = ms ∧ items = [] ∧ ms.get? key = none := by
  rw [putItems]
  split
  · exact Or.inl rfl
  · rename_i h
    simp only [Bool.or_eq_true, Bool.not_eq_true', not_or, Bool.not_eq_false,
      Bool.not_eq_true, Members.has_eq_false_iff, List.isEmpty_iff] at h
    exact Or.inr ⟨rfl, h.1, h.2⟩

theorem putItems_replace (ms : Members) (key : String) (v : Value) (items : List Value) :
    putItems (ms.replace key v) key items = putItems ms key items := by
  cases h : ms.get? key with
  | none => rw [Members.replace, Members.update_of_missing h]
  | some w =>
      have hhas : ms.has key = true := by rw [Members.has, h, Option.isSome_some]
      simp only [putItems, Members.replace, Members.has_update, hhas, Bool.or_true, if_true]
      exact Members.put_update_self ms key _ _

theorem putItems_update_of_ne (h : k ≠ key) (ms : Members) (f : Value → Value)
    (items : List Value) :
    putItems (ms.update k f) key items = (putItems ms key items).update k f := by
  simp only [putItems, Members.has_update]
  split
  · exact Members.put_update_of_ne h ms f (.arr items)
  · rfl

theorem putItems_congr {ns : Members} (h : ms.Alike ns) (key : String) (items : List Value) :
    (putItems ms key items).Alike (putItems ns key items) := by
  simp only [putItems, h.has_eq key]
  split
  · exact h.put key rfl
  · exact h

/-- Writing the dumps of loaded elements revises the list where there is one. -/
theorem putItems_alike (h : Listing R (ms.read key) as) {dump : α → Value} {f : Value → Value}
    (hR : ∀ {doc a}, R doc a → (dump a).prune = (f doc).prune) :
    (putItems ms key (as.map dump)).Alike (ms.update key (revisedItems f)) := by
  cases hget : ms.get? key with
  | some v =>
      have hput : putItems ms key (as.map dump) = ms.update key fun _ => .arr (as.map dump) := by
        rw [putItems, Members.has, hget, ← Members.put_eq_update hget]
        simp
      rw [hput]
      apply Members.update_alike
      intro w hw
      rw [← Members.read_of_get? hw]
      exact h.prune_dumps hR
  | none =>
      obtain ⟨docs, hdocs, hload⟩ := h
      rw [Members.read, hget, Option.getD_none] at hdocs
      cases hdocs
      cases hload
      have hput : putItems ms key [] = ms := by
        rw [putItems, Members.has, hget]
        rfl
      rw [List.map_nil, hput, Members.update_of_missing hget]
      exact Members.Alike.refl ms

theorem read_putItems_of_ne (h : key ≠ k) (ms : Members) (items : List Value) :
    (putItems ms key items).read k = ms.read k := by
  rcases putItems_cases ms key items with heq | ⟨heq, _⟩
  · rw [heq, Members.read_put, if_neg h]
  · rw [heq]

/-- A written list reads as its elements; one that is left out has none. -/
theorem read_putItems (ms : Members) (key : String) (items : List Value) :
    (putItems ms key items).read key = .arr items ∨
      (putItems ms key items).read key = .null ∧ items = [] := by
  rcases putItems_cases ms key items with heq | ⟨heq, hitems, hget⟩
  · exact Or.inl (by rw [heq, Members.read_put_self])
  · exact Or.inr ⟨by rw [heq, Members.read, hget, Option.getD_none], hitems⟩

theorem prune_read_putItems (ms : Members) (key : String) (items : List Value) :
    ((putItems ms key items).read key).prune = (Value.arr items).prune ∨
      ((putItems ms key items).read key).prune = .null := by
  rcases read_putItems ms key items with hread | ⟨hread, _⟩
  · exact Or.inl (by rw [hread])
  · exact Or.inr (by rw [hread, Value.prune_null])

theorem keyed_putItems (h : (Value.obj ms).Keyed) (key : String) {items : List Value}
    (hitems : ∀ v ∈ items, v.Keyed) : (Value.obj (putItems ms key items)).Keyed := by
  rcases putItems_cases ms key items with heq | ⟨heq, _⟩
  · rw [heq]
    exact Members.keyed_put h key (Value.keyed_arr.mpr hitems)
  · rwa [heq]

/-- Elements that load from their dumps load from the list that is written of these. -/
theorem Listing.of_putItems {β : Type} {S : Value → β → Prop} {dump : α → Value}
    {reload : α → β} (h : ∀ a ∈ as, S (dump a).prune (reload a)) (ms : Members) (key : String) :
    Listing S ((putItems ms key (as.map dump)).read key).prune (as.map reload) := by
  rcases read_putItems ms key (as.map dump) with hread | ⟨hread, hnil⟩
  · rw [hread]
    exact Listing.of_dumps h
  · cases List.map_eq_nil_iff.mp hnil
    rw [hread]
    exact ⟨[], rfl, .nil⟩

theorem update_revisedItems {dump : α → Value} {f : Value → Value}
    (h : ∀ a ∈ as, f (dump a).prune = (dump a).prune)
    (hread : Members.read (Value.pruneMembers ms) key = (Value.arr (as.map dump)).prune ∨
      Members.read (Value.pruneMembers ms) key = .null) :
    Members.update (Value.pruneMembers ms) key (revisedItems f) = Value.pruneMembers ms := by
  rcases hread with hread | hread
  · apply Members.update_of_fixed
    intro v hv
    rw [(Members.read_of_get? hv).symm.trans hread]
    exact revisedItems_dumps h
  · exact Members.update_of_missing (get?_pruneMembers_of_null hread) _

end Tabular.Model
