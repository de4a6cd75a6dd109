/- The dump of a model nests no deeper than the document that it was loaded from, and has no floats
   of its own. -/
import Tabular.Proofs.Json.Nesting
import Tabular.Proofs.Model.Graph

namespace Tabular.Model
open Tabular.Json
variable {n : Nat} {v : Value} {ms : Members} {f : Value → Value} {config : Config} {fresh : String}
  {doc : Value} {g : Graph}

theorem tame_revisedItems (hf : ∀ v : Value, v.Tame n → (f v).Tame n) (h : v.Tame (n + 1)) :
    (revisedItems f v).Tame (n + 1) := by
  cases v with
  | null => exact Value.tame_arr.mpr fun _ hv => absurd hv List.not_mem_nil
  | arr items =>
      rw [revisedItems, Value.tame_arr, List.forall_mem_map]
      exact fun v hv => hf v (Value.tame_arr.mp h v hv)
  | _ => exact h

theorem tame_revise_update (hf : ∀ w : Value, w.Tame n → (f w).Tame n) (h : v.Tame (n + 1))
    (key : String) : (v.revise fun ms => ms.update key f).Tame (n + 1) :=
  h.revise fun _ hms => Members.forall_mem_update hf hms key

theorem tame_revisedColumn (h : v.Tame (n + 1)) : (revisedColumn v).Tame (n + 1) := by
  refine tame_revise_update ?_ h "dataType"
  intro w hw
  cases w with
  | str type => exact Value.tame_str n _
  | _ => exact hw

theorem tame_revisedMeasure (h : v.Tame (n + 1)) : (revisedMeasure v).Tame (n + 1) := by
  refine tame_revise_update ?_ h "expression"
  intro w hw
  cases w with
  | arr lines => exact Value.tame_str n _
  | _ => exact hw

theorem tame_revisedRelationship (h : v.Tame (n + 1)) : (revisedRelationship v).Tame (n + 1) := by
  apply h.revise
  intro ms hms
  split
  · exact Members.tame_put hms (Value.tame_str n _) _
  · exact hms

theorem tame_revisedTable (h : v.Tame (n + 3)) : (revisedTable v).Tame (n + 3) := by
  apply h.revise
  intro ms hms
  have hmeasures : ∀ m ∈ revisedMeasures ms, m.2.Tame (n + 2) :=
    Members.forall_mem_update (fun _ => tame_revisedItems fun _ => tame_revisedMeasure) hms _
  have hcolumns := tame_revisedItems (fun _ => tame_revisedColumn) (Members.tame_read hms "columns")
  have hpartitions := tame_revisedItems (fun _ hv => hv) (Members.tame_read hms "partitions")
  exact Members.tame_put (Members.tame_put hmeasures hcolumns _) hpartitions _

theorem tame_revisedGroup (i : Nat) (h : v.Tame (n + 3)) : (revisedGroup i v).Tame (n + 3) := by
  rw [revisedGroup, Value.tame_obj]
  simp only [List.forall_mem_cons, List.not_mem_nil, false_implies, implies_true, and_true]
  refine ⟨Members.tame_read h.members _, ?_⟩
  simp [Value.tame_arr, Value.tame_obj, remark]

theorem tame_revisedGroups (h : v.Tame (n + 4)) : (revisedGroups v).Tame (n + 4) := by
  cases v with
  | arr docs => cases docs with
    | nil => exact Value.tame_null _
    | cons doc docs =>
        rw [revisedGroups, Value.tame_arr]
        · intro w hw
          obtain ⟨i, hi, rfl⟩ := List.mem_mapIdx.mp hw
          exact tame_revisedGroup i (Value.tame_arr.mp h _ (List.getElem_mem hi))
        · exact List.cons_ne_nil doc docs
  | _ => exact h

theorem tame_configured (config : Config) (hms : ∀ m ∈ ms, m.2.Tame (n + 1)) :
    ∀ m ∈ configured config ms, m.2.Tame (n + 1) := by
  have hoptions : (accessOptions (ms.read "dataAccessOptions")).Tame (n + 1) :=
    Value.tame_obj.mpr (Members.tame_put (Members.tame_put (Members.tame_read hms _).members
      (Value.tame_bool n true) _) (Value.tame_bool n true) _)
  intro m hm
  rcases Members.mem_putAll hm with hfield | hm
  · simp only [modelFields, List.mem_cons, List.not_mem_nil, or_false] at hfield
    rcases hfield with rfl | rfl | rfl
    · exact hoptions
    · exact Value.tame_str _ _
    · exact Value.tame_str _ _
  · exact hms m hm

theorem tame_revisedModel (hms : ∀ m ∈ ms, m.2.Tame (n + 4)) :
    ∀ m ∈ revisedModel config ms, m.2.Tame (n + 4) := by
  have hgroups := Members.forall_mem_update (fun _ => tame_revisedGroups)
    (tame_configured config hms) "queryGroups"
  have htables := Members.forall_mem_update
    (fun _ => tame_revisedItems fun _ => tame_revisedTable) hgroups "tables"
  exact Members.forall_mem_update
    (fun _ => tame_revisedItems fun _ => tame_revisedRelationship) htables "relationships"

theorem tame_revisedDocument (h : v.Tame (n + 6)) :
    (revisedDocument fresh config v).Tame (n + 6) := by
  apply h.revise
  intro root hroot
  have hname : (revisedName fresh (root.read "name")).Tame (n + 5) := by
    rw [revisedName]
    split
    · exact Value.tame_str _ _
    · exact Members.tame_read hroot _
  have hmodel : (Value.obj (revisedModel config (root.read "model").members)).Tame (n + 5) :=
    Value.tame_obj.mpr (tame_revisedModel (Members.tame_read hroot "model").members)
  exact Members.tame_put (Members.tame_put hroot hname _) hmodel _

theorem Graph.Loaded.tame_dump (h : Graph.Loaded fresh config doc g) (hdoc : doc.Tame (n + 6)) :
    g.dump.Tame (n + 6) := by
  rw [h.dump_eq]
  exact (tame_revisedDocument hdoc).prune

end Tabular.Model
