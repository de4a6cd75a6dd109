/- Models against what loading their dumps gives. -/
import Tabular.Proofs.Json.Agree
import Tabular.Proofs.Model.Invariant
import Tabular.Proofs.Passthrough

namespace Tabular.Model
open Tabular.Json Tabular.Query
variable {config : Config} {g : Graph}

/-- The list of query groups has been emptied and not filled again. -/
def Graph.GroupsCleared (g : Graph) : Prop :=
  g.queryGroups = [] ∧ g.model.get? "queryGroups" = some (.arr [])

theorem revisedGroups_dumpGroups {groups : List String} (h : groups ≠ []) :
    revisedGroups (.arr (groups.mapIdx dumpGroup)) = .arr (groups.mapIdx dumpGroup) := by
  have hgroups := mapIdx_revisedGroup (forall₂_folder_dumpGroups groups)
  cases groups with
  | nil => exact absurd rfl h
  | cons folder groups =>
      rw [List.mapIdx_cons] at hgroups ⊢
      exact congrArg Value.arr hgroups.symm

theorem Graph.Sound.revisedGroups_kept (h : g.Sound) (hg : ¬ g.GroupsCleared) :
    g.keptModel.update "queryGroups" revisedGroups = g.keptModel := by
  have hread := h.toKeyed.read_keptModel "queryGroups"
  rw [read_queryGroups, putGroups] at hread
  split at hread
  · rename_i hempty
    -- Without groups, the stored list is dumped: it is null, missing, or has been emptied.
    rw [read_configured _ _ (by decide)] at hread
    rcases listed?_eq_some h.queryGroups with heq | ⟨heq, _⟩
    · exact absurd ⟨List.isEmpty_iff.mp hempty, Members.get?_of_read heq rfl⟩ hg
    · rw [heq] at hread
      exact Members.update_of_missing (get?_pruneMembers_of_null hread) _
  · rename_i hfull
    rw [Members.read_put_self, prune_dumpGroups] at hread
    apply Members.update_of_fixed
    intro v hv
    rw [(Members.read_of_get? hv).symm.trans hread]
    exact revisedGroups_dumpGroups fun hnil => hfull (List.isEmpty_iff.mpr hnil)

theorem Graph.Sound.dump_reload_of_not_cleared (h : g.Sound) (hg : ¬ g.GroupsCleared) :
    g.reload.dump = g.dump := by
  have hmodel : g.kept.put "model" (.obj g.keptModel) = g.kept :=
    Members.put_of_get? (Members.get?_of_read h.toKeyed.read_model rfl)
  rw [h.dump_reload, h.revisedGroups_kept hg, hmodel, ← Graph.dump_eq_kept, Graph.dump,
    Value.prune_prune]

theorem Graph.GroupsCleared.keptModel (hg : g.GroupsCleared) (h : g.Sound) :
    g.keptModel.get? "queryGroups" = some (.arr []) := by
  apply Members.get?_of_read _ rfl
  rw [h.toKeyed.read_keptModel, read_queryGroups, putGroups, hg.1, List.isEmpty_nil, if_pos rfl,
    read_configured _ _ (by decide), Members.read_of_get? hg.2, Value.prune_arr, List.map_nil]

theorem Graph.Sound.keptModel_reload (h : g.Sound) : g.reload.keptModel =
    Value.pruneMembers (g.keptModel.update "queryGroups" revisedGroups) := by
  rw [Graph.keptModel, (h.loaded_reload g.id).prune_dumpModel, h.toKeyed.modelOf_dump,
    h.revisedModel_kept]

theorem Graph.GroupsCleared.keptModel_reload (hg : g.GroupsCleared) (h : g.Sound) :
    g.reload.keptModel.get? "queryGroups" = none := by
  have hput : g.keptModel.put "queryGroups" .null =
      g.keptModel.update "queryGroups" revisedGroups :=
    Members.put_eq_update (hg.keptModel h) revisedGroups
  have hkeyed : (Value.obj (g.keptModel.put "queryGroups" .null)).Keyed :=
    Members.keyed_put h.keyed_dumpModel.prune "queryGroups" Value.keyed_null
  have hread := hkeyed.read_prune "queryGroups"
  rw [Members.read_put_self, Value.prune_null] at hread
  rw [h.keptModel_reload, ← hput]
  exact get?_pruneMembers_of_null hread

theorem Graph.Sound.sound_reload (h : g.Sound) : g.reload.Sound :=
  (h.loaded_reload g.id).sound h.keyed_dump

/-- The second dump equals the first, unless the query groups have been emptied. -/
theorem Graph.Sound.agrees_reload_iff (h : g.Sound) :
    g.dump.agrees g.reload.dump = true ↔ ¬ g.GroupsCleared := by
  constructor
  · intro hagrees hg
    -- The model of the first dump has the emptied list, that of the second lacks it.
    rw [Graph.dump_eq_kept, Graph.dump_eq_kept] at hagrees
    obtain ⟨model, hmodel, hagrees⟩ :=
      Value.agrees_get? hagrees (Members.get?_of_read h.toKeyed.read_model rfl)
    have hread := h.sound_reload.toKeyed.read_model
    rw [Members.read_of_get? hmodel] at hread
    rw [hread] at hagrees
    obtain ⟨groups, hgroups, _⟩ := Value.agrees_get? hagrees (hg.keptModel h)
    rw [hg.keptModel_reload h] at hgroups
    cases hgroups
  · intro hg
    rw [h.dump_reload_of_not_cleared hg]
    exact Value.agrees_self h.keyed_dump

/-- Emptying a list of query groups that the document has leaves it there. -/
theorem Graph.groupsCleared_clearQueryGroups_iff (g : Graph) :
    g.clearQueryGroups.GroupsCleared ↔ g.model.has "queryGroups" = true := by
  simp only [Graph.GroupsCleared, Graph.clearQueryGroups, true_and, Members.replace,
    Members.get?_update, if_true, Members.has]
  cases g.model.get? "queryGroups" with
  | none => simp
  | some v => simp

/-- Whatever edits have led to a model, its dump loads, and the dump of what is loaded equals the
    first unless the list of query groups has been emptied. -/
theorem Graph.Reachable.reload_agrees_iff (h : g.Reachable config) (fresh : String) :
    ∃ again, (Graph.load fresh config g.dump).result = .ok again ∧
      (g.dump.agrees again.dump = true ↔ ¬ g.GroupsCleared) := by
  refine ⟨g.reload, ?_, h.sound.agrees_reload_iff⟩
  rw [← h.config_eq]
  exact h.sound.load_dump fresh

/-- Some edits of an empty model: a table with a column, a measure and a partition that has steps,
    and a query group that takes the place of cleared ones. -/
def someEdits : List GraphEdit :=
  [.newTable "t" "Sales",
    .table "Sales" (.newColumn "c" "Region" "any" none),
    .table "Sales" (.newMeasure "m" "Total"),
    .table "Sales" (.measure "Total" (.expression "1 + 2" "double")),
    .table "Sales" (.newPartition none (some "Staging")),
    .table "Sales" (.partition 0 (.jsonReader "sales.json" [("Region", "string")] "/work")),
    .clearQueryGroups,
    .insertQueryGroup "Staging"]

theorem Graph.reload_agrees_iff_someEdits :
    ((Graph.empty "g" Config.default).after someEdits).Reachable Config.default ∧
      ∃ again, (Graph.load "h" Config.default
        ((Graph.empty "g" Config.default).after someEdits).dump).result = .ok again ∧
        (((Graph.empty "g" Config.default).after someEdits).dump.agrees again.dump = true ↔
          ¬ ((Graph.empty "g" Config.default).after someEdits).GroupsCleared) :=
  ⟨.empty "g" someEdits, Graph.Reachable.reload_agrees_iff (.empty "g" someEdits) "h"⟩

/-- After clearing the query groups of a new model, the second dump differs from the first. -/
theorem Graph.reload_differs_clearQueryGroups :
    (Graph.empty "g" Config.default).clearQueryGroups.Reachable Config.default ∧
      ∃ again, (Graph.load "h" Config.default
        (Graph.empty "g" Config.default).clearQueryGroups.dump).result = .ok again ∧
        (Graph.empty "g" Config.default).clearQueryGroups.dump.agrees again.dump = false := by
  have hreach : (Graph.empty "g" Config.default).clearQueryGroups.Reachable Config.default :=
    .empty "g" [.clearQueryGroups]
  have hcleared : (Graph.empty "g" Config.default).clearQueryGroups.GroupsCleared :=
    (Graph.groupsCleared_clearQueryGroups_iff _).mpr rfl
  refine ⟨hreach, _, hreach.sound.load_dump "h", ?_⟩
  rw [Bool.eq_false_iff]
  intro hagrees
  exact hreach.sound.agrees_reload_iff.mp hagrees hcleared

theorem Graph.Loaded.not_groupsCleared {fresh : String} {doc : Value}
    (h : Graph.Loaded fresh config doc g) : ¬ g.GroupsCleared := by
  rintro ⟨_, hget⟩
  rw [h.model, modelStored, Members.replace, Members.get?_update, if_pos rfl,
    Option.map_eq_some_iff] at hget
  obtain ⟨v, _, heq⟩ := hget
  cases heq

/-- One dump of a loaded document is a normal form: it loads, and is dumped with the same text. -/
theorem Graph.load_dump_normal (d : Document) {id : String}
    (h : (Graph.load id config d.value).result = .ok g) (fresh : String) :
    ∃ again, (Graph.load fresh config g.dump).result = .ok again ∧
      again.dump = g.dump ∧ again.dump.text = g.dump.text := by
  have hloaded := Graph.load_eq_ok.mp h
  have hsound := hloaded.sound d.keyed
  have hdump := hsound.dump_reload_of_not_cleared hloaded.not_groupsCleared
  refine ⟨g.reload, ?_, hdump, congrArg Value.text hdump⟩
  rw [← hloaded.config]
  exact hsound.load_dump fresh

theorem Graph.load_dump_normal_roughDocument :
    ∃ g again, (Graph.load "g" Config.default roughDocument.value).result = .ok g ∧
      (Graph.load "h" Config.default g.dump).result = .ok again ∧
      again.dump = g.dump ∧ again.dump.text = g.dump.text := by
  have hload : ∃ g, (Graph.load "g" Config.default roughDocument.value).result = .ok g := ⟨_, rfl⟩
  obtain ⟨g, hg⟩ := hload
  obtain ⟨again, hagain⟩ := Graph.load_dump_normal roughDocument hg "h"
  exact ⟨g, again, hg, hagain⟩

/-- Two models whose entities are the same in the same order, as far as they read back. -/
structure Graph.ReadsBack (g g' : Graph) : Prop where
  id : g'.id = g.id
  queryGroups : g'.queryGroups = g.queryGroups
  relationships : List.Forall₂ Relationship.ReadsBack g.relationships g'.relationships
  tables : List.Forall₂ (Table.ReadsBack g.config.numbering) g.tables g'.tables

theorem Graph.Sound.readsBack_reload (h : g.Sound) : g.ReadsBack g.reload where
  id := rfl
  queryGroups := rfl
  relationships := List.forall₂_map_right_iff.mpr
    (List.forall₂_same.mpr fun r _ => r.readsBack_reload)
  tables := List.forall₂_map_right_iff.mpr
    (List.forall₂_same.mpr fun t ht => (h.tables t ht).readsBack_reload g.config.numbering)

/-- Loading undoes dumping: every typed field comes back, whatever edits have led to a model. -/
theorem Graph.Reachable.reload_reads_back (h : g.Reachable config) (fresh : String) :
    ∃ again, (Graph.load fresh config g.dump).result = .ok again ∧ g.ReadsBack again := by
  refine ⟨g.reload, ?_, h.sound.readsBack_reload⟩
  rw [← h.config_eq]
  exact h.sound.load_dump fresh

theorem Graph.reload_reads_back_someEdits :
    ((Graph.empty "g" Config.default).after someEdits).Reachable Config.default ∧
      ∃ again, (Graph.load "h" Config.default
        ((Graph.empty "g" Config.default).after someEdits).dump).result = .ok again ∧
        ((Graph.empty "g" Config.default).after someEdits).ReadsBack again :=
  ⟨.empty "g" someEdits, Graph.Reachable.reload_reads_back (.empty "g" someEdits) "h"⟩

end Tabular.Model
