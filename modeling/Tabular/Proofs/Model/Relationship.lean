/- Relationships over their documents. -/
import Tabular.Model.Relationship
import Tabular.Proofs.Model.Field

namespace Tabular.Model
open Tabular.Json
variable {path : String} {doc : Value} {r : Relationship}

def Relationship.fields (r : Relationship) : List (String × Value) :=
  [("name", .str r.name),
    ("fromTable", .str r.source.table),
    ("fromColumn", .str r.source.column),
    ("toTable", .str r.target.table),
    ("toColumn", .str r.target.column),
    ("crossFilteringBehavior", .str r.crossFiltering)]

theorem Relationship.dump_eq (r : Relationship) : r.dump = .obj (r.stored.putAll r.fields) := rfl

theorem Relationship.nodup_fields (r : Relationship) : (r.fields.map Prod.fst).Nodup := by
  change ["name", "fromTable", "fromColumn", "toTable", "toColumn",
    "crossFilteringBehavior"].Nodup
  decide

theorem Relationship.keyed_dump (h : (Value.obj r.stored).Keyed) : r.dump.Keyed := by
  rw [Relationship.dump_eq]
  apply Members.keyed_putAll h
  simp only [Relationship.fields, List.forall_mem_cons, List.not_mem_nil, Value.keyed_str,
    false_implies, implies_true, and_self]

/-- The relationship that a document holds. -/
structure Relationship.Loaded (doc : Value) (r : Relationship) : Prop where
  stored : doc = .obj r.stored
  crossFiltering : ∃ filtering, r.stored.read "crossFilteringBehavior" = .ofText? filtering ∧
    r.crossFiltering = filtering.getD bothDirections
  name : r.stored.read "name" = .str r.name
  fromTable : r.stored.read "fromTable" = .str r.source.table
  fromColumn : r.stored.read "fromColumn" = .str r.source.column
  toTable : r.stored.read "toTable" = .str r.target.table
  toColumn : r.stored.read "toColumn" = .str r.target.column

theorem Relationship.load_eq_ok :
    Relationship.load path doc = .ok r ↔ Relationship.Loaded doc r := by
  simp only [Relationship.load, bind_eq_ok, pure_eq_ok, membersOf_eq_ok, requiredText_eq_ok,
    optionalText_eq_ok]
  constructor
  · rintro ⟨ms, rfl, filtering, hfiltering, name, hname, table, htable, column, hcolumn,
      toTable, htoTable, toColumn, htoColumn, rfl⟩
    exact ⟨rfl, ⟨filtering, hfiltering, rfl⟩, hname, htable, hcolumn, htoTable, htoColumn⟩
  · obtain ⟨name, ⟨table, column⟩, ⟨toTable, toColumn⟩, filtering, ms⟩ := r
    rintro ⟨rfl, ⟨filtering?, hfiltering, rfl⟩, hname, htable, hcolumn, htoTable, htoColumn⟩
    exact ⟨ms, rfl, filtering?, hfiltering, name, hname, table, htable, column, hcolumn,
      toTable, htoTable, toColumn, htoColumn, rfl⟩

/-- The document of a relationship as a dump has it: one that does not say how it filters does
    so in both directions. -/
def revisedRelationship : Value → Value := Value.revise fun ms =>
  if (ms.read "crossFilteringBehavior").isNull then
    ms.put "crossFilteringBehavior" (.str bothDirections)
  else ms

/-- Of the document of a relationship, a dump adds how it filters. -/
theorem Relationship.Loaded.dump_prune (h : Relationship.Loaded doc r) :
    r.dump.prune = (revisedRelationship doc).prune := by
  have hsettled : Value.pruneMembers (r.stored.putAll r.fields) = Value.pruneMembers
      (r.stored.put "crossFilteringBehavior" (.str r.crossFiltering)) :=
    pruneMembers_putAll_single (r.fields.take 5) [] r.nodup_fields
      (by simpa [Relationship.fields] using
        ⟨h.name, h.fromTable, h.fromColumn, h.toTable, h.toColumn⟩) (by simp)
  obtain ⟨filtering, hread, hr⟩ := h.crossFiltering
  rw [h.stored, Relationship.dump_eq, Value.prune_obj, hsettled, revisedRelationship, Value.revise,
    hread, hr]
  cases filtering with
  | none => rfl
  | some text =>
      have hget : r.stored.get? "crossFilteringBehavior" = some (.str text) :=
        Members.get?_of_read hread rfl
      rw [Option.getD_some, Members.put_of_get? hget]
      rfl

structure Relationship.Sound (r : Relationship) : Prop where
  keyed : (Value.obj r.stored).Keyed

theorem Relationship.Loaded.sound (h : Relationship.Loaded doc r) (hd : doc.Keyed) : r.Sound :=
  ⟨h.stored ▸ hd⟩

def Relationship.reload (r : Relationship) : Relationship :=
  { r with stored := r.dump.prune.members }

theorem Relationship.Sound.keyed_fields (h : r.Sound) :
    (Value.obj (r.stored.putAll r.fields)).Keyed := Relationship.keyed_dump h.keyed

theorem Relationship.Sound.read_fields (h : r.Sound) :
    ∀ p ∈ r.fields, r.reload.stored.read p.1 = p.2.prune :=
  h.keyed_fields.read_prune_putAll r.nodup_fields

theorem Relationship.Sound.loaded_reload (h : r.Sound) :
    Relationship.Loaded r.dump.prune r.reload := by
  have hread := h.read_fields
  simp only [Relationship.fields, List.forall_mem_cons, Value.prune_str] at hread
  obtain ⟨hname, htable, hcolumn, htoTable, htoColumn, hfiltering, _⟩ := hread
  exact ⟨rfl, ⟨some r.crossFiltering, hfiltering, rfl⟩, hname, htable, hcolumn, htoTable,
    htoColumn⟩

theorem Relationship.Sound.revisedRelationship_dump (h : r.Sound) :
    revisedRelationship r.dump.prune = r.dump.prune := by
  have hread := h.read_fields
  simp only [Relationship.fields, List.forall_mem_cons, Value.prune_str] at hread
  change Value.obj (if (r.reload.stored.read "crossFilteringBehavior").isNull then _ else _) = _
  rw [hread.2.2.2.2.2.1]
  rfl

structure Relationship.ReadsBack (r r' : Relationship) : Prop where
  name : r'.name = r.name
  source : r'.source = r.source
  target : r'.target = r.target
  crossFiltering : r'.crossFiltering = r.crossFiltering

theorem Relationship.readsBack_reload (r : Relationship) : Relationship.ReadsBack r r.reload :=
  ⟨rfl, rfl, rfl, rfl⟩

theorem Relationship.sound_fresh (name : String) (source target : Endpoint) :
    (Relationship.fresh name source target).Sound := by
  constructor
  simp [Relationship.fresh, Value.keyed_obj, Members.keys]

theorem Relationship.Sound.setBothDirections (h : r.Sound) (both : Bool) :
    (r.setBothDirections both).Sound := ⟨h.keyed⟩

end Tabular.Model
