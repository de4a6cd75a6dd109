/- Partitions over their documents. -/
import Tabular.Model.Partition
import Tabular.Proofs.Model.Field

namespace Tabular.Model
open Tabular.Json Tabular.Query
variable {ms : Members} {path : String} {doc : Value} {p : Partition} {numbering : Numbering}

def Partition.source (p : Partition) (numbering : Numbering) : Members :=
  let typed := (p.stored.read "source").members.put "type" (.str p.sourceType)
  if p.steps.isEmpty then typed
  else typed.put "expression" (.arr ((p.steps.lines numbering).map .str))

def Partition.fields (p : Partition) (numbering : Numbering) : List (String × Value) :=
  [("name", .ofText? p.name),
    ("mode", .ofText? p.mode),
    ("state", .ofText? p.state),
    ("queryGroup", .ofText? p.queryGroup),
    ("source", .obj (p.source numbering))]

/-- Both paths into the source are written at once. -/
theorem Partition.dump_eq (p : Partition) (numbering : Numbering) :
    p.dump numbering = .obj (p.stored.putAll (p.fields numbering)) := by
  -- The source is read after the four texts in front of it have been written.
  have hread : (p.stored.putAll ((p.fields numbering).take 4)).read "source" =
      p.stored.read "source" :=
    Members.read_putAll_of_notMem (by simp [Partition.fields]) p.stored
  change Value.obj (if p.steps.isEmpty then
    Members.putPath (p.stored.putAll ((p.fields numbering).take 4)) ["source", "type"] _ else
    Members.putPath (Members.putPath (p.stored.putAll ((p.fields numbering).take 4))
      ["source", "type"] _) ["source", "expression"] _) =
    .obj ((p.stored.putAll ((p.fields numbering).take 4)).put "source" (.obj (p.source numbering)))
  rw [Members.putPath_pair, Members.putPath_pair, hread, Partition.source]
  split
  · rfl
  · rw [Members.read_put_self, Value.members_obj, Members.put_put]

theorem Partition.nodup_fields (p : Partition) (numbering : Numbering) :
    ((p.fields numbering).map Prod.fst).Nodup := by
  change ["name", "mode", "state", "queryGroup", "source"].Nodup
  decide

theorem Partition.keyed_source (h : (Value.obj p.stored).Keyed) (numbering : Numbering) :
    (Value.obj (p.source numbering)).Keyed := by
  have hsource := (Members.keyed_read h "source").members
  have htyped := Members.keyed_put hsource "type" (Value.keyed_str p.sourceType)
  rw [Partition.source]
  split
  · exact htyped
  · exact Members.keyed_put htyped "expression" (Value.keyed_strs _)

theorem Partition.keyed_dump (h : (Value.obj p.stored).Keyed) (numbering : Numbering) :
    (p.dump numbering).Keyed := by
  rw [Partition.dump_eq]
  apply Members.keyed_putAll h
  simp only [Partition.fields, List.forall_mem_cons, List.not_mem_nil, Value.keyed_ofText?,
    Partition.keyed_source h, false_implies, implies_true, and_self]

theorem loadSourceType_eq_ok {type : String} :
    loadSourceType ms path = .ok type ↔
      ∃ source, ms.read "source" = .obj source ∧ Members.read source "type" = .str type := by
  rw [loadSourceType, Members.read]
  cases ms.get? "source" with
  | none => simp
  | some v => cases v <;> simp [requiredText_eq_ok]

/-- The partition that a document holds. -/
structure Partition.Loaded (doc : Value) (p : Partition) : Prop where
  stored : doc = .obj p.stored
  source : ∃ source, p.stored.read "source" = .obj source ∧
    Members.read source "type" = .str p.sourceType
  name : p.stored.read "name" = .ofText? p.name
  mode : p.stored.read "mode" = .ofText? p.mode
  state : p.stored.read "state" = .ofText? p.state
  queryGroup : p.stored.read "queryGroup" = .ofText? p.queryGroup
  steps : p.steps = []

theorem Partition.load_eq_ok : Partition.load path doc = .ok p ↔ Partition.Loaded doc p := by
  simp only [Partition.load, bind_eq_ok, pure_eq_ok, membersOf_eq_ok, loadSourceType_eq_ok,
    optionalText_eq_ok]
  constructor
  · rintro ⟨ms, rfl, type, htype, name, hname, mode, hmode, state, hstate, group, hgroup, rfl⟩
    exact ⟨rfl, htype, hname, hmode, hstate, hgroup, rfl⟩
  · obtain ⟨name, mode, state, group, type, steps, ms⟩ := p
    rintro ⟨rfl, htype, hname, hmode, hstate, hgroup, rfl⟩
    exact ⟨ms, rfl, type, htype, name, hname, mode, hmode, state, hstate, group, hgroup, rfl⟩

theorem Partition.Loaded.source_eq (h : Partition.Loaded doc p) (numbering : Numbering) :
    p.stored.read "source" = .obj (p.source numbering) := by
  obtain ⟨source, hsource, htype⟩ := h.source
  have hput : Members.put source "type" (.str p.sourceType) = source :=
    Members.put_of_get? (Members.get?_of_read htype rfl)
  rw [Partition.source, h.steps, hsource, Value.members_obj, hput]
  rfl

/-- Of the document of a partition, a dump changes nothing. -/
theorem Partition.Loaded.dump_prune (h : Partition.Loaded doc p) (numbering : Numbering) :
    (p.dump numbering).prune = doc.prune := by
  rw [h.stored, Partition.dump_eq, Value.prune_obj, Value.prune_obj]
  congr 1
  apply pruneMembers_putAll_of_settled (p.nodup_fields numbering)
  simpa [Partition.fields] using
    ⟨h.name, h.mode, h.state, h.queryGroup, h.source_eq numbering⟩

structure Partition.Sound (p : Partition) : Prop where
  keyed : (Value.obj p.stored).Keyed

theorem Partition.Loaded.sound (h : Partition.Loaded doc p) (hd : doc.Keyed) : p.Sound :=
  ⟨h.stored ▸ hd⟩

/-- What loading the document of a partition gives: its steps become the stored expression. -/
def Partition.reload (p : Partition) (numbering : Numbering) : Partition :=
  { p with
    steps := []
    stored := (p.dump numbering).prune.members }

theorem Partition.Sound.read_fields (h : p.Sound) (numbering : Numbering) :
    ∀ q ∈ p.fields numbering, (p.reload numbering).stored.read q.1 = q.2.prune := by
  have hkeyed := Partition.keyed_dump h.keyed numbering
  rw [Partition.dump_eq] at hkeyed
  rw [Partition.reload, Partition.dump_eq]
  exact hkeyed.read_prune_putAll (p.nodup_fields numbering)

theorem Partition.dump_prune_eq (p : Partition) (numbering : Numbering) :
    (p.dump numbering).prune = .obj (p.reload numbering).stored := by
  rw [Partition.reload, Partition.dump_eq]
  rfl

theorem Partition.Sound.loaded_reload (h : p.Sound) (numbering : Numbering) :
    Partition.Loaded (p.dump numbering).prune (p.reload numbering) := by
  have hread := h.read_fields numbering
  simp only [Partition.fields, List.forall_mem_cons, Value.prune_ofText?, Value.prune_obj] at hread
  obtain ⟨hname, hmode, hstate, hgroup, hsource, _⟩ := hread
  refine ⟨p.dump_prune_eq numbering, ⟨_, hsource, ?_⟩, hname, hmode, hstate, hgroup, rfl⟩
  change _ = Value.str p.sourceType
  rw [(Partition.keyed_source h.keyed numbering).read_prune, Partition.source]
  split
  · rw [Members.read_put_self, Value.prune_str]
  · rw [Members.read_put, if_neg (by decide), Members.read_put_self, Value.prune_str]

/-- Two partitions with the same fields and the same expression, which in the second is stored
    and not made of steps. -/
structure Partition.ReadsBack (numbering : Numbering) (p p' : Partition) : Prop where
  name : p'.name = p.name
  mode : p'.mode = p.mode
  state : p'.state = p.state
  queryGroup : p'.queryGroup = p.queryGroup
  sourceType : p'.sourceType = p.sourceType
  expression : p'.expression numbering = p.expression numbering
  steps : p'.steps = []

theorem storedExpression_eq (ms : Members) :
    storedExpression ms = storedText ((ms.read "source").members.read "expression") := by
  simp only [storedExpression, Members.read]
  cases ms.get? "source" with
  | none => rfl
  | some v =>
      cases v with
      | obj source =>
          simp only [Option.getD_some, Value.members_obj]
          cases Members.get? source "expression" <;> rfl
      | _ => rfl

/-- The expression that a partition dumps is the one in its document. -/
theorem Partition.storedText_source (p : Partition) (numbering : Numbering) :
    storedText ((p.source numbering).read "expression") = p.expression numbering := by
  rw [Partition.source, Partition.expression]
  split
  · rw [Members.read_put, if_neg (by decide), storedExpression_eq]
  · rw [Members.read_put_self, storedText, textLines_strs]
    rfl

theorem Partition.Sound.readsBack_reload (h : p.Sound) (numbering : Numbering) :
    Partition.ReadsBack numbering p (p.reload numbering) where
  name := rfl
  mode := rfl
  state := rfl
  queryGroup := rfl
  sourceType := rfl
  expression := by
    have hread := h.read_fields numbering
    simp only [Partition.fields, List.forall_mem_cons, Value.prune_obj] at hread
    change storedExpression (p.reload numbering).stored = _
    rw [storedExpression_eq, hread.2.2.2.2.1, Value.members_obj,
      (Partition.keyed_source h.keyed numbering).read_prune, storedText_prune,
      Partition.storedText_source]
  steps := rfl

theorem Partition.sound_fresh (name queryGroup : Option String) :
    (Partition.fresh name queryGroup).Sound := by
  constructor
  simp [Partition.fresh, Value.keyed_obj, Value.keyed_arr, Members.keys]

theorem Partition.Sound.setQueryGroup (h : p.Sound) (group : Option String) :
    (p.setQueryGroup group).Sound := ⟨h.keyed⟩

end Tabular.Model
