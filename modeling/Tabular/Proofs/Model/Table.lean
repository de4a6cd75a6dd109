/- Tables over their documents. -/
import Tabular.Proofs.Model.Items
import Tabular.Proofs.Model.Measure
import Tabular.Proofs.Model.Partition

namespace Tabular.Model
open Tabular.Json Tabular.Query
variable {ms : Members} {path : String} {doc : Value} {t : Table} {numbering : Numbering}

/-- What is written over the stored members, besides the measures. -/
def Table.fields (t : Table) (numbering : Numbering) : List (String × Value) :=
  [("name", .str t.name),
    ("lineageTag", .ofText? t.lineageTag),
    ("isHidden", (t.hidden.map Value.bool).getD .null),
    ("columns", .arr (t.columns.map Column.dump)),
    ("partitions", .arr (t.partitions.map fun p => p.dump numbering))]

/-- The members of a dump, null ones among them. -/
def Table.written (t : Table) (numbering : Numbering) : Members :=
  putItems (t.stored.putAll (t.fields numbering)) "measures" (t.measures.map Measure.dump)

/-- The members of a dump that are kept. -/
def Table.kept (t : Table) (numbering : Numbering) : Members :=
  Value.pruneMembers (t.written numbering)

theorem Table.dump_eq (t : Table) (numbering : Numbering) :
    t.dump numbering = .obj (t.written numbering) := by
  rw [Table.written, putItems, List.isEmpty_map]
  rfl

theorem Table.nodup_fields (t : Table) (numbering : Numbering) :
    ((t.fields numbering).map Prod.fst).Nodup := by
  change ["name", "lineageTag", "isHidden", "columns", "partitions"].Nodup
  decide

/-- The table that a document holds. -/
structure Table.Loaded (doc : Value) (t : Table) : Prop where
  object : doc = .obj doc.members
  stored : t.stored = tableStored doc.members
  name : doc.members.read "name" = .str t.name
  columns : Listing Column.Loaded (doc.members.read "columns") t.columns
  partitions : Listing Partition.Loaded (doc.members.read "partitions") t.partitions
  measures : Listing Measure.Loaded (doc.members.read "measures") t.measures
  lineageTag : doc.members.read "lineageTag" = .ofText? t.lineageTag
  hidden : doc.members.read "isHidden" = (t.hidden.map Value.bool).getD .null

theorem loadColumns_eq_ok {i : Nat} {docs : List Value} {cs : List Column} :
    loadItems Column.load path i docs = .ok cs ↔ List.Forall₂ Column.Loaded docs cs :=
  loadItems_eq_ok @Column.load_eq_ok

theorem loadPartitions_eq_ok {i : Nat} {docs : List Value} {ps : List Partition} :
    loadItems Partition.load path i docs = .ok ps ↔ List.Forall₂ Partition.Loaded docs ps :=
  loadItems_eq_ok @Partition.load_eq_ok

theorem loadMeasures_eq_ok {i : Nat} {docs : List Value} {ms : List Measure} :
    loadItems Measure.load path i docs = .ok ms ↔ List.Forall₂ Measure.Loaded docs ms :=
  loadItems_eq_ok @Measure.load_eq_ok

theorem Table.load_eq_ok : (Table.load path doc).result = .ok t ↔ Table.Loaded doc t := by
  simp only [Table.load, Traced.result_bind, Traced.result_lift, Traced.result_notes,
    Traced.result_note, Traced.result_pure, bind_eq_ok, Except.ok.injEq, membersOf_eq_ok,
    requiredText_eq_ok, optionalItems_eq_ok, optionalText_eq_ok, optionalBool_eq_ok,
    loadColumns_eq_ok, loadPartitions_eq_ok, loadMeasures_eq_ok]
  constructor
  · rintro ⟨ms, rfl, name, hname, columnDocs, hcolumnDocs, columns, hcolumns, partitionDocs,
      hpartitionDocs, partitions, hpartitions, measureDocs, hmeasureDocs, measures, hmeasures,
      _, _, _, _, tag, htag, hidden, hhidden, rfl⟩
    exact ⟨rfl, rfl, hname, ⟨columnDocs, hcolumnDocs, hcolumns⟩,
      ⟨partitionDocs, hpartitionDocs, hpartitions⟩, ⟨measureDocs, hmeasureDocs, hmeasures⟩,
      htag, hhidden⟩
  · obtain ⟨name, tag, hidden, columns, partitions, measures, stored⟩ := t
    rintro ⟨hdoc, rfl, hname, ⟨columnDocs, hcolumnDocs, hcolumns⟩,
      ⟨partitionDocs, hpartitionDocs, hpartitions⟩, ⟨measureDocs, hmeasureDocs, hmeasures⟩,
      htag, hhidden⟩
    exact ⟨doc.members, hdoc, name, hname, columnDocs, hcolumnDocs, columns, hcolumns,
      partitionDocs, hpartitionDocs, partitions, hpartitions, measureDocs, hmeasureDocs, measures,
      hmeasures, (), trivial, (), trivial, tag, htag, hidden, hhidden, rfl⟩

/-- A list of measures as a dump has it, where a table has one. -/
def revisedMeasures (ms : Members) : Members := ms.update "measures" (revisedItems revisedMeasure)

theorem read_revisedMeasures {key : String} (h : "measures" ≠ key) (ms : Members) :
    (revisedMeasures ms).read key = ms.read key := Members.read_update_of_ne h

def revisedTable : Value → Value := Value.revise fun ms =>
  ((revisedMeasures ms).put "columns" (revisedItems revisedColumn (ms.read "columns"))).put
    "partitions" (revisedItems id (ms.read "partitions"))

theorem putAll_tableStored (ms : Members) (t : Table) (numbering : Numbering) :
    (tableStored ms).putAll (t.fields numbering) =
      (ms.putAll (t.fields numbering)).replace "measures" (.arr []) := by
  -- Columns and partitions are among the fields and written over; measures are not.
  rw [tableStored, Members.replace, Members.putAll_update_of_notMem (by simp [Table.fields]),
    Members.replace, Members.putAll_update_of_mem (by simp [Table.fields]), Members.replace,
    Members.putAll_update_of_mem (by simp [Table.fields])]
  rfl

/-- The lists that were kept apart are written over the document as it was. -/
theorem Table.Loaded.written_eq (h : Table.Loaded doc t) (numbering : Numbering) :
    t.written numbering = putItems (doc.members.putAll (t.fields numbering)) "measures"
      (t.measures.map Measure.dump) := by
  rw [Table.written, h.stored, putAll_tableStored, putItems_replace]

theorem Table.Loaded.written_alike (h : Table.Loaded doc t) (numbering : Numbering) :
    (t.written numbering).Alike
      ((revisedMeasures doc.members).putAll (t.fields numbering)) := by
  have hmeasures : Listing Measure.Loaded
      ((doc.members.putAll (t.fields numbering)).read "measures") t.measures := by
    rw [Members.read_putAll_of_notMem (by simp [Table.fields])]
    exact h.measures
  rw [h.written_eq, revisedMeasures, Members.putAll_update_of_notMem (by simp [Table.fields])]
  exact putItems_alike hmeasures Measure.Loaded.dump_prune

theorem Table.Loaded.read_settled (h : Table.Loaded doc t) (numbering : Numbering) :
    ∀ p ∈ (t.fields numbering).take 3, (revisedMeasures doc.members).read p.1 = p.2 := by
  simp only [Table.fields, List.take_succ_cons, List.take_zero, List.forall_mem_cons,
    List.not_mem_nil, false_implies, implies_true, and_true]
  refine ⟨?_, ?_, ?_⟩
  · rw [read_revisedMeasures (by decide), h.name]
  · rw [read_revisedMeasures (by decide), h.lineageTag]
  · rw [read_revisedMeasures (by decide), h.hidden]

/-- Of the document of a table, a dump changes the three lists. -/
theorem Table.Loaded.dump_prune (h : Table.Loaded doc t) (numbering : Numbering) :
    (t.dump numbering).prune = (revisedTable doc).prune := by
  -- The first three fields have the values that were read; the other two are lists.
  have hsettled := pruneMembers_putAll_settled ((t.fields numbering).take 3)
    ((t.fields numbering).drop 3) (t.nodup_fields numbering) (h.read_settled numbering)
  have hlists : ((revisedMeasures doc.members).putAll ((t.fields numbering).drop 3)).Alike
      (revisedTable doc).members := by
    rw [h.object]
    exact ((Members.Alike.refl (revisedMeasures doc.members)).put "columns"
      (h.columns.prune_dumps Column.Loaded.dump_prune)).put "partitions"
      (h.partitions.prune_dumps fun hp => hp.dump_prune numbering)
  rw [List.take_append_drop, hlists.prune_eq] at hsettled
  rw [Table.dump_eq, Value.prune_obj, (h.written_alike numbering).prune_eq, hsettled, h.object]
  rfl

/-- No object that a table stores gives a key twice. -/
structure Table.Keyed (t : Table) : Prop where
  stored : (Value.obj t.stored).Keyed
  columns : ∀ c ∈ t.columns, (Value.obj c.stored).Keyed
  partitions : ∀ p ∈ t.partitions, (Value.obj p.stored).Keyed
  measures : ∀ m ∈ t.measures, (Value.obj m.stored).Keyed

structure Table.Sound (t : Table) : Prop where
  keyed : (Value.obj t.stored).Keyed
  columns : ∀ c ∈ t.columns, c.Sound
  partitions : ∀ p ∈ t.partitions, p.Sound
  measures : ∀ m ∈ t.measures, m.Sound

theorem keyed_tableStored (h : (Value.obj ms).Keyed) : (Value.obj (tableStored ms)).Keyed := by
  have hlist : (Value.arr []).Keyed := trivial
  exact Members.keyed_replace (Members.keyed_replace (Members.keyed_replace h _ hlist) _ hlist) _
    hlist

theorem Table.Loaded.sound (h : Table.Loaded doc t) (hd : doc.Keyed) : t.Sound where
  keyed := by
    rw [h.stored]
    exact keyed_tableStored hd.members
  columns := h.columns.keyed (Members.keyed_read hd.members _) Column.Loaded.sound
  partitions := h.partitions.keyed (Members.keyed_read hd.members _) Partition.Loaded.sound
  measures := h.measures.keyed (Members.keyed_read hd.members _) Measure.Loaded.sound

theorem Table.Sound.toKeyed (h : t.Sound) : t.Keyed where
  stored := h.keyed
  columns c hc := (h.columns c hc).keyed
  partitions p hp := (h.partitions p hp).keyed
  measures m hm := (h.measures m hm).keyed

theorem Table.Keyed.keyed_fields (h : t.Keyed) (numbering : Numbering) :
    (Value.obj (t.stored.putAll (t.fields numbering))).Keyed := by
  have hcolumns : (Value.arr (t.columns.map Column.dump)).Keyed := by
    rw [Value.keyed_arr, List.forall_mem_map]
    exact fun c hc => Column.keyed_dump (h.columns c hc)
  have hpartitions : (Value.arr (t.partitions.map fun p => p.dump numbering)).Keyed := by
    rw [Value.keyed_arr, List.forall_mem_map]
    exact fun p hp => Partition.keyed_dump (h.partitions p hp) numbering
  have hhidden : ((t.hidden.map Value.bool).getD .null).Keyed := by
    cases t.hidden <;> trivial
  apply Members.keyed_putAll h.stored
  simp only [Table.fields, List.forall_mem_cons, List.not_mem_nil, Value.keyed_str,
    Value.keyed_ofText?, hcolumns, hpartitions, hhidden, false_implies, implies_true, and_self]

theorem Table.Keyed.keyed_written (h : t.Keyed) (numbering : Numbering) :
    (Value.obj (t.written numbering)).Keyed := by
  apply keyed_putItems (h.keyed_fields numbering)
  rw [List.forall_mem_map]
  exact fun m hm => Measure.keyed_dump (h.measures m hm)

def Table.reload (t : Table) (numbering : Numbering) : Table :=
  { t with
    columns := t.columns.map Column.reload
    partitions := t.partitions.map fun p => p.reload numbering
    measures := t.measures.map Measure.reload
    stored := tableStored (t.kept numbering) }

theorem Table.dump_prune_eq (t : Table) (numbering : Numbering) :
    (t.dump numbering).prune = .obj (t.kept numbering) := by
  rw [Table.dump_eq, Value.prune_obj, Table.kept]

theorem Table.Keyed.read_kept (h : t.Keyed) (numbering : Numbering) (key : String) :
    (t.kept numbering).read key = ((t.written numbering).read key).prune :=
  (h.keyed_written numbering).read_prune key

theorem Table.Keyed.read_fields (h : t.Keyed) (numbering : Numbering) :
    ∀ q ∈ t.fields numbering, (t.kept numbering).read q.1 = q.2.prune := by
  intro q hq
  have hmeasures : "measures" ∉ (t.fields numbering).map Prod.fst := by simp [Table.fields]
  have hne : "measures" ≠ q.1 := by
    intro heq
    exact hmeasures (heq ▸ List.mem_map_of_mem hq)
  rw [h.read_kept, Table.written, read_putItems_of_ne hne,
    Members.read_putAll_of_mem (t.nodup_fields numbering) hq]

/-- What loading the document of a table gives. -/
def Table.reread (t : Table) (numbering : Numbering) : Table :=
  { t.reload numbering with measures := t.measures.map Measure.reread }

theorem Table.Keyed.loaded_reread (h : t.Keyed) (numbering : Numbering) :
    Table.Loaded (t.dump numbering).prune (t.reread numbering) := by
  have hread := h.read_fields numbering
  simp only [Table.fields, List.forall_mem_cons, Value.prune_str, Value.prune_ofText?] at hread
  obtain ⟨hname, htag, hhidden, hcolumns, hpartitions, _⟩ := hread
  rw [Table.dump_prune_eq]
  refine ⟨rfl, rfl, hname, ?_, ?_, ?_, htag, ?_⟩
  · rw [Value.members_obj, hcolumns]
    exact Listing.of_dumps fun c hc => Column.loaded_reload (h.columns c hc)
  · rw [Value.members_obj, hpartitions]
    exact Listing.of_dumps fun p hp => Partition.Sound.loaded_reload ⟨h.partitions p hp⟩ numbering
  · rw [Value.members_obj, h.read_kept, Table.written]
    exact Listing.of_putItems (fun m hm => Measure.loaded_reread (h.measures m hm)) _ _
  · rw [Value.members_obj, hhidden]
    change _ = (t.hidden.map Value.bool).getD .null
    cases t.hidden <;> rfl

theorem Table.Sound.reread_eq (h : t.Sound) (numbering : Numbering) :
    t.reread numbering = t.reload numbering := by
  have hmeasures : t.measures.map Measure.reread = t.measures.map Measure.reload :=
    List.map_congr_left fun m hm => (h.measures m hm).reread_eq
  rw [Table.reread, hmeasures]
  rfl

theorem Table.Sound.revisedMeasures_kept (h : t.Sound) (numbering : Numbering) :
    revisedMeasures (t.kept numbering) = t.kept numbering := by
  apply update_revisedItems fun m hm => (h.measures m hm).revisedMeasure_dump
  have hread := h.toKeyed.read_kept numbering "measures"
  rw [Table.kept] at hread
  rw [hread, Table.written]
  exact prune_read_putItems _ _ _

theorem Table.Sound.revisedTable_dump (h : t.Sound) (numbering : Numbering) :
    revisedTable (t.dump numbering).prune = (t.dump numbering).prune := by
  have hread := h.toKeyed.read_fields numbering
  simp only [Table.fields, List.forall_mem_cons] at hread
  obtain ⟨_, _, _, hcolumns, hpartitions, _⟩ := hread
  have hcolumn := revisedItems_dumps fun c hc => (h.columns c hc).revisedColumn_dump
  have hpartition : revisedItems id (Value.arr (t.partitions.map fun p => p.dump numbering)).prune =
      (Value.arr (t.partitions.map fun p => p.dump numbering)).prune :=
    revisedItems_dumps fun _ _ => rfl
  rw [Table.dump_prune_eq, revisedTable, Value.revise, h.revisedMeasures_kept, hcolumns, hcolumn,
    hpartitions, hpartition]
  rw [Members.put_of_get? (Members.get?_of_read hcolumns (by rw [Value.isNull_prune]; rfl)),
    Members.put_of_get? (Members.get?_of_read hpartitions (by rw [Value.isNull_prune]; rfl))]

/-- Two tables with the same fields and with columns, partitions and measures that read back. -/
structure Table.ReadsBack (numbering : Numbering) (t t' : Table) : Prop where
  name : t'.name = t.name
  lineageTag : t'.lineageTag = t.lineageTag
  hidden : t'.hidden = t.hidden
  columns : List.Forall₂ Column.ReadsBack t.columns t'.columns
  partitions : List.Forall₂ (Partition.ReadsBack numbering) t.partitions t'.partitions
  measures : List.Forall₂ Measure.ReadsBack t.measures t'.measures

theorem Table.Sound.readsBack_reload (h : t.Sound) (numbering : Numbering) :
    Table.ReadsBack numbering t (t.reload numbering) where
  name := rfl
  lineageTag := rfl
  hidden := rfl
  columns := List.forall₂_map_right_iff.mpr
    (List.forall₂_same.mpr fun c hc => (h.columns c hc).readsBack_reload)
  partitions := List.forall₂_map_right_iff.mpr
    (List.forall₂_same.mpr fun p hp => (h.partitions p hp).readsBack_reload numbering)
  measures := List.forall₂_map_right_iff.mpr
    (List.forall₂_same.mpr fun m _ => m.readsBack_reload)

end Tabular.Model
