/- What a change of one entity leaves as it is in the dumps around it. -/
import Tabular.Proofs.Json.Differing
import Tabular.Proofs.Model.Reached

namespace Tabular.Model
open Tabular.Json Tabular.Query
variable {R : Value → Value → Prop} {ms : Members} {key k : String} {path : List Branch}
  {settings : List (String × Value)} {numbering : Numbering} {c : Column} {m : Measure}
  {p p' : Partition} {r : Relationship} {t : Table}

theorem lists_putItems (ms : Members) (key : String) : Members.Lists key (putItems ms key) := by
  obtain ⟨rest, hrest, hslot⟩ := Members.exists_slot_put ms key
  refine ⟨rest, ms.put key, hslot, fun items => ?_⟩
  rcases putItems_cases ms key items with heq | ⟨heq, rfl, hget⟩
  · exact Or.inl heq
  · exact Or.inr ⟨rfl, Or.inl (heq.trans (hrest hget).symm)⟩

theorem lists_putItems_beside {write : List Value → Members} (h : Members.Lists key write)
    (hk : key ≠ k) (others : List Value) :
    Members.Lists key fun items => putItems (write items) k others := by
  obtain ⟨present, hpresent⟩ := h.has_eq hk
  simp only [putItems, hpresent]
  split
  · exact h.put hk (.arr others)
  · exact h

theorem without_putItems {keys : List String} (h : key ∉ keys) (ms : Members)
    (items : List Value) :
    (putItems ms key items).without keys = putItems (ms.without keys) key items := by
  simp only [putItems, Members.has_without h]
  split
  · rw [Members.without_put, if_neg h]
  · rfl

/-- The query groups are a list over a model that stores none. -/
theorem lists_putGroups (h : listed? (ms.read "queryGroups") = some []) :
    Members.Lists "queryGroups" fun items =>
      if items.isEmpty then ms else ms.put "queryGroups" (.arr items) := by
  obtain ⟨rest, hrest, hslot⟩ := Members.exists_slot_put ms "queryGroups"
  refine ⟨rest, ms.put "queryGroups", hslot, fun items => ?_⟩
  cases items with
  | cons v items => exact Or.inl rfl
  | nil =>
      cases hget : ms.get? "queryGroups" with
      | none => exact Or.inr ⟨rfl, Or.inl (hrest hget).symm⟩
      | some v =>
          rw [Members.read_of_get? hget] at h
          rcases listed?_eq_some h with rfl | ⟨rfl, _⟩
          · exact Or.inl (Members.put_of_get? hget).symm
          · exact Or.inr ⟨rfl, Or.inr (Members.put_of_get? hget).symm⟩

/-- The keys that an edit of a column sets. -/
inductive Column.Sets : (Column → Column) → List (String × Value) → Prop where
  | dataType (type : DataType) :
      Column.Sets (fun c => c.setDataType type) [("dataType", .str type.columnName)]
  | sourceColumn (source : Option String) :
      Column.Sets (fun c => c.setSourceColumn source) [("sourceColumn", .ofText? source)]

theorem Column.Sets.rewrites {edit : Column → Column} (h : Column.Sets edit settings)
    (hc : (Value.obj c.stored).Keyed) : c.dump.prune.Rewrites settings (edit c).dump.prune := by
  cases h with
  | dataType type =>
      apply Value.rewrites_putAll c.dump_eq (c.setDataType type).dump_eq
        (Column.keyed_dump hc) (Column.nodup_fields _) rfl
      simp [Column.fields, Column.setDataType]
  | sourceColumn source =>
      apply Value.rewrites_putAll c.dump_eq (c.setSourceColumn source).dump_eq
        (Column.keyed_dump hc) (Column.nodup_fields _) rfl
      simp [Column.fields, Column.setSourceColumn]

inductive Measure.Sets : (Measure → Measure) → List (String × Value) → Prop where
  | expression (text : String) (type : DataType) :
      Measure.Sets (fun m => m.setExpression text type)
        [("expression", .str text), ("dataType", .str type.name)]
  | format (pattern : String) :
      Measure.Sets (fun m => m.setFormat pattern) [("formatString", .str pattern)]
  | retentionRate (table column : String) :
      Measure.Sets (fun m => m.setToRetentionRate table column)
        [("expression", .str (retentionRate table column)),
          ("dataType", .str DataType.double.name), ("formatString", .str percentFormat)]

theorem Measure.Sets.rewrites {edit : Measure → Measure} (h : Measure.Sets edit settings)
    (hm : (Value.obj m.stored).Keyed) : m.dump.prune.Rewrites settings (edit m).dump.prune := by
  cases h with
  | expression text type =>
      apply Value.rewrites_putAll m.dump_eq (m.setExpression text type).dump_eq
        (Measure.keyed_dump hm) (Measure.nodup_fields _) rfl
      simp [Measure.fields, Measure.setExpression, Value.ofText?]
  | format pattern =>
      apply Value.rewrites_putAll m.dump_eq (m.setFormat pattern).dump_eq
        (Measure.keyed_dump hm) (Measure.nodup_fields _) rfl
      simp [Measure.fields, Measure.setFormat, Value.ofText?]
  | retentionRate table column =>
      apply Value.rewrites_putAll m.dump_eq (m.setToRetentionRate table column).dump_eq
        (Measure.keyed_dump hm) (Measure.nodup_fields _) rfl
      simp [Measure.fields, Measure.setToRetentionRate, Measure.setFormat, Measure.setExpression,
        Value.ofText?]

theorem Relationship.rewrites_setBothDirections (hr : (Value.obj r.stored).Keyed) (both : Bool) :
    r.dump.prune.Rewrites
      [("crossFilteringBehavior", .str (if both then bothDirections else oneDirection))]
      (r.setBothDirections both).dump.prune := by
  apply Value.rewrites_putAll r.dump_eq (r.setBothDirections both).dump_eq
    (Relationship.keyed_dump hr) (Relationship.nodup_fields _) rfl
  simp [Relationship.fields, Relationship.setBothDirections]

/-- The keys that an edit of a partition sets, and where in its document they are. -/
inductive Partition.Sets (numbering : Numbering) (p : Partition) :
    (Partition → Outcome Partition) → List Branch → List (String × Value) → Prop where
  | queryGroup (group : Option String) :
      Partition.Sets numbering p (fun p => .ok (p.setQueryGroup group)) []
        [("queryGroup", .ofText? group)]
  | jsonReader {file current absolute : String} (columns : List (String × DataType)) :
      resolveSource file current = .ok absolute →
        Partition.Sets numbering p (fun p => p.setToJsonReader file columns current) [.key "source"]
          [("type", .str "m"),
            ("expression",
              .arr (((Chain.readJson absolute columns).lines numbering).map Value.str))]
  | push (step : Step) :
      Partition.Sets numbering p (fun p => .ok (p.push step)) [.key "source"]
        [("expression", .arr ((Chain.lines (p.steps ++ [step]) numbering).map Value.str))]

/-- What is written over the source of a partition. -/
def Partition.sourceFields (p : Partition) (numbering : Numbering) : List (String × Value) :=
  ("type", .str p.sourceType) ::
    if p.steps.isEmpty then [] else [("expression", .arr ((p.steps.lines numbering).map .str))]

theorem Partition.source_eq (p : Partition) (numbering : Numbering) :
    p.source numbering = (p.stored.read "source").members.putAll (p.sourceFields numbering) := by
  rw [Partition.source, Partition.sourceFields]
  split <;> rfl

theorem Partition.nodup_sourceFields (p : Partition) (numbering : Numbering) :
    ((p.sourceFields numbering).map Prod.fst).Nodup := by
  rw [Partition.sourceFields]
  split
  · exact List.nodup_singleton "type"
  · change ["type", "expression"].Nodup
    decide

theorem Partition.sourceFields_of_steps (h : p.steps ≠ []) (numbering : Numbering) :
    p.sourceFields numbering = [("type", .str p.sourceType),
      ("expression", .arr ((p.steps.lines numbering).map .str))] := by
  rw [Partition.sourceFields, if_neg (mt List.isEmpty_iff.mp h)]

theorem Partition.without_sourceFields {keys : List String} (h : "expression" ∈ keys)
    (p : Partition) (numbering : Numbering) : Members.without keys (p.sourceFields numbering) =
      Members.without keys [("type", .str p.sourceType)] := by
  rw [Partition.sourceFields]
  split
  · rfl
  · rw [Members.without_cons, Members.without_cons, Members.without_cons, if_pos h]

/-- Writing other values under the source of a partition rewrites these. -/
theorem Partition.rewrites_source (hp : (Value.obj p.stored).Keyed) (hstored : p'.stored = p.stored)
    (hfields : (p'.fields numbering).take 4 = (p.fields numbering).take 4)
    (hkey : "expression" ∈ settings.map Prod.fst)
    (htype : Members.without (settings.map Prod.fst) [("type", .str p'.sourceType)] =
      Members.without (settings.map Prod.fst) [("type", .str p.sourceType)])
    (hset : ∀ q ∈ settings, q ∈ p'.sourceFields numbering ∧ q.2.prune = q.2) :
    (p.dump numbering).prune.DiffersAt (Value.Rewrites settings) [.key "source"]
      (p'.dump numbering).prune := by
  have hdump : ∀ p : Partition, p.dump numbering = .obj ((p.stored.putAll
      ((p.fields numbering).take 4)).put "source" (.obj (p.source numbering))) :=
    fun p => p.dump_eq numbering
  have hsource := Partition.keyed_source (p := p') (hstored ▸ hp) numbering
  have hothers : Members.without (settings.map Prod.fst) (p'.sourceFields numbering) =
      Members.without (settings.map Prod.fst) (p.sourceFields numbering) := by
    rw [Partition.without_sourceFields hkey, Partition.without_sourceFields hkey, htype]
  have hread := congrArg Value.obj (p'.source_eq numbering)
  rw [hstored] at hread
  obtain ⟨rest, _, hslot⟩ := Members.exists_slot_put
    (p.stored.putAll ((p.fields numbering).take 4)) "source"
  rw [hdump, hdump, hstored, hfields]
  refine hslot.differsAt rfl rfl (.here ?_)
  exact Value.rewrites_putAll (congrArg Value.obj (p.source_eq numbering)) hread hsource
    (p'.nodup_sourceFields numbering) hothers hset

theorem Partition.Sets.differsAt {edit : Partition → Outcome Partition}
    (h : Partition.Sets numbering p edit path settings) (hp : (Value.obj p.stored).Keyed) :
    ∃ p', edit p = .ok p' ∧ (p.dump numbering).prune.DiffersAt (Value.Rewrites settings) path
      (p'.dump numbering).prune := by
  cases h with
  | queryGroup group =>
      refine ⟨_, rfl, .here ?_⟩
      refine Value.rewrites_putAll (p.dump_eq numbering) ((p.setQueryGroup group).dump_eq numbering)
        (Partition.keyed_dump (p := p.setQueryGroup group) hp numbering)
        (Partition.nodup_fields _ numbering) rfl ?_
      simp [Partition.fields, Partition.setQueryGroup]
  | @jsonReader file current absolute columns hfile =>
      refine ⟨_, Partition.setToJsonReader_eq_ok.mpr ⟨absolute, hfile, rfl⟩, ?_⟩
      refine Partition.rewrites_source hp rfl rfl (by simp) rfl ?_
      rw [Partition.sourceFields_of_steps (List.cons_ne_nil _ _)]
      simp
  | push step =>
      refine ⟨_, rfl, ?_⟩
      refine Partition.rewrites_source hp rfl rfl (by simp) rfl ?_
      rw [Partition.sourceFields_of_steps (by simp [Partition.push])]
      simp [Partition.push]

theorem Table.lists_columns (t : Table) (numbering : Numbering) : ∃ write,
    Members.Lists "columns" write ∧ ∀ columns,
      ({ t with columns := columns } : Table).written numbering =
        write (columns.map Column.dump) := by
  have hlist := (Members.lists_put (t.stored.putAll ((t.fields numbering).take 3)) "columns").put
    (show "columns" ≠ "partitions" by decide) (.arr (t.partitions.map fun p => p.dump numbering))
  exact ⟨_, lists_putItems_beside hlist (show "columns" ≠ "measures" by decide)
    (t.measures.map Measure.dump), fun _ => rfl⟩

theorem Table.lists_partitions (t : Table) (numbering : Numbering) : ∃ write,
    Members.Lists "partitions" write ∧ ∀ partitions,
      ({ t with partitions := partitions } : Table).written numbering =
        write (partitions.map fun p => p.dump numbering) := by
  have hlist := Members.lists_put (t.stored.putAll ((t.fields numbering).take 4)) "partitions"
  exact ⟨_, lists_putItems_beside hlist (show "partitions" ≠ "measures" by decide)
    (t.measures.map Measure.dump), fun _ => rfl⟩

theorem Table.lists_measures (t : Table) (numbering : Numbering) : ∃ write,
    Members.Lists "measures" write ∧ ∀ measures,
      ({ t with measures := measures } : Table).written numbering =
        write (measures.map Measure.dump) :=
  ⟨_, lists_putItems (t.stored.putAll (t.fields numbering)) "measures", fun _ => rfl⟩

theorem Table.differsAt_column {i : Nat} {c c' : Column} (hget : t.columns[i]? = some c)
    (h : c.dump.prune.DiffersAt R path c'.dump.prune) :
    (t.dump numbering).prune.DiffersAt R (.key "columns" :: .item i :: path)
      (({ t with columns := t.columns.set i c' } : Table).dump numbering).prune := by
  obtain ⟨write, hlist, hwrite⟩ := t.lists_columns numbering
  rw [Table.dump_eq, Table.dump_eq, hwrite, hwrite]
  exact hlist.differsAt hget h

theorem Table.differsAt_partition {i : Nat} (hget : t.partitions[i]? = some p)
    (h : (p.dump numbering).prune.DiffersAt R path (p'.dump numbering).prune) :
    (t.dump numbering).prune.DiffersAt R (.key "partitions" :: .item i :: path)
      (({ t with partitions := t.partitions.set i p' } : Table).dump numbering).prune := by
  obtain ⟨write, hlist, hwrite⟩ := t.lists_partitions numbering
  rw [Table.dump_eq, Table.dump_eq, hwrite, hwrite]
  exact hlist.differsAt hget h

theorem Table.differsAt_measure {i : Nat} {m m' : Measure} (hget : t.measures[i]? = some m)
    (h : m.dump.prune.DiffersAt R path m'.dump.prune) :
    (t.dump numbering).prune.DiffersAt R (.key "measures" :: .item i :: path)
      (({ t with measures := t.measures.set i m' } : Table).dump numbering).prune := by
  obtain ⟨write, hlist, hwrite⟩ := t.lists_measures numbering
  rw [Table.dump_eq, Table.dump_eq, hwrite, hwrite]
  exact hlist.differsAt hget h

theorem Table.rewrites_setHidden (ht : t.Keyed) (flag : Bool) (numbering : Numbering) :
    (t.dump numbering).prune.Rewrites [("isHidden", .bool flag)]
      ((t.setHidden flag).dump numbering).prune := by
  have hkeyed : (t.setHidden flag).Keyed := { ht with }
  rw [Table.dump_prune_eq, Table.dump_prune_eq]
  refine ⟨rfl, rfl, ?_, ?_⟩
  · simp only [Value.members_obj, Table.kept, Members.without_pruneMembers, Table.written,
      List.map_cons, List.map_nil]
    rw [without_putItems (by decide), without_putItems (by decide), Members.without_putAll,
      Members.without_putAll]
    rfl
  · rw [List.forall_mem_singleton]
    apply get?_pruneMembers_eq_present?
    exact hkeyed.read_fields numbering ("isHidden", .bool flag)
      (by simp [Table.fields, Table.setHidden])

/-- The keys that an edit of a table or of one of its entities sets, and where in the document of
    the table they are. -/
inductive Table.Sets (numbering : Numbering) (t : Table) :
    (Table → Outcome Table) → List Branch → List (String × Value) → Prop where
  | hidden (flag : Bool) :
      Table.Sets numbering t (fun t => .ok (t.setHidden flag)) [] [("isHidden", .bool flag)]
  | column {name : String} {i : Nat} {c : Column} {edit : Column → Column}
      {settings : List (String × Value)} : FirstAt (fun c => c.name == name) t.columns i c →
      Column.Sets edit settings → Table.Sets numbering t (fun t => t.editColumn name edit)
        [.key "columns", .item i] settings
  | columnAt {place : Table → Nat} {c : Column} {edit : Column → Column}
      {settings : List (String × Value)} : t.columns[place t]? = some c →
      Column.Sets edit settings → Table.Sets numbering t
        (fun t => .ok { t with columns := t.columns.modify (place t) edit })
        [.key "columns", .item (place t)] settings
  | measure {name : String} {i : Nat} {m : Measure} {edit : Measure → Measure}
      {settings : List (String × Value)} : FirstAt (fun m => m.name == name) t.measures i m →
      Measure.Sets edit settings → Table.Sets numbering t (fun t => t.editMeasure name edit)
        [.key "measures", .item i] settings
  | partition {i : Nat} {p : Partition} {edit : Partition → Outcome Partition}
      {path : List Branch} {settings : List (String × Value)} : t.partitions[i]? = some p →
      Partition.Sets numbering p edit path settings →
        Table.Sets numbering t (fun t => t.changePartition i edit)
          (.key "partitions" :: .item i :: path) settings

theorem Table.Sets.differsAt {op : Table → Outcome Table}
    (h : Table.Sets numbering t op path settings) (ht : t.Keyed) :
    ∃ t', op t = .ok t' ∧ (t.dump numbering).prune.DiffersAt (Value.Rewrites settings) path
      (t'.dump numbering).prune := by
  cases h with
  | hidden flag => exact ⟨_, rfl, .here (Table.rewrites_setHidden ht flag numbering)⟩
  | @column name i c edit settings hfirst hsets =>
      refine ⟨{ t with columns := t.columns.set i (edit c) }, ?_, ?_⟩
      · change inPart _ (editFirst _ _ _ t.columns) = _
        rw [editFirst_of_firstAt hfirst]
        rfl
      · have hc := ht.columns c (List.mem_of_getElem? hfirst.2)
        exact Table.differsAt_column hfirst.2 (.here (hsets.rewrites hc))
  | @columnAt place c edit settings hget hsets =>
      refine ⟨_, rfl, ?_⟩
      have hc := ht.columns c (List.mem_of_getElem? hget)
      rw [modify_of_getElem? hget]
      exact Table.differsAt_column hget (.here (hsets.rewrites hc))
  | @measure name i m edit settings hfirst hsets =>
      refine ⟨{ t with measures := t.measures.set i (edit m) }, ?_, ?_⟩
      · change inPart _ (editFirst _ _ _ t.measures) = _
        rw [editFirst_of_firstAt hfirst]
        rfl
      · have hm := ht.measures m (List.mem_of_getElem? hfirst.2)
        exact Table.differsAt_measure hfirst.2 (.here (hsets.rewrites hm))
  | @partition i p edit path settings hget hsets =>
      obtain ⟨p', hp', hdiffers⟩ := hsets.differsAt (ht.partitions p (List.mem_of_getElem? hget))
      refine ⟨{ t with partitions := t.partitions.set i p' }, ?_, ?_⟩
      · simp only [Table.changePartition, hget, hp', Table.editPartition, modify_of_getElem? hget]
        rfl
      · exact Table.differsAt_partition hget hdiffers

/-- What an insertion into a table appends, and to which of its lists. -/
inductive Table.Inserts (numbering : Numbering) (t : Table) :
    (Table → Outcome Table) → String → Value → Prop where
  | column (tag name : String) (type : DataType) (source : Option String) :
      Table.Inserts numbering t (fun t => t.newColumn tag name type source) "columns"
        (Column.imported tag name type
          (source.or (if name = "" then none else some name))).dump.prune
  | measure (tag name : String) :
      Table.Inserts numbering t (fun t => t.newMeasure tag name) "measures"
        (Measure.fresh tag name).dump.prune
  | partition (name group : Option String) :
      Table.Inserts numbering t (fun t => .ok (t.newPartition name group)) "partitions"
        ((Partition.fresh (some (name.getD t.name)) group).dump numbering).prune

theorem Table.Inserts.operation {op : Table → Outcome Table} {x : Value}
    (h : Table.Inserts numbering t op key x) : Table.Operation op := by
  cases h with
  | column tag name type source => exact .newColumn tag name type source
  | measure tag name => exact .newMeasure tag name
  | partition name group => exact .newPartition name group

theorem Table.Inserts.appends {op : Table → Outcome Table} {x : Value}
    (h : Table.Inserts numbering t op key x) (ht : t.Keyed) (heq : op t = .ok t') :
    Value.Appends key x (t.dump numbering).prune (t'.dump numbering).prune := by
  have hkeyed := (h.operation.keyed ht heq).keyed_written numbering
  cases h with
  | column tag name type source =>
      cases Table.eq_of_insertColumn heq
      obtain ⟨write, hlist, hwrite⟩ := t.lists_columns numbering
      rw [hwrite] at hkeyed
      rw [Table.dump_eq, Table.dump_eq, hwrite, hwrite]
      exact hlist.appends_map hkeyed
  | measure tag name =>
      cases Table.eq_of_newMeasure heq
      obtain ⟨write, hlist, hwrite⟩ := t.lists_measures numbering
      rw [hwrite] at hkeyed
      rw [Table.dump_eq, Table.dump_eq, hwrite, hwrite]
      exact hlist.appends_map hkeyed
  | partition name group =>
      cases heq
      obtain ⟨write, hlist, hwrite⟩ := t.lists_partitions numbering
      rw [Table.newPartition, hwrite] at hkeyed
      rw [Table.newPartition, Table.dump_eq, Table.dump_eq, hwrite, hwrite]
      exact hlist.appends_map (f := fun p : Partition => p.dump numbering) hkeyed

end Tabular.Model
