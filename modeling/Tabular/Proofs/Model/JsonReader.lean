/- What the query that reads a JSON file says: which file, which fields, and of which types. -/
import Tabular.Proofs.Model.Binding
import Tabular.Proofs.Model.Partition
import Tabular.Proofs.Query.Identifier
import Tabular.Proofs.Query.Substitution

namespace Tabular.Query
open Tabular.Model (DataType)
variable {α : Type} {read : Reader α} {a : α} {numbering : Numbering}

/-- Reads what stands between two texts of a line. -/
def readBetween (front : String) (read : Reader α) (behind : String) : String → Option α :=
  readAll do
    expect front.toList
    let a ← read
    expect behind.toList
    return a

theorem readBetween_eq {front text behind : String} (h : Reads read text.toList a)
    (hbehind : behind.toList.head? ≠ some '"') :
    readBetween front read behind (front ++ text ++ behind) = some a := by
  have htext : (front ++ text ++ behind).toList =
      front.toList ++ (text.toList ++ (behind.toList ++ [])) := by
    simp
  have hend := expect_append behind.toList []
  rw [List.append_nil] at htext hend
  rw [readBetween, readAll, htext, bind_of_read (expect_append _ _),
    bind_of_read (h _ hbehind), bind_of_read hend]
  rfl

/-- The path that the first step of a reader reads. -/
def readPath : String → Option String :=
  readBetween "\t#\"File Contents1\" = File.Contents( " readText ", null),"

/-- The fields that a reader expands records into. -/
def readFields : String → Option (List String) :=
  readBetween ("\t#\"Table ExpandRecordColumn1\" = Table.ExpandRecordColumn( " ++
    "#\"Table FromList1\", \"Column1\", ") (readList readText [',', ' ']) ", null),"

/-- The columns that a reader gives types to, each with its type. -/
def readColumnTypes : String → Option (List (String × String)) :=
  readBetween ("\t#\"Table TransformColumnTypes1\" = Table.TransformColumnTypes( " ++
    "#\"Table ExpandRecordColumn1\", ") (readList (readPair readText readBare) [',']) ", null)"

/-- The names of the steps of a reader. -/
def readerNames : List String :=
  ["File Contents1", "Json Document1", "Table FromList1", "Table ExpandRecordColumn1",
    "Table TransformColumnTypes1"]

/-- Each function is called once, so the two numberings do not differ. -/
theorem Chain.names_readJson (path : String) (columns : List (String × DataType))
    (numbering : Numbering) : (Chain.readJson path columns).names numbering = readerNames := by
  have hfunctions : (Chain.readJson path columns).map Step.baseName =
      ["File.Contents", "Json.Document", "Table.FromList", "Table.ExpandRecordColumn",
        "Table.TransformColumnTypes"].map (Text.swap '.' ' ') := rfl
  rw [Chain.names, hfunctions]
  cases numbering <;> decide +kernel

theorem swap_swap (text : String) :
    Text.swap '\\' '/' (Text.swap '\\' '/' text) = Text.swap '\\' '/' text := by
  rw [Text.swap, Text.swap, String.toList_ofList, List.map_map]
  congr 1
  refine List.map_congr_left fun c _ => ?_
  by_cases h : c = '\\'
  · simp [h]
  · simp [h]

/-- The line of a step of a reader, by the name of its step and of the one before. -/
theorem Chain.line_readJson {path : String} {columns : List (String × DataType)} {k : Nat}
    {step : Step} {name previous : String} (hstep : (Chain.readJson path columns)[k]? = some step)
    (hname : readerNames[k]? = some name) (hprevious : ("" :: readerNames)[k]? = some previous) :
    ((Chain.readJson path columns).lines numbering)[k + 1]? =
      some ("\t" ++ step.binding name previous ++ if k + 1 < 5 then "," else "") := by
  rw [← Chain.names_readJson path columns numbering] at hname hprevious
  exact Chain.getElem?_lines_binding hstep hname hprevious

theorem Chain.line_fileContents (path : String) (columns : List (String × DataType))
    (numbering : Numbering) : ((Chain.readJson path columns).lines numbering)[1]? =
      some ("\t#\"File Contents1\" = File.Contents( " ++
        textLiteral (Text.replace previousMark "" (Text.swap '\\' '/' path)) ++ ", null),") := by
  have hpath := replace_textLiteral (by decide : '"' ∉ "".toList) (Text.swap '\\' '/' path)
  refine (@Chain.line_readJson numbering path columns 0 _ _ _ rfl rfl rfl).trans ?_
  rw [Step.binding, Step.call, Option.some.injEq, String.ext_iff]
  simp [Step.fileContents, renderArgument, hpath, quotedName]

theorem Chain.line_expandRecord (path : String) (columns : List (String × DataType))
    (numbering : Numbering) : ((Chain.readJson path columns).lines numbering)[4]? =
      some ("\t#\"Table ExpandRecordColumn1\" = Table.ExpandRecordColumn( " ++
        "#\"Table FromList1\", \"Column1\", " ++
        listLiteral true ((columns.map Prod.fst).map
          (Text.replace previousMark "Table FromList1")) ++ ", null),") := by
  have hquote : '"' ∉ "Table FromList1".toList := by decide
  have hcolumn : Text.replace previousMark "Table FromList1" (textLiteral listColumn) =
      "\"Column1\"" := by decide +kernel
  refine (@Chain.line_readJson numbering path columns 3 _ _ _ rfl rfl rfl).trans ?_
  rw [Step.binding, Step.call, Option.some.injEq, String.ext_iff]
  simp [Step.expandRecord, renderArgument, replace_previousStep, hcolumn, RecordFields.fields,
    RecordFields.columns?, replace_quotedList hquote, quotedName]

theorem mark_not_infix_name (type : LoadType) :
    ¬ previousMark.toList <:+: type.name.toList := by
  have htilde : '~' ∉ type.name.toList := by cases type <;> decide
  exact fun hmark => htilde (hmark.subset (by decide : '~' ∈ previousMark.toList))

theorem Chain.line_transformTypes (path : String) (columns : List (String × DataType))
    (numbering : Numbering) : ((Chain.readJson path columns).lines numbering)[5]? =
      some ("\t#\"Table TransformColumnTypes1\" = Table.TransformColumnTypes( " ++
        "#\"Table ExpandRecordColumn1\", " ++
        pairsLiteral true false (columns.map fun column =>
          (Text.replace previousMark "Table ExpandRecordColumn1" column.1,
            (LoadType.ofDataType column.2).name)) ++ ", null)") := by
  have hquote : '"' ∉ "Table ExpandRecordColumn1".toList := by decide
  have hvalues : ∀ pair ∈ columns.map fun column =>
      (column.1, (LoadType.ofDataType column.2).name),
      ¬ previousMark.toList <:+: pair.2.toList :=
    List.forall_mem_map.mpr fun column _ => mark_not_infix_name (LoadType.ofDataType column.2)
  refine (@Chain.line_readJson numbering path columns 4 _ _ _ rfl rfl rfl).trans ?_
  rw [Step.binding, Step.call, Option.some.injEq, String.ext_iff]
  simp [Step.transformTypes, renderArgument, replace_previousStep,
    replace_quotedPairs hquote hvalues, quotedName, Function.comp_def]

/-- That the lines of a query read a JSON file: the path in the first step, the fields that records
    are expanded into, and the columns that are given types, each with its type. -/
structure ReadsFile (lines : List String) (path : String) (fields : List String)
    (types : List (String × String)) : Prop where
  path : lines[1]?.bind readPath = some path
  fields : lines[4]?.bind readFields = some fields
  types : lines[5]?.bind readColumnTypes = some types

/-- In each literal the mark of the step before gives way to the name that it has there. -/
theorem Chain.readsFile_readJson (path : String) (columns : List (String × DataType))
    (numbering : Numbering) : ReadsFile ((Chain.readJson path columns).lines numbering)
      (Text.replace previousMark "" (Text.swap '\\' '/' path))
      ((columns.map Prod.fst).map (Text.replace previousMark "Table FromList1"))
      (columns.map fun column =>
        (Text.replace previousMark "Table ExpandRecordColumn1" column.1,
          (LoadType.ofDataType column.2).name)) where
  path := by
    rw [Chain.line_fileContents, Option.bind_some]
    exact readBetween_eq (reads_textLiteral _) (by decide)
  fields := by
    rw [Chain.line_expandRecord, Option.bind_some]
    exact readBetween_eq (reads_listLiteral _) (by decide)
  types := by
    rw [Chain.line_transformTypes, Option.bind_some]
    refine readBetween_eq (reads_pairsLiteral (List.forall_mem_map.mpr fun column _ => ?_))
      (by decide)
    exact Model.brace_notMem_name (LoadType.ofDataType column.2)

end Tabular.Query

namespace Tabular.Model
open Tabular.Json Tabular.Query
variable {path current absolute : String} {p p' : Partition}

/-- The expression that a partition dumps, where it has steps. -/
def dumpedExpression (p : Partition) (numbering : Numbering) : Value :=
  Members.read ((p.dump numbering).members.read "source").members "expression"

theorem dumpedExpression_eq (h : p.steps ≠ []) (numbering : Numbering) :
    dumpedExpression p numbering = .arr ((p.steps.lines numbering).map .str) := by
  have hsource : ("source", Value.obj (p.source numbering)) ∈ p.fields numbering := by
    simp [Partition.fields]
  have hempty : p.steps.isEmpty = false := by rwa [List.isEmpty_eq_false_iff]
  rw [dumpedExpression, Partition.dump_eq, Value.members_obj,
    Members.read_putAll_of_mem (p.nodup_fields numbering) hsource, Value.members_obj,
    Partition.source, hempty, if_neg Bool.false_ne_true, Members.read_put_self]

theorem swap_of_resolveSource (h : resolveSource path current = .ok absolute) :
    Text.swap '\\' '/' absolute = absolute := by
  rw [resolveSource] at h
  split at h
  · cases h
  · rw [← Except.ok.inj h, swap_swap]

/-- What a partition dumps when it is set to read a JSON file. -/
theorem Partition.dumps_jsonReader (h : resolveSource path current = .ok absolute) (p : Partition)
    (columns : List (String × DataType)) (numbering : Numbering) :
    ∃ p' lines, p.setToJsonReader path columns current = .ok p' ∧
      dumpedExpression p' numbering = .arr (lines.map .str) ∧
      ReadsFile lines (Text.replace previousMark "" absolute)
        ((columns.map Prod.fst).map (Text.replace previousMark "Table FromList1"))
        (columns.map fun column =>
          (Text.replace previousMark "Table ExpandRecordColumn1" column.1,
            (LoadType.ofDataType column.2).name)) := by
  refine ⟨_, _, Partition.setToJsonReader_eq_ok.mpr ⟨absolute, h, rfl⟩,
    dumpedExpression_eq (List.cons_ne_nil _ _) numbering, ?_⟩
  have hread := Chain.readsFile_readJson absolute columns numbering
  rwa [swap_of_resolveSource h] at hread

/-- The expression that a partition dumps when it is set to read a JSON file has the resolved path
    if the mark of the step before is not in it, and only then. It expands the declared fields,
    and gives types to the declared columns, if the mark is in no name, and only then; the types
    are those that the columns are loaded with. Where a name has the mark, the steps disagree. -/
theorem Partition.jsonReader_reads_iff (h : resolveSource path current = .ok absolute)
    (p : Partition) (columns : List (String × DataType)) (numbering : Numbering) :
    ∃ p' lines, p.setToJsonReader path columns current = .ok p' ∧
      dumpedExpression p' numbering = .arr (lines.map .str) ∧
      ReadsFile lines (Text.replace previousMark "" absolute)
        ((columns.map Prod.fst).map (Text.replace previousMark "Table FromList1"))
        (columns.map fun column =>
          (Text.replace previousMark "Table ExpandRecordColumn1" column.1,
            (LoadType.ofDataType column.2).name)) ∧
      (lines[1]?.bind readPath = some absolute ↔ ¬ previousMark.toList <:+: absolute.toList) ∧
      (lines[4]?.bind readFields = some (columns.map Prod.fst) ↔
        ∀ column ∈ columns, ¬ previousMark.toList <:+: column.1.toList) ∧
      (lines[5]?.bind readColumnTypes =
          some (columns.map fun column => (column.1, (LoadType.ofDataType column.2).name)) ↔
        ∀ column ∈ columns, ¬ previousMark.toList <:+: column.1.toList) ∧
      (lines[4]?.bind readFields = (lines[5]?.bind readColumnTypes).map (List.map Prod.fst) ↔
        ∀ column ∈ columns, ¬ previousMark.toList <:+: column.1.toList) := by
  obtain ⟨p', lines, hp', hlines, hread⟩ := p.dumps_jsonReader h columns numbering
  refine ⟨p', lines, hp', hlines, hread, ?_, ?_, ?_, ?_⟩
  · rw [hread.path, Option.some.injEq]
    exact replace_eq_self_iff (by decide) absolute
  · rw [hread.fields, Option.some.injEq, List.map_map, List.map_eq_map_iff]
    exact forall₂_congr fun column _ => replace_eq_self_iff (by decide) column.1
  · rw [hread.types, Option.some.injEq, List.map_eq_map_iff]
    refine forall₂_congr fun column _ => ?_
    rw [Prod.mk.injEq, and_iff_left rfl]
    exact replace_eq_self_iff (by decide) column.1
  · rw [hread.fields, hread.types, Option.map_some, Option.some.injEq, List.map_map, List.map_map,
      List.map_eq_map_iff]
    refine forall₂_congr fun column _ => ?_
    simp only [Function.comp_apply, String.ext_iff, toList_replace]
    exact Text.replaceChars_eq_iff previousMark_ne_nil (by decide) (by decide)

theorem resolveSource_fileInRoot : resolveSource "/a.json" "/" = .ok "/a.json" := by decide +kernel

theorem Partition.jsonReader_reads_iff_oneColumn :
    ∃ (p' : Partition) (lines : List String),
      (Partition.fresh none none).setToJsonReader "/a.json" [("Net \"EUR\"", .double)] "/" = .ok p' ∧
      dumpedExpression p' .legacy = .arr (lines.map .str) ∧
      lines[1]?.bind readPath = some "/a.json" ∧
      lines[4]?.bind readFields = some ["Net \"EUR\""] ∧
      lines[5]?.bind readColumnTypes = some [("Net \"EUR\"", "type number")] := by
  obtain ⟨p', lines, hp', hlines, _, hpath, hfields, htypes, _⟩ :=
    Partition.jsonReader_reads_iff resolveSource_fileInRoot (.fresh none none)
      [("Net \"EUR\"", .double)] .legacy
  have hname : ∀ column ∈ [("Net \"EUR\"", DataType.double)],
      ¬ previousMark.toList <:+: column.1.toList := by
    decide
  exact ⟨p', lines, hp', hlines, hpath.mpr (by decide), hfields.mpr hname, htypes.mpr hname⟩

/-- A column that is called like the mark has two names, neither of them its own. -/
theorem Partition.jsonReader_misreads_mark :
    ∃ (p' : Partition) (lines : List String),
      (Partition.fresh none none).setToJsonReader "/a.json" [(previousMark, .string)] "/" = .ok p' ∧
      dumpedExpression p' .sequential = .arr (lines.map .str) ∧
      lines[4]?.bind readFields = some ["Table FromList1"] ∧
      lines[5]?.bind readColumnTypes = some [("Table ExpandRecordColumn1", "type text")] := by
  obtain ⟨p', lines, hp', hlines, hread⟩ := (Partition.fresh none none).dumps_jsonReader
    resolveSource_fileInRoot [(previousMark, .string)] .sequential
  refine ⟨p', lines, hp', hlines, hread.fields.trans ?_, hread.types.trans ?_⟩
  · decide +kernel
  · decide +kernel

end Tabular.Model
