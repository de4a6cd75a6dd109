/- Binding a table to a JSON file, which puts in a partition and all the columns or nothing. -/
import Tabular.Proofs.Model.Operation
import Tabular.Proofs.Query.Reading

namespace Tabular.Model
open Tabular.Query
variable {t t' : Table} {taken names : List String} {columns : List (String × DataType)}

/-- Whether the name at a place is taken, or stands at an earlier place as well. -/
def Offends (taken names : List String) (i : Nat) : Prop :=
  ∃ name, names[i]? = some name ∧ (name ∈ taken ∨ name ∈ names.take i)

/-- That a name is the first one to offend. -/
def FirstOffense (taken names : List String) (name : String) : Prop :=
  ∃ i, names[i]? = some name ∧ Offends taken names i ∧ ∀ j < i, ¬ Offends taken names j

theorem offends_succ {name : String} {i : Nat} :
    Offends taken (name :: names) (i + 1) ↔ Offends (name :: taken) names i := by
  simp only [Offends, List.getElem?_cons_succ, List.take_succ_cons, List.mem_cons, or_left_comm,
    or_assoc]

theorem offends_zero {name : String} : Offends taken (name :: names) 0 ↔ name ∈ taken := by
  simp [Offends]

/-- The scan gives the first name that offends, if there is one. -/
theorem firstTaken_cases (taken names : List String) :
    (firstTaken taken names = none ∧ ∀ i, ¬ Offends taken names i) ∨
      ∃ name, firstTaken taken names = some name ∧ FirstOffense taken names name := by
  induction names generalizing taken with
  | nil => exact .inl ⟨rfl, fun i ⟨_, hname, _⟩ => nomatch hname⟩
  | cons name names ih =>
      by_cases htaken : name ∈ taken
      · refine .inr ⟨name, ?_, 0, rfl, offends_zero.mpr htaken, fun j hj => ?_⟩
        · rw [firstTaken, if_pos (List.contains_iff_mem.mpr htaken)]
        · exact absurd hj (Nat.not_lt_zero j)
      · rw [firstTaken, if_neg (mt List.contains_iff_mem.mp htaken)]
        rcases ih (name :: taken) with ⟨hnone, hfree⟩ | ⟨bad, hbad, i, hi, hoffends, hfirst⟩
        · refine .inl ⟨hnone, fun i => ?_⟩
          cases i with
          | zero => exact mt offends_zero.mp htaken
          | succ i => exact mt offends_succ.mp (hfree i)
        · refine .inr ⟨bad, hbad, i + 1, hi, offends_succ.mpr hoffends, fun j hj => ?_⟩
          cases j with
          | zero => exact mt offends_zero.mp htaken
          | succ j => exact mt offends_succ.mp (hfirst j (Nat.lt_of_succ_lt_succ hj))

theorem FirstOffense.not_free {name : String} (h : FirstOffense taken names name) :
    ¬ ∀ i, ¬ Offends taken names i := by
  obtain ⟨i, _, hoffends, _⟩ := h
  exact fun hfree => hfree i hoffends

/-- The text of an argument of one of the steps. -/
def argumentAt (chain : Chain) (i : Nat) (key : String) : Option String :=
  chain[i]?.bind fun step => step.argument? key

/-- That a chain has the five steps that read a JSON file, and that its literals hold just the given
    columns, in their order, with the types that they are loaded with. -/
structure LoadsColumns (columns : List (String × DataType)) (chain : Chain) : Prop where
  functions : chain.map Step.function = ["File.Contents", "Json.Document", "Table.FromList",
    "Table.ExpandRecordColumn", "Table.TransformColumnTypes"]
  names : (argumentAt chain 3 "field_names").bind readTexts = some (columns.map Prod.fst)
  types : (argumentAt chain 4 "type_transformations").bind readTypes =
    some (columns.map fun column => (column.1, (LoadType.ofDataType column.2).name))

theorem brace_notMem_name (type : LoadType) : '\x7d' ∉ type.name.toList := by
  cases type <;> decide

theorem loadsColumns_readJson (path : String) (columns : List (String × DataType)) :
    LoadsColumns columns (Chain.readJson path columns) where
  functions := rfl
  names := readTexts_listLiteral (columns.map Prod.fst)
  types := by
    have htypes : argumentAt (Chain.readJson path columns) 4 "type_transformations" =
        some (pairsLiteral true false
          ((columns.map fun column => (column.1, LoadType.ofDataType column.2)).map
            fun type => (type.1, type.2.name))) := rfl
    rw [htypes, Option.bind_some, readTypes_pairsLiteral, List.map_map]
    · rfl
    · rw [List.forall_mem_map]
      exact fun type _ => brace_notMem_name type.2

/-- That a column is imported from the source column of its own name. -/
structure Column.Declared (column : String × DataType) (c : Column) : Prop where
  name : c.name = column.1
  dataType : c.dataType = column.2
  sourceColumn : c.sourceColumn = some column.1

/-- What binding a table to a JSON file makes of it. -/
structure Table.Bound (declared : List (String × DataType)) (group : Option String)
    (t t' : Table) : Prop where
  columns : ∃ fresh, t'.columns = t.columns ++ fresh ∧
    List.Forall₂ Column.Declared declared fresh
  partitions : ∃ p, t'.partitions = t.partitions ++ [p] ∧ p.name = some t.name ∧
    p.queryGroup = group ∧ LoadsColumns declared p.steps
  others : t' = { t with columns := t'.columns, partitions := t'.partitions }

theorem declared_imported (tag : Nat → String) (columns : List (String × DataType)) :
    List.Forall₂ Column.Declared columns (columns.mapIdx fun i column =>
      Column.imported (tag i) column.1 column.2 (some column.1)) := by
  rw [List.forall₂_iff_get]
  refine ⟨List.length_mapIdx.symm, fun i _ hi => ?_⟩
  simp only [List.get_eq_getElem, List.getElem_mapIdx]
  exact ⟨rfl, rfl, rfl⟩

theorem resolveSource_cases (path current : String) :
    (path = "" ∧ resolveSource path current =
        .error (.sourcePath path "cannot make an empty path absolute")) ∨
      path ≠ "" ∧ ∃ absolute, resolveSource path current = .ok absolute := by
  rw [resolveSource]
  by_cases hpath : path = ""
  · exact .inl ⟨hpath, by rw [if_pos (String.isEmpty_iff.mpr hpath)]⟩
  · exact .inr ⟨hpath, _, by rw [if_neg (mt String.isEmpty_iff.mp hpath)]⟩

theorem Table.bound_withReader (t : Table) (tag : Nat → String) (file : String)
    (columns : List (String × DataType)) (group : Option String) :
    t.Bound columns group (t.withReader tag file columns group) where
  columns := ⟨_, rfl, declared_imported tag columns⟩
  partitions := ⟨_, rfl, rfl, rfl, loadsColumns_readJson file columns⟩
  others := rfl

/-- A name that offends is found before the path is looked at, and both before anything is put
    in. -/
theorem Table.bindToJson_cases (t : Table) (tag : Nat → String) (path : String)
    (columns : List (String × DataType)) (group : Option String) (current : String) :
    (∃ name, FirstOffense (t.columns.map Column.name) (columns.map Prod.fst) name ∧
        t.bindToJson tag path columns group current =
          .error ⟨.duplicateColumn t.name name, t⟩) ∨
      (∀ i, ¬ Offends (t.columns.map Column.name) (columns.map Prod.fst) i) ∧
        ((path = "" ∧ t.bindToJson tag path columns group current =
            .error ⟨.sourcePath path "cannot make an empty path absolute", t⟩) ∨
          path ≠ "" ∧ ∃ t', t.bindToJson tag path columns group current = .ok t' ∧
            t.Bound columns group t') := by
  rcases firstTaken_cases (t.columns.map Column.name) (columns.map Prod.fst) with
    ⟨hnone, hfree⟩ | ⟨name, hname, hfirst⟩
  · refine .inr ⟨hfree, ?_⟩
    rcases resolveSource_cases path current with ⟨hpath, hresolve⟩ | ⟨hpath, file, hresolve⟩
    · exact .inl ⟨hpath, Table.bindToJson_eq_error.mpr ⟨rfl, .inr ⟨hnone, hresolve⟩⟩⟩
    · exact .inr ⟨hpath, _, Table.bindToJson_eq_ok.mpr ⟨hnone, file, hresolve, rfl⟩,
        t.bound_withReader tag file columns group⟩
  · exact .inl ⟨name, hfirst, Table.bindToJson_eq_error.mpr ⟨rfl, .inl ⟨name, hname, rfl⟩⟩⟩

/-- Binding a table to a JSON file succeeds just when no declared name is that of a column of the
    table or of an earlier declared one, be it blank, and the path is not empty. Then the table
    has the declared columns and a partition that reads them behind those that it had, and is
    otherwise the same. When it fails the table that it leaves is the one that it began with, and
    the fault names the first name that offends or, if there is none, the path. -/
theorem Table.bindToJson_all_or_nothing (t : Table) (tag : Nat → String) (path : String)
    (columns : List (String × DataType)) (group : Option String) (current : String) :
    ((∃ t', t.bindToJson tag path columns group current = .ok t') ↔
        (∀ i, ¬ Offends (t.columns.map Column.name) (columns.map Prod.fst) i) ∧ path ≠ "") ∧
      (∀ t', t.bindToJson tag path columns group current = .ok t' → t.Bound columns group t') ∧
      ∀ failure, t.bindToJson tag path columns group current = .error failure →
        failure.left = t ∧
          ((∃ name, FirstOffense (t.columns.map Column.name) (columns.map Prod.fst) name ∧
              failure.fault = .duplicateColumn t.name name) ∨
            (∀ i, ¬ Offends (t.columns.map Column.name) (columns.map Prod.fst) i) ∧
              ∃ reason, failure.fault = .sourcePath path reason) := by
  rcases t.bindToJson_cases tag path columns group current with
    ⟨name, hfirst, heq⟩ | ⟨hfree, ⟨hpath, heq⟩ | ⟨hpath, t', heq, hbound⟩⟩
  · rw [heq]
    refine ⟨iff_of_false (fun ⟨_, h⟩ => nomatch h) fun h => hfirst.not_free h.1, nofun, ?_⟩
    rintro _ ⟨⟩
    exact ⟨rfl, .inl ⟨name, hfirst, rfl⟩⟩
  · rw [heq]
    refine ⟨iff_of_false (fun ⟨_, h⟩ => nomatch h) fun h => h.2 hpath, nofun, ?_⟩
    rintro _ ⟨⟩
    exact ⟨rfl, .inr ⟨hfree, _, rfl⟩⟩
  · rw [heq]
    refine ⟨iff_of_true ⟨t', rfl⟩ ⟨hfree, hpath⟩, ?_, nofun⟩
    rintro _ ⟨⟩
    exact hbound

/-- Columns whose names hold what literals are made of; one of them has no name. -/
def awkwardColumns : List (String × DataType) :=
  [("say \"hi\"", .any), ("", .int64), ("\", \"", .other "text")]

/-- With a path they are put in; declared twice over they are not, nor without a path. -/
theorem Table.bindToJson_all_or_nothing_awkwardColumns :
    let t := Table.fresh "t" "Sales"
    (∃ t', t.bindToJson (fun _ => "c") "sales.json" awkwardColumns none "/data" = .ok t' ∧
        t.Bound awkwardColumns none t') ∧
      (∃ failure, t.bindToJson (fun _ => "c") "" (awkwardColumns ++ awkwardColumns) none "/data" =
          .error failure ∧ failure.left = t ∧
            failure.fault = .duplicateColumn "Sales" "say \"hi\"") ∧
      ∃ failure, t.bindToJson (fun _ => "c") "" awkwardColumns none "/data" = .error failure ∧
        failure.left = t := by
  intro t
  obtain ⟨_, hbound, _⟩ :=
    t.bindToJson_all_or_nothing (fun _ => "c") "sales.json" awkwardColumns none "/data"
  obtain ⟨_, _, hkept⟩ := t.bindToJson_all_or_nothing (fun _ => "c") ""
    (awkwardColumns ++ awkwardColumns) none "/data"
  obtain ⟨_, _, hkept'⟩ := t.bindToJson_all_or_nothing (fun _ => "c") "" awkwardColumns none "/data"
  exact ⟨⟨_, rfl, hbound _ rfl⟩, ⟨_, rfl, (hkept _ rfl).1, rfl⟩, _, rfl, (hkept' _ rfl).1⟩

end Tabular.Model
