/- Formulas, read back: the tables and columns that they refer to. -/
import Tabular.Proofs.Model.Invariant
import Tabular.Proofs.Query.Reading

namespace Tabular.Model
open Tabular.Query
variable {table column numerator denominator formula tag : String} {other : Option String}
  {rest : List Char} {t t' : Table} {options : QuotientOptions}

/-- Reads a name between two marks; the closing one is doubled in it. -/
def readName (opening closing : Char) : Reader String := do
  expect [opening]
  let name ← Text.readDoubled closing
  return String.ofList name

/-- Reads the name of a table between single quotes. -/
def readTable : Reader String := readName '\'' '\''

/-- Reads the name of a table, and behind it that of a column between brackets. -/
def readReference : Reader (String × String) := do
  let table ← readTable
  let column ← readName '[' ']'
  return (table, column)

/-- A name between two marks. -/
def enclosed (opening closing : Char) (name : String) : List Char :=
  opening :: (Text.doubled closing name.toList ++ [closing])

theorem toList_tableReference (table : String) :
    (tableReference table).toList = enclosed '\'' '\'' table :=
  String.toList_ofList

theorem toList_columnReference (table column : String) :
    (columnReference table column).toList =
      enclosed '\'' '\'' table ++ enclosed '[' ']' column := by
  rw [columnReference, String.toList_append, toList_tableReference, String.toList_ofList, enclosed]
  rfl

theorem readName_enclosed {opening closing : Char} (h : rest.head? ≠ some closing)
    (name : String) :
    readName opening closing (enclosed opening closing name ++ rest) = some (name, rest) := by
  have htext : enclosed opening closing name ++ rest =
      [opening] ++ (Text.doubled closing name.toList ++ closing :: rest) := by
    simp [enclosed]
  rw [htext, readName, bind_of_read (expect_append _ _),
    bind_of_read (Text.readDoubled_doubled h _), String.ofList_toList]
  rfl

theorem eq_of_readName {opening closing : Char} {cs : List Char} {name : String}
    (h : readName opening closing cs = some (name, rest)) :
    cs = enclosed opening closing name ++ rest := by
  obtain ⟨_, _, hopening, h⟩ := bind_eq_some.mp h
  obtain ⟨chars, _, hchars, hpure⟩ := bind_eq_some.mp h
  obtain ⟨rfl, rfl⟩ := pure_eq_some.mp hpure
  rw [eq_of_expect hopening, Text.eq_of_readDoubled hchars]
  simp [enclosed]

/-- A bracket behind the reference would belong to the name of the column. -/
theorem readReference_append (h : rest.head? ≠ some ']') (table column : String) :
    readReference ((columnReference table column).toList ++ rest) =
      some ((table, column), rest) := by
  have hbracket : (enclosed '[' ']' column ++ rest).head? ≠ some '\'' := by simp [enclosed]
  rw [toList_columnReference, List.append_assoc, readReference, readTable,
    bind_of_read (readName_enclosed hbracket table), bind_of_read (readName_enclosed h column)]
  rfl

theorem written_reference : Written readReference fun reference =>
    columnReference reference.1 reference.2 := by
  intro cs reference rest h
  obtain ⟨table, _, htable, h⟩ := bind_eq_some.mp h
  obtain ⟨column, _, hcolumn, hpure⟩ := bind_eq_some.mp h
  obtain ⟨rfl, rfl⟩ := pure_eq_some.mp hpure
  rw [eq_of_readName htable, eq_of_readName hcolumn, toList_columnReference, List.append_assoc]

/-- A text is read as a reference just when it is the reference to that column. -/
theorem readReference_eq_some_iff {text : String} :
    readAll readReference text = some (table, column) ↔ text = columnReference table column := by
  constructor
  · exact eq_of_readAll written_reference
  · rintro rfl
    have hread := readReference_append (by simp : [].head? ≠ some ']') table column
    rw [List.append_nil] at hread
    rw [readAll, hread]

/-- The two columns of a quotient, each with its table, and whether the second is looked up in a
    related table. -/
structure Ratio where
  numerator : String × String
  denominator : String × String
  related : Bool
  deriving DecidableEq, Repr

/-- Reads the denominator of a quotient, and whether it is looked up. -/
def readDenominator : Reader ((String × String) × Bool) :=
  (do
    expect "RELATED(".toList
    let reference ← readReference
    expect [')']
    return (reference, true)) <|> do
    let reference ← readReference
    return (reference, false)

/-- Reads the quotient of two columns. -/
def readQuotient : Reader Ratio := do
  expect "DIVIDE(".toList
  let numerator ← readReference
  expect ", ".toList
  let denominator ← readDenominator
  expect [')']
  return ⟨numerator, denominator.1, denominator.2⟩

/-- The text of a quotient. -/
def Ratio.text (ratio : Ratio) : String :=
  let lower := columnReference ratio.denominator.1 ratio.denominator.2
  "DIVIDE(" ++ columnReference ratio.numerator.1 ratio.numerator.2 ++ ", " ++
    (if ratio.related then "RELATED(" ++ lower ++ ")" else lower) ++ ")"

/-- The quotient that is asked for in a table: the denominator is in the table itself if no other
    one is given, and it is looked up if it is not in the table. -/
def ratioIn (table numerator denominator : String) (other : Option String) : Ratio where
  numerator := (table, numerator)
  denominator := (other.getD table, denominator)
  related := decide (∃ t ∈ other, t ≠ table)

theorem quotient_eq_text (table numerator denominator : String) (other : Option String) :
    quotient table numerator denominator other =
      (ratioIn table numerator denominator other).text := by
  cases other with
  | none => simp [quotient, ratioIn, Ratio.text]
  | some t =>
      by_cases ht : t = table
      · simp [quotient, ratioIn, Ratio.text, ht]
      · simp [quotient, ratioIn, Ratio.text, ht]

theorem readDenominator_append (reference : String × String) (related : Bool)
    (h : rest.head? = some ')') :
    readDenominator ((if related then
        "RELATED(" ++ columnReference reference.1 reference.2 ++ ")"
      else columnReference reference.1 reference.2).toList ++ rest) =
      some ((reference, related), rest) := by
  cases related with
  | true =>
      have htext : ("RELATED(" ++ columnReference reference.1 reference.2 ++ ")").toList ++ rest =
          "RELATED(".toList ++ ((columnReference reference.1 reference.2).toList ++
            ([')'] ++ rest)) := by
        simp
      rw [if_pos rfl, htext]
      apply orElse_of_read
      rw [bind_of_read (expect_append _ _), bind_of_read (readReference_append (by simp) _ _),
        bind_of_read (expect_append _ _)]
      rfl
  | false =>
      -- A reference starts with a quote, so it is not taken for a function that is called.
      have hcall : expect "RELATED(".toList
          ((columnReference reference.1 reference.2).toList ++ rest) = none := by
        rw [toList_columnReference]
        rfl
      have hbracket : rest.head? ≠ some ']' := by simp [h]
      rw [if_neg Bool.false_ne_true, readDenominator, orElse_of_none (bind_of_none hcall),
        bind_of_read (readReference_append hbracket _ _)]
      rfl

/-- Whatever quotes, brackets and commas are in the names, the two references are read back. -/
theorem readQuotient_text (ratio : Ratio) : readAll readQuotient ratio.text = some ratio := by
  have htext : ratio.text.toList = "DIVIDE(".toList ++
      ((columnReference ratio.numerator.1 ratio.numerator.2).toList ++ (", ".toList ++
        ((if ratio.related then
            "RELATED(" ++ columnReference ratio.denominator.1 ratio.denominator.2 ++ ")"
          else columnReference ratio.denominator.1 ratio.denominator.2).toList ++
            ([')'] ++ [])))) := by
    simp [Ratio.text]
  rw [readAll, htext, readQuotient, bind_of_read (expect_append _ _),
    bind_of_read (readReference_append (by simp) _ _), bind_of_read (expect_append _ _),
    bind_of_read (readDenominator_append _ _ rfl), bind_of_read (expect_append _ _)]
  rfl

/-- The table whose rows are filtered, the column that is tested, and the table whose rows are
    counted. -/
structure Share where
  filtered : String
  column : String × String
  counted : String
  deriving DecidableEq, Repr

/-- Reads the share of a table's rows in which a column is true. -/
def readShare : Reader Share := do
  expect "COUNTROWS(FILTER(".toList
  let filtered ← readTable
  expect ", ".toList
  let column ← readReference
  expect "=TRUE()))/COUNTROWS(".toList
  let counted ← readTable
  expect [')']
  return ⟨filtered, column, counted⟩

theorem toList_retentionRate (table column : String) : (retentionRate table column).toList =
    "COUNTROWS(FILTER(".toList ++ (enclosed '\'' '\'' table ++ (", ".toList ++
      ((columnReference table column).toList ++ ("=TRUE()))/COUNTROWS(".toList ++
        (enclosed '\'' '\'' table ++ ([')'] ++ [])))))) := by
  have htext : retentionRate table column = "COUNTROWS(FILTER(" ++ tableReference table ++ ", " ++
      columnReference table column ++ "=TRUE()))/COUNTROWS(" ++ tableReference table ++ ")" := rfl
  rw [htext]
  simp [toList_tableReference]

theorem readShare_retentionRate (table column : String) :
    readAll readShare (retentionRate table column) = some ⟨table, (table, column), table⟩ := by
  rw [readAll, toList_retentionRate, readShare, bind_of_read (expect_append _ _), readTable,
    bind_of_read (readName_enclosed (by simp) table), bind_of_read (expect_append _ _),
    bind_of_read (readReference_append (by simp) _ _), bind_of_read (expect_append _ _),
    bind_of_read (readName_enclosed (by simp) table), bind_of_read (expect_append _ _)]
  rfl

/-- The two kinds of formula start with different functions. -/
theorem retentionRate_ne_text (table column : String) (ratio : Ratio) :
    retentionRate table column ≠ ratio.text := by
  intro heq
  have hhead : (retentionRate table column).toList.head? = ratio.text.toList.head? := by rw [heq]
  rw [toList_retentionRate] at hhead
  simp [Ratio.text] at hhead

/-- That a table has got one more column, which a formula computes. -/
def Table.Stores (t t' : Table) (formula : String) : Prop :=
  ∃ c, t'.columns = t.columns ++ [c] ∧ c.formula = some formula

theorem Table.stores_iff_of_newQuotient
    (h : t.newQuotient tag numerator denominator options = .ok t') : t.Stores t' formula ↔
      formula = (ratioIn t.name numerator denominator options.table).text := by
  rw [← quotient_eq_text]
  cases Table.eq_of_insertColumn h
  constructor
  · rintro ⟨c, hcolumns, hformula⟩
    cases List.append_cancel_left hcolumns
    exact (Option.some.inj hformula).symm
  · rintro rfl
    exact ⟨_, rfl, rfl⟩

/-- A text is read as a reference to a column of a table just when it is that reference. The
    formula that a new quotient stores is read as the column of the table that is divided, and the
    column that it is divided by, in the table that is given or else in the table itself; it is
    looked up just when another table than this one is given. The formula of a retention rate is
    read as its table and its column. So two formulas are the same only if all these names are. -/
theorem references_unambiguous :
    (∀ text table column, readAll readReference text = some (table, column) ↔
      text = columnReference table column) ∧
    (∀ (t t' : Table) (tag numerator denominator : String) (options : QuotientOptions),
      t.newQuotient tag numerator denominator options = .ok t' →
      ∃ formula ratio, t.Stores t' formula ∧ readAll readQuotient formula = some ratio ∧
        ratio.numerator = (t.name, numerator) ∧
        ratio.denominator = (options.table.getD t.name, denominator) ∧
        (ratio.related = true ↔ ∃ other, options.table = some other ∧ other ≠ t.name)) ∧
    (∀ (m : Measure) (table column : String),
      readAll readShare (m.setToRetentionRate table column).expression =
        some ⟨table, (table, column), table⟩) ∧
    (∀ (t t' u u' : Table) (tag numerator denominator tag' numerator' denominator' : String)
      (options options' : QuotientOptions) (formula : String),
      t.newQuotient tag numerator denominator options = .ok t' →
      u.newQuotient tag' numerator' denominator' options' = .ok u' →
      t.Stores t' formula → u.Stores u' formula →
      t.name = u.name ∧ numerator = numerator' ∧ denominator = denominator' ∧
        options.table.getD t.name = options'.table.getD u.name) ∧
    (∀ (m m' : Measure) (table column table' column' : String),
      (m.setToRetentionRate table column).expression =
        (m'.setToRetentionRate table' column').expression → table = table' ∧ column = column') ∧
    ∀ (t t' : Table) (m : Measure) (tag numerator denominator table column formula : String)
      (options : QuotientOptions), t.newQuotient tag numerator denominator options = .ok t' →
      t.Stores t' formula → (m.setToRetentionRate table column).expression ≠ formula := by
  refine ⟨fun _ _ _ => readReference_eq_some_iff, ?_, fun _ => readShare_retentionRate, ?_, ?_, ?_⟩
  · intro t t' tag numerator denominator options h
    refine ⟨_, _, (Table.stores_iff_of_newQuotient h).mpr rfl, readQuotient_text _, rfl, rfl, ?_⟩
    rw [ratioIn, decide_eq_true_eq]
    rfl
  · intro t t' u u' tag numerator denominator tag' numerator' denominator' options options' formula
      h h' hstores hstores'
    rw [Table.stores_iff_of_newQuotient h] at hstores
    rw [Table.stores_iff_of_newQuotient h'] at hstores'
    have hread := readQuotient_text (ratioIn u.name numerator' denominator' options'.table)
    rw [← hstores', hstores, readQuotient_text, Option.some.injEq, Ratio.mk.injEq, Prod.mk.injEq,
      Prod.mk.injEq] at hread
    obtain ⟨⟨hname, hnumerator⟩, ⟨htable, hdenominator⟩, _⟩ := hread
    exact ⟨hname, hnumerator, hdenominator, htable⟩
  · intro m m' table column table' column' heq
    have hread := readShare_retentionRate table column
    change retentionRate table column = retentionRate table' column' at heq
    rw [heq, readShare_retentionRate, Option.some.injEq, Share.mk.injEq] at hread
    obtain ⟨htable, hcolumn, _⟩ := hread
    exact ⟨htable.symm, (congrArg Prod.snd hcolumn).symm⟩
  · intro t t' m tag numerator denominator table column formula options h hstores
    rw [(Table.stores_iff_of_newQuotient h).mp hstores]
    exact retentionRate_ne_text table column _

/-- A name may hold what looks like the end of one reference and the start of another. -/
theorem references_unambiguous_quotedNames :
    (∃ t' formula ratio, (Table.fresh "t" "Bob's").newQuotient "c" "a]b" "x], 'y'[z"
        ⟨some "RELATED('", none, .double, .none⟩ = .ok t' ∧
      (Table.fresh "t" "Bob's").Stores t' formula ∧ readAll readQuotient formula = some ratio ∧
        ratio.numerator = ("Bob's", "a]b") ∧ ratio.denominator = ("RELATED('", "x], 'y'[z") ∧
        ratio.related = true) ∧
    ∃ t' u' formula, (Table.fresh "t" "Bob's").newQuotient "c" "a]b" "d"
        ⟨some "Bob's", none, .double, .none⟩ = .ok t' ∧
      (Table.fresh "u" "Bob's").newQuotient "c" "a]b" "d" ⟨none, none, .any, .sum⟩ = .ok u' ∧
      (Table.fresh "t" "Bob's").Stores t' formula ∧ (Table.fresh "u" "Bob's").Stores u' formula ∧
      (some "Bob's").getD "Bob's" = none.getD "Bob's" ∧
      ((Measure.fresh "m" "Rate").setToRetentionRate "Bob's" "a]b").expression ≠ formula := by
  obtain ⟨-, hquotient, -, hsame, -, hapart⟩ := references_unambiguous
  have hother : ∃ t', (Table.fresh "t" "Bob's").newQuotient "c" "a]b" "x], 'y'[z"
      ⟨some "RELATED('", none, .double, .none⟩ = .ok t' := ⟨_, rfl⟩
  have hnamed : ∃ t', (Table.fresh "t" "Bob's").newQuotient "c" "a]b" "d"
      ⟨some "Bob's", none, .double, .none⟩ = .ok t' := ⟨_, rfl⟩
  have hplain : ∃ u', (Table.fresh "u" "Bob's").newQuotient "c" "a]b" "d"
      ⟨none, none, .any, .sum⟩ = .ok u' := ⟨_, rfl⟩
  obtain ⟨t', ht'⟩ := hother
  obtain ⟨v', hv'⟩ := hnamed
  obtain ⟨u', hu'⟩ := hplain
  obtain ⟨formula, ratio, hstores, hread, hnumerator, hdenominator, hrelated⟩ :=
    hquotient _ _ _ _ _ _ ht'
  have hv := (Table.stores_iff_of_newQuotient hv').mpr rfl
  have hu := (Table.stores_iff_of_newQuotient hu').mpr rfl
  have heq : ratioIn "Bob's" "a]b" "d" none = ratioIn "Bob's" "a]b" "d" (some "Bob's") := by decide
  refine ⟨⟨t', formula, ratio, ht', hstores, hread, hnumerator, hdenominator,
    hrelated.mpr ⟨_, rfl, by decide⟩⟩, v', u', _, hv', hu', hv, ?_, ?_, ?_⟩
  · exact heq ▸ hu
  · exact (hsame _ _ _ _ _ _ _ _ _ _ _ _ _ hv' hu' hv (heq ▸ hu)).2.2.2
  · exact hapart _ _ _ _ _ _ _ _ _ _ hv' hv

end Tabular.Model
