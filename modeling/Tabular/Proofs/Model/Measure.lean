/- Measures over their documents. -/
import Tabular.Model.Measure
import Tabular.Proofs.Model.Column

namespace Tabular.Model
open Tabular.Json
variable {ms : Members} {path text : String} {doc v : Value} {m : Measure}

/-- A value that holds a formula: the text itself, or its lines. -/
def Formula (v : Value) (text : String) : Prop :=
  v = .str text ∨ ∃ lines : List String, v = .arr (lines.map .str) ∧ "\n".intercalate lines = text

theorem loadLine_eq_ok {line : String} : loadLine path v = .ok line ↔ v = .str line := by
  cases v <;> simp only [loadLine, Except.ok.injEq, Value.str.injEq, reduceCtorEq]

theorem loadLines_eq_ok {i : Nat} {vs : List Value} {lines : List String} :
    loadItems loadLine path i vs = .ok lines ↔ vs = lines.map .str := by
  rw [loadItems_eq_ok @loadLine_eq_ok]
  induction vs generalizing lines with
  | nil => cases lines <;> simp
  | cons v vs ih =>
      cases lines with
      | nil => simp
      | cons line lines => simp only [List.forall₂_cons, ih, List.map_cons, List.cons.injEq]

theorem loadFormula_eq_ok :
    loadFormula ms path = .ok text ↔ Formula (ms.read "expression") text := by
  rw [loadFormula, Members.read, Formula]
  cases ms.get? "expression" with
  | none => simp
  | some v =>
      cases v with
      | arr items =>
          simp only [bind_eq_ok, pure_eq_ok, loadLines_eq_ok, Option.getD_some, Value.arr.injEq,
            reduceCtorEq, false_or]
      | _ => simp

/-- A formula of several lines is stored as one text. -/
def joinedLines : Value → Value
  | .arr lines => .str (textLines lines)
  | v => v

theorem Formula.joinedLines_eq (h : Formula v text) : joinedLines v = .str text := by
  rcases h with rfl | ⟨lines, rfl, rfl⟩
  · rfl
  · rw [joinedLines, textLines_strs]

theorem Formula.isNull_eq (h : Formula v text) : v.isNull = false := by
  rcases h with rfl | ⟨lines, rfl, _⟩
  · rfl
  · rfl

def Measure.fields (m : Measure) : List (String × Value) :=
  [("name", .str m.name),
    ("expression", .str m.expression),
    ("formatString", .ofText? m.formatString),
    ("lineageTag", .ofText? m.lineageTag),
    ("dataType", .ofText? (m.dataType.map DataType.name))]

theorem Measure.dump_eq (m : Measure) : m.dump = .obj (m.stored.putAll m.fields) := rfl

theorem Measure.nodup_fields (m : Measure) : (m.fields.map Prod.fst).Nodup := by
  change ["name", "expression", "formatString", "lineageTag", "dataType"].Nodup
  decide

theorem Measure.keyed_dump (h : (Value.obj m.stored).Keyed) : m.dump.Keyed := by
  rw [Measure.dump_eq]
  apply Members.keyed_putAll h
  simp only [Measure.fields, List.forall_mem_cons, List.not_mem_nil, Value.keyed_str,
    Value.keyed_ofText?, false_implies, implies_true, and_self]

/-- The measure that a document holds. -/
structure Measure.Loaded (doc : Value) (m : Measure) : Prop where
  stored : doc = .obj m.stored
  expression : Formula (m.stored.read "expression") m.expression
  name : m.stored.read "name" = .str m.name
  formatString : m.stored.read "formatString" = .ofText? m.formatString
  dataType : ∃ type?, m.stored.read "dataType" = .ofText? type? ∧
    m.dataType = type?.map DataType.ofName
  lineageTag : m.stored.read "lineageTag" = .ofText? m.lineageTag

theorem Measure.load_eq_ok : Measure.load path doc = .ok m ↔ Measure.Loaded doc m := by
  simp only [Measure.load, bind_eq_ok, pure_eq_ok, membersOf_eq_ok, requiredText_eq_ok,
    optionalText_eq_ok, loadFormula_eq_ok]
  constructor
  · rintro ⟨ms, rfl, text, htext, name, hname, format, hformat, type, htype, tag, htag, rfl⟩
    exact ⟨rfl, htext, hname, hformat, ⟨type, htype, rfl⟩, htag⟩
  · obtain ⟨name, text, format, type, tag, ms⟩ := m
    rintro ⟨rfl, htext, hname, hformat, ⟨type, htype, rfl⟩, htag⟩
    exact ⟨ms, rfl, text, htext, name, hname, format, hformat, type, htype, tag, htag, rfl⟩

def revisedMeasure : Value → Value := Value.revise fun ms => ms.update "expression" joinedLines

/-- Of the document of a measure, a dump changes the expression. -/
theorem Measure.Loaded.dump_prune (h : Measure.Loaded doc m) :
    m.dump.prune = (revisedMeasure doc).prune := by
  obtain ⟨type, htype, hm⟩ := h.dataType
  have hput : m.stored.put "expression" (.str m.expression) =
      m.stored.update "expression" joinedLines := by
    rw [← Members.put_eq_update (Members.get?_of_read rfl h.expression.isNull_eq),
      h.expression.joinedLines_eq]
  have hnames : m.dataType.map DataType.name = type := by
    rw [hm]
    cases type with
    | none => rfl
    | some name => exact congrArg some (DataType.name_ofName name)
  have hsettled : Value.pruneMembers (m.stored.putAll m.fields) =
      Value.pruneMembers (m.stored.put "expression" (.str m.expression)) :=
    pruneMembers_putAll_single [("name", .str m.name)]
      [("formatString", .ofText? m.formatString), ("lineageTag", .ofText? m.lineageTag),
        ("dataType", .ofText? (m.dataType.map DataType.name))]
      m.nodup_fields (by simpa using h.name)
      (by simpa [hnames] using ⟨h.formatString, h.lineageTag, htype⟩)
  rw [h.stored, Measure.dump_eq, Value.prune_obj, hsettled, hput]
  rfl

structure Measure.Sound (m : Measure) : Prop where
  keyed : (Value.obj m.stored).Keyed
  parsed : ∀ t ∈ m.dataType, t.Parsed

theorem Measure.Loaded.sound (h : Measure.Loaded doc m) (hd : doc.Keyed) : m.Sound := by
  obtain ⟨type, _, hm⟩ := h.dataType
  constructor
  · exact h.stored ▸ hd
  · intro t ht
    rw [hm] at ht
    obtain ⟨name, _, rfl⟩ := Option.map_eq_some_iff.mp ht
    exact DataType.parsed_ofName name

def Measure.reload (m : Measure) : Measure := { m with stored := m.dump.prune.members }

/-- What loading the document of a measure gives: a data type that its name does not stand for
    comes back as the one that it stands for. -/
def Measure.reread (m : Measure) : Measure :=
  { m.reload with dataType := m.dataType.map fun t => .ofName t.name }

theorem Measure.read_fields (h : (Value.obj m.stored).Keyed) :
    ∀ p ∈ m.fields, m.reload.stored.read p.1 = p.2.prune :=
  Value.Keyed.read_prune_putAll (Measure.keyed_dump h) m.nodup_fields

theorem Measure.loaded_reread (h : (Value.obj m.stored).Keyed) :
    Measure.Loaded m.dump.prune m.reread := by
  have hread := Measure.read_fields h
  simp only [Measure.fields, List.forall_mem_cons, Value.prune_str, Value.prune_ofText?] at hread
  obtain ⟨hname, htext, hformat, htag, htype, _⟩ := hread
  refine ⟨rfl, Or.inl htext, hname, hformat, ⟨_, htype, ?_⟩, htag⟩
  rw [Option.map_map]
  rfl

theorem Measure.Sound.reread_eq (h : m.Sound) : m.reread = m.reload := by
  have htype : (m.dataType.map fun t => DataType.ofName t.name) = m.dataType := by
    cases ht : m.dataType with
    | none => rfl
    | some t => exact congrArg some (h.parsed t ht)
  rw [Measure.reread, htype]
  rfl

theorem Measure.Sound.revisedMeasure_dump (h : m.Sound) :
    revisedMeasure m.dump.prune = m.dump.prune := by
  have hread := Measure.read_fields h.keyed
  simp only [Measure.fields, List.forall_mem_cons, Value.prune_str] at hread
  change Value.obj (m.reload.stored.update "expression" joinedLines) = .obj m.reload.stored
  rw [Members.update_of_fixed]
  intro v hv
  rw [(Members.read_of_get? hv).symm.trans hread.2.1]
  rfl

structure Measure.ReadsBack (m m' : Measure) : Prop where
  name : m'.name = m.name
  expression : m'.expression = m.expression
  formatString : m'.formatString = m.formatString
  dataType : m'.dataType = m.dataType
  lineageTag : m'.lineageTag = m.lineageTag

theorem Measure.readsBack_reload (m : Measure) : Measure.ReadsBack m m.reload :=
  ⟨rfl, rfl, rfl, rfl, rfl⟩

theorem Measure.sound_fresh (tag name : String) : (Measure.fresh tag name).Sound := by
  constructor
  · simp [Measure.fresh, Value.keyed_obj, Members.keys]
  · intro t ht
    cases ht

theorem Measure.Sound.setExpression (h : m.Sound) (text : String) {t : DataType} (ht : t.Parsed) :
    (m.setExpression text t).Sound := by
  refine ⟨h.keyed, ?_⟩
  intro u hu
  cases hu
  exact ht

theorem Measure.Sound.setFormat (h : m.Sound) (format : String) : (m.setFormat format).Sound :=
  ⟨h.keyed, h.parsed⟩

theorem Measure.Sound.setToRetentionRate (h : m.Sound) (table column : String) :
    (m.setToRetentionRate table column).Sound :=
  (h.setExpression (retentionRate table column) (t := .double) rfl).setFormat percentFormat

end Tabular.Model
