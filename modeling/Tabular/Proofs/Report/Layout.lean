/- Layouts that have been stored are opened again. -/
import Tabular.Proofs.Codec
import Tabular.Proofs.Document.Encoded
import Tabular.Report.Layout

namespace Tabular.Report
open Tabular.Json Tabular.Document
variable {l : Layout} {f : Value → Value} {place : Place} {name : String} {v : Value}

theorem independent_encodedPlaces : Independent encodedPlaces := by
  unfold Independent encodedPlaces
  decide

theorem Layout.stored_eq (l : Layout) :
    l.stored = alterAll (encodeValue true) encodedPlaces l.document := by
  simp only [Layout.stored, alterAll, collapse_eq_alter]

/-- What a layout that has been opened keeps to. -/
structure Layout.Sound (l : Layout) : Prop where
  keyed : l.document.Keyed
  plain : l.document.Plain

theorem Layout.sound_ofValue (h : v.Keyed) : (Layout.ofValue v).Sound :=
  ⟨h.expand, v.plain_expand⟩

namespace Layout.Sound

theorem apart (hl : l.Sound) : Apart encodedPlaces l.document :=
  independent_encodedPlaces.apart hl.keyed

theorem keyed_stored (hl : l.Sound) : l.stored.Keyed := by
  rw [Layout.stored_eq]
  exact hereditary_keyed.alterAll (fun w _ => keyed_encodeValue w) hl.keyed

theorem integral_stored (h : l.document.Integral) : l.stored.Integral := by
  rw [Layout.stored_eq]
  exact (hereditary_leaves _).alterAll (fun w _ => integral_encodeValue w) h

/-- A layout that has been stored is opened at the encoded places alone. -/
theorem document_ofValue_stored (hl : l.Sound) : (Layout.ofValue l.stored).document =
    alterAll (Value.expand ∘ encodeValue true) encodedPlaces l.document := by
  rw [Layout.ofValue, Layout.stored_eq]
  exact expand_alterAll independent_encodedPlaces hl.keyed hl.plain fun w _ => keyed_encodeValue w

theorem holdsAt (hl : l.Sound) (h : l.document.Integral) :
    HoldsAt (fun w => w.Keyed ∧ w.Integral ∧ w.Plain) encodedPlaces l.document :=
  fun p hp w hw => ⟨hereditary_keyed.holdsAt hl.keyed _ p hp w hw,
    (hereditary_leaves _).holdsAt h _ p hp w hw, (hereditary_leaves _).holdsAt hl.plain _ p hp w hw⟩

theorem stored_ofValue_stored (hl : l.Sound) (h : l.document.Integral) :
    (Layout.ofValue l.stored).stored = l.stored := by
  rw [Layout.stored_eq, hl.document_ofValue_stored, hl.apart.alterAll_alterAll, Layout.stored_eq]
  apply hl.apart.alterAll_congr
  intro p hp w hw
  obtain ⟨hkeyed, hintegral, hplain⟩ := hl.holdsAt h p hp w hw
  exact encodeValue_expand_encodeValue hkeyed hintegral hplain

theorem document_ofValue_stored_of_le (hl : l.Sound) (h : l.document.Integral)
    (hle : HoldsAt (fun w => w.nesting ≤ nestingLimit) encodedPlaces l.document) :
    (Layout.ofValue l.stored).document = alterAll Value.prune encodedPlaces l.document := by
  rw [hl.document_ofValue_stored]
  apply hl.apart.alterAll_congr
  intro p hp w hw
  obtain ⟨hkeyed, hintegral, hplain⟩ := hl.holdsAt h p hp w hw
  exact (expand_encodeValue hkeyed hintegral hplain).1 (Value.nesting_prune_le (hle p hp w hw))

theorem ofBytes_toBytes (hl : l.Sound) (h : l.document.Integral)
    (hle : l.stored.nesting ≤ nestingLimit) :
    Layout.ofBytes l.toBytes = .ok (Layout.ofValue l.stored) := by
  rw [Layout.ofBytes, Layout.toBytes,
    readJson_of_nesting_le hl.keyed_stored (integral_stored h) hle .compact]
  rfl

theorem ofBytes_toBytes_of_deep (hl : l.Sound) (h : l.document.Integral)
    (hlt : nestingLimit < l.stored.nesting) :
    ∃ fault, Layout.ofBytes l.toBytes = .error (.invalidJson fault) := by
  obtain ⟨fault, hread, _⟩ := readJson_of_deep hl.keyed_stored (integral_stored h) hlt .compact
  rw [Layout.ofBytes, Layout.toBytes, hread]
  exact ⟨fault, rfl⟩

end Layout.Sound

/-- A layout that is stored and opened again is stored the same; its parts that are not too deep to
    be read come back without null members; and its bytes are read unless it is too deep itself. -/
theorem Layout.reopened (d : Json.Document) (hd : d.value.expand.Integral) :
    (Layout.ofValue (Layout.ofValue d.value).stored).stored = (Layout.ofValue d.value).stored ∧
      ((∀ p ∈ encodedPlaces, ∀ w ∈ valuesAt p (Layout.ofValue d.value).document, w.nesting ≤ 127) →
        (Layout.ofValue (Layout.ofValue d.value).stored).document =
          alterAll Value.prune encodedPlaces (Layout.ofValue d.value).document) ∧
      ((∃ again, Layout.ofBytes (Layout.ofValue d.value).toBytes = .ok again) ↔
        (Layout.ofValue d.value).stored.nesting ≤ 127) ∧
      ∀ again, Layout.ofBytes (Layout.ofValue d.value).toBytes = .ok again →
        again.document = (Layout.ofValue (Layout.ofValue d.value).stored).document := by
  have hl := Layout.sound_ofValue d.keyed
  have hdeep : ¬ (Layout.ofValue d.value).stored.nesting ≤ 127 →
      ∀ again, Layout.ofBytes (Layout.ofValue d.value).toBytes ≠ .ok again := by
    intro hlt again hread
    obtain ⟨fault, hfault⟩ := hl.ofBytes_toBytes_of_deep hd (Nat.lt_of_not_le hlt)
    rw [hfault] at hread
    cases hread
  refine ⟨hl.stored_ofValue_stored hd, hl.document_ofValue_stored_of_le hd, ⟨?_, ?_⟩, ?_⟩
  · rintro ⟨again, hread⟩
    by_contra hlt
    exact hdeep hlt again hread
  · intro hle
    exact ⟨_, hl.ofBytes_toBytes hd hle⟩
  · intro again hread
    by_cases hle : (Layout.ofValue d.value).stored.nesting ≤ 127
    · rw [hl.ofBytes_toBytes hd hle] at hread
      cases hread
      rfl
    · exact absurd hread (hdeep hle again)

/-- A stored layout with a null member in a text, and text in a text. -/
def roughLayout : Json.Document where
  value := .obj
    [("id", .ofInt 0),
      ("config", .str "\x7b\"theme\":null,\"pages\":\"[1,-2]\"\x7d"),
      ("sections", .arr [.obj [("displayName", .str "Overview"), ("filters", .str "[]")]])]
  keyed := by decide

theorem Layout.reopened_roughLayout :
    (Layout.ofValue (Layout.ofValue roughLayout.value).stored).document = .obj
        [("id", .ofInt 0),
          ("config", .obj [("pages", .arr [.ofInt 1, .ofInt (-2)])]),
          ("sections", .arr [.obj [("displayName", .str "Overview"), ("filters", .arr [])]])] ∧
      ∃ again, Layout.ofBytes (Layout.ofValue roughLayout.value).toBytes = .ok again ∧
        again.stored = (Layout.ofValue roughLayout.value).stored := by
  have hintegral : roughLayout.value.expand.Integral := by cbv
  obtain ⟨hstored, hdocument, hread, hsame⟩ := Layout.reopened roughLayout hintegral
  have hvalues : encodedPlaces.flatMap (valuesAt · (Layout.ofValue roughLayout.value).document) =
      [.obj [("theme", .null), ("pages", .arr [.ofInt 1, .ofInt (-2)])], .arr []] := by cbv
  have hshallow : ∀ p ∈ encodedPlaces,
      ∀ w ∈ valuesAt p (Layout.ofValue roughLayout.value).document, w.nesting ≤ 127 := by
    rw [← List.forall_mem_flatMap, hvalues]
    exact List.forall_mem_cons.mpr ⟨by decide, List.forall_mem_singleton.mpr (by decide)⟩
  refine ⟨?_, ?_⟩
  · rw [hdocument hshallow]
    cbv
  · obtain ⟨again, hagain⟩ := hread.mpr (by cbv)
    refine ⟨again, hagain, ?_⟩
    rw [Layout.stored, hsame again hagain]
    exact hstored

/-- Places that lead neither to the sections nor to the name of one. -/
inductive SparesNames : Place → Prop where
  | beside {name : String} (rest : Place) (h : name ≠ "sections") : SparesNames (.key name :: rest)
  | within {name : String} (rest : Place) (h : name ≠ "displayName") :
      SparesNames (.key "sections" :: .each :: .key name :: rest)

theorem displayName_alter (h : name ≠ "displayName") (f : Value → Value) (rest : Place)
    (v : Value) : displayName (alter f (.key name :: rest) v) = displayName v := by
  cases v with
  | obj ms => rw [alter, displayName, displayName, Members.get?_update, if_neg h]
  | _ => rfl

theorem SparesNames.sectionNames_alter (h : SparesNames place) (f : Value → Value) (v : Value) :
    (Layout.mk (alter f place v)).sectionNames = (Layout.mk v).sectionNames := by
  cases h with
  | beside rest h =>
      cases v with
      | obj ms =>
          simp only [Layout.sectionNames, Layout.sections, alter, Members.get?_update, if_neg h]
      | _ => rfl
  | within rest h =>
      cases v with
      | obj ms =>
          simp only [Layout.sectionNames, Layout.sections, alter, Members.get?_update, if_true]
          cases Members.get? ms "sections" with
          | none => rfl
          | some w =>
              cases w with
              | arr items =>
                  simp only [Option.map_some, alter, List.filterMap_map]
                  exact List.filterMap_congr fun w _ => displayName_alter h f rest w
              | _ => rfl
      | _ => rfl

theorem sectionNames_alterAll {ps : List Place} (h : ∀ p ∈ ps, SparesNames p) (f : Value → Value)
    (v : Value) : (Layout.mk (alterAll f ps v)).sectionNames = (Layout.mk v).sectionNames := by
  induction ps generalizing v with
  | nil => rfl
  | cons p ps ih =>
      obtain ⟨hp, hps⟩ := List.forall_mem_cons.mp h
      rw [alterAll_cons, ih hps, hp.sectionNames_alter]

theorem sparesNames_encodedPlaces : ∀ p ∈ encodedPlaces, SparesNames p := by
  simp only [encodedPlaces, List.forall_mem_cons, List.not_mem_nil, false_implies, implies_true,
    and_true]
  exact ⟨.beside _ (by decide), .beside _ (by decide), .within _ (by decide), .within _ (by decide),
    .within _ (by decide), .within _ (by decide), .within _ (by decide), .within _ (by decide)⟩

/-- A layout whose encoded places hold the texts of documents without null members is opened and
    stored as it was exactly where no other text holds a document, and each of those texts that can
    be read holds a list, an object, a number or a truth value in which no text holds a document.
    The first of these suffices for the names of the sections to be as stored. -/
theorem Layout.stored_ofValue_iff (d : Json.Document)
    (hencoded : ∀ p ∈ encodedPlaces, ∀ w ∈ valuesAt p d.value, ∃ inner : Json.Document,
      inner.value.Integral ∧ inner.value.prune = inner.value ∧ w = .str inner.value.text) :
    ((Layout.ofValue d.value).stored = d.value ↔
      PlainOutside encodedPlaces d.value ∧
        ∀ p ∈ encodedPlaces, ∀ text, .str text ∈ valuesAt p d.value →
          ∀ u, Value.ofText text = .ok u → Opened u ∧ u.Plain) ∧
      (PlainOutside encodedPlaces d.value →
        (Layout.ofValue d.value).sectionNames = (Layout.mk d.value).sectionNames) := by
  have happart := independent_encodedPlaces.apart d.keyed
  constructor
  · rw [Layout.stored_eq, Layout.ofValue, happart.alterAll_expand_eq_iff, and_congr_right_iff]
    intro _
    constructor
    · intro hkept p hp text htext
      obtain ⟨inner, hinner, hpruned, heq⟩ := hencoded p hp _ htext
      cases heq
      exact (encodeValue_expand_text_iff inner.keyed hinner hpruned).mp (hkept p hp _ htext)
    · intro hopened p hp w hw
      obtain ⟨inner, hinner, hpruned, rfl⟩ := hencoded p hp w hw
      exact (encodeValue_expand_text_iff inner.keyed hinner hpruned).mpr (hopened p hp _ hw)
  · intro hplain
    rw [Layout.ofValue, happart.expand_eq hplain]
    exact sectionNames_alterAll sparesNames_encodedPlaces _ _

/-- A stored layout in which only the encoded places hold texts of documents. -/
def plainLayout : Json.Document where
  value := .obj
    [("config", .str "\x7b\"version\":\"v5\"\x7d"),
      ("sections", .arr
        [.obj [("displayName", .str "Overview"),
            ("visualContainers", .arr [.obj [("query", .str "[true,-1]")]])],
          .obj [("displayName", .str "Page 2")]])]
  keyed := by decide

theorem Layout.stored_ofValue_plainLayout :
    (Layout.ofValue plainLayout.value).stored = plainLayout.value ∧
      (Layout.ofValue plainLayout.value).sectionNames = ["Overview", "Page 2"] := by
  have hvalues : encodedPlaces.flatMap (valuesAt · plainLayout.value) =
      [.str (Value.obj [("version", .str "v5")]).text,
        .str (Value.arr [.bool true, .ofInt (-1)]).text] := by cbv
  have hencoded : ∀ p ∈ encodedPlaces, ∀ w ∈ valuesAt p plainLayout.value, ∃ inner : Json.Document,
      inner.value.Integral ∧ inner.value.prune = inner.value ∧ w = .str inner.value.text := by
    rw [← List.forall_mem_flatMap, hvalues, List.forall_mem_cons, List.forall_mem_singleton]
    exact ⟨⟨⟨_, by decide⟩, by cbv, rfl, rfl⟩, ⟨⟨_, by decide⟩, by cbv, rfl, rfl⟩⟩
  obtain ⟨hstored, hnames⟩ := Layout.stored_ofValue_iff plainLayout hencoded
  have hopened : ∀ v : Value, v.expand = v → v.Plain := fun v hv => hv ▸ v.plain_expand
  have hplain : PlainOutside encodedPlaces plainLayout.value := hopened _ (by cbv)
  refine ⟨hstored.mpr ⟨hplain, ?_⟩, hnames hplain⟩
  intro p hp text htext u hu
  have hmem : .str text ∈ encodedPlaces.flatMap (valuesAt · plainLayout.value) :=
    List.mem_flatMap.mpr ⟨p, hp, htext⟩
  rw [hvalues, List.mem_cons, List.mem_singleton] at hmem
  rcases hmem with heq | heq
  · cases heq
    rw [Value.ofText_text (by decide) (by cbv) (by decide)] at hu
    cases hu
    exact ⟨trivial, hopened _ (by cbv)⟩
  · cases heq
    rw [Value.ofText_text (by decide) (by cbv) (by decide)] at hu
    cases hu
    exact ⟨trivial, hopened _ (by cbv)⟩

/-- A stored layout with a section whose name is the text of a number. -/
def numericName : Json.Document where
  value := .obj
    [("config", .str "\x7b\x7d"),
      ("sections", .arr [.obj [("displayName", .str "2024"), ("filters", .str "[]")]])]
  keyed := by decide

theorem Layout.stored_ofValue_numericName :
    (∀ p ∈ encodedPlaces, ∀ w ∈ valuesAt p numericName.value, ∃ inner : Json.Document,
      inner.value.Integral ∧ inner.value.prune = inner.value ∧ w = .str inner.value.text) ∧
      numericName.value.Integral ∧
      (Layout.ofValue numericName.value).stored ≠ numericName.value ∧
      (Layout.ofValue numericName.value).sectionNames = [] ∧
      (Layout.mk numericName.value).sectionNames = ["2024"] := by
  have hvalues : encodedPlaces.flatMap (valuesAt · numericName.value) =
      [.str (Value.obj []).text, .str (Value.arr []).text] := by cbv
  refine ⟨?_, by cbv, ?_, by cbv, by cbv⟩
  · rw [← List.forall_mem_flatMap, hvalues, List.forall_mem_cons, List.forall_mem_singleton]
    exact ⟨⟨⟨_, by decide⟩, by cbv, rfl, rfl⟩, ⟨⟨_, by decide⟩, by cbv, rfl, rfl⟩⟩
  · intro heq
    have hnone : (Layout.mk (Layout.ofValue numericName.value).stored).sectionNames = [] := by cbv
    have hone : (Layout.mk numericName.value).sectionNames = ["2024"] := by cbv
    rw [heq, hone] at hnone
    cases hnone

end Tabular.Report
